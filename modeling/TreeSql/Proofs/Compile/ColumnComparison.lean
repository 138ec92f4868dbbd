import TreeSql.Proofs.Compile.Comparison

/-
  TreeSql.Proofs.Compile.ColumnComparison — two compilations of columns, step by step.

  A column is looked up from the node of its variable outwards and pulled through the stages that it leaves.
  A `ColumnComparison` says of each primitive step of that walk that both compilations do it alike; so they do
  the same for a property (`steps_propertyValue`).
-/
namespace TreeSql.Compile

open Sql

structure ColumnComparison extends Comparison where
  alike_columnRef (w : World) (qualifier name : String) : Alike w (.columnRef qualifier name) (.columnRef qualifier name)
  alike_property (w : World) (name : String) : Alike w (.property name) (.property name)
  steps_context {α : Type} {w : World} {f f' : Context → CompileM α} {R : World → α → α → Prop}
    (h : ∀ {c c'}, c.mode = c'.mode → c.scopes = c'.scopes → Steps w (f c) (f' c') R) :
    Steps w (read >>= f) (read >>= f') R
  steps_boundNode (w : World) (var : String) : Steps w (boundNode var) (boundNode var) fun _ a b => a = b
  steps_node (w : World) (id : NodeId) : Steps w (getNode id) (getNode id) fun _ a b => a = b
  steps_pullColumn (w : World) (id : StageId) (source column : String) :
    Steps w (pullColumn id source column) (pullColumn id source column) fun _ a b => a = b

namespace ColumnComparison

variable {C : ColumnComparison} {w : C.World}

theorem steps_pullThrough (path : ColumnPath) (stage : AliasedStage) :
    C.Steps w (pullThrough path stage) (pullThrough path stage) fun _ a b => a = b := by
  refine C.bind (C.steps_pullColumn _ _ _ _) fun _ hname => ?_
  subst hname
  exact Comparison.steps_same _

theorem steps_pullToScope (path : ColumnPath) (stages : List AliasedStage) :
    C.Steps w (pullToScope path stages) (pullToScope path stages) fun _ a b => a = b := by
  induction stages generalizing w path with
  | nil => exact Comparison.steps_same _
  | cons stage stages ih =>
    refine C.steps_context fun _ hscopes => ?_
    rw [hscopes]
    split
    · exact Comparison.steps_same _
    · refine C.bind (steps_pullThrough path stage) fun _ hpath => ?_
      subst hpath
      exact ih _

theorem steps_pullFrom (node : NodeId) (path : ColumnPath) :
    C.Steps w (pullFrom node path) (pullFrom node path) fun _ a b => a = b := by
  induction node using Nat.strongRecOn generalizing w path with
  | ind node ih =>
    unfold pullFrom
    refine C.bind (C.steps_node _ _) fun _ hn => ?_
    subst hn
    refine C.bind (steps_pullToScope _ _) @fun _ r _ _ hpath => ?_
    subst hpath
    obtain ⟨path, found⟩ := r
    dsimp only
    split
    · exact Comparison.steps_same _
    · split
      · split
        · exact ih _ ‹_› _
        · exact Comparison.steps_same _
      · exact Comparison.steps_same _

theorem steps_boundColumn (base : Expr) (name : String) :
    C.Steps w (boundColumn base name) (boundColumn base name) C.Alike := by
  refine C.bind (Comparison.steps_lift _) fun _ howner => ?_
  subst howner
  refine C.bind (C.steps_boundNode _ _) fun _ hnode => ?_
  subst hnode
  split
  · exact C.fail _
  · refine C.bind (C.steps_node _ _) fun _ hn => ?_
    subst hn
    refine C.bind (steps_pullFrom _ _) fun _ hpath => ?_
    subst hpath
    exact C.pure fun u _ => C.alike_columnRef u _ _

theorem steps_propertyValue (base : Expr) (name : String) :
    C.Steps w (propertyValue base name) (propertyValue base name) C.Alike := by
  refine C.steps_context fun hmode _ => ?_
  rw [hmode]
  split
  · exact steps_boundColumn base name
  · split
    · split
      · exact C.pure fun u _ => C.alike_property u _
      · exact C.fail _
    · exact C.fail _

end ColumnComparison

end TreeSql.Compile
