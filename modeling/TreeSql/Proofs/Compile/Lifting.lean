import TreeSql.Command.Sql
import TreeSql.Proofs.Compile.Constants
import TreeSql.Proofs.Compile.Levels
import TreeSql.Proofs.Compile.Unqualified

/-
  TreeSql.Proofs.Compile.Lifting — a tree compiled with its constants lifted and without.

  Lifting puts a placeholder in the place of a constant and registers its value as a parameter. Otherwise both
  compilations do the same: they give out the same aliases, make the same stages and nodes and fail in the same
  way. So the expressions of the one are those of the other, with the literals of the registered constants for
  their placeholders (`Lifts`).

  Which places those are is said by `FromConstants`: what is built with lifting is what is built when the constants
  of the tree are written as placeholders, and what is built without it is the same with literals. Nothing but
  constants of the tree is lifted, and none of them stays as it is.
-/
namespace TreeSql

open Compile

namespace Sql

/-- The first expression has placeholders where the second one has the lifted constants. -/
abbrev Lifts (vs : List Value) : SqlExpr → SqlExpr → Prop := Fills .placeholders .literals vs

variable {vs : List Value}

/-! ## Placeholders by their text -/

namespace SqlExpr

mutual

/-- The texts that the expression has as they are. -/
def texts : SqlExpr → List String
  | verbatim text => [text]
  | seq es | list es | call _ es => textsOfAll es
  | paren e | column e _ _ | cast e _ | leading _ e | trailing _ e | exists_ e => texts e
  | binary _ l r => texts l ++ texts r
  | constant _ | columnRef .. | property _ | stage _ => []
termination_by structural e => e

def textsOfAll : List SqlExpr → List String
  | [] => []
  | e :: es => texts e ++ textsOfAll es
termination_by structural es => es

end

mutual

/-- The expression with the literal of each lifted constant for its placeholder. -/
def restored (vs : List Value) : SqlExpr → SqlExpr
  | verbatim text =>
    match liftedValue? vs text with
    | some v => constant v
    | none => verbatim text
  | seq parts => seq (restoredAll vs parts)
  | list items => list (restoredAll vs items)
  | paren e => paren (restored vs e)
  | constant v => constant v
  | column e name t => column (restored vs e) name t
  | columnRef qualifier name => columnRef qualifier name
  | property name => property name
  | call name args => call name (restoredAll vs args)
  | cast e t => cast (restored vs e) t
  | binary op l r => binary op (restored vs l) (restored vs r)
  | leading op e => leading op (restored vs e)
  | trailing op e => trailing op (restored vs e)
  | exists_ e => exists_ (restored vs e)
  | stage id => stage id
termination_by structural e => e

def restoredAll (vs : List Value) : List SqlExpr → List SqlExpr
  | [] => []
  | e :: es => restored vs e :: restoredAll vs es
termination_by structural es => es

end

end SqlExpr

theorem restored_placeholder {k : Nat} {v : Value} (h : vs[k]? = some v) :
    (SqlExpr.verbatim (placeholder (liftedName k))).restored vs = .constant v := by
  obtain ⟨hk, hv⟩ := List.getElem?_eq_some_iff.mp h
  rw [SqlExpr.restored, liftedValue?_placeholder hk, hv]

/-- None of the texts is the placeholder of a lifted constant. -/
def Clear (vs : List Value) (texts : List String) : Prop := ∀ text ∈ texts, liftedValue? vs text = none

mutual

/-- Where the expression without lifting has no such text of its own, placeholders are known by their text. -/
theorem Fills.restored_eq : ∀ {a b : SqlExpr}, Lifts vs a b → Clear vs b.texts → a.restored vs = b
  | _, _, .constant h, _ => restored_placeholder h
  | _, _, .own _, _ | _, _, .columnRef .., _ | _, _, .property _, _ | _, _, .stage _, _ => rfl
  | _, _, .verbatim text, hclear => by
    rw [SqlExpr.restored, hclear text (.head _)]
  | _, _, .seq h, hclear => congrArg SqlExpr.seq (h.restoredAll_eq hclear)
  | _, _, .list h, hclear => congrArg SqlExpr.list (h.restoredAll_eq hclear)
  | _, _, .paren h, hclear => congrArg SqlExpr.paren (h.restored_eq hclear)
  | _, _, .column h name type, hclear => congrArg (SqlExpr.column · name type) (h.restored_eq hclear)
  | _, _, .call name h, hclear => congrArg (SqlExpr.call name) (h.restoredAll_eq hclear)
  | _, _, .cast h type, hclear => congrArg (SqlExpr.cast · type) (h.restored_eq hclear)
  | _, _, .binary op ha hb, hclear =>
    congrArg₂ (SqlExpr.binary op) (ha.restored_eq fun text ht => hclear text (List.mem_append_left _ ht))
      (hb.restored_eq fun text ht => hclear text (List.mem_append_right _ ht))
  | _, _, .leading op h, hclear => congrArg (SqlExpr.leading op) (h.restored_eq hclear)
  | _, _, .trailing op h, hclear => congrArg (SqlExpr.trailing op) (h.restored_eq hclear)
  | _, _, .exists_ h, hclear => congrArg SqlExpr.exists_ (h.restored_eq hclear)

theorem FillsAll.restoredAll_eq : ∀ {as bs : List SqlExpr}, FillsAll .placeholders .literals vs as bs →
    Clear vs (SqlExpr.textsOfAll bs) → SqlExpr.restoredAll vs as = bs
  | _, _, .nil, _ => rfl
  | _, _, .cons h hs, hclear =>
    congrArg₂ List.cons (h.restored_eq fun text ht => hclear text (List.mem_append_left _ ht))
      (hs.restoredAll_eq fun text ht => hclear text (List.mem_append_right _ ht))

end

end Sql

/-! ## What is built -/

/-- The literals of lifted constants stand in the second expression for their placeholders in the first one. They
    can be put in by text, unless the second expression has the text of a placeholder by itself. -/
def Replaces (vs : List Value) (a b : Sql.SqlExpr) : Prop :=
  Sql.Lifts vs a b ∧ (Sql.Clear vs b.texts → a.restored vs = b)

theorem replaces_of_lifts {vs : List Value} (a b : Sql.SqlExpr) (h : Sql.Lifts vs a b) : Replaces vs a b :=
  ⟨h, h.restored_eq⟩

/-- What is built for a body with and without lifting. -/
structure SameBuilt (on off : (Statement × List Member) × State) : Prop where
  statement : StatementAlike (Replaces on.2.lifted) on.1.1 off.1.1
  columns : on.1.2 = off.1.2
  length : on.2.stages.length = off.2.stages.length
  stages : ∀ id, Sql.StageAlike (Replaces on.2.lifted) (on.2.stages.get id) (off.2.stages.get id)
  unlifted : off.2.lifted = []

/-- Written as lifting or not lifting writes them, constants make no difference. -/
theorem SameWriting.eq {lift : Bool} {a b : (Statement × List Member) × State}
    (h : SameWriting lift (.lifting lift) a b) :
    a = (b.1, { b.2 with lifted := if lift then b.2.lifted else [] }) := by
  obtain ⟨⟨statement, columns⟩, stages, nodes, bindings, aliases, lifted⟩ := a
  obtain ⟨⟨statement', columns'⟩, stages', nodes', bindings', aliases', lifted'⟩ := b
  obtain ⟨hstatement, hcolumns, hlength, hstages, hnodes, hbindings, haliases, hlifted⟩ := h
  obtain rfl : statement = statement' := (hstatement.mono fun _ _ => Sql.Fills.eq).eq
  obtain rfl : stages = stages' :=
    Sql.Stages.eq_of_get hlength fun id => ((hstages id).mono fun _ _ => Sql.Fills.eq).eq
  dsimp only at hcolumns hnodes hbindings haliases hlifted ⊢
  rw [hcolumns, hnodes, hbindings, haliases, hlifted]

/-- Without lifting, a tree is compiled as with it, or fails in the same way. -/
theorem build_lifting (settings : Settings) (body : CommandBody) :
    SameOutcome SameBuilt (build (settings.lifting true) body) (build (settings.lifting false) body) := by
  have hon := build_writing true .literals settings body
  have hoff := build_writing false .literals settings body
  generalize build (settings.lifting true) body = x, build (settings.lifting false) body = y,
    buildWriting .literals settings body = z at hon hoff ⊢
  cases hon with
  | error e =>
    cases hoff with
    | error e => exact .error e
  | @ok on r hon =>
    cases hoff with
    | @ok off _ hoff =>
      obtain rfl := @SameWriting.eq false _ _ hoff
      have hlifted : on.2.lifted = r.2.lifted := hon.state.lifted
      refine .ok ⟨?_, hon.columns, hon.state.length, fun id => ?_, rfl⟩
      · rw [hlifted]
        exact hon.statement.mono replaces_of_lifts
      · rw [hlifted]
        exact (hon.state.stages id).mono replaces_of_lifts

/-- Where what is built with lifting and without has the constants of the tree. -/
structure FromConstants (settings : Settings) (body : CommandBody) (on off : (Statement × List Member) × State) :
    Prop where
  /-- With lifting there are placeholders for all of them, -/
  placeholders : buildWriting .placeholders settings body = .ok on
  /-- and without there are their literals. -/
  literals : buildWriting .literals settings body = .ok (off.1, { off.2 with lifted := on.2.lifted })
  /-- Whatever they are written as, they are the same ones and stand in the same places. -/
  writing (f : Sql.Writing) : ∃ r, buildWriting f settings body = .ok r ∧ r.2.lifted = on.2.lifted ∧
    SameWriting true f on r ∧ SameWriting false f off r

theorem fromConstants_build {settings : Settings} {body : CommandBody} {on off : (Statement × List Member) × State}
    (hon : build (settings.lifting true) body = .ok on) (hoff : build (settings.lifting false) body = .ok off) :
    FromConstants settings body on off := by
  have hwriting (f : Sql.Writing) : ∃ r, buildWriting f settings body = .ok r ∧ r.2.lifted = on.2.lifted ∧
      SameWriting true f on r ∧ SameWriting false f off r := by
    have h := build_writing true f settings body
    have h' := build_writing false f settings body
    rw [hon] at h
    rw [hoff] at h'
    generalize buildWriting f settings body = z at h h'
    cases h with
    | @ok _ r h =>
      cases h' with
      | ok h' => exact ⟨r, rfl, h.state.lifted.symm, h, h'⟩
  refine ⟨?_, ?_, hwriting⟩
  · obtain ⟨r, hr, -, h, -⟩ := hwriting .placeholders
    rw [hr, @SameWriting.eq true _ _ h]
    rfl
  · obtain ⟨r, hr, hlifted, -, h⟩ := hwriting .literals
    rw [hr, ← hlifted, @SameWriting.eq false _ _ h]

/-- The parameter for the constant lifted at the given place. -/
def liftedParameter (place : Nat) (v : Value) : Parameter :=
  { name := liftedName place, kind := v.kind, value := some v }

theorem getElem?_liftedParameters (place k : Nat) (vs : List Value) :
    (liftedParameters place vs)[k]? = vs[k]?.map (liftedParameter (place + k)) := by
  induction vs generalizing place k with
  | nil => rfl
  | cons v vs ih =>
    cases k with
    | zero => rfl
    | succ k =>
      rw [liftedParameters, List.getElem?_cons_succ, List.getElem?_cons_succ, ih]
      congr 2
      omega

/-- A command is compiled with lifting as without, or fails in the same way. The two differ in the constants of
    the tree and in nothing else. The parameters declared by the tree come first, and then one for each of those
    constants, in order. -/
theorem toCommand_lifting (tree : CommandTree) (settings : Settings) :
    SameOutcome
      (fun on off : Command => on.columns = off.columns ∧
        ∃ a b, build (settings.lifting true) tree.body = .ok a ∧ build (settings.lifting false) tree.body = .ok b ∧
          SameBuilt a b ∧ FromConstants settings tree.body a b ∧
          on.text = a.1.1.render settings.serverVersion.regime a.2.stages ∧
          off.text = b.1.1.render settings.serverVersion.regime b.2.stages ∧
          on.parameters = off.parameters ++ liftedParameters 0 a.2.lifted ∧
          ∀ k, on.parameters[off.parameters.length + k]? = a.2.lifted[k]?.map (liftedParameter k))
      (tree.toCommand (settings.lifting true)) (tree.toCommand (settings.lifting false)) := by
  have hbuilt := build_lifting settings tree.body
  have hfrom {a b : (Statement × List Member) × State} (ha : build (settings.lifting true) tree.body = .ok a)
      (hb : build (settings.lifting false) tree.body = .ok b) : FromConstants settings tree.body a b :=
    fromConstants_build ha hb
  unfold CommandTree.toCommand
  generalize build (settings.lifting true) tree.body = x, build (settings.lifting false) tree.body = y
    at hbuilt hfrom ⊢
  cases hbuilt with
  | error e => exact .error e
  | @ok a b h =>
    cases hdeclared : declaredParameters tree.parameters with
    | error e => exact .error e
    | ok declared =>
      have hunlifted : liftedParameters 0 b.2.lifted = [] := by
        rw [h.unlifted]
        rfl
      refine .ok ⟨h.columns, a, b, rfl, rfl, h, hfrom rfl rfl, rfl, rfl, ?_, fun k => ?_⟩
      · rw [hunlifted, List.append_nil]
      · rw [hunlifted, List.append_nil, List.getElem?_append_right (Nat.le_add_right _ _),
          Nat.add_sub_cancel_left, getElem?_liftedParameters, Nat.zero_add]

/-- The removal of all films of which the title starts with an `M`. -/
def removalByInitial : CommandTree where
  body :=
    let title := DataType.ofKind .string
    let films : EntitySet := { name := "Film", container := "dbo", columns := [⟨"Title", title⟩] }
    let initial := Expr.call { space := "Edm", name := "Left" }
      [.property (.varRef "f" title) "Title" title, .constant (.int32 1)] title
    .delete { target := ⟨.scan films, "f"⟩, predicate := some (.comparison .equals initial (.constant (.string "M"))) }

/-- Of the two ones, the first is not from the tree and stays. -/
theorem lifting_removalByInitial :
    ∃ on off a b, removalByInitial.toCommand (Settings.lifting {} true) = .ok on ∧
      removalByInitial.toCommand (Settings.lifting {} false) = .ok off ∧
      on.text = "DELETE FROM \"dbo\".\"Film\" WHERE substr(\"Title\", 1, @p_0) = @p_1" ∧
      on.parameters.map (fun p => (p.name, p.value)) = [("p_0", some (.int32 1)), ("p_1", some (.string "M"))] ∧
      off.text = "DELETE FROM \"dbo\".\"Film\" WHERE substr(\"Title\", 1, 1) = E'M'" ∧ off.parameters = [] ∧
      SameBuilt a b ∧ FromConstants {} removalByInitial.body a b := by
  obtain ⟨on, hon, htext, hparameters⟩ : ∃ on, removalByInitial.toCommand (Settings.lifting {} true) = .ok on ∧
      on.text = "DELETE FROM \"dbo\".\"Film\" WHERE substr(\"Title\", 1, @p_0) = @p_1" ∧
      on.parameters.map (fun p => (p.name, p.value)) = [("p_0", some (.int32 1)), ("p_1", some (.string "M"))] :=
    exists_ok (by decide +kernel)
  obtain ⟨off, hoff, htext', hparameters'⟩ : ∃ off, removalByInitial.toCommand (Settings.lifting {} false) = .ok off ∧
      off.text = "DELETE FROM \"dbo\".\"Film\" WHERE substr(\"Title\", 1, 1) = E'M'" ∧ off.parameters = [] :=
    exists_ok (by decide +kernel)
  have hlifting := toCommand_lifting removalByInitial {}
  rw [hon, hoff] at hlifting
  cases hlifting with
  | ok h =>
    obtain ⟨-, a, b, -, -, hsame, hfrom, -⟩ := h
    exact ⟨on, off, a, b, hon, hoff, htext, hparameters, htext', hparameters', hsame, hfrom⟩

end TreeSql
