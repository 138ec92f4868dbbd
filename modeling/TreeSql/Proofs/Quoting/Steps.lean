import TreeSql.Proofs.Compile.Run
import TreeSql.Proofs.Quoting.Stages

/-
  TreeSql.Proofs.Quoting.Steps — compilation steps that keep all stages safe.

  `Makes m post`: wherever all stages are safe and `m` succeeds, all stages are safe again, and the result
  has the property. There is one rule for each way to put steps together, and one for each primitive step.
-/
namespace TreeSql.Compile

open Sql Postgres Quoting

variable {α β : Type} {post : α → Prop} {post' : β → Prop}

/-- From safe stages, the step leads to safe stages and gives a result with the property. -/
def Makes (m : CompileM α) (post : α → Prop) : Prop :=
  ∀ c s a t, s.stages.Safe → Gives m c s a t → t.stages.Safe ∧ post a

/-- The step keeps all stages safe. -/
abbrev KeepsSafe (m : CompileM α) : Prop := Makes m fun _ => True

/-! ## Steps put together -/

theorem makes_pure {a : α} (h : post a) : Makes (pure a) post := by
  intro c s b t hs hrun
  obtain ⟨rfl, rfl⟩ := gives_pure.mp hrun
  exact ⟨hs, h⟩

theorem makes_bind {m : CompileM α} {f : α → CompileM β} (hm : Makes m post) (hf : ∀ a, post a → Makes (f a) post') :
    Makes (m >>= f) post' := by
  intro c s b t hs hrun
  obtain ⟨a, u, hm', hf'⟩ := gives_bind.mp hrun
  obtain ⟨hu, ha⟩ := hm c s a u hs hm'
  exact hf a ha c u b t hu hf'

theorem makes_fail {e : Error} : Makes (.fail e) post := fun _ _ _ _ _ hrun => (not_gives_fail hrun).elim

theorem makes_lift {x : Except Error α} (h : ∀ a, x = .ok a → post a) : Makes (liftM x) post := by
  intro c s a t hs hrun
  obtain ⟨hx, rfl⟩ := gives_lift.mp hrun
  exact ⟨hs, h a hx⟩

theorem keepsSafe_lift (x : Except Error α) : KeepsSafe (liftM x) := makes_lift fun _ _ => trivial

theorem makes_pure_bind {a : α} {f : α → CompileM β} (h : Makes (f a) post') : Makes (pure a >>= f) post' := by
  rw [pure_bind]
  exact h

theorem makes_inScope {m : CompileM α} (h : Makes m post) (id : StageId) : Makes (inScope id m) post :=
  fun c s a t hs hrun => h { c with scopes := id :: c.scopes } s a t hs (gives_inScope.mp hrun)

theorem makes_read_bind {f : Context → CompileM α} (h : ∀ c, Makes (f c) post) : Makes (read >>= f) post :=
  fun c s a t hs hrun => h c c s a t hs (gives_read_bind.mp hrun)

/-! ## Primitive steps -/

theorem keepsSafe_nextAlias : KeepsSafe nextAlias := by
  intro c s a t hs hrun
  obtain ⟨-, rfl⟩ := gives_nextAlias.mp hrun
  exact ⟨hs, trivial⟩

theorem safe_append {stages : Stages} (hs : stages.Safe) {stage : Stage} (h : stage.Safe) :
    (Stages.Safe (stages ++ [stage])) := by
  intro s' hs'
  rcases List.mem_append.mp hs' with hs' | hs'
  · exact hs s' hs'
  · exact List.mem_singleton.mp hs' ▸ h

theorem keepsSafe_pushStage {stage : Stage} (h : stage.Safe) : KeepsSafe (pushStage stage) := by
  intro c s id t hs hrun
  obtain ⟨-, rfl⟩ := gives_pushStage.mp hrun
  exact ⟨safe_append hs h, trivial⟩

theorem makes_getStage (id : StageId) : Makes (getStage id) Stage.Safe := by
  intro c s stage t hs hrun
  obtain ⟨rfl, rfl⟩ := gives_getStage.mp hrun
  exact ⟨hs, hs.get id⟩

/-- A stage is changed into a safe one. -/
theorem safe_modify {stages : Stages} (hs : stages.Safe) (id : StageId) {f : Stage → Stage}
    (h : ∀ s : Stage, s.Safe → (f s).Safe) : Stages.Safe (stages.modify id f) := by
  intro s' hs'
  obtain ⟨i, hi, rfl⟩ := List.mem_iff_getElem.mp hs'
  rw [List.getElem_modify]
  have hi' := hs _ (List.getElem_mem (by simpa using hi))
  split
  · exact h _ hi'
  · exact hi'

theorem keepsSafe_modifyStage (id : StageId) {f : Stage → Stage} (h : ∀ s : Stage, s.Safe → (f s).Safe) :
    KeepsSafe (modifyStage id f) := by
  intro c s u t hs hrun
  obtain ⟨-, rfl⟩ := gives_modifyStage.mp hrun
  exact ⟨safe_modify hs id h, trivial⟩

/-- Pulled columns are names. -/
theorem safe_pull {s : Stage} (h : s.Safe) (source column : String) (counter : Nat) :
    (s.pull source column counter).2.1.Safe := by
  unfold Stage.pull
  split
  · exact h
  · exact ⟨h.projection, h.from_, h.where_, h.groupBy, h.orderBy, h.skip, h.limit⟩

theorem keepsSafe_pullColumn (id : StageId) (source column : String) : KeepsSafe (pullColumn id source column) := by
  intro c s name t hs hrun
  obtain ⟨-, rfl⟩ := gives_pullColumn.mp hrun
  refine ⟨fun s' hs' => ?_, trivial⟩
  rcases List.mem_or_eq_of_mem_set hs' with hs' | rfl
  · exact hs s' hs'
  · exact safe_pull (hs.get id) source column s.aliases

theorem keepsSafe_pushNode (node : Node) : KeepsSafe (pushNode node) := by
  intro c s id t hs hrun
  obtain ⟨-, rfl⟩ := gives_pushNode.mp hrun
  exact ⟨hs, trivial⟩

theorem keepsSafe_getNode (id : NodeId) : KeepsSafe (getNode id) := by
  intro c s node t hs hrun
  obtain ⟨-, rfl⟩ := gives_getNode.mp hrun
  exact ⟨hs, trivial⟩

theorem keepsSafe_boundNode (var : String) : KeepsSafe (boundNode var) := by
  intro c s node t hs hrun
  obtain ⟨-, rfl⟩ := gives_boundNode.mp hrun
  exact ⟨hs, trivial⟩

theorem keepsSafe_modifyNode (id : NodeId) (f : Node → Node) : KeepsSafe (modifyNode id f) := by
  intro c s u t hs hrun
  obtain ⟨-, rfl⟩ := gives_modifyNode.mp hrun
  exact ⟨hs, trivial⟩

theorem keepsSafe_openStage (id : NodeId) : KeepsSafe (openStage id) := by
  intro c s stage t hs hrun
  obtain ⟨-, rfl⟩ := gives_openStage.mp hrun
  exact ⟨hs, trivial⟩

theorem keepsSafe_bindVar (var : String) (node : NodeId) : KeepsSafe (bindVar var node) := by
  intro c s u t hs hrun
  obtain ⟨-, rfl⟩ := gives_bindVar.mp hrun
  exact ⟨hs, trivial⟩

theorem keepsSafe_pushSource (source : Source) (h : source.Safe) (name : String) : KeepsSafe (pushSource source name) := by
  intro c s node t hs hrun
  obtain ⟨-, rfl⟩ := gives_pushSource.mp hrun
  exact ⟨safe_append hs (h.stage name), trivial⟩

/-- A lifted constant is named by a number. -/
theorem makes_liftConstant (v : Value) : Makes (liftConstant v) fun name => ∃ place, name = liftedName place := by
  intro c s name t hs hrun
  obtain ⟨rfl, rfl⟩ := gives_liftConstant.mp hrun
  exact ⟨hs, _, rfl⟩

/-! ## Columns -/

theorem keepsSafe_pullThrough (path : ColumnPath) (stage : AliasedStage) : KeepsSafe (pullThrough path stage) :=
  makes_bind (keepsSafe_pullColumn _ _ _) fun _ _ => makes_pure trivial

theorem keepsSafe_pullToScope (path : ColumnPath) (l : List AliasedStage) : KeepsSafe (pullToScope path l) := by
  induction l generalizing path with
  | nil => exact makes_pure trivial
  | cons stage rest ih =>
    refine makes_read_bind fun c => ?_
    split
    · exact makes_pure trivial
    · exact makes_bind (keepsSafe_pullThrough path stage) fun path' _ => ih path'

theorem keepsSafe_pullFrom (node : NodeId) (path : ColumnPath) : KeepsSafe (pullFrom node path) := by
  induction node using Nat.strongRecOn generalizing path with
  | ind node ih =>
    rw [pullFrom]
    refine makes_bind (keepsSafe_getNode node) fun n _ => ?_
    refine makes_bind (keepsSafe_pullToScope path n.selects) fun r _ => ?_
    obtain ⟨path', found⟩ := r
    dsimp only
    split
    · exact makes_pure trivial
    · split
      · split
        · rename_i hlt
          exact ih _ hlt path'
        · exact makes_pure trivial
      · exact makes_pure trivial

theorem makes_boundColumn (base : Expr) (name : String) : Makes (boundColumn base name) SqlExpr.Safe := by
  refine makes_bind (keepsSafe_lift (propertyOwner base)) fun owner _ => ?_
  refine makes_bind (keepsSafe_boundNode _) fun bound _ => ?_
  split
  · exact makes_fail
  · refine makes_bind (keepsSafe_getNode _) fun n _ => ?_
    exact makes_bind (keepsSafe_pullFrom _ _) fun path _ => makes_pure trivial

theorem makes_propertyValue (base : Expr) (name : String) : Makes (propertyValue base name) SqlExpr.Safe := by
  refine makes_read_bind fun c => ?_
  split
  · exact makes_boundColumn base name
  · split
    · split
      · exact makes_pure trivial
      · exact makes_fail
    · exact makes_fail

end TreeSql.Compile
