import TreeSql.Proofs.Compile.Run
import TreeSql.Proofs.Compile.TreeComparison

/-
  TreeSql.Proofs.Compile.Levels — further levels change nothing that is compiled.

  `partsTo n` goes down `n` levels and fails below them. What it gives, it gives with any further levels
  (`Gives.deeper`): the two run side by side, and the deeper one only goes on where the other fails
  (`deepening`, a comparison in which being alike is being equal).
-/
namespace TreeSql

/-! ## Stages and statements that are equal part by part -/

namespace Sql

theorem eq_of_rel {α : Type} {r : α → α → Prop} (h : ∀ a b, r a b → a = b) {a b : Option α}
    (hab : Option.Rel r a b) : a = b := by
  cases hab with
  | none => rfl
  | some hab => rw [h _ _ hab]

theorem eq_of_forall₂ {α : Type} {r : α → α → Prop} (h : ∀ a b, r a b → a = b) {as bs : List α}
    (hall : List.Forall₂ r as bs) : as = bs := List.forall₂_eq_eq_eq ▸ hall.imp h

theorem ColumnAlike.eq (a b : Column) (h : ColumnAlike (· = ·) a b) : a = b := by
  obtain ⟨x, n, t⟩ := a
  obtain ⟨y, m, u⟩ := b
  obtain ⟨hexpr, hname, htype⟩ := h
  dsimp only at hexpr hname htype
  rw [hexpr, hname, htype]

theorem OrderAlike.eq (a b : OrderItem) (h : OrderAlike (· = ·) a b) : a = b := by
  obtain ⟨x, up⟩ := a
  obtain ⟨y, up'⟩ := b
  obtain ⟨hexpr, hascending⟩ := h
  dsimp only at hexpr hascending
  rw [hexpr, hascending]

theorem ItemAlike.eq {a b : FromItem} (h : ItemAlike (· = ·) a b) : a = b := by
  obtain ⟨source, name, force⟩ := a
  obtain ⟨source', name', force'⟩ := b
  obtain ⟨hsource, hname, hforce⟩ := h
  dsimp only at hsource hname hforce
  have hsources : source = source' := by
    cases hsource with
    | stage | table | setOp => rfl
    | function hab | rows hab => rw [hab]
  rw [hsources, hname, hforce]

theorem FromAlike.eq (a b : FromTree) (h : FromAlike (· = ·) a b) : a = b := by
  induction h with
  | item hab => rw [hab.eq]
  | join _ kind _ hc ihl ihr => rw [ihl, ihr, eq_of_rel (fun _ _ hab => hab) hc]

theorem StageAlike.eq {s t : Stage} (h : StageAlike (· = ·) s t) : s = t := by
  have hall {as bs : List SqlExpr} (hab : List.Forall₂ (· = ·) as bs) : as = bs :=
    eq_of_forall₂ (fun _ _ hxy => hxy) hab
  have hdistinct := h.distinct
  have hprojection := eq_of_rel (fun _ _ => eq_of_forall₂ ColumnAlike.eq) h.projection
  have hpulled := h.pulled
  have hfrom := eq_of_rel FromAlike.eq h.from_
  have hwhere := eq_of_rel (fun _ _ hab => hab) h.where_
  have hgroup := eq_of_rel (fun _ _ => hall) h.groupBy
  have horder := eq_of_rel (fun _ _ => eq_of_forall₂ OrderAlike.eq) h.orderBy
  have hskip := eq_of_rel (fun _ _ hab => hab) h.skip
  have hlimit := eq_of_rel (fun _ _ hab => hab) h.limit
  cases s
  cases t
  simp_all only

/-- Arenas of the same stages. -/
theorem Stages.eq_of_get {ss ts : Stages} (hlength : ss.length = ts.length) (h : ∀ id, ss.get id = ts.get id) :
    ss = ts := by
  refine List.ext_getElem hlength fun id hs ht => ?_
  simpa [get, hs, ht] using h id

end Sql

theorem StatementAlike.eq {s t : Statement} (h : StatementAlike (· = ·) s t) : s = t := by
  have hassignments {as bs : List (Sql.SqlExpr × Sql.SqlExpr)} (hab : List.Forall₂ (AssignmentAlike (· = ·)) as bs) :
      as = bs := Sql.eq_of_forall₂ (fun _ _ h => Prod.ext h.1 h.2) hab
  have hreturned {a b : Option (List Sql.SqlExpr)} (hab : Option.Rel (List.Forall₂ (· = ·)) a b) : a = b :=
    Sql.eq_of_rel (fun _ _ => Sql.eq_of_forall₂ fun _ _ h => h) hab
  cases h with
  | select root => rfl
  | insert table has hr => rw [hassignments has, hreturned hr]
  | update table has hc hr => rw [hassignments has, Sql.eq_of_rel (fun _ _ h => h) hc, hreturned hr]
  | delete table hc => rw [Sql.eq_of_rel (fun _ _ h => h) hc]

namespace Compile

open Sql

/-! ## Steps that go on where another one fails -/

theorem congruence_eq : Congruence (· = ·) := by
  have hall {as bs : List SqlExpr} (h : List.Forall₂ (· = ·) as bs) : as = bs :=
    eq_of_forall₂ (fun _ _ hab => hab) h
  constructor
  case seq | list => exact fun h => by rw [hall h]
  case call => exact fun name _ _ h => by rw [hall h]
  all_goals intros; subst_vars; rfl

/-- Whatever the first step gives, the second one gives from the same state, up to `R`. -/
def Goes {α : Type} (m m' : CompileM α) (R : α → α → Prop) : Prop :=
  ∀ c s a t, Gives m c s a t → ∃ b, Gives m' c s b t ∧ R a b

variable {α β : Type} {R : α → α → Prop}

theorem goes_rfl {m : CompileM α} (h : ∀ a, R a a) : Goes m m R := fun _ _ a _ hrun => ⟨a, hrun, h a⟩

theorem goes_bind {m m' : CompileM α} {f f' : α → CompileM β} {R' : β → β → Prop} (hm : Goes m m' R)
    (hf : ∀ {a b}, R a b → Goes (f a) (f' b) R') : Goes (m >>= f) (m' >>= f') R' := by
  intro c s r t hrun
  obtain ⟨a, u, hfirst, hrest⟩ := gives_bind.mp hrun
  obtain ⟨b, hfirst', hab⟩ := hm c s a u hfirst
  obtain ⟨r', hrest', hr⟩ := hf hab c u r t hrest
  exact ⟨r', gives_bind.mpr ⟨b, u, hfirst', hrest'⟩, hr⟩

/-- A compilation beside one that goes deeper. They own everything. -/
def deepening : TreeComparison where
  World := Unit
  Le _ _ := True
  Alike _ := (· = ·)
  Steps _ m m' R := Goes m m' (R ())
  refl _ := trivial
  trans _ _ := trivial
  later _ h := h
  congruence _ := congruence_eq
  pure h := fun _ _ _ _ hrun => by
    obtain ⟨rfl, rfl⟩ := gives_pure.mp hrun
    exact ⟨_, gives_pure.mpr ⟨rfl, rfl⟩, h () trivial⟩
  bind hm hf := goes_bind hm fun hab => hf trivial hab
  fail _ := fun _ _ _ _ hrun => (not_gives_fail hrun).elim
  Owned _ _ := True
  OwnedNode _ _ := True
  owned_later _ h := h
  ownedNode_later _ h := h
  alike_stage _ := rfl
  alike_element h := congrArg SqlExpr.paren h
  alike_columnRef _ _ _ := rfl
  alike_property _ _ := rfl
  alike_placeholder _ _ := rfl
  alike_null _ := rfl
  steps_context h := fun c s a t hrun => @h c c rfl rfl c s a t hrun
  steps_boundNode _ _ := goes_rfl fun _ => rfl
  steps_node _ _ := goes_rfl fun _ => rfl
  steps_nextAlias _ := goes_rfl fun _ => rfl
  steps_inScope _ := fun h _ s a t hrun => by
    obtain ⟨b, hb, hab⟩ := h _ s a t (gives_inScope.mp hrun)
    exact ⟨b, gives_inScope.mpr hb, hab⟩
  steps_pushStage h := by
    rw [h.eq]
    exact goes_rfl fun _ => ⟨rfl, trivial⟩
  steps_getStage _ _ := goes_rfl fun s => .refl (fun _ => rfl) s
  steps_modifyStage _ := fun hf => by
    rw [funext fun s => (hf (u := ()) trivial (.refl (fun _ => rfl) s)).eq]
    exact goes_rfl fun _ => trivial
  steps_pullColumn _ _ _ _ := goes_rfl fun _ => rfl
  steps_pushNode _ := goes_rfl fun _ => ⟨rfl, trivial⟩
  steps_getNode _ := goes_rfl fun _ => ⟨rfl, fun _ _ => trivial⟩
  steps_modifyNode _ := fun _ => goes_rfl fun _ => trivial
  steps_bindVar _ := fun _ => goes_rfl fun _ => trivial

theorem agree_deeper {n m : Nat} (h : n ≤ m) : deepening.Agree (partsTo n) (partsTo m) := by
  induction n generalizing m with
  | zero =>
    exact ⟨fun _ _ _ _ _ _ hrun => (not_gives_fail hrun).elim,
      fun _ _ _ _ _ _ _ hrun => (not_gives_fail hrun).elim⟩
  | succ n ih =>
    obtain ⟨m, rfl⟩ : ∃ k, m = k + 1 := ⟨m - 1, by omega⟩
    have hparts := ih (m := m) (by omega)
    exact ⟨fun e _ => TreeComparison.steps_valueStep hparts e fun _ _ => goes_rfl fun _ => rfl,
      fun e var _ => TreeComparison.steps_rowsStep hparts e var⟩

/-- What some levels give, further ones give. -/
theorem Gives.deeper {n m : Nat} (h : n ≤ m) {e : Expr} {c : Context} {s t : State} {a : SqlExpr}
    (hrun : Gives ((partsTo n).value e) c s a t) : Gives ((partsTo m).value e) c s a t := by
  obtain ⟨b, hrun', hab⟩ := (agree_deeper h).value e () c s a t hrun
  obtain rfl : a = b := hab
  exact hrun'

end Compile

end TreeSql
