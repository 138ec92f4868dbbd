import Mathlib.Data.List.Dedup
import Mathlib.Data.List.Forall2
import TreeSql.Proofs.Compile.Chains
import TreeSql.Proofs.Meaning.Select

/-
  TreeSql.Proofs.Meaning.SetOperations — set operations on the operands of a chain, all at once.

  `setOpOperands` takes a tree of set operations of one kind apart, and SQL combines the operands from left
  to right. `gathered` evaluates a tree so, `pairwise` by its nodes. The operators are those of SQL
  (`SetOperators`): UNION ALL puts rows after each other, and INTERSECT and EXCEPT give rows without
  repetition, in an order that is not known.

  Proved (`SetOperators.perm_pairwise`): both give the same rows equally often, whatever kinds the tree
  mixes. Without INTERSECT they give the same list; and the parts of a UNION ALL stand in the same
  order in any case.
-/
namespace TreeSql

open Sql Compile

/-- The kinds of the set operations at the top of a tree, down to its leaves. -/
def Expr.setOpKinds : Expr → List SetOpKind
  | setOp k l r => k :: (l.setOpKinds ++ r.setOpKinds)
  | _ => []

namespace Compile

/-! ## Operands of a chain -/

variable {kind : SetOpKind} {e l r o : Expr}

theorem size_setOpOperands (h : o ∈ setOpOperands kind l r) : o.size < (Expr.setOp kind l r).size := by
  refine setOpOperands_induct (P := fun e => e.size < (Expr.setOp kind l r).size) (fun a b hab => ?_) ?_ ?_ o h
  all_goals
    simp only [Expr.size] at *
    omega

theorem kinds_setOpOperands (h : o ∈ setOpOperands kind l r) :
    o.setOpKinds ⊆ (Expr.setOp kind l r).setOpKinds := by
  have hsides {a b : Expr} {ks : List SetOpKind} (h : (Expr.setOp kind a b).setOpKinds ⊆ ks) :
      a.setOpKinds ⊆ ks ∧ b.setOpKinds ⊆ ks := by
    rw [Expr.setOpKinds, List.cons_subset, List.append_subset] at h
    exact h.2
  obtain ⟨hl, hr⟩ := hsides (List.Subset.refl (Expr.setOp kind l r).setOpKinds)
  exact setOpOperands_induct (P := (·.setOpKinds ⊆ (Expr.setOp kind l r).setOpKinds)) (fun _ _ => hsides) hl hr o h

end Compile

namespace Sql

/-! ## Operators -/

/-- What INTERSECT and EXCEPT make of two lists of rows. Their rows come in any order, none of them twice. -/
structure SetOperators (ρ : Type) where
  intersect : List ρ → List ρ → List ρ
  except : List ρ → List ρ → List ρ
  nodup_intersect : ∀ a b, (intersect a b).Nodup
  mem_intersect : ∀ a b x, x ∈ intersect a b ↔ x ∈ a ∧ x ∈ b
  nodup_except : ∀ a b, (except a b).Nodup
  mem_except : ∀ a b x, x ∈ except a b ↔ x ∈ a ∧ x ∉ b

namespace SetOperators

variable {ρ : Type} (S : SetOperators ρ)

/-- One set operation on the rows of two operands. -/
def combine : SetOpKind → List ρ → List ρ → List ρ
  | .unionAll => (· ++ ·)
  | .intersect => S.intersect
  | .except => S.except

/-- Operands with the operator between them, read from left to right. -/
def combineAll (kind : SetOpKind) : List (List ρ) → List ρ
  | [] => []
  | a :: rest => rest.foldl (S.combine kind) a

/-- The rows of a tree, node by node. -/
def pairwise (leaf : Expr → List ρ) : Expr → List ρ
  | .setOp kind l r => S.combine kind (pairwise leaf l) (pairwise leaf r)
  | e => leaf e

/-- The rows of a tree, the operands of a chain at once. -/
def gathered (leaf : Expr → List ρ) (e : Expr) : List ρ :=
  match e with
  | .setOp kind l r => S.combineAll kind ((setOpOperands kind l r).attach.map fun o => gathered leaf o.1)
  | e => leaf e
termination_by e.size
decreasing_by exact size_setOpOperands o.2

theorem gathered_setOp (leaf : Expr → List ρ) (kind : SetOpKind) (l r : Expr) :
    S.gathered leaf (.setOp kind l r) =
      S.combineAll kind ((setOpOperands kind l r).map (S.gathered leaf)) := by
  rw [gathered, List.attach_map_val]

/-! ## Chains in parts -/

/-- A relation between lists of rows for which a set operation is a function, and a chain can be grouped in any
    way if the operation is not EXCEPT. -/
structure Respects (R : List ρ → List ρ → Prop) (kind : SetOpKind) : Prop where
  congr {a a' b b' : List ρ} (ha : R a a') (hb : R b b') : R (S.combine kind a b) (S.combine kind a' b')
  assoc (hkind : kind ≠ .except) (a b c : List ρ) :
    R (S.combine kind (S.combine kind a b) c) (S.combine kind a (S.combine kind b c))

theorem respects_perm (kind : SetOpKind) : S.Respects List.Perm kind := by
  cases kind with
  | unionAll =>
    refine ⟨fun ha hb => ha.append hb, fun _ a b c => ?_⟩
    exact .of_eq (List.append_assoc a b c)
  | intersect =>
    refine ⟨fun {a a' b b'} ha hb => ?_, fun _ a b c => ?_⟩
    · refine (List.perm_ext_iff_of_nodup (S.nodup_intersect a b) (S.nodup_intersect a' b')).mpr fun x => ?_
      rw [S.mem_intersect, S.mem_intersect, ha.mem_iff, hb.mem_iff]
    · refine (List.perm_ext_iff_of_nodup (S.nodup_intersect _ c) (S.nodup_intersect a _)).mpr fun x => ?_
      simp only [combine, S.mem_intersect, and_assoc]
  | except =>
    refine ⟨fun {a a' b b'} ha hb => ?_, fun hkind => absurd rfl hkind⟩
    refine (List.perm_ext_iff_of_nodup (S.nodup_except a b) (S.nodup_except a' b')).mpr fun x => ?_
    rw [S.mem_except, S.mem_except, ha.mem_iff, hb.mem_iff]

/-- The order of rows is kept too, except that of a chain of INTERSECT. -/
theorem respects_eq {kind : SetOpKind} (hkind : kind ≠ .intersect) : S.Respects Eq kind where
  congr ha hb := by rw [ha, hb]
  assoc hexcept a b c := by
    cases kind with
    | unionAll => exact List.append_assoc a b c
    | intersect => exact absurd rfl hkind
    | except => exact absurd rfl hexcept

variable {S} {R : List ρ → List ρ → Prop} {kind : SetOpKind} {leaf : Expr → List ρ}

theorem foldl_congr (hkind : S.Respects R kind) {as bs : List (List ρ)} (h : List.Forall₂ R as bs)
    {a b : List ρ} (hab : R a b) :
    R (as.foldl (S.combine kind) a) (bs.foldl (S.combine kind) b) := by
  induction h generalizing a b with
  | nil => exact hab
  | cons hcd _ ih => exact ih (hkind.congr hab hcd)

theorem combineAll_congr (hR : Equivalence R) (hkind : S.Respects R kind) {as bs : List (List ρ)}
    (h : List.Forall₂ R as bs) : R (S.combineAll kind as) (S.combineAll kind bs) := by
  cases h with
  | nil => exact hR.refl _
  | cons hab h => exact foldl_congr hkind h hab

/-- A first operand that is a combination itself can be taken out. -/
theorem foldl_combine (hR : Equivalence R) (hkind : S.Respects R kind) (hexcept : kind ≠ .except)
    (a b : List ρ) (rest : List (List ρ)) :
    R (rest.foldl (S.combine kind) (S.combine kind a b))
      (S.combine kind a (rest.foldl (S.combine kind) b)) := by
  induction rest generalizing b with
  | nil => exact hR.refl _
  | cons c rest ih =>
    have hfirst : R (S.combine kind (S.combine kind a b) c) (S.combine kind a (S.combine kind b c)) :=
      hkind.assoc hexcept a b c
    have hrest : List.Forall₂ R rest rest := List.forall₂_same.mpr fun x _ => hR.refl x
    exact hR.trans (foldl_congr hkind hrest hfirst) (ih (S.combine kind b c))

/-- The operands of two chains, one after the other. -/
theorem combineAll_append (hR : Equivalence R) (hkind : S.Respects R kind) (hexcept : kind ≠ .except)
    {as bs : List (List ρ)} (has : as ≠ []) (hbs : bs ≠ []) :
    R (S.combineAll kind (as ++ bs)) (S.combine kind (S.combineAll kind as) (S.combineAll kind bs)) := by
  obtain ⟨a, as, rfl⟩ := List.exists_cons_of_ne_nil has
  obtain ⟨b, bs, rfl⟩ := List.exists_cons_of_ne_nil hbs
  show R ((as ++ b :: bs).foldl _ a) _
  rw [List.foldl_append]
  exact foldl_combine hR hkind hexcept _ b bs

/-! ## Trees -/

theorem combineAll_map_append (hR : Equivalence R) (hkind : S.Respects R kind) (hexcept : kind ≠ .except)
    (l r : Expr) :
    R (S.combineAll kind ((chainOperands kind l ++ chainOperands kind r).map (S.pairwise leaf)))
      (S.combine kind (S.combineAll kind ((chainOperands kind l).map (S.pairwise leaf)))
        (S.combineAll kind ((chainOperands kind r).map (S.pairwise leaf)))) := by
  rw [List.map_append]
  refine combineAll_append hR hkind hexcept ?_ ?_
  · exact List.map_eq_nil_iff.not.mpr (chainOperands_ne_nil kind l)
  · exact List.map_eq_nil_iff.not.mpr (chainOperands_ne_nil kind r)

/-- A tree is the combination of the operands of its chain. -/
theorem combineAll_chainOperands (hR : Equivalence R) (hkind : S.Respects R kind) (hexcept : kind ≠ .except)
    (e : Expr) :
    R (S.combineAll kind ((chainOperands kind e).map (S.pairwise leaf))) (S.pairwise leaf e) := by
  fun_induction chainOperands kind e with
  | case1 l r ihl ihr =>
    rw [pairwise]
    exact hR.trans (combineAll_map_append hR hkind hexcept l r) (hkind.congr ihl ihr)
  | case2 k l r hk => exact hR.refl _
  | case3 e hne => exact hR.refl _

theorem combineAll_setOpOperands (hR : Equivalence R) (hkind : S.Respects R kind) (l r : Expr) :
    R (S.combineAll kind ((setOpOperands kind l r).map (S.pairwise leaf)))
      (S.pairwise leaf (.setOp kind l r)) := by
  by_cases hexcept : kind = .except
  · subst hexcept
    exact hR.refl _
  · rw [setOpOperands_eq hexcept, pairwise]
    refine hR.trans (combineAll_map_append hR hkind hexcept l r) (hkind.congr ?_ ?_)
    · exact combineAll_chainOperands hR hkind hexcept l
    · exact combineAll_chainOperands hR hkind hexcept r

/-- Taking the operands of each chain at once makes no difference that the relation sees. -/
theorem gathered_related (hR : Equivalence R) (e : Expr) (hkinds : ∀ k ∈ e.setOpKinds, S.Respects R k) :
    R (S.gathered leaf e) (S.pairwise leaf e) := by
  fun_induction gathered S leaf e with
  | case1 kind l r ih =>
    have hkind : S.Respects R kind := hkinds kind (.head _)
    have hoperands : List.Forall₂ R ((setOpOperands kind l r).map (S.gathered leaf))
        ((setOpOperands kind l r).map (S.pairwise leaf)) := by
      refine List.forall₂_map_left_iff.mpr (List.forall₂_map_right_iff.mpr ?_)
      exact List.forall₂_same.mpr fun o ho =>
        ih ⟨o, ho⟩ fun k hk => hkinds k (kinds_setOpOperands ho hk)
    rw [List.attach_map_val]
    exact hR.trans (combineAll_congr hR hkind hoperands) (combineAll_setOpOperands hR hkind l r)
  | case2 e hne =>
    rw [pairwise.eq_2 _ _ _ hne]
    exact hR.refl _

theorem combineAll_unionAll (as : List (List ρ)) : S.combineAll .unionAll as = as.flatten := by
  cases as with
  | nil => rfl
  | cons a rest =>
    have hfold (b : List ρ) : rest.foldl (· ++ ·) b = b ++ rest.flatten := by
      induction rest generalizing b with
      | nil => exact (List.append_nil b).symm
      | cons c rest ih => rw [List.foldl_cons, ih, List.append_assoc, List.flatten_cons]
    exact hfold a

variable (S leaf)

/-- A tree of set operations gives the same rows equally often, whether the operands of its chains are combined
    at once or node by node; in the same order if no rows are intersected. The parts of a UNION ALL, each of
    them the rows of one operand, stand in the same order in any tree. -/
theorem perm_pairwise (e : Expr) :
    (S.gathered leaf e).Perm (S.pairwise leaf e) ∧
      (.intersect ∉ e.setOpKinds → S.gathered leaf e = S.pairwise leaf e) ∧
      ∀ l r, e = .setOp .unionAll l r →
        S.gathered leaf e = ((setOpOperands .unionAll l r).map (S.gathered leaf)).flatten ∧
        S.pairwise leaf e = ((setOpOperands .unionAll l r).map (S.pairwise leaf)).flatten := by
  refine ⟨?perm, ?same, ?parts⟩
  case perm => exact gathered_related ⟨.refl, .symm, .trans⟩ e fun k _ => S.respects_perm k
  case same =>
    intro hintersect
    exact gathered_related eq_equivalence e fun k hk => S.respects_eq fun h => hintersect (h ▸ hk)
  case parts =>
    rintro l r rfl
    refine ⟨by rw [gathered_setOp, combineAll_unionAll], ?_⟩
    rw [← combineAll_unionAll (S := S)]
    exact (combineAll_setOpOperands eq_equivalence (S.respects_eq (by decide)) l r).symm

/-! ## Operators that keep the order -/

/-- The rows of the left operand that the right one has, or has not, in their order. -/
def inOrder [DecidableEq ρ] : SetOperators ρ where
  intersect a b := (a.filter (· ∈ b)).dedup
  except a b := (a.filter (· ∉ b)).dedup
  nodup_intersect a b := List.nodup_dedup _
  mem_intersect a b x := by rw [List.mem_dedup, List.mem_filter, decide_eq_true_eq]
  nodup_except a b := List.nodup_dedup _
  mem_except a b x := by rw [List.mem_dedup, List.mem_filter, decide_eq_true_eq]

/-- The numbers of the films and of the shows. -/
def numbers : Expr → List Nat
  | .scan set => if set.name = "Film" then [1, 2, 2] else [2, 3]
  | _ => []

/-- Films and shows, and then what is only one of them. -/
def filmsAndShows : Expr :=
  let films := .scan { name := "Film", container := "dbo" }
  let shows := .scan { name := "Show", container := "dbo" }
  .setOp .unionAll (.setOp .unionAll films shows)
    (.setOp .unionAll (.setOp .except films shows) (.setOp .except shows films))

theorem gathered_filmsAndShows :
    .intersect ∉ filmsAndShows.setOpKinds ∧
      inOrder.gathered numbers filmsAndShows = [1, 2, 2, 2, 3, 1, 3] := by
  have hkinds : .intersect ∉ filmsAndShows.setOpKinds := by decide
  have hrows : inOrder.pairwise numbers filmsAndShows = [1, 2, 2, 2, 3, 1, 3] := by decide
  exact ⟨hkinds, ((perm_pairwise inOrder numbers filmsAndShows).2.1 hkinds).trans hrows⟩

end SetOperators

end Sql

end TreeSql
