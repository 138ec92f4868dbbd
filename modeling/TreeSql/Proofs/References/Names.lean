import Mathlib.Data.List.Perm.Basic
import TreeSql.Compile.Relation
import TreeSql.Proofs.Compile.Unqualified

/-
  TreeSql.Proofs.References.Names — names that are not taken.

  An expression is compiled under names of its own: the variables that it binds, the names of its set
  operands, which extend the name of the whole (`Extends`), and new aliases. `From` says so of a name.
  `Fresh` says of the roots that remain to be bound that no name from them is taken, whichever numbers
  the operands and the aliases get; `Fresh.enter` keeps it when names from other roots are taken.
-/
namespace TreeSql.Compile

open Sql

/-! ## Generated names -/

theorem underscore_not_mem_numeral (n : Nat) : '_' ∉ (Text.numeral n).toList := by
  simp [Text.numeral, Text.digits]

theorem underscore_not_mem_aliasName (k : Nat) : '_' ∉ (aliasName k).toList := by
  have h := underscore_not_mem_numeral k
  simp [aliasName, h]

theorem aliasName_inj {j k : Nat} (h : aliasName j = aliasName k) : j = k := by
  simp only [aliasName] at h
  exact Text.numeral_inj (by simpa using h)

/-- A text has one last part that starts with a character. -/
theorem append_cons_inj {α : Type} {c : α} {a a' d d' : List α} (hd : c ∉ d) (hd' : c ∉ d')
    (h : a ++ c :: d = a' ++ c :: d') : a = a' := by
  induction a generalizing a' with
  | nil =>
    cases a' with
    | nil => rfl
    | cons x a' =>
      rw [List.nil_append, List.cons_append, List.cons.injEq] at h
      exact (hd (by rw [h.2]; simp)).elim
  | cons x a ih =>
    cases a' with
    | nil =>
      rw [List.nil_append, List.cons_append, List.cons.injEq] at h
      exact (hd' (by rw [← h.2]; simp)).elim
    | cons y a' =>
      rw [List.cons_append, List.cons_append, List.cons.injEq] at h
      rw [h.1, ih h.2]

theorem toList_operandName (var : String) (place : Nat) :
    (operandName var place).toList = var.toList ++ '_' :: (Text.numeral place).toList := by
  simp [operandName]

theorem operandName_inj {var var' : String} {place place' : Nat}
    (h : operandName var place = operandName var' place') : var = var' := by
  have hlist := congrArg String.toList h
  rw [toList_operandName, toList_operandName] at hlist
  exact String.toList_inj.mp
    (append_cons_inj (underscore_not_mem_numeral _) (underscore_not_mem_numeral _) hlist)

theorem aliasName_ne_operandName (k : Nat) (var : String) (place : Nat) :
    aliasName k ≠ operandName var place := by
  intro h
  refine underscore_not_mem_aliasName k ?_
  rw [h, toList_operandName]
  simp

/-! ## Names that extend others -/

/-- The name of an operand of an operand, to any depth. -/
inductive Extends (root : String) : String → Prop
  | refl : Extends root root
  | operand {var : String} (place : Nat) : Extends root var → Extends root (operandName var place)

theorem Extends.trans {a b c : String} (h : Extends a b) (h' : Extends b c) : Extends a c := by
  induction h' with
  | refl => exact h
  | operand place _ ih => exact ih.operand place

/-- Two roots of one name extend each other. -/
theorem Extends.chain {a b x : String} (h : Extends a x) (h' : Extends b x) :
    Extends a b ∨ Extends b a := by
  induction h with
  | refl => exact .inr h'
  | @operand var place hvar ih =>
    generalize hx : operandName var place = x at h'
    cases h' with
    | refl => exact .inl (hx ▸ hvar.operand place)
    | operand place' hvar' =>
      obtain rfl := operandName_inj hx
      exact ih hvar'

theorem Extends.eq_of_alias {root : String} {k : Nat} (h : Extends root (aliasName k)) :
    root = aliasName k := by
  generalize hx : aliasName k = x at h
  cases h with
  | refl => rfl
  | operand place _ => exact (aliasName_ne_operandName _ _ _ hx).elim

/-- Neither name extends the other. -/
def Apart (a b : String) : Prop := ¬Extends a b ∧ ¬Extends b a

theorem Apart.symm {a b : String} (h : Apart a b) : Apart b a := ⟨h.2, h.1⟩

theorem Apart.not_both {a b x : String} (h : Apart a b) (ha : Extends a x) : ¬Extends b x :=
  fun hb => (ha.chain hb).elim h.1 h.2

theorem apart_alias {j k : Nat} (h : j ≠ k) : Apart (aliasName j) (aliasName k) :=
  ⟨fun hjk => h (aliasName_inj hjk.eq_of_alias), fun hkj => h (aliasName_inj hkj.eq_of_alias).symm⟩

theorem Apart.operand {a b : String} (h : Apart a b) (place : Nat) (hb : ∀ var place, b ≠ operandName var place) :
    Apart (operandName a place) b := by
  refine ⟨fun hab => h.1 ((Extends.refl.operand place).trans hab), fun hba => ?_⟩
  generalize hx : operandName a place = x at hba
  cases hba with
  | refl => exact hb _ _ hx.symm
  | operand place' hvar =>
    obtain rfl := operandName_inj hx
    exact h.2 hvar

/-! ## Roots -/

/-- The name belongs to an expression that binds the roots, compiled while aliases are drawn. -/
def From (roots : List String) (drawn drawn' : Nat) (x : String) : Prop :=
  ∃ r, (r ∈ roots ∨ ∃ j, drawn < j ∧ j ≤ drawn' ∧ r = aliasName j) ∧ Extends r x

/-- No name from the roots is taken, nor any from an alias that is not drawn yet. -/
structure Fresh (taken : String → Prop) (drawn : Nat) (roots : List String) : Prop where
  unused : ∀ r ∈ roots, ∀ x, taken x → ¬Extends r x
  undrawn : ∀ j, drawn < j → ∀ x, taken x → ¬Extends (aliasName j) x
  apart : roots.Pairwise Apart
  future : ∀ r ∈ roots, ∀ j, drawn < j → Apart r (aliasName j)

/-- The roots are not names of operands. -/
def Given (roots : List String) : Prop := ∀ r ∈ roots, ∀ var place, r ≠ operandName var place

section

variable {taken taken' : String → Prop} {roots used : List String} {drawn drawn' : Nat}

theorem From.mono {roots' : List String} {k k' : Nat} {x : String} (h : From roots drawn drawn' x)
    (hroots : roots ⊆ roots') (hk : k ≤ drawn) (hk' : drawn' ≤ k') : From roots' k k' x := by
  obtain ⟨r, hr, hx⟩ := h
  refine ⟨r, hr.imp (hroots ·) ?_, hx⟩
  rintro ⟨j, hj, hj', rfl⟩
  exact ⟨j, by omega, by omega, rfl⟩

theorem from_root {x : String} (h : x ∈ roots) : From roots drawn drawn' x := ⟨x, .inl h, .refl⟩

theorem Fresh.not_taken (h : Fresh taken drawn roots) {x : String} (hx : From roots drawn drawn' x) :
    ¬taken x := by
  obtain ⟨r, hr | ⟨j, hj, -, rfl⟩, hx⟩ := hx
  · exact fun ht => h.unused r hr x ht hx
  · exact fun ht => h.undrawn j hj x ht hx

theorem Fresh.subperm {roots' : List String} (h : Fresh taken drawn roots) (hsub : roots'.Subperm roots) :
    Fresh taken drawn roots' where
  unused r hr := h.unused r (hsub.subset hr)
  undrawn := h.undrawn
  apart := by
    obtain ⟨l, hl, hsub⟩ := hsub
    exact (hl.pairwise_iff Apart.symm).mp (h.apart.sublist hsub)
  future r hr := h.future r (hsub.subset hr)

theorem Fresh.sublist {roots' : List String} (h : Fresh taken drawn roots) (hsub : roots'.Sublist roots) :
    Fresh taken drawn roots' := h.subperm hsub.subperm

theorem Fresh.later (h : Fresh taken drawn roots) (hdrawn : drawn ≤ drawn') : Fresh taken drawn' roots where
  unused := h.unused
  undrawn j hj := h.undrawn j (by omega)
  apart := h.apart
  future r hr j hj := h.future r hr j (by omega)

/-- Names from some of the roots are taken; none is from the others. -/
theorem Fresh.enter (h : Fresh taken drawn (used ++ roots)) (hdrawn : drawn ≤ drawn')
    (htaken : ∀ x, taken' x → taken x ∨ From used drawn drawn' x) : Fresh taken' drawn' roots := by
  have hall := List.pairwise_append.mp h.apart
  refine ⟨fun r hr x hx => ?_, fun j hj x hx => ?_, hall.2.1, fun r hr j hj => ?_⟩
  · rcases htaken x hx with hx | ⟨r', hr' | ⟨j, hj, -, rfl⟩, hx⟩
    · exact h.unused r (List.mem_append_right _ hr) x hx
    · exact (hall.2.2 r' hr' r hr).not_both hx
    · exact (h.future r (List.mem_append_right _ hr) j hj).symm.not_both hx
  · rcases htaken x hx with hx | ⟨r', hr' | ⟨j', hj', hle, rfl⟩, hx⟩
    · exact h.undrawn j (by omega) x hx
    · exact (h.future r' (List.mem_append_left _ hr') j (by omega)).not_both hx
    · exact (apart_alias (by omega)).not_both hx
  · exact h.future r (List.mem_append_right _ hr) j (by omega)

/-- A new alias is a root. -/
theorem Fresh.draw (h : Fresh taken drawn roots) :
    Fresh taken (drawn + 1) (aliasName (drawn + 1) :: roots) := by
  have hlater := h.later (Nat.le_succ drawn)
  refine ⟨fun r hr x hx => ?_, hlater.undrawn, .cons (fun r hr => ?_) h.apart, fun r hr j hj => ?_⟩
  · rcases List.mem_cons.mp hr with rfl | hr
    · exact h.undrawn _ (Nat.lt_succ_self _) x hx
    · exact h.unused r hr x hx
  · exact (h.future r hr _ (Nat.lt_succ_self _)).symm
  · rcases List.mem_cons.mp hr with rfl | hr
    · exact apart_alias (by omega)
    · exact hlater.future r hr j hj

theorem From.undraw {x : String} (h : From (aliasName (drawn + 1) :: roots) (drawn + 1) drawn' x)
    (hdrawn : drawn + 1 ≤ drawn') : From roots drawn drawn' x := by
  obtain ⟨r, hr | ⟨j, hj, hj', rfl⟩, hx⟩ := h
  · rcases List.mem_cons.mp hr with rfl | hr
    · exact ⟨_, .inr ⟨drawn + 1, by omega, hdrawn, rfl⟩, hx⟩
    · exact ⟨r, .inl hr, hx⟩
  · exact ⟨_, .inr ⟨j, by omega, hj', rfl⟩, hx⟩

/-- A name from other roots is another one. -/
theorem Fresh.ne_of_from {x y : String} (h : Fresh taken drawn (x :: roots)) (hy : From roots drawn drawn' y) :
    y ≠ x := by
  obtain ⟨r, hr | ⟨j, hj, -, rfl⟩, hext⟩ := hy
  · exact fun heq => ((List.pairwise_cons.mp h.apart).1 r hr).2 (heq ▸ hext)
  · exact fun heq => (h.future x (.head _) j hj).2 (heq ▸ hext)

/-- The name of an operand stands for the name of the whole. -/
theorem Fresh.operand {var : String} (h : Fresh taken drawn (var :: roots)) (place : Nat)
    (hroots : Given roots) :
    Fresh taken drawn (operandName var place :: roots) := by
  obtain ⟨hvar, happart⟩ := List.pairwise_cons.mp h.apart
  refine ⟨fun r hr x hx => ?_, h.undrawn, .cons (fun r hr => ?_) happart, fun r hr j hj => ?_⟩
  · rcases List.mem_cons.mp hr with rfl | hr
    · exact fun hext => h.unused var (.head _) x hx ((Extends.refl.operand place).trans hext)
    · exact h.unused r (.tail _ hr) x hx
  · exact (hvar r hr).operand place (hroots r hr)
  · rcases List.mem_cons.mp hr with rfl | hr
    · exact (h.future var (.head _) j hj).operand place fun _ _ => aliasName_ne_operandName _ _ _
    · exact h.future r (.tail _ hr) j hj

end

/-! ## Names that are not generated -/

/-- The name of an alias, or of an operand. -/
def Generated (x : String) : Prop := (∃ k, x = aliasName k) ∨ ∃ var place, x = operandName var place

theorem not_generated {x : String} (hplain : '_' ∉ x.toList) (halias : ¬"Alias".toList <+: x.toList) : ¬Generated x := by
  rintro (⟨k, rfl⟩ | ⟨var, place, rfl⟩)
  · exact halias (by simp [aliasName])
  · exact hplain (by simp [toList_operandName])

/-- Names that can be told from generated ones by their characters. -/
theorem none_generated {names : List String}
    (h : ∀ x ∈ names, '_' ∉ x.toList ∧ ¬"Alias".toList <+: x.toList) : ∀ x ∈ names, ¬Generated x :=
  fun x hx => not_generated (h x hx).1 (h x hx).2

theorem Extends.eq_of_not_generated {root x : String} (h : Extends root x) (hx : ¬Generated x) : root = x := by
  cases h with
  | refl => rfl
  | operand place _ => exact (hx (.inr ⟨_, _, rfl⟩)).elim

/-- Distinct variables that are not generated are fresh. -/
theorem fresh_of_nodup {roots : List String} (hnodup : roots.Nodup) (hroots : ∀ r ∈ roots, ¬Generated r)
    (drawn : Nat) : Fresh (fun _ => False) drawn roots where
  unused _ _ _ h := h.elim
  undrawn _ _ _ h := h.elim
  apart := hnodup.imp_of_mem fun ha hb hne =>
    ⟨fun h => hne (h.eq_of_not_generated (hroots _ hb)),
      fun h => hne (h.eq_of_not_generated (hroots _ ha)).symm⟩
  future r hr j _ := ⟨fun h => hroots r hr (.inl ⟨j, h.eq_of_alias⟩),
    fun h => hroots r hr (.inl ⟨j, (h.eq_of_not_generated (hroots r hr)).symm⟩)⟩

end TreeSql.Compile
