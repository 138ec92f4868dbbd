import Mathlib.Data.Countable.Basic
import Mathlib.Data.Set.Finite.Lattice
import Mathlib.Logic.Denumerable
import Mathlib.Logic.Equiv.List
import TreeSql.Proofs.References.Names

/-
  TreeSql.Proofs.Renaming.Names — new names for variables, carried on to the names made of them.

  Compiling makes names: aliases by number, and for each operand of a set operation a name made of the name of the
  whole. `Carried` says which name stands for which when variables get other names: aliases stand for themselves.
  As long as no variable, old or new, is such a name itself, distinct names stand for distinct names, and there
  is one injective function on all names that does this (`exists_injective_of_carried`).
-/
namespace TreeSql.Compile

open Sql

/-- The variables, and the names that compiling makes: aliases, and for the operands of a set operation names made
    of the name of the whole. -/
inductive Occurs (vars : List String) : String → Prop
  | var {x : String} (h : x ∈ vars) : Occurs vars x
  | drawn (k : Nat) : Occurs vars (aliasName k)
  | operand {x : String} (h : Occurs vars x) (place : Nat) : Occurs vars (operandName x place)

theorem Occurs.mono {vars vars' : List String} (h : ∀ x ∈ vars, Occurs vars' x) {x : String} (hx : Occurs vars x) :
    Occurs vars' x := by
  induction hx with
  | var hx => exact h _ hx
  | drawn k => exact .drawn k
  | operand _ place ih => exact ih.operand place

/-- The name is made by compiling. -/
def Made (vars : List String) (x : String) : Prop :=
  (∃ k, x = aliasName k) ∨ ∃ y place, Occurs vars y ∧ x = operandName y place

theorem operandName_inj_place {x : String} {place place' : Nat} (h : operandName x place = operandName x place') :
    place = place' := by
  have hlist := congrArg String.toList h
  rw [toList_operandName, toList_operandName, List.append_cancel_left_eq, List.cons.injEq] at hlist
  exact Text.numeral_inj (String.toList_inj.mp hlist.2)

/-! ## Names for names -/

/-- The second name stands for the first one, where variables are renamed in pairs. -/
inductive Carried (pairs : List (String × String)) : String → String → Prop
  | var {x y : String} (h : (x, y) ∈ pairs) : Carried pairs x y
  | drawn (k : Nat) : Carried pairs (aliasName k) (aliasName k)
  | operand {x y : String} (h : Carried pairs x y) (place : Nat) :
      Carried pairs (operandName x place) (operandName y place)

section

variable {pairs : List (String × String)} {x y y' : String}

theorem Carried.occurs (h : Carried pairs x y) : Occurs (pairs.map Prod.fst) x := by
  induction h with
  | var h => exact .var (List.mem_map_of_mem h)
  | drawn k => exact .drawn k
  | operand _ place ih => exact ih.operand place

theorem Carried.swap (h : Carried pairs x y) : Carried (pairs.map Prod.swap) y x := by
  induction h with
  | var h => exact .var (List.mem_map_of_mem h)
  | drawn k => exact .drawn k
  | operand _ place ih => exact ih.operand place

/-- No variable is made by compiling, and each has one new name. -/
structure Separate (pairs : List (String × String)) : Prop where
  free : ∀ x ∈ pairs.map Prod.fst, ¬Made (pairs.map Prod.fst) x
  unique : ∀ x y y', (x, y) ∈ pairs → (x, y') ∈ pairs → y = y'

theorem Separate.carried_unique (hpairs : Separate pairs) (h : Carried pairs x y) (h' : Carried pairs x y') : y = y' := by
  induction h generalizing y' with
  | @var x y h =>
    have hfree := hpairs.free x (List.mem_map_of_mem h)
    cases h' with
    | var h' => exact hpairs.unique _ _ _ h h'
    | drawn k => exact (hfree (.inl ⟨k, rfl⟩)).elim
    | operand h' place => exact (hfree (.inr ⟨_, place, h'.occurs, rfl⟩)).elim
  | drawn k =>
    generalize hx : aliasName k = x at h'
    cases h' with
    | var h' => exact (hpairs.free x (List.mem_map_of_mem h') (.inl ⟨k, hx.symm⟩)).elim
    | drawn j => rfl
    | operand h' place => exact (aliasName_ne_operandName _ _ _ hx).elim
  | @operand x y h place ih =>
    generalize hx : operandName x place = z at h'
    cases h' with
    | var h' => exact (hpairs.free z (List.mem_map_of_mem h') (.inr ⟨x, place, h.occurs, hx.symm⟩)).elim
    | drawn j => exact (aliasName_ne_operandName _ _ _ hx.symm).elim
    | operand h' place' =>
      obtain rfl := operandName_inj hx
      obtain rfl := operandName_inj_place hx
      rw [ih h']

/-! ## All names -/

/-- There are names that nothing stands for: texts of one repeated character that are no variables. -/
theorem infinite_not_carried (pairs : List (String × String)) : {x | ¬∃ y, Carried pairs x y}.Infinite := by
  have hmarks : (Set.range fun n => String.ofList (List.replicate n '!')).Infinite := by
    refine Set.infinite_range_of_injective fun m n h => ?_
    have hlength := congrArg (List.length ∘ String.toList) h
    simpa using hlength
  refine (hmarks.sdiff (pairs.map Prod.fst).finite_toSet).mono fun x hx => ?_
  obtain ⟨⟨n, hn⟩, hnew⟩ := hx
  have hmark : ∀ c ∈ x.toList, c = '!' := by
    rw [← hn, String.toList_ofList]
    exact fun c hc => List.eq_of_mem_replicate hc
  rintro ⟨y, h⟩
  cases h with
  | var h => exact hnew (List.mem_map.mpr ⟨_, h, rfl⟩)
  | drawn k => exact absurd (hmark 'A' (by simp [aliasName])) (by decide)
  | operand h place => exact absurd (hmark '_' (by simp [toList_operandName])) (by decide)

theorem exists_injective_of_carried (hpairs : Separate pairs) (hswap : Separate (pairs.map Prod.swap)) :
    ∃ f : String → String, Function.Injective f ∧ ∀ x y, Carried pairs x y → f x = y := by
  have hunique {x x' y : String} (h : Carried pairs x y) (h' : Carried pairs x' y) : x = x' :=
    hswap.carried_unique h.swap h'.swap
  let old : {x // ∃ y, Carried pairs x y} → {y // ∃ x, Carried pairs x y} :=
    fun x => ⟨Classical.choose x.2, x.1, Classical.choose_spec x.2⟩
  have hold {x y : String} (h : Carried pairs x y) : old ⟨x, y, h⟩ = ⟨y, x, h⟩ :=
    Subtype.ext (hpairs.carried_unique (Classical.choose_spec ⟨y, h⟩) h)
  have hbijective : Function.Bijective old := by
    refine ⟨?_, fun ⟨y, x, h⟩ => ⟨⟨x, y, h⟩, hold h⟩⟩
    rintro ⟨x, y, h⟩ ⟨x', y', h'⟩ heq
    rw [hold h, hold h', Subtype.mk.injEq] at heq
    subst heq
    exact Subtype.ext (hunique h h')
  -- The names left over on both sides are countably many.
  have : Infinite {x // ¬∃ y, Carried pairs x y} := (infinite_not_carried pairs).to_subtype
  have hsub : {y | ¬∃ x, Carried (pairs.map Prod.swap) y x} ⊆ {y | ¬∃ x, Carried pairs x y} :=
    fun y hy ⟨x, h⟩ => hy ⟨x, h.swap⟩
  have : Infinite {y // ¬∃ x, Carried pairs x y} := ((infinite_not_carried _).mono hsub).to_subtype
  have hchar : Function.Injective Char.toNat := fun _ _ => Char.toNat_inj.mp
  have : Countable Char := hchar.countable
  have hstring : Function.Injective String.toList := fun _ _ => String.toList_inj.mp
  have : Countable String := hstring.countable
  classical
  obtain ⟨new⟩ : Nonempty ({x // ¬∃ y, Carried pairs x y} ≃ {y // ¬∃ x, Carried pairs x y}) :=
    nonempty_equiv_of_countable
  refine ⟨(Equiv.ofBijective old hbijective).subtypeCongr new, Equiv.injective _, fun x y h => ?_⟩
  have hx : (Equiv.sumCompl fun x => ∃ y, Carried pairs x y).symm x = Sum.inl ⟨x, y, h⟩ :=
    Equiv.sumCompl_symm_apply_of_pos (p := fun x => ∃ y, Carried pairs x y) ⟨y, h⟩
  show Equiv.sumCompl _ ((Equiv.ofBijective old hbijective).sumCongr new ((Equiv.sumCompl _).symm x)) = y
  rw [hx]
  exact congrArg Subtype.val (hold h)

end

end TreeSql.Compile
