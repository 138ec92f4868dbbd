import TreeSql.Compile.State

/-
  TreeSql.Proofs.Compile.Arena — stages by number, and stages that expose more columns.

  What a stage is after another one was set, changed or added (`get_set`, `get_modify`, `get_append`).
  `Wider` says that two stages differ in the columns that they expose, of which the second has more. A name
  that is drawn counts aliases up (`le_freshName`).
-/
namespace TreeSql

open Sql

/-! ## Stages by number -/

namespace Sql.Stages

theorem get_set (stages : Stages) (id j : Nat) (s : Stage) :
    get (stages.set id s) j = if j = id ∧ id < stages.length then s else stages.get j := by
  unfold get
  rw [List.getElem?_set]
  by_cases hj : id = j
  · subst hj
    by_cases hid : id < stages.length
    · simp [hid]
    · simp [hid]
  · simp [hj, Ne.symm hj]

theorem get_modify (stages : Stages) (id j : Nat) (f : Stage → Stage) :
    get (stages.modify id f) j = if j = id ∧ id < stages.length then f (stages.get id) else stages.get j := by
  unfold get
  rw [List.getElem?_modify]
  by_cases hj : id = j
  · subst hj
    by_cases hid : id < stages.length
    · simp [hid]
    · simp [hid]
  · simp [hj, Ne.symm hj]

theorem get_append (stages : Stages) (s : Stage) (j : Nat) :
    get (stages ++ [s]) j = if j = stages.length then s else stages.get j := by
  unfold get
  by_cases hj : j < stages.length
  · rw [List.getElem?_append_left hj, if_neg (by omega)]
  · rw [List.getElem?_append_right (by omega)]
    by_cases hj' : j = stages.length
    · simp [hj']
    · rw [if_neg hj']
      have h1 : [s][j - stages.length]? = none := by
        rw [List.getElem?_eq_none_iff]
        simp
        omega
      have h2 : stages[j]? = none := by
        rw [List.getElem?_eq_none_iff]
        omega
      rw [h1, h2]

end Sql.Stages

/-- The pulled columns as a select list. -/
def Sql.Stage.pulledColumns (s : Stage) : List Column :=
  s.pulled.map fun p => ⟨.columnRef p.source p.column, p.name, .string⟩

namespace Compile

/-! ## Wider stages -/

/-- The second stage exposes more columns, and is the same otherwise. -/
structure Wider (s t : Stage) : Prop where
  rest : t = { s with pulled := t.pulled }
  pulled : s.pulled ⊆ t.pulled

theorem Wider.refl (s : Stage) : Wider s s := ⟨rfl, fun _ h => h⟩

theorem Wider.trans {s t u : Stage} (h : Wider s t) (h' : Wider t u) : Wider s u where
  rest := by
    rw [h'.rest, h.rest]
  pulled := fun _ hp => h'.pulled (h.pulled hp)

theorem Wider.projection {s t : Stage} (h : Wider s t) : t.projection = s.projection := by
  rw [h.rest]

theorem Wider.from_eq {s t : Stage} (h : Wider s t) : t.from_ = s.from_ := by
  rw [h.rest]

theorem expose_single (s : Stage) (source name : String) :
    s.expose source [name] =
      if (s.exposedName? source name).isSome then s
      else { s with pulled := s.pulled ++ [⟨source, name, name⟩] } := rfl

theorem expose_cons (s : Stage) (source name : String) (names : List String) :
    s.expose source (name :: names) = (s.expose source [name]).expose source names := rfl

theorem wider_expose (s : Stage) (source : String) (names : List String) :
    Wider s (s.expose source names) := by
  induction names generalizing s with
  | nil => exact .refl s
  | cons name names ih =>
    rw [expose_cons]
    refine Wider.trans ?_ (ih _)
    rw [expose_single]
    split
    · exact .refl s
    · exact ⟨rfl, List.subset_append_left _ _⟩

/-! ## Fresh names -/

theorem le_freshName (taken : List String) (base : String) (fuel : Nat) (candidate : String) (k : Nat) :
    k ≤ (Stage.freshName taken base fuel candidate k).2 := by
  induction fuel generalizing candidate k with
  | zero => exact Nat.le_refl k
  | succ fuel ih =>
    rw [Stage.freshName]
    split
    · exact Nat.le_of_succ_le (ih _ _)
    · exact Nat.le_refl k

end Compile

end TreeSql
