import TreeSql.Postgres.StoreType
import TreeSql.Proofs.Quoting.Texts
import TreeSql.Proofs.StoreTypes.Grammar

/-
  TreeSql.Proofs.Quoting.Types — names of types that may stand unquoted.

  A cast writes the name of its type as it is. The names of the primitive types are fixed; a name that
  the tree gives has passed `TypeName.check`, which lets through words, blanks and one pair of parentheses
  around numbers (`TypeName.onePair_of_check`, `reads_of_check`).
-/
namespace TreeSql.Quoting

open Postgres

theorem reads_castName (kind : PrimitiveKind) : Reads (castName kind) := by
  cases kind <;> exact runs_fixed (by decide)

theorem reads_castTarget {t : DataType} {name : String} (h : castTarget t = .ok name) : Reads name := by
  unfold castTarget at h
  split at h
  · cases h
    exact reads_castName _
  · cases h

/-! ## Checked names -/

theorem not_sign_of_isFiller {c : Char} (h : TypeName.isFiller c = true) : c ∉ signs := not_sign_of_test (by decide) h

theorem not_sign_of_not_isParen {cs : List Char} (h : TypeName.OnePair cs) {part : List Char} (hpart : part ⊆ cs)
    (hparen : ∀ c ∈ part, ¬TypeName.isParen c = true) : ∀ c ∈ (String.ofList part).toList, c ∉ signs := by
  rw [String.toList_ofList]
  intro c hc
  exact not_sign_of_isFiller ((h.chars c (hpart hc)).resolve_right (hparen c hc))

theorem reads_of_onePair {s : String} (h : TypeName.OnePair s.toList) : Reads s := by
  rcases h.parens with hnone | hpair
  · rw [← String.ofList_toList (s := s)]
    exact reads_of_no_signs (not_sign_of_not_isParen h (List.Subset.refl _) (List.filter_eq_nil_iff.mp hnone))
  · obtain ⟨a, rest, hs, ha, -, hrest⟩ := List.filter_eq_cons_iff.mp hpair
    obtain ⟨b, c, rfl, hb, -, hc⟩ := List.filter_eq_cons_iff.mp hrest
    have hc := List.filter_eq_nil_iff.mp hc
    have hfront := reads_of_no_signs (not_sign_of_not_isParen h (by rw [hs]; simp) ha)
    have hinner := reads_of_no_signs (not_sign_of_not_isParen h (by rw [hs]; intro c hc; simp [hc]) hb)
    have hback := runs_of_no_signs (not_sign_of_not_isParen h (by rw [hs]; intro c hc; simp [hc]) hc)
    have hs : s = String.ofList a ++ ("(" ++ String.ofList b ++ ")") ++ String.ofList c := by
      rw [← String.toList_inj, hs]
      simp
    rw [hs]
    exact (hfront.append hinner.inParens).append hback.ofAny

/-- A checked type name reads. -/
theorem reads_of_check {s name : String} (h : TypeName.check s = .ok name) : Reads name :=
  reads_of_onePair (TypeName.onePair_of_check h)

end TreeSql.Quoting
