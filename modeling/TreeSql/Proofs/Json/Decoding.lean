import Mathlib.Data.List.Forall2
import TreeSql.Json.Decoder
import TreeSql.Proofs.Json.Text

/-
  TreeSql.Proofs.Json.Decoding — values that a decoder reads back.

  `Decodes levels d j a` says that `j` is valid JSON, and that `d` reads it as `a` wherever it may enter as many
  levels as `j` has, up to `levels`. There is one rule for each way to put decoders together. That of a variant
  takes a level away, so a decoder that uses itself inside a variant or a record reads by induction on what it
  reads, with the fuel it has there (`decodes_nested`).

  The fields of a record are read one after another: `Yields` says what a reader of fields gives, and has a rule
  for each field.
-/
namespace TreeSql

/-! ## Levels -/

namespace Json

mutual

/-- How deep arrays and objects nest. -/
def depth : Json → Nat
  | null | bool _ | number _ | string _ => 0
  | array items => depthOfItems items + 1
  | object fields => depthOfFields fields + 1
termination_by structural j => j

def depthOfItems : List Json → Nat
  | [] => 0
  | j :: js => max j.depth (depthOfItems js)
termination_by structural js => js

def depthOfFields : List (List Char × Json) → Nat
  | [] => 0
  | (_, j) :: fields => max j.depth (depthOfFields fields)
termination_by structural fields => fields

end

theorem depthOfItems_le {n : Nat} {items : List Json} : depthOfItems items ≤ n ↔ ∀ j ∈ items, j.depth ≤ n := by
  induction items with
  | nil => simp [depthOfItems]
  | cons j js ih => simp [depthOfItems, ih]

theorem depthOfFields_le {n : Nat} {fields : List (List Char × Json)} :
    depthOfFields fields ≤ n ↔ ∀ f ∈ fields, f.2.depth ≤ n := by
  induction fields with
  | nil => simp [depthOfFields]
  | cons f fs ih => simp [depthOfFields, ih]

theorem depth_record_le {n : Nat} {given : List (String × Json)} :
    (record given).depth ≤ n + 1 ↔ ∀ p ∈ given, p.2.depth ≤ n := by
  rw [record, depth, Nat.add_le_add_iff_right, depthOfFields_le, List.forall_mem_map]

/-- A name that is written as it is. -/
def Plain (name : String) : Prop := escape name.toList = name.toList

instance (name : String) : Decidable (Plain name) := inferInstanceAs (Decidable (_ = _))

theorem valid_record {given : List (String × Json)} (hplain : ∀ p ∈ given, Plain p.1)
    (hvalid : ∀ p ∈ given, p.2.Valid) :
    (record given).Valid := by
  refine .object (fun f hf => ?_) (fun f hf => ?_)
  · obtain ⟨p, hp, rfl⟩ := List.mem_map.mp hf
    exact hplain p hp ▸ isQuoted_escape p.1.toList
  · obtain ⟨p, hp, rfl⟩ := List.mem_map.mp hf
    exact hvalid p hp

end Json

namespace Decoder

open Json

/-- The decoder reads the value in up to so many levels. -/
structure Decodes {α : Type} (levels : Nat) (d : Decoder α) (j : Json) (a : α) : Prop where
  valid : j.Valid
  reads : ∀ {n : Nat}, n ≤ levels → j.depth ≤ n → d n j = some a

section

variable {α β : Type} {levels : Nat} {d : Decoder α} {j : Json} {a : α}

theorem Decodes.mono {fewer : Nat} (h : Decodes levels d j a) (hle : fewer ≤ levels) : Decodes fewer d j a :=
  ⟨h.valid, fun hn => h.reads (Nat.le_trans hn hle)⟩

theorem Decodes.map (f : α → β) (h : Decodes levels d j a) : Decodes levels (map f d) j (f a) :=
  ⟨h.valid, fun hn hdepth => congrArg (Option.map f) (h.reads hn hdepth)⟩

/-- A decoder that uses itself reads a value that is nested if each use reads what is inside it. -/
theorem decodes_nested {step : Decoder α → Decoder α} (hpos : 0 < j.depth)
    (h : ∀ fuel, Decodes (fuel + 1) (step (nested step fuel)) j a) (fuel : Nat) :
    Decodes fuel (nested step fuel) j a := by
  cases fuel with
  | zero => exact ⟨(h 0).valid, fun hn hdepth => absurd (Nat.lt_of_lt_of_le hpos (Nat.le_trans hdepth hn))
      (Nat.lt_irrefl 0)⟩
  | succ fuel => exact ⟨(h 0).valid, fun hn hdepth => (h fuel).reads hn hdepth⟩

theorem ne_null_of_nested {step : Decoder α → Decoder α} (h : Decodes 0 (nested step 0) j a) : j ≠ .null := by
  rintro rfl
  cases h.reads (Nat.le_refl 0) (Nat.le_refl 0)

theorem decodes_recursive {step : Decoder α → Decoder α} (h : ∀ fuel, Decodes fuel (nested step fuel) j a) :
    Decodes levels (recursive step) j a :=
  ⟨(h 0).valid, fun _ hdepth => (h _).reads (Nat.le_refl _) hdepth⟩

/-! ## Scalars -/

theorem decodes_bool (b : Bool) : Decodes levels bool (.bool b) b := ⟨.bool b, fun _ _ => rfl⟩

theorem name?_escape (s : String) : name? (escape s.toList) = some s := by
  rw [name?, unescape?_escape, Option.map_some, String.ofList_toList]

theorem decodes_string (s : String) : Decodes levels string (.ofString s) s :=
  ⟨.string (isQuoted_escape _), fun _ _ => name?_escape s⟩

theorem decodes_text {read? : List Char → Option α} {s : String} (h : read? s.toList = some a) :
    Decodes levels (text read?) (.ofString s) a where
  valid := .string (isQuoted_escape _)
  reads _ _ := by
    rw [text, (decodes_string s).reads (Nat.le_refl _) (Nat.zero_le _)]
    exact h

theorem decodes_enum {ofName? : String → Option α} {name : String} (h : ofName? name = some a) :
    Decodes levels (enum ofName?) (.ofString name) a where
  valid := .string (isQuoted_escape _)
  reads _ _ := by
    rw [ofString, enum, name?_escape]
    exact h

theorem integer?_integer (i : Int) : integer? (Text.integer i).toList = some i := by
  have hall (n : Nat) : (Text.digits n).all Char.isDigit = true :=
    List.all_eq_true.mpr fun _ => Text.isDigit_of_mem_digits
  rw [Text.toList_integer]
  split
  · have hne : Text.digitsValue (Text.digits i.natAbs) ≠ 0 := by
      rw [Text.digitsValue_digits]
      omega
    rw [integer?, if_pos (by simp [hall, hne]), Text.digitsValue_digits]
    exact congrArg some (by omega)
  · unfold integer?
    split
    · next heq =>
      have hdigit : '-'.isDigit = true := Text.isDigit_of_mem_digits (heq ▸ List.mem_cons_self)
      cases hdigit
    · rw [if_pos (hall _), Text.digitsValue_digits]
      exact congrArg some (by omega)

/-- An integer of a type that has the integers between two bounds. -/
theorem decodes_int {low high i : Int} {f : Int → α} (hlow : low ≤ i) (hhigh : i ≤ high) (hf : f i = a) :
    Decodes levels (map f (int low high)) (.ofInt i) a where
  valid := .number (isNumber_integer i)
  reads _ _ := by
    rw [ofInt, map, int, integer?_integer]
    exact (congrArg (Option.map f) (if_pos ⟨hlow, hhigh⟩)).trans (congrArg some hf)

theorem decodes_int8 (n : Int8) : Decodes levels int8 (.ofInt n.toInt) n :=
  decodes_int n.minValue_le_toInt n.toInt_le n.ofInt_toInt

theorem decodes_int16 (n : Int16) : Decodes levels int16 (.ofInt n.toInt) n :=
  decodes_int n.minValue_le_toInt n.toInt_le n.ofInt_toInt

theorem decodes_int32 (n : Int32) : Decodes levels int32 (.ofInt n.toInt) n :=
  decodes_int n.minValue_le_toInt n.toInt_le n.ofInt_toInt

theorem decodes_int64 (n : Int64) : Decodes levels int64 (.ofInt n.toInt) n :=
  decodes_int n.minValue_le_toInt n.toInt_le n.ofInt_toInt

theorem ofNat_eq_ofInt (n : Nat) : Json.ofNat n = .ofInt n := by
  rw [ofNat, ofInt, Text.toList_integer, if_neg (by omega)]
  rfl

theorem decodes_uint8 (n : UInt8) : Decodes levels uint8 (.ofNat n.toNat) n := by
  have hlt := n.toNat_lt
  rw [ofNat_eq_ofInt]
  exact decodes_int (by omega) (by simp only [UInt8.size]; omega) (by simp)

theorem decodes_uint32 (n : UInt32) : Decodes levels uint32 (.ofNat n.toNat) n := by
  have hlt := n.toNat_lt
  rw [ofNat_eq_ofInt]
  exact decodes_int (by omega) (by simp only [UInt32.size]; omega) (by simp)

/-! ## Lists and options -/

theorem decodes_none : Decodes levels (option d) .null none := ⟨.null, fun _ _ => rfl⟩

theorem decodes_some (hne : j ≠ .null) (h : Decodes levels d j a) : Decodes levels (option d) j (some a) := by
  refine ⟨h.valid, fun hn hdepth => ?_⟩
  unfold option
  split
  · exact absurd rfl hne
  · exact congrArg (Option.map some) (h.reads hn hdepth)

theorem decodes_option {f : α → Json} {x : Option α} (hne : ∀ a ∈ x, f a ≠ .null)
    (h : ∀ a ∈ x, Decodes levels d (f a) a) :
    Decodes levels (option d) (.ofOption f x) x := by
  cases x with
  | none => exact decodes_none
  | some a => exact decodes_some (hne a rfl) (h a rfl)

theorem each_of_decodes {js : List Json} {as : List α} (h : List.Forall₂ (Decodes levels d) js as) {n : Nat}
    (hn : n ≤ levels) (hdepth : ∀ j ∈ js, j.depth ≤ n) : each d n js = some as := by
  induction h with
  | nil => rfl
  | cons hhead _ ih =>
    rw [List.forall_mem_cons] at hdepth
    rw [each, hhead.reads hn hdepth.1, ih hdepth.2]
    rfl

theorem valid_of_decodes {js : List Json} {as : List α} (h : List.Forall₂ (Decodes levels d) js as) :
    ∀ j ∈ js, j.Valid := by
  induction h with
  | nil => simp
  | cons hhead _ ih => exact List.forall_mem_cons.mpr ⟨hhead.valid, ih⟩

theorem decodes_list {js : List Json} {as : List α} (h : List.Forall₂ (Decodes levels d) js as) :
    Decodes levels (list d) (.array js) as where
  valid := .array (valid_of_decodes h)
  reads {n} hn hdepth := by
    cases n with
    | zero => exact absurd hdepth (by simp [depth])
    | succ n =>
      rw [depth, Nat.add_le_add_iff_right, depthOfItems_le] at hdepth
      exact each_of_decodes h (Nat.le_of_succ_le hn) hdepth

/-- A list that is written item by item. -/
theorem decodes_map {f : α → Json} {as : List α} (h : ∀ a ∈ as, Decodes levels d (f a) a) :
    Decodes levels (list d) (.array (as.map f)) as :=
  decodes_list (List.forall₂_map_left_iff.mpr (List.forall₂_same.mpr h))

theorem decodes_pair {d' : Decoder β} {k : Json} {b : β} (h : Decodes levels d j a) (h' : Decodes levels d' k b) :
    Decodes levels (pair d d') (.array [j, k]) (a, b) where
  valid := .array (by simp [h.valid, h'.valid])
  reads {n} hn hdepth := by
    cases n with
    | zero => exact absurd hdepth (by simp [depth])
    | succ n =>
      rw [depth, Nat.add_le_add_iff_right, depthOfItems_le] at hdepth
      rw [pair, h.reads (Nat.le_of_succ_le hn) (hdepth j (by simp)), h'.reads (Nat.le_of_succ_le hn)
        (hdepth k (by simp))]
      rfl

/-! ## Variants -/

theorem name?_plain {name : String} (h : Plain name) : name? name.toList = some name := by
  rw [← h]
  exact name?_escape name

theorem decodes_variant {content? : String → Option (Decoder α)} {name : String} (hname : Plain name)
    (hd : content? name = some d) (h : Decodes levels d j a) :
    Decodes (levels + 1) (variant content?) (.variant name j) a where
  valid := valid_record (by simp [hname]) (by simp [h.valid])
  reads {n} hn hdepth := by
    cases n with
    | zero => exact absurd hdepth (by simp [Json.variant, record, depth])
    | succ n =>
      rw [Json.variant, depth_record_le, List.forall_mem_singleton] at hdepth
      simp only [Json.variant, record, List.map_cons, List.map_nil, variant]
      rw [name?_plain hname, Option.bind_eq_bind, Option.bind_some, hd]
      exact h.reads (Nat.le_of_succ_le_succ hn) hdepth

/-- A decoder of variants that uses itself for what is inside them. -/
theorem decodes_nestedVariant {content? : Decoder α → String → Option (Decoder α)} {name : String}
    {d : Decoder α → Decoder α} (hname : Plain name) (hd : ∀ self, content? self name = some (d self))
    (h : ∀ fuel, Decodes fuel (d (nested (fun self => variant (content? self)) fuel)) j a) (fuel : Nat) :
    Decodes fuel (nested (fun self => variant (content? self)) fuel) (.variant name j) a :=
  decodes_nested (by simp [Json.variant, record, depth]) (fun fuel => decodes_variant hname (hd _) (h fuel)) fuel

/-! ## Records -/

/-- Distinct names that are written as they are. -/
def Keys (names : List String) : Prop := names.Nodup ∧ ∀ name ∈ names, Plain name

instance (names : List String) : Decidable (Keys names) := inferInstanceAs (Decidable (_ ∧ _))

/-- What a reader of fields gives for a record within so many levels. It reads the last fields itself, one after
    another. -/
structure Yields (levels : Nat) (given last : List (String × Json)) (read : Fields → Option α) (a : α) : Prop where
  valid : ∀ p ∈ last, p.2.Valid
  reads : ∀ n ≤ levels, (∀ p ∈ given, p.2.depth ≤ n) → read ⟨n, false, given⟩ = some a

theorem knownFields_record {names : List String} {given : List (String × Json)} (hplain : ∀ p ∈ given, Plain p.1)
    (hknown : ∀ p ∈ given, p.1 ∈ names) (hnodup : (given.map (·.1)).Nodup) :
    knownFields names (given.map fun p => (p.1.toList, p.2)) = some given := by
  induction given with
  | nil => rfl
  | cons p given ih =>
    rw [List.forall_mem_cons] at hplain hknown
    rw [List.map_cons, List.nodup_cons] at hnodup
    have hnone : given.lookup p.1 = none := by
      rw [List.lookup_eq_none_iff]
      intro q hq
      exact bne_iff_ne.mpr fun hsame => hnodup.1 (hsame ▸ List.mem_map_of_mem hq)
    simp [knownFields, name?_plain hplain.1, ih hplain.2 hknown.2 hnodup.2, hknown.1, hnone]

/-- A record takes a level away from its fields. -/
theorem decodes_record_succ {names : List String} {given : List (String × Json)} {read : Fields → Option α}
    (hnames : given.map (·.1) = names) (hkeys : Keys names) (h : Yields levels given given read a) :
    Decodes (levels + 1) (fun n j => fields names n j >>= read) (.record given) a := by
  have hplain (p : String × Json) (hp : p ∈ given) : Plain p.1 :=
    hkeys.2 p.1 (hnames ▸ List.mem_map_of_mem hp)
  refine ⟨valid_record hplain h.valid, fun {n} hn hdepth => ?_⟩
  cases n with
  | zero => exact absurd hdepth (by simp [record, depth])
  | succ n =>
    rw [depth_record_le] at hdepth
    have hknown : knownFields names (given.map fun p => (p.1.toList, p.2)) = some given :=
      knownFields_record hplain (fun p hp => hnames ▸ List.mem_map_of_mem hp) (hnames ▸ hkeys.1)
    simp only [record, fields, hknown, Option.bind_eq_bind, Option.bind_some, Option.pure_def]
    exact h.reads n (Nat.le_of_succ_le_succ hn) hdepth

theorem decodes_record {names : List String} {given : List (String × Json)} {read : Fields → Option α}
    (hnames : given.map (·.1) = names) (hkeys : Keys names) (h : Yields levels given given read a) :
    Decodes levels (fun n j => fields names n j >>= read) (.record given) a :=
  (decodes_record_succ hnames hkeys h).mono (Nat.le_succ levels)

section

variable {given last : List (String × Json)} {d : Decoder β} {name : String} {b : β}

theorem Yields.done (a : α) : Yields levels given [] (fun _ => pure a) a := ⟨by simp, fun _ _ _ => rfl⟩

/-- A field that is looked up and read, and the rest of the reader. -/
theorem Yields.field {look : Fields → Option β} {read : β → Fields → Option α} (hvalid : j.Valid)
    (hlook : ∀ n ≤ levels, (∀ p ∈ given, p.2.depth ≤ n) → look ⟨n, false, given⟩ = some b)
    (h : Yields levels given last (read b) a) :
    Yields levels given ((name, j) :: last) (fun f => look f >>= fun b => read b f) a := by
  refine ⟨List.forall_mem_cons.mpr ⟨hvalid, h.valid⟩, fun n hn hdepth => ?_⟩
  simp only [hlook n hn hdepth, Option.bind_eq_bind, Option.bind_some]
  exact h.reads n hn hdepth

theorem depth_of_lookup {n : Nat} (hj : given.lookup name = some j) (hdepth : ∀ p ∈ given, p.2.depth ≤ n) :
    j.depth ≤ n := by
  obtain ⟨as, bs, heq, -⟩ := List.lookup_eq_some_iff.mp hj
  exact hdepth (name, j) (heq ▸ List.mem_append_right _ List.mem_cons_self)

theorem Yields.get {read : β → Fields → Option α} (hj : given.lookup name = some j) (hd : Decodes levels d j b)
    (h : Yields levels given last (read b) a) :
    Yields levels given ((name, j) :: last) (fun f => f.get name d >>= fun b => read b f) a := by
  refine .field hd.valid (fun n hn hdepth => ?_) h
  simp only [Fields.get, hj, Option.bind_eq_bind, Option.bind_some]
  exact hd.reads hn (depth_of_lookup hj hdepth)

theorem Yields.getD {read : β → Fields → Option α} {default : β} (hj : given.lookup name = some j)
    (hd : Decodes levels d j b) (h : Yields levels given last (read b) a) :
    Yields levels given ((name, j) :: last) (fun f => f.getD name d default >>= fun b => read b f) a := by
  refine .field hd.valid (fun n hn hdepth => ?_) h
  simp only [Fields.getD, hj]
  exact hd.reads hn (depth_of_lookup hj hdepth)

theorem Yields.get? {read : Option β → Fields → Option α} {b : Option β} (hj : given.lookup name = some j)
    (hd : Decodes levels (option d) j b) (h : Yields levels given last (read b) a) :
    Yields levels given ((name, j) :: last) (fun f => f.get? name d >>= fun b => read b f) a := by
  refine .field hd.valid (fun n hn hdepth => ?_) h
  simp only [Fields.get?, hj]
  exact hd.reads hn (depth_of_lookup hj hdepth)

end

end

end Decoder

end TreeSql
