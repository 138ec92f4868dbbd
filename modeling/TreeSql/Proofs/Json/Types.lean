import TreeSql.Proofs.Json.Decoding
import TreeSql.Value.Json

/-
  TreeSql.Proofs.Json.Types — types and constants read back.
-/
namespace TreeSql

open Json Decoder

variable {levels : Nat}

theorem decodes_kind (k : PrimitiveKind) : Decodes levels PrimitiveKind.decoder k.toJson k :=
  decodes_enum k.ofName?_name

theorem ofString_ne_null (s : String) : Json.ofString s ≠ .null := by simp [ofString]

theorem decodes_optionalString (s : Option String) : Decodes levels (option string) (.ofOption .ofString s) s :=
  decodes_option (fun _ _ => ofString_ne_null _) fun s _ => decodes_string s

theorem decodes_facets (f : Facets) : Decodes levels Facets.decoder f.toJson f :=
  have hlength : Decodes levels (option uint32) (.ofOption (fun n => .ofNat n.toNat) f.maxLength) f.maxLength :=
    decodes_option (fun _ _ => by simp [ofNat]) fun n _ => decodes_uint32 n
  have hbyte (x : Option UInt8) : Decodes levels (option uint8) (.ofOption (fun n => .ofNat n.toNat) x) x :=
    decodes_option (fun _ _ => by simp [ofNat]) fun n _ => decodes_uint8 n
  have hfixed : Decodes levels (option bool) (.ofOption .bool f.fixedLength) f.fixedLength :=
    decodes_option (fun _ _ => by simp) fun b _ => decodes_bool b
  decodes_record rfl (by decide)
    (.getD rfl hlength (.getD rfl (hbyte _) (.getD rfl (hbyte _)
      (.getD rfl hfixed (.getD rfl (decodes_bool _) (.done _))))))

/-! ## Types -/

namespace DataType

theorem depth_toJson_pos (t : DataType) : 0 < t.toJson.depth := by
  cases t <;> simp [toJson, typeRecord, record, depth]

theorem decodes_typeRecord {type : Decoder DataType} {shape : Json} {t : DataType}
    (hshape : Decodes (levels + 1) (shapeDecoder type) shape t) (f : Facets) :
    Decodes (levels + 1) (decoderStep type) (typeRecord shape f) (t.withFacets f) :=
  decodes_record_succ rfl (by decide)
    (.get rfl (hshape.mono (Nat.le_succ levels)) (.getD rfl (decodes_facets f) (.done _)))

theorem decodes_member {type : Decoder DataType} {j : Json} {t : DataType} (name : String)
    (h : Decodes levels type j t) :
    Decodes levels (namedDecoder type) (.record [("name", .ofString name), ("ty", j)]) ⟨name, t⟩ :=
  decodes_record rfl (by decide) (.get rfl (decodes_string name) (.get rfl h (.done _)))

mutual

theorem decodes_toJson : ∀ (t : DataType) (fuel : Nat), Decodes fuel (nested decoderStep fuel) t.toJson t
  | primitive k f, fuel =>
    decodes_nested (depth_toJson_pos _)
      (fun _ => decodes_typeRecord (decodes_variant (by decide) rfl ((decodes_kind k).map ofKind)) f) fuel
  | row ms f, fuel =>
    decodes_nested (depth_toJson_pos _)
      (fun fuel => decodes_typeRecord
        (decodes_variant (by decide) rfl ((decodes_list (decodes_membersToJson ms fuel)).map ofMembers)) f) fuel
  | collection e f, fuel =>
    decodes_nested (depth_toJson_pos _)
      (fun fuel => decodes_typeRecord (decodes_variant (by decide) rfl
        ((decodes_toJson e fuel).map ofElement)) f) fuel
termination_by structural t => t

theorem decodes_membersToJson : ∀ (ms : List Member) (fuel : Nat),
    List.Forall₂ (Decodes fuel (namedDecoder (nested decoderStep fuel))) (membersToJson ms) ms
  | [], _ => .nil
  | ⟨name, t⟩ :: ms, fuel => .cons (decodes_member name (decodes_toJson t fuel)) (decodes_membersToJson ms fuel)
termination_by structural ms => ms

end

end DataType

theorem decodes_type (t : DataType) : Decodes levels DataType.decoder t.toJson t := decodes_recursive t.decodes_toJson

theorem decodes_named (m : Member) : Decodes levels Named.decoder m.toJson m :=
  DataType.decodes_member m.name (decodes_type m.type)

/-! ## Constants -/

theorem decodes_interval (i : Interval) : Decodes levels Interval.decoder i.toJson i :=
  decodes_record rfl (by decide) (.get rfl (decodes_int64 i.micros) (.done _))

namespace Value

/-- Whether the text of a constant that is written as text is read as the constant. Floating-point numbers are left
    out. -/
def readsBack : Value → Bool
  | decimal x => Number.Decimal.ofText? x.text.toList = some x
  | guid g => Guid.ofText? g.text.toList = some g
  | dateTime t => Timestamp.ofText? t.text.toList = some t
  | dateTimeOffset t => ZonedTimestamp.ofText? t.text.toList = some t
  | single _ | double _ => false
  | _ => true

theorem decodes_toJson {v : Value} (h : v.readsBack = true) : Decodes (levels + 1) decoder v.toJson v := by
  cases v with
  | bool b => exact decodes_variant (by decide) rfl ((decodes_bool b).map bool)
  | byte n => exact decodes_variant (by decide) rfl ((decodes_uint8 n).map byte)
  | sbyte n => exact decodes_variant (by decide) rfl ((decodes_int8 n).map sbyte)
  | int16 n => exact decodes_variant (by decide) rfl ((decodes_int16 n).map int16)
  | int32 n => exact decodes_variant (by decide) rfl ((decodes_int32 n).map int32)
  | int64 n => exact decodes_variant (by decide) rfl ((decodes_int64 n).map int64)
  | single x | double x => cases h
  | decimal x =>
    rw [readsBack, decide_eq_true_iff] at h
    have htext : Decodes levels Number.Decimal.decoder (.ofString x.text) x :=
      ⟨.string (isQuoted_escape _), (decodes_text h).reads⟩
    exact decodes_variant (by decide) rfl (htext.map decimal)
  | string s => exact decodes_variant (by decide) rfl ((decodes_string s).map string)
  | binary bytes => exact decodes_variant (by decide) rfl ((decodes_map fun b _ => decodes_uint8 b).map binary)
  | guid g =>
    rw [readsBack, decide_eq_true_iff] at h
    exact decodes_variant (by decide) rfl ((decodes_text h).map guid)
  | dateTime t =>
    rw [readsBack, decide_eq_true_iff] at h
    exact decodes_variant (by decide) rfl ((decodes_text h).map dateTime)
  | dateTimeOffset t =>
    rw [readsBack, decide_eq_true_iff] at h
    exact decodes_variant (by decide) rfl ((decodes_text h).map dateTimeOffset)
  | time i => exact decodes_variant (by decide) rfl ((decodes_interval i).map time)

end Value

end TreeSql
