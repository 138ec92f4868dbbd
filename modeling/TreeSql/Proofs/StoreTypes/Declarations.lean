import TreeSql.Postgres.StoreType
import TreeSql.Proofs.StoreTypes.Grammar

/-
  TreeSql.Proofs.StoreTypes.Declarations — store types, their declarations and the abstract types behind them.

  The text of a store type is its name with the arguments it shows (`shownArgs`), which follows the grammar of type
  names (`TypeName.named_written`). So the text is read as the type itself when those arguments give all its facets:
  `Declared`, `parse_text`.

  The store type of an abstract type is always `Declared` (`declared_ofPrimitive`), and its abstract type has the same
  store type again (`toDataType_ofPrimitive`, `normal_form`).

  A declaration may also give a string without a bound on its length, and a numeric type with a precision and no scale.
  `Form` lists all that a declaration gives. The abstract type of an unbounded string has the store type `text`, and
  that of a numeric type has both facets or neither; every other type comes back as it is (`declaration_settles`),
  unless its name is one that is only read.
-/
namespace TreeSql.Postgres

/-! ## Written arguments -/

namespace TypeName

/-- Further arguments, each after a comma. -/
def moreArgs (ns : List UInt32) : List Char := ns.flatMap fun n => ',' :: Text.digits n.toNat

/-- Arguments in parentheses. -/
def writtenArgs : List UInt32 → List Char
  | [] => []
  | n :: ns => '(' :: (Text.digits n.toNat ++ (moreArgs ns ++ [')']))

variable {blank : Char → Bool} {s : List Char}

theorem mark_head (mark : Char) (s : List Char) : Mark blank mark (mark :: s) s :=
  have hmark : Mark blank mark ([] ++ mark :: s) s := .intro (fun _ hc => by cases hc) s
  hmark

theorem moreArgs_noDigit (ns : List UInt32) (hs : Text.NoDigit s) : Text.NoDigit (moreArgs ns ++ s) := by
  cases ns with
  | nil => exact hs
  | cons n ns =>
    intro c hc
    cases hc
    rfl

theorem several_moreArgs (ns : List UInt32) (hs : Text.NoDigit s) :
    Several (NextNumber blank) (moreArgs ns ++ s) ns s := by
  induction ns with
  | nil => exact .nil s
  | cons n ns ih =>
    have hmore : moreArgs (n :: ns) ++ s = ',' :: (Text.digits n.toNat ++ (moreArgs ns ++ s)) := by
      simp [moreArgs]
    rw [hmore]
    exact .cons ⟨mark_head _ _, number_digits n (moreArgs_noDigit ns hs)⟩ ih

theorem arguments_written (n : UInt32) (ns : List UInt32) : Arguments blank (writtenArgs (n :: ns)) (n :: ns) [] := by
  have hclose : Text.NoDigit [')'] := by
    intro c hc
    cases hc
    rfl
  exact .intro (mark_head _ _) (number_digits n (moreArgs_noDigit ns hclose)) (several_moreArgs ns hclose)
    (mark_head _ _)

/-- A word with arguments behind it is the declaration of a name of one word. -/
theorem named_written {w : List Char} (hne : w ≠ []) (hw : ∀ c ∈ w, isWordChar c = true) (args : List UInt32) :
    Named blank (w ++ writtenArgs args) [w] args := by
  have hword (s : List Char) (hs : ∀ c ∈ s.head?, isWordChar c = false) : Words blank (w ++ s) [w] s :=
    have htoken : Token blank isWordChar ([] ++ (w ++ s)) w s := .intro (fun _ hc => by cases hc) hne hw hs
    .cons htoken (.nil s)
  cases args with
  | nil => exact .plain (hword [] (fun c hc => by cases hc)) (List.cons_ne_nil _ _) (fun c hc => by cases hc)
  | cons n ns =>
    have hopen : ∀ c ∈ (writtenArgs (n :: ns)).head?, isWordChar c = false := by
      intro c hc
      cases hc
      rfl
    exact .withArguments (hword _ hopen) (List.cons_ne_nil _ _) (arguments_written n ns) (.nil [])
      (fun c hc => by cases hc)

theorem spelled_word {name : String} (h : ∀ c ∈ name.toList, c.toLower = c) : spelled [name.toList] = name := by
  have hlower : lower name.toList = name.toList := (List.map_congr_left h).trans (List.map_id _)
  simp [spelled, hlower]

end TypeName

namespace StoreType

/-! ## The text of a declaration -/

/-- The names that declarations are read as. -/
def canonicalNames : List String := aliases.map Prod.snd

theorem lookup_canonical : ∀ name ∈ canonicalNames, aliases.lookup name = some name := by decide

theorem canonical_word {name : String} (h : name ∈ canonicalNames) : name.toList ≠ [] ∧
    ∀ c ∈ name.toList, TypeName.isWordChar c = true ∧ c.toLower = c := by
  have hall : ∀ name ∈ canonicalNames, name.toList ≠ [] ∧
      name.toList.all (fun c => TypeName.isWordChar c && c.toLower == c) = true := by decide
  obtain ⟨hne, hchars⟩ := hall name h
  exact ⟨hne, by simpa using hchars⟩

/-- The arguments that the text of a type has. -/
def shownArgs (t : StoreType) : List UInt32 :=
  if t.name = "numeric" then
    match t.facets.precision, t.facets.scale with
    | some p, some s => [p.toUInt32, s.toUInt32]
    | _, _ => []
  else if t.name = "varchar" ∨ t.name = "bpchar" then t.facets.maxLength.toList
  else if t.name = "timestamp" ∨ t.name = "timestamptz" ∨ t.name = "interval" then
    (t.facets.precision.map UInt8.toUInt32).toList
  else []

theorem argsText_eq (t : StoreType) :
    argsText t.name t.facets = String.ofList (TypeName.writtenArgs t.shownArgs) := by
  unfold argsText shownArgs
  split
  · cases t.facets.precision <;> cases t.facets.scale <;>
      simp [TypeName.writtenArgs, TypeName.moreArgs, Text.numeral, ← String.toList_inj]
  · split
    · cases t.facets.maxLength <;>
        simp [TypeName.writtenArgs, TypeName.moreArgs, Text.numeral, ← String.toList_inj]
    · split
      · cases t.facets.precision <;>
          simp [TypeName.writtenArgs, TypeName.moreArgs, Text.numeral, ← String.toList_inj]
      · rfl

/-- A type whose text says all of its facets. -/
structure Declared (t : StoreType) : Prop where
  name : t.name ∈ canonicalNames
  facets : facetsOfArgs t.name t.shownArgs = .ok t.facets

theorem parse_text {t : StoreType} (h : Declared t) : parse t.text = .ok t := by
  obtain ⟨hne, hword⟩ := canonical_word h.name
  have htext : t.text.toList = t.name.toList ++ TypeName.writtenArgs t.shownArgs := by
    rw [text, argsText_eq, String.toList_append, String.toList_ofList]
  have hnamed : TypeName.Named Text.isTokenBlank t.text.toList [t.name.toList] t.shownArgs := by
    rw [htext]
    exact TypeName.named_written hne (fun c hc => (hword c hc).1) _
  rw [parse, TypeName.parse_of_named hnamed, TypeName.spelled_word fun c hc => (hword c hc).2]
  simp only [bind, Except.bind, pure, Except.pure, lookup_canonical t.name h.name, h.facets]

/-! ## Store types of abstract types -/

theorem smallArg_toUInt32 {args : List UInt32} {i : Nat} {p : UInt8} (h : args[i]? = some p.toUInt32) :
    smallArg args i = .ok (some p) := by
  simp [smallArg, h, p.toNat_lt]

/-- Without arguments the text of a type says no facet. -/
theorem declared_plain : ∀ name ∈ canonicalNames, Declared ⟨name, {}⟩ := by
  have hplain : ∀ name ∈ canonicalNames, shownArgs ⟨name, {}⟩ = [] ∧ facetsOfArgs name [] = .ok {} := by decide
  intro name hname
  obtain ⟨hargs, hfacets⟩ := hplain name hname
  exact ⟨hname, by rw [hargs, hfacets]⟩

theorem declared_numeric (p s : UInt8) : Declared ⟨"numeric", { precision := some p, scale := some s }⟩ where
  name := (by decide : "numeric" ∈ canonicalNames)
  facets := by
    have hargs : shownArgs ⟨"numeric", { precision := some p, scale := some s }⟩ = [p.toUInt32, s.toUInt32] := rfl
    have hp : smallArg [p.toUInt32, s.toUInt32] 0 = .ok (some p) := smallArg_toUInt32 rfl
    have hs : smallArg [p.toUInt32, s.toUInt32] 1 = .ok (some s) := smallArg_toUInt32 rfl
    rw [hargs, facetsOfArgs, if_pos rfl, hp, hs]
    rfl

theorem declared_string {name : String} (hname : name = "varchar" ∨ name = "bpchar") (n : Option UInt32) :
    Declared ⟨name, { maxLength := n }⟩ := by
  have hcanonical : name ∈ canonicalNames := by rcases hname with rfl | rfl <;> decide
  refine ⟨hcanonical, ?_⟩
  rcases hname with rfl | rfl
  all_goals cases n <;> rfl

theorem declared_temporal {name : String} (hname : name = "timestamp" ∨ name = "timestamptz" ∨ name = "interval")
    (p : Option UInt8) : Declared ⟨name, { precision := p }⟩ := by
  have hcanonical : name ∈ canonicalNames := by rcases hname with rfl | rfl | rfl <;> decide
  cases p with
  | none => exact declared_plain name hcanonical
  | some p =>
    have hp : smallArg [p.toUInt32] 0 = .ok (some p) := smallArg_toUInt32 rfl
    refine ⟨hcanonical, ?_⟩
    rcases hname with rfl | rfl | rfl
    all_goals
      change (do let precision ← smallArg [p.toUInt32] 0; return ({ precision } : Facets)) = _
      rw [hp]
      rfl

theorem declared_ofString (f : Facets) : Declared (ofString f) := by
  unfold ofString
  split
  · exact declared_string (.inr rfl) _
  · split
    · exact declared_string (.inl rfl) _
    · exact declared_plain "text" (by decide)

theorem declared_ofDecimal (f : Facets) : Declared (ofDecimal f) := by
  unfold ofDecimal
  split
  · exact declared_plain "numeric" (by decide)
  · exact declared_numeric _ _

/-- The text of every type that an abstract type gets can be read back. -/
theorem declared_ofPrimitive (kind : PrimitiveKind) (f : Facets) : Declared (ofPrimitive kind f) := by
  have hserial {plain serial : String} (hp : plain ∈ canonicalNames) (hs : serial ∈ canonicalNames) :
      Declared ⟨if f.identity then serial else plain, {}⟩ := by
    cases f.identity
    · exact declared_plain _ hp
    · exact declared_plain _ hs
  cases kind with
  | byte | sbyte | int16 | int32 | int64 => exact hserial (by decide) (by decide)
  | decimal => exact declared_ofDecimal f
  | string => exact declared_ofString f
  | dateTime => exact declared_temporal (.inl rfl) _
  | dateTimeOffset => exact declared_temporal (.inr (.inl rfl)) _
  | time => exact declared_temporal (.inr (.inr rfl)) _
  | boolean | single | double | binary | guid => exact declared_plain _ (by decide)

/-- The kind that is read back: the narrow integers share one store type. -/
def storedKind : PrimitiveKind → PrimitiveKind
  | .byte | .sbyte => .int16
  | kind => kind

/-- The abstract type of a store type has the same store type again. -/
theorem toDataType_ofPrimitive (kind : PrimitiveKind) (f : Facets) : ∃ f',
    toDataType (ofPrimitive kind f) = .ok (.primitive (storedKind kind) f') ∧
      ofPrimitive (storedKind kind) f' = ofPrimitive kind f := by
  cases kind with
  | byte | sbyte | int16 | int32 | int64 =>
    cases hidentity : f.identity <;> simp only [ofPrimitive, hidentity] <;> exact ⟨_, rfl, rfl⟩
  | decimal =>
    simp only [ofPrimitive, ofDecimal]
    split <;> exact ⟨_, rfl, rfl⟩
  | string =>
    simp only [ofPrimitive, ofString]
    split
    · exact ⟨_, rfl, rfl⟩
    · split
      next h =>
        obtain ⟨n, hn⟩ := Option.isSome_iff_exists.mp h
        rw [hn]
        exact ⟨_, rfl, rfl⟩
      next => exact ⟨_, rfl, rfl⟩
  | boolean | single | double | binary | guid | dateTime | dateTimeOffset | time => exact ⟨_, rfl, rfl⟩

/-- The store type of an abstract type is a normal form: its text is read as the same type, and so is the store type of
    its abstract type, which has the kind that was asked for unless this is a byte. -/
theorem normal_form (kind : PrimitiveKind) (f : Facets) : ∃ s d,
    ofDataType (.primitive kind f) = .ok s ∧ parse s.text = .ok s ∧ toDataType s = .ok d ∧ ofDataType d = .ok s ∧
      d.kind? = some (if kind = .byte ∨ kind = .sbyte then .int16 else kind) := by
  obtain ⟨f', hback, hagain⟩ := toDataType_ofPrimitive kind f
  have hkind : storedKind kind = if kind = .byte ∨ kind = .sbyte then .int16 else kind := by cases kind <;> rfl
  refine ⟨ofPrimitive kind f, _, rfl, parse_text (declared_ofPrimitive kind f), hback, ?_, ?_⟩
  · exact congrArg Except.ok hagain
  · exact congrArg some hkind

/-! ## Types that declarations give -/

/-- What a declaration can give. Other arguments than the first of a length or a precision are dropped; a scale has
    a precision in front of it. -/
inductive Form : StoreType → Prop
  | numeric (precision scale : Option UInt8) (h : precision = none → scale = none) :
    Form ⟨"numeric", { precision, scale }⟩
  | string {name : String} (hname : name = "varchar" ∨ name = "bpchar") (maxLength : Option UInt32) :
    Form ⟨name, { maxLength }⟩
  | temporal {name : String} (hname : name = "timestamp" ∨ name = "timestamptz" ∨ name = "interval")
    (precision : Option UInt8) : Form ⟨name, { precision }⟩
  | plain {name : String} (hname : name ∈ canonicalNames) (hnumeric : name ≠ "numeric")
    (hstring : ¬ (name = "varchar" ∨ name = "bpchar")) : Form ⟨name, {}⟩

theorem smallArg_eq_none {args : List UInt32} {i : Nat} (h : smallArg args i = .ok none) : args.length ≤ i := by
  unfold smallArg at h
  split at h
  next hnone => exact List.getElem?_eq_none_iff.mp hnone
  next => split at h <;> cases h

theorem form_of_facetsOfArgs {name : String} {args : List UInt32} {f : Facets} (hname : name ∈ canonicalNames)
    (h : facetsOfArgs name args = .ok f) : Form ⟨name, f⟩ := by
  unfold facetsOfArgs at h
  split at h
  next hnumeric =>
    obtain rfl := hnumeric
    obtain ⟨precision, hp, h⟩ := ok_of_bind h
    obtain ⟨scale, hs, h⟩ := ok_of_bind h
    cases h
    refine .numeric precision scale fun hnone => ?_
    rw [hnone] at hp
    have hlength := smallArg_eq_none hp
    rw [smallArg, List.getElem?_eq_none (by omega)] at hs
    cases hs
    rfl
  next hnumeric =>
    split at h
    next hstring =>
      cases h
      exact .string hstring _
    next hstring =>
      split at h
      next htemporal =>
        obtain ⟨precision, -, h⟩ := ok_of_bind h
        cases h
        exact .temporal htemporal precision
      next =>
        cases h
        exact .plain hname hnumeric hstring

theorem form_of_parse {s : String} {t : StoreType} (h : parse s = .ok t) : Form t := by
  unfold parse at h
  obtain ⟨⟨words, args⟩, -, h⟩ := ok_of_bind h
  dsimp only at h
  split at h
  next => cases h
  next name hlookup =>
    have hname : name ∈ canonicalNames := by
      obtain ⟨l, r, hsplit, -⟩ := List.lookup_eq_some_iff.mp hlookup
      exact List.mem_map.mpr ⟨(words, name), by simp [hsplit], rfl⟩
    obtain ⟨f, hfacets, h⟩ := ok_of_bind h
    cases h
    exact form_of_facetsOfArgs hname hfacets

/-- Names that are read only: no abstract type has a store type of such a name. -/
def readOnlyNames : List String := ["date", "time", "xml", "rowversion"]

/-- A string without a bound on its length, for which abstract types have the name `text`. -/
def Unbounded (t : StoreType) : Prop := t.name = "varchar" ∧ t.facets.maxLength = none

/-- A numeric type that is declared with a precision and no scale. -/
def Scaleless (t : StoreType) : Prop := t.name = "numeric" ∧ t.facets.precision.isSome ∧ t.facets.scale = none

theorem declared_of_form {t : StoreType} (h : Form t) (hscale : ¬ Scaleless t) : Declared t := by
  cases h with
  | numeric precision scale h =>
    cases precision with
    | none =>
      rw [h rfl]
      exact declared_plain "numeric" (by decide)
    | some p =>
      cases scale with
      | none => exact absurd ⟨rfl, rfl, rfl⟩ hscale
      | some s => exact declared_numeric p s
  | string hname n => exact declared_string hname n
  | temporal hname p => exact declared_temporal hname p
  | plain hname => exact declared_plain _ hname

/-- What a store type becomes that is turned into an abstract type and back. -/
structure Settles (t t' : StoreType) : Prop where
  unbounded : Unbounded t → t' = ⟨"text", {}⟩
  scaleless : Scaleless t → t' = { t with facets := { t.facets with scale := some defaultScale } }
  other : ¬ Unbounded t → ¬ Scaleless t → t' = t

theorem settles_self {t : StoreType} (hbound : ¬ Unbounded t) (hscale : ¬ Scaleless t) : Settles t t :=
  ⟨fun h => absurd h hbound, fun h => absurd h hscale, fun _ _ => rfl⟩

theorem settles_of_name {name : String} {f : Facets} (hvarchar : name ≠ "varchar") (hnumeric : name ≠ "numeric") :
    Settles ⟨name, f⟩ ⟨name, f⟩ := settles_self (fun h => hvarchar h.1) (fun h => hnumeric h.1)

/-- A canonical name without facets comes back, if it is not read only and not an unbounded string. -/
theorem stored_plain : ∀ name ∈ canonicalNames, name ∉ readOnlyNames → name ≠ "varchar" →
    (primitive? name {}).map (fun d => ofPrimitive d.1 d.2) = some ⟨name, {}⟩ := by decide

theorem stored_of_form {t : StoreType} (h : Form t) (hwritten : t.name ∉ readOnlyNames) :
    ∃ kind f, toDataType t = .ok (.primitive kind f) ∧ Settles t (ofPrimitive kind f) := by
  cases h with
  | numeric precision scale h =>
    have hbound (f : Facets) : ¬ Unbounded ⟨"numeric", f⟩ := fun h =>
      absurd h.1 (by decide : "numeric" ≠ "varchar")
    refine ⟨.decimal, { precision, scale }, rfl, ?_⟩
    cases precision with
    | none =>
      rw [h rfl]
      exact settles_self (hbound _) fun h => by cases h.2.1
    | some p =>
      cases scale with
      | none => exact ⟨fun h => absurd h (hbound _), fun _ => rfl, fun _ h => absurd ⟨rfl, rfl, rfl⟩ h⟩
      | some s => exact settles_self (hbound _) fun h => by cases h.2.2
  | string hname n =>
    rcases hname with rfl | rfl
    · have hscale : ¬ Scaleless ⟨"varchar", { maxLength := n }⟩ := fun h => by cases h.2.1
      refine ⟨.string, { fixedLength := some false, maxLength := n }, rfl, ?_⟩
      cases n with
      | none => exact ⟨fun _ => rfl, fun h => absurd h hscale, fun h => absurd ⟨rfl, rfl⟩ h⟩
      | some n => exact settles_self (fun h => by cases h.2) hscale
    · exact ⟨_, _, rfl, settles_of_name (by decide) (by decide)⟩
  | temporal hname p =>
    rcases hname with rfl | rfl | rfl
    all_goals exact ⟨_, _, rfl, settles_of_name (by decide) (by decide)⟩
  | @plain name hcanonical hnumeric hstring =>
    have hvarchar : name ≠ "varchar" := fun h => hstring (.inl h)
    have hstored := stored_plain name hcanonical hwritten hvarchar
    obtain ⟨⟨kind, f⟩, hprimitive, hback⟩ := Option.map_eq_some_iff.mp hstored
    have hsettles : Settles ⟨name, {}⟩ (ofPrimitive kind f) := by
      rw [hback]
      exact settles_of_name hvarchar hnumeric
    exact ⟨kind, f, by rw [toDataType, hprimitive], hsettles⟩

/-- A declaration comes back from its abstract type with the same length, precision and scale. Only a string without
    a bound is the type `text` there, and a numeric type with a precision only gets the default scale. From its text a
    declaration comes back as it is, unless it is such a numeric type. -/
theorem declaration_settles {s : String} {t : StoreType} (h : parse s = .ok t) (hname : t.name ∉ readOnlyNames) :
    (∃ d t', toDataType t = .ok d ∧ ofDataType d = .ok t' ∧ Settles t t') ∧
      (¬ Scaleless t → parse t.text = .ok t) := by
  have hform := form_of_parse h
  obtain ⟨kind, f, habstract, hsettles⟩ := stored_of_form hform hname
  exact ⟨⟨_, _, habstract, rfl, hsettles⟩, fun hscale => parse_text (declared_of_form hform hscale)⟩

theorem declaration_settles_timestamp :
    parse "Timestamp (3)\twith time zone" = .ok ⟨"timestamptz", { precision := some 3 }⟩ ∧
      (∃ d t', toDataType ⟨"timestamptz", { precision := some 3 }⟩ = .ok d ∧ ofDataType d = .ok t' ∧
        Settles ⟨"timestamptz", { precision := some 3 }⟩ t') ∧
      parse "timestamptz(3)" = .ok ⟨"timestamptz", { precision := some 3 }⟩ := by
  have hparse : parse "Timestamp (3)\twith time zone" = .ok ⟨"timestamptz", { precision := some 3 }⟩ := by rfl
  have hname : "timestamptz" ∉ readOnlyNames := by decide
  obtain ⟨hstored, htext⟩ := declaration_settles hparse hname
  exact ⟨hparse, hstored, htext fun h => absurd h.1 (by decide : "timestamptz" ≠ "numeric")⟩

/-- A string without a bound comes back as `text`. A numeric type with a precision only comes back with a scale, and its
    text does not have the precision. -/
theorem unbounded_or_scaleless_changes :
    (∃ d, parse "varchar" = .ok ⟨"varchar", {}⟩ ∧ toDataType ⟨"varchar", {}⟩ = .ok d ∧
        ofDataType d = .ok ⟨"text", {}⟩) ∧
      ∃ d, parse "numeric(10)" = .ok ⟨"numeric", { precision := some 10 }⟩ ∧
        toDataType ⟨"numeric", { precision := some 10 }⟩ = .ok d ∧
        ofDataType d = .ok ⟨"numeric", { precision := some 10, scale := some 4 }⟩ ∧
        parse (text ⟨"numeric", { precision := some 10 }⟩) = .ok ⟨"numeric", {}⟩ := by
  refine ⟨⟨_, by rfl, rfl, rfl⟩, _, by rfl, rfl, rfl, by rfl⟩

end StoreType

end TreeSql.Postgres
