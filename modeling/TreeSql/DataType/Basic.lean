/-
  TreeSql.DataType.Basic — the types of expressions, independent of the server.

  A type is primitive, a row of named members, or a collection of one element type; every type
  carries facets. `SameType` compares two types without the facets at their top: the facets of
  members and elements are part of the type.
-/
namespace TreeSql

inductive PrimitiveKind where
  | boolean
  | byte
  | sbyte
  | int16
  | int32
  | int64
  | single
  | double
  | decimal
  | string
  | binary
  | guid
  | dateTime
  | dateTimeOffset
  | time
deriving DecidableEq

namespace PrimitiveKind

def all : List PrimitiveKind :=
  [boolean, byte, sbyte, int16, int32, int64, single, double, decimal, string, binary, guid,
    dateTime, dateTimeOffset, time]

def name : PrimitiveKind → String
  | boolean => "Boolean"
  | byte => "Byte"
  | sbyte => "SByte"
  | int16 => "Int16"
  | int32 => "Int32"
  | int64 => "Int64"
  | single => "Single"
  | double => "Double"
  | decimal => "Decimal"
  | string => "String"
  | binary => "Binary"
  | guid => "Guid"
  | dateTime => "DateTime"
  | dateTimeOffset => "DateTimeOffset"
  | time => "Time"

def ofName? (s : String) : Option PrimitiveKind := all.find? (·.name == s)

theorem ofName?_name (k : PrimitiveKind) : ofName? k.name = some k := by cases k <;> decide

end PrimitiveKind

/-- What a declaration says about a type beside its name. -/
structure Facets where
  maxLength : Option UInt32 := none
  precision : Option UInt8 := none
  scale : Option UInt8 := none
  fixedLength : Option Bool := none
  identity : Bool := false
deriving DecidableEq

/-- A name with a type. -/
structure Named (τ : Type) where
  name : String
  type : τ
deriving DecidableEq

inductive DataType where
  | primitive (kind : PrimitiveKind) (facets : Facets)
  | row (members : List (Named DataType)) (facets : Facets)
  | collection (element : DataType) (facets : Facets)

/-- A member of a row type. -/
abbrev Member := Named DataType

namespace DataType

/-! ## Equality -/

mutual

/-- Equality by comparison of the parts. -/
def decEq : (a b : DataType) → Decidable (a = b)
  | primitive k f, primitive k' f' =>
    if h : k = k' ∧ f = f' then isTrue (by rw [h.1, h.2])
    else isFalse (by simpa using h)
  | row ms f, row ms' f' =>
    match decEqMembers ms ms' with
    | isTrue hm => if hf : f = f' then isTrue (by rw [hm, hf]) else isFalse (by simp [hf])
    | isFalse hm => isFalse (by simp [hm])
  | collection e f, collection e' f' =>
    match decEq e e' with
    | isTrue he => if hf : f = f' then isTrue (by rw [he, hf]) else isFalse (by simp [hf])
    | isFalse he => isFalse (by simp [he])
  | primitive .., row .. => isFalse (by simp)
  | primitive .., collection .. => isFalse (by simp)
  | row .., primitive .. => isFalse (by simp)
  | row .., collection .. => isFalse (by simp)
  | collection .., primitive .. => isFalse (by simp)
  | collection .., row .. => isFalse (by simp)
termination_by structural a => a

/-- The same for a list of members. -/
def decEqMembers : (as bs : List (Named DataType)) → Decidable (as = bs)
  | [], [] => isTrue rfl
  | [], _ :: _ => isFalse (by simp)
  | _ :: _, [] => isFalse (by simp)
  | ⟨n, t⟩ :: as, ⟨n', t'⟩ :: bs =>
    if hn : n = n' then
      match decEq t t' with
      | isTrue ht =>
        match decEqMembers as bs with
        | isTrue hs => isTrue (by rw [hn, ht, hs])
        | isFalse hs => isFalse (by simp [hs])
      | isFalse ht => isFalse (by simp [ht])
    else isFalse (by simp [hn])
termination_by structural as => as

end

instance : DecidableEq DataType := decEq

/-! ## Facets -/

def facets : DataType → Facets
  | primitive _ f => f
  | row _ f => f
  | collection _ f => f

def withFacets : DataType → Facets → DataType
  | primitive k _, f => primitive k f
  | row ms _, f => row ms f
  | collection e _, f => collection e f

theorem facets_withFacets (t : DataType) (f : Facets) : (t.withFacets f).facets = f := by
  cases t <;> rfl

/-- Equal up to the facets at the top. -/
def SameType (a b : DataType) : Prop := a.withFacets {} = b.withFacets {}

instance (a b : DataType) : Decidable (SameType a b) := inferInstanceAs (Decidable (_ = _))

theorem SameType.rfl {a : DataType} : SameType a a := Eq.refl _

theorem SameType.symm {a b : DataType} (h : SameType a b) : SameType b a := Eq.symm h

theorem SameType.trans {a b c : DataType} (h : SameType a b) (h' : SameType b c) : SameType a c :=
  Eq.trans h h'

/-! ## Constructors without facets, and the parts -/

def ofKind (kind : PrimitiveKind) : DataType := primitive kind {}

def ofMembers (members : List Member) : DataType := row members {}

def ofElement (element : DataType) : DataType := collection element {}

def boolean : DataType := ofKind .boolean

def string : DataType := ofKind .string

def kind? : DataType → Option PrimitiveKind
  | primitive k _ => some k
  | _ => none

def element? : DataType → Option DataType
  | collection e _ => some e
  | _ => none

/-- The element type of a collection; any other type itself. -/
def elementOrSelf : DataType → DataType
  | collection e _ => e
  | t => t

/-- The members of a row, or of the row that a collection holds. -/
def members? : DataType → Option (List Member)
  | row ms _ => some ms
  | collection e _ => e.members?
  | primitive .. => none

end DataType

end TreeSql
