import TreeSql.Json.Basic
import TreeSql.Json.Float

/-
  TreeSql.Json.Decoder — reading data out of JSON values.

  A decoder knows how many levels of arrays and objects it may still enter; what it skips may nest
  to any depth. Variants are objects of one field, named for the variant, or plain strings where
  nothing belongs to the variant. Records are objects, in which unknown fields are skipped and known
  ones may not repeat, or arrays of the fields in their order, which may end early.
-/
namespace TreeSql

/-- A reader of JSON values: the levels it may enter, the value, and what it stands for. -/
abbrev Decoder (α : Type) := (levels : Nat) → Json → Option α

namespace Decoder

/-- The levels that a value may have. -/
def maxLevels : Nat := 127

/-- Reads a whole value. -/
def decode? {α : Type} (d : Decoder α) (j : Json) : Option α := d maxLevels j

def map {α β : Type} (f : α → β) (d : Decoder α) : Decoder β := fun n j => (d n j).map f

/-- Reads with a decoder that may use itself on the levels below. Each use enters a level, so there
    are no more uses than levels. -/
def nested {α : Type} (step : Decoder α → Decoder α) : (fuel : Nat) → Decoder α
  | 0, _, _ => none
  | fuel + 1, n, j => step (nested step fuel) n j

def recursive {α : Type} (step : Decoder α → Decoder α) : Decoder α :=
  fun n j => nested step n n j

/-! ## Scalars -/

def bool : Decoder Bool
  | _, .bool b => some b
  | _, _ => none

def string : Decoder String := fun _ j => j.string?

/-- What a text stands for. -/
def text {α : Type} (read? : List Char → Option α) : Decoder α := fun n j => do
  read? (← string n j).toList

/-- The integer that a token spells. A token with a point or an exponent is none, and neither is
    negative zero. -/
def integer? : List Char → Option Int
  | '-' :: ds =>
    if ds.all Char.isDigit && Text.digitsValue ds != 0 then some (-(Text.digitsValue ds : Int)) else none
  | ds => if ds.all Char.isDigit then some (Text.digitsValue ds) else none

/-- An integer between two bounds. -/
def int (low high : Int) : Decoder Int
  | _, .number token => do
    let i ← integer? token
    if low ≤ i ∧ i ≤ high then some i else none
  | _, _ => none

def int8 : Decoder Int8 := map Int8.ofInt (int Int8.minValue.toInt Int8.maxValue.toInt)

def int16 : Decoder Int16 := map Int16.ofInt (int Int16.minValue.toInt Int16.maxValue.toInt)

def int32 : Decoder Int32 := map Int32.ofInt (int Int32.minValue.toInt Int32.maxValue.toInt)

def int64 : Decoder Int64 := map Int64.ofInt (int Int64.minValue.toInt Int64.maxValue.toInt)

def uint8 : Decoder UInt8 := map (fun i => UInt8.ofNat i.toNat) (int 0 (UInt8.size - 1))

def uint32 : Decoder UInt32 := map (fun i => UInt32.ofNat i.toNat) (int 0 (UInt32.size - 1))

/-- An integer that fits 64 bits, with or without a sign. -/
def machineInteger? (token : List Char) : Option Int := do
  let i ← integer? token
  if Int64.minValue.toInt ≤ i ∧ i < UInt64.size then some i else none

def double : Decoder Number.Double
  | _, .number token => Json.double? token
  | _, _ => none

/-- A number of single precision: the nearest one to an integer of 64 bits, and the nearest one to
    the double of any other token. -/
def single : Decoder Number.Single
  | _, .number token =>
    match machineInteger? token with
    | some i => some (.ofInt .single i)
    | none => (Json.double? token).map (·.convert .single)
  | _, _ => none

/-! ## Lists and options -/

def option {α : Type} (d : Decoder α) : Decoder (Option α)
  | _, .null => some none
  | n, j => (d n j).map some

/-- Each value of a list. -/
def each {α : Type} (d : Decoder α) (n : Nat) : List Json → Option (List α)
  | [] => some []
  | j :: js => do return (← d n j) :: (← each d n js)

def list {α : Type} (d : Decoder α) : Decoder (List α)
  | n + 1, .array items => each d n items
  | _, _ => none

/-- Two values in an array. -/
def pair {α β : Type} (a : Decoder α) (b : Decoder β) : Decoder (α × β)
  | n + 1, .array [x, y] => do return (← a n x, ← b n y)
  | _, _ => none

/-! ## Variants -/

/-- A name as text. -/
def name? (escaped : List Char) : Option String := (Json.unescape? escaped).map String.ofList

/-- Variants without content: the name alone, or with a null. -/
def enum {α : Type} (ofName? : String → Option α) : Decoder α
  | _, .string escaped => do ofName? (← name? escaped)
  | _ + 1, .object [(escaped, .null)] => do ofName? (← name? escaped)
  | _, _ => none

/-- Variants with content, each with its decoder. -/
def variant {α : Type} (content? : String → Option (Decoder α)) : Decoder α
  | n + 1, .object [(escaped, content)] => do
    let d ← content? (← name? escaped)
    d n content
  | _, _ => none

/-! ## Records -/

/-- The fields of a record that are given. -/
structure Fields where
  /-- The levels that are left inside. -/
  levels : Nat
  /-- Whether the fields are given by place. -/
  byPlace : Bool
  given : List (String × Json)

/-- The fields with a known name; none if a known name repeats or a name is not text. -/
def knownFields (names : List String) : List (List Char × Json) → Option (List (String × Json))
  | [] => some []
  | (escaped, j) :: rest => do
    let name ← name? escaped
    let fields ← knownFields names rest
    if !names.contains name then return fields
    else if (fields.lookup name).isSome then none
    else return (name, j) :: fields

/-- The fields of a record with the given names. -/
def fields (names : List String) : Decoder Fields
  | n + 1, .object given => do return ⟨n, false, ← knownFields names given⟩
  | n + 1, .array items =>
    if items.length ≤ names.length then some ⟨n, true, names.zip items⟩ else none
  | _, _ => none

namespace Fields

/-- A field that has to be there. -/
def get {α : Type} (f : Fields) (name : String) (d : Decoder α) : Option α := do
  d f.levels (← f.given.lookup name)

/-- A field with a default. -/
def getD {α : Type} (f : Fields) (name : String) (d : Decoder α) (default : α) : Option α :=
  match f.given.lookup name with
  | some j => d f.levels j
  | none => some default

/-- A field that may be absent, though not from an array. -/
def get? {α : Type} (f : Fields) (name : String) (d : Decoder α) : Option (Option α) :=
  match f.given.lookup name with
  | some j => option d f.levels j
  | none => if f.byPlace then none else some none

end Fields

end Decoder

end TreeSql
