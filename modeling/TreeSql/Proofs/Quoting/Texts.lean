import TreeSql.Postgres.Literal
import TreeSql.Postgres.StoreType
import TreeSql.Proofs.Quoting.Lexer
import TreeSql.Proofs.Text.Runs

/-
  TreeSql.Proofs.Quoting.Texts — quoted names, literals and names of types read as one stretch.

  A quoted name and a string with escapes read whatever they hold. A plain string reads if no quote is in
  it; numbers, identifiers, times and bytes are written without any.
-/
namespace TreeSql.Quoting

open Postgres

variable {d : Nat} {s : String} {cs : List Char}

/-! ## Quotes -/

/-- A stretch from quote to quote, with what stands around it. -/
theorem reads_quoted {opening closing : List Char} {inside : Mode} {j : Nat} (ended : Mode)
    (hopen : scan ⟨.between, 0⟩ opening = some ⟨inside, j⟩) (hbody : ∀ d, scan ⟨inside, d⟩ cs = some ⟨inside, d⟩)
    (hclose : scan ⟨inside, j⟩ closing = some ⟨ended, 0⟩) (hended : ended.isOutside = true)
    (hs : s.toList = opening ++ cs ++ closing) : Reads s := by
  intro m hm k
  obtain rfl : m = .between := by simpa [Edge.allows] using hm
  refine ⟨ended, hended, ?_⟩
  have hopen : scan ⟨.between, 0 + k⟩ opening = some ⟨inside, j + k⟩ := scan_under hopen k
  have hclose : scan ⟨inside, j + k⟩ closing = some ⟨ended, 0 + k⟩ := scan_under hclose k
  rw [hs, scan_append, scan_append, hopen, Option.bind_some, hbody, Option.bind_some, hclose]

theorem scan_inName (cs : List Char) (d : Nat) :
    scan ⟨.inName, d⟩ (Quote.doubleQuotes cs) = some ⟨.inName, d⟩ := by
  induction cs with
  | nil => rfl
  | cons c cs ih =>
    rw [Quote.doubleQuotes, List.flatMap_cons, scan_append]
    by_cases hc : c = '"'
    · rw [if_pos hc]
      exact ih
    · have hstep : step ⟨.inName, d⟩ c = some ⟨.inName, d⟩ := by simp [step, hc]
      rw [if_neg hc, scan_cons, hstep]
      exact ih

theorem reads_identifier (name : String) : Reads (Quote.identifier name) := by
  have hopen : scan ⟨.between, 0⟩ ['"'] = some ⟨.inName, 0⟩ := rfl
  have hclose : scan ⟨.inName, 0⟩ ['"'] = some ⟨.afterName, 0⟩ := rfl
  refine reads_quoted .afterName hopen (scan_inName name.toList) hclose rfl ?_
  rw [Quote.identifier, String.toList_ofList]
  rfl

theorem scan_inEscapes (cs : List Char) (d : Nat) :
    scan ⟨.inEscapes, d⟩ (Quote.escapeString cs) = some ⟨.inEscapes, d⟩ := by
  induction cs with
  | nil => rfl
  | cons c cs ih =>
    rw [Quote.escapeString, List.flatMap_cons, scan_append]
    by_cases hbackslash : c = '\\'
    · rw [if_pos hbackslash]
      exact ih
    by_cases hquote : c = '\''
    · rw [if_neg hbackslash, if_pos hquote]
      exact ih
    · have hstep : step ⟨.inEscapes, d⟩ c = some ⟨.inEscapes, d⟩ := by simp [step, hbackslash, hquote]
      rw [if_neg hbackslash, if_neg hquote, scan_cons, hstep]
      exact ih

theorem reads_string (text : String) : Reads (Quote.string text) := by
  have hopen : scan ⟨.between, 0⟩ ['E', '\''] = some ⟨.inEscapes, 0⟩ := rfl
  have hclose : scan ⟨.inEscapes, 0⟩ ['\''] = some ⟨.afterEscapes, 0⟩ := rfl
  refine reads_quoted .afterEscapes hopen (scan_inEscapes text.toList) hclose rfl ?_
  rw [Quote.string, String.toList_ofList]
  rfl

theorem scan_inString (h : '\'' ∉ cs) (d : Nat) : scan ⟨.inString, d⟩ cs = some ⟨.inString, d⟩ := by
  induction cs with
  | nil => rfl
  | cons c cs ih =>
    rw [List.mem_cons, not_or] at h
    have hstep : step ⟨.inString, d⟩ c = some ⟨.inString, d⟩ := by simp [step, Ne.symm h.1]
    rw [scan_cons, hstep]
    exact ih h.2

/-- No quote is in the text, so that it can stand in a plain string. -/
def Unquoted (s : String) : Prop := '\'' ∉ s.toList

/-- A plain string, with what stands around it. -/
theorem reads_plain {opening closing text : String} (j : Nat) (ended : Mode)
    (hopen : scan ⟨.between, 0⟩ opening.toList = some ⟨.inString, j⟩) (h : Unquoted text)
    (hclose : scan ⟨.inString, j⟩ closing.toList = some ⟨ended, 0⟩) (hended : ended.isOutside = true) :
    Reads (opening ++ text ++ closing) := by
  refine reads_quoted ended hopen (scan_inString h) hclose hended ?_
  rw [String.toList_append, String.toList_append]

/-! ## Words and numbers -/

/-- The characters that can change more than the mode, or begin something that has to end. -/
def signs : List Char := ['"', '\'', '(', ')', '-', '/', '*']

theorem step_of_not_sign {m : Mode} (hm : m.isOutside = true) {c : Char} (hc : c ∉ signs) (d : Nat) :
    ∃ m' : Mode, m'.isOutside = true ∧ step ⟨m, d⟩ c = some ⟨m', d⟩ := by
  simp only [signs, List.mem_cons, List.not_mem_nil, or_false, not_or] at hc
  have hstart : start d c = some ⟨Mode.start c, d⟩ := by simp [start, depthAfter?, hc]
  have houtside : (Mode.start c).isOutside = true := by
    simp only [Mode.start, hc, if_false]
    split
    · rfl
    · split <;> rfl
  cases m with
  | inName | inString | inEscapes | backslash => cases hm
  | _ =>
    simp only [step, hc, if_false]
    grind [Mode.isOutside]

/-- What passes a test that no sign passes is not a sign. -/
theorem not_sign_of_test {p : Char → Bool} (hsigns : signs.any p = false) {c : Char} (h : p c = true) : c ∉ signs := by
  intro hc
  have hany : signs.any p = true := List.any_eq_true.mpr ⟨c, hc, h⟩
  rw [hsigns] at hany
  cases hany

theorem no_signs_fixed (h : (s.toList.all fun c => !signs.contains c) = true) : ∀ c ∈ s.toList, c ∉ signs := by
  simpa using h

/-- A text without signs can stand anywhere. -/
theorem runs_of_no_signs (h : ∀ c ∈ s.toList, c ∉ signs) : Runs .any .any 0 0 s := by
  intro m hm k
  generalize s.toList = cs at h
  induction cs generalizing m with
  | nil => exact ⟨m, hm, rfl⟩
  | cons c cs ih =>
    obtain ⟨m', hm', hstep⟩ := step_of_not_sign hm (h c (.head _)) (0 + k)
    obtain ⟨m'', hm'', hrest⟩ := ih m' hm' fun c hc => h c (.tail _ hc)
    exact ⟨m'', hm'', by rw [scan_cons, hstep, Option.bind_some, hrest]⟩

/-- A text without signs, or such a text after a minus. -/
def Signed (s : String) : Prop :=
  ∃ (negative : Bool) (rest : String), s = (if negative then "-" else "") ++ rest ∧ ∀ c ∈ rest.toList, c ∉ signs

theorem Signed.reads (h : Signed s) : Reads s := by
  obtain ⟨negative, rest, rfl, h⟩ := h
  have hrest := runs_of_no_signs h
  cases negative with
  | false => exact (runs_empty (e := .clear)).toAny.append hrest
  | true =>
    have hminus : Reads "-" := runs_fixed (by decide)
    exact hminus.append hrest

theorem reads_of_no_signs (h : ∀ c ∈ s.toList, c ∉ signs) : Reads s := (runs_of_no_signs h).ofAny

/-- A stretch in parentheses can stand anywhere. -/
theorem Reads.inParens (h : Reads s) : Runs .any .clear 0 0 ("(" ++ s ++ ")") :=
  have hopen : Runs .any .clear 0 1 "(" := runs_fixed (by decide)
  have hclose : Runs .any .clear 1 0 ")" := runs_fixed (by decide)
  (hopen.append (h.deeper 1)).append hclose

theorem not_sign_of_isDigit {c : Char} (h : c.isDigit = true) : c ∉ signs := not_sign_of_test (by decide) h

theorem no_signs_numeral (n : Nat) : ∀ c ∈ (Text.numeral n).toList, c ∉ signs := by
  rw [Text.numeral, String.toList_ofList]
  exact fun c hc => not_sign_of_isDigit (Text.isDigit_of_mem_digits hc)

theorem no_signs_paddedNumeral (width n : Nat) : ∀ c ∈ (Text.paddedNumeral width n).toList, c ∉ signs := by
  rw [Text.paddedNumeral, String.toList_ofList]
  exact fun c hc => not_sign_of_isDigit (Text.isDigit_of_mem_padded hc)

theorem signed_integer (i : Int) : Signed (Text.integer i) := by
  refine ⟨decide (i < 0), Text.numeral i.natAbs, ?_, no_signs_numeral i.natAbs⟩
  unfold Text.integer
  split <;> simp [*]

/-- Digits, and a point with digits after it. -/
theorem no_signs_pointed {whole fraction : List Char} (hwhole : ∀ c ∈ whole, c.isDigit = true)
    (hfraction : ∀ c ∈ fraction, c.isDigit = true) : ∀ c ∈ whole ++ '.' :: fraction, c ∉ signs := by
  intro c hc
  rcases List.mem_append.mp hc with hc | hc
  · exact not_sign_of_isDigit (hwhole c hc)
  · rcases List.mem_cons.mp hc with rfl | hc
    · decide
    · exact not_sign_of_isDigit (hfraction c hc)

theorem no_signs_positional (digits : Nat) (exponent : Int) :
    ∀ c ∈ Number.positional digits exponent, c ∉ signs := by
  unfold Number.positional
  split
  · dsimp only
    have hwhole (n : Nat) : ∀ c ∈ (Text.padded (exponent.natAbs + 1) digits).take n, c.isDigit = true :=
      fun c hc => Text.isDigit_of_mem_padded (List.mem_of_mem_take hc)
    have hfraction (n : Nat) : ∀ c ∈ Number.dropTrailingZeros ((Text.padded (exponent.natAbs + 1) digits).drop n),
        c.isDigit = true := by
      intro c hc
      have hc := (List.dropWhile_sublist _).subset (List.mem_reverse.mp hc)
      exact Text.isDigit_of_mem_padded (List.mem_of_mem_drop (List.mem_reverse.mp hc))
    split
    · exact fun c hc => not_sign_of_isDigit (hwhole _ c hc)
    · exact no_signs_pointed (hwhole _) (hfraction _)
  · exact fun c hc => not_sign_of_isDigit (Text.isDigit_of_mem_digits hc)

theorem signed_binaryText {f : Number.BinaryFormat} (x : Number.Binary f) : Signed x.text := by
  unfold Number.Binary.text
  split
  · exact ⟨false, "NaN", rfl, no_signs_fixed (by decide)⟩
  · dsimp only
    split
    · exact ⟨x.negative, _, rfl, no_signs_fixed (by decide)⟩
    · split
      · exact ⟨x.negative, _, rfl, no_signs_fixed (by decide)⟩
      · refine ⟨x.negative, _, rfl, ?_⟩
        rw [String.toList_ofList]
        exact no_signs_positional _ _

theorem signed_decimalText (x : Number.Decimal) : Signed x.text := by
  generalize hds : Text.padded (x.places + 1) x.coefficient = ds
  have hdigit : ∀ c ∈ ds, c.isDigit = true := fun c hc => Text.isDigit_of_mem_padded (hds ▸ hc)
  generalize hn : ds.length - x.places = n
  have htext : x.text = (if x.negative then "-" else "") ++
      String.ofList (ds.take n ++ if (ds.drop n).isEmpty then [] else '.' :: ds.drop n) := by
    rw [← String.toList_inj, Number.Decimal.text, hds, hn]
    cases x.negative <;> simp
  refine ⟨x.negative, _, htext, ?_⟩
  rw [String.toList_ofList]
  have hwhole : ∀ c ∈ ds.take n, c.isDigit = true := fun c hc => hdigit c (List.mem_of_mem_take hc)
  split
  · rw [List.append_nil]
    exact fun c hc => not_sign_of_isDigit (hwhole c hc)
  · exact no_signs_pointed hwhole fun c hc => hdigit c (List.mem_of_mem_drop hc)

/-! ## Texts without quotes -/

instance : Decidable (Unquoted s) := inferInstanceAs (Decidable (¬_))

@[simp] theorem unquoted_append {s' : String} : Unquoted (s ++ s') ↔ Unquoted s ∧ Unquoted s' := by
  rw [Unquoted, String.toList_append, List.mem_append, not_or]
  rfl

theorem unquoted_of_no_signs (h : ∀ c ∈ s.toList, c ∉ signs) : Unquoted s :=
  fun hc => h _ hc (by decide)

@[simp] theorem unquoted_numeral (n : Nat) : Unquoted (Text.numeral n) := unquoted_of_no_signs (no_signs_numeral n)

@[simp] theorem unquoted_paddedNumeral (width n : Nat) : Unquoted (Text.paddedNumeral width n) :=
  unquoted_of_no_signs (no_signs_paddedNumeral width n)

theorem Signed.unquoted (h : Signed s) : Unquoted s := by
  obtain ⟨negative, rest, rfl, h⟩ := h
  have hsign : Unquoted (if negative then "-" else "") := by cases negative <;> decide
  exact unquoted_append.mpr ⟨hsign, unquoted_of_no_signs h⟩

theorem unquoted_if {p : Prop} [Decidable p] {s' : String} (h : Unquoted s) (h' : Unquoted s') :
    Unquoted (if p then s else s') := by
  split
  · exact h
  · exact h'

theorem unquoted_timestamp (t : Timestamp) : Unquoted t.literal := by
  have hsign : Unquoted (if t.year < 0 then "-" else "+") := unquoted_if (by decide) (by decide)
  have hyear : Unquoted (Timestamp.yearText t.year) := unquoted_if (by simp) (by simp [hsign])
  have hmarks : Unquoted "-" ∧ Unquoted "T" ∧ Unquoted ":" ∧ Unquoted "." := by decide
  simp [Timestamp.literal, Timestamp.baseText, hyear, hmarks]

theorem unquoted_zonedTimestamp (t : ZonedTimestamp) : Unquoted t.literal := by
  have hsign : Unquoted (if t.offset < 0 then "-" else "+") := unquoted_if (by decide) (by decide)
  have hmark : Unquoted ":" := by decide
  simp [ZonedTimestamp.literal, ZonedTimestamp.offsetText, unquoted_timestamp, hsign, hmark]

theorem unquoted_interval (i : Interval) : Unquoted i.text := by
  have hsign : Unquoted (if i.micros < 0 then "-" else "") := unquoted_if (by decide) (by decide)
  have hmarks : Unquoted ":" ∧ Unquoted "." ∧ Unquoted "" ∧ Unquoted " " := by decide
  have hclock (n : Nat) : Unquoted (Interval.clockText n) := by
    have hfraction (n : Nat) : Unquoted (if n = 0 then "" else "." ++ Text.paddedNumeral 6 n) :=
      unquoted_if hmarks.2.2.1 (by simp [hmarks])
    simp [Interval.clockText, hmarks, hfraction]
  have hdays (n : Nat) : Unquoted (Interval.dayText n) := by
    have hword : Unquoted (if n = 1 then " day" else " days") := unquoted_if (by decide) (by decide)
    simp [Interval.dayText, hword]
  exact unquoted_if (by simp [hsign, hclock]) (unquoted_if (by simp [hsign, hdays])
    (by simp [hsign, hdays, hclock, hmarks]))

theorem digitChar_of_mem_toDigitsCore {base fuel n : Nat} {ds : List Char} {c : Char} (hbase : 0 < base)
    (h : c ∈ Nat.toDigitsCore base fuel n ds) : (∃ k < base, c = Nat.digitChar k) ∨ c ∈ ds := by
  induction fuel generalizing n ds with
  | zero => exact .inr h
  | succ fuel ih =>
    have hcons (h : c ∈ Nat.digitChar (n % base) :: ds) : (∃ k < base, c = Nat.digitChar k) ∨ c ∈ ds :=
      (List.mem_cons.mp h).imp_left fun h => ⟨_, Nat.mod_lt n hbase, h⟩
    rw [Nat.toDigitsCore] at h
    split at h
    · exact hcons h
    · exact (ih h).elim .inl hcons

theorem unquoted_guid (g : Guid) : Unquoted g.text := by
  have hdigits : '\'' ∉ Text.paddedHex 32 g.value.toNat := by
    intro h
    rcases List.mem_append.mp h with h | h
    · exact absurd (List.eq_of_mem_replicate h) (by decide)
    · have hall : ∀ k < 16, '\'' ≠ Nat.digitChar k := by decide
      rcases digitChar_of_mem_toDigitsCore (by decide) h with ⟨k, hk, hc⟩ | h
      · exact hall k hk hc
      · cases h
  have htake (n : Nat) {cs : List Char} (h : '\'' ∉ cs) : '\'' ∉ cs.take n := fun hc => h (List.mem_of_mem_take hc)
  have hdrop (n : Nat) {cs : List Char} (h : '\'' ∉ cs) : '\'' ∉ cs.drop n := fun hc => h (List.mem_of_mem_drop hc)
  rw [Unquoted, Guid.text, String.toList_ofList]
  simp [Guid.hyphenate, htake, hdrop, hdigits]

theorem quote_ne_symbol {n : Nat} (hn : n < 64) : Text.Base64.symbol n ≠ '\'' := by
  have hall : ∀ n < 64, Text.Base64.symbol n ≠ '\'' := by decide
  exact hall n hn

theorem quote_not_mem_group (n : Nat) : '\'' ∉ Text.Base64.group n := by
  have hsymbol (n : Nat) : '\'' ≠ Text.Base64.symbol (n % 64) := (quote_ne_symbol (Nat.mod_lt n (by decide))).symm
  simp [Text.Base64.group, hsymbol]

theorem unquoted_base64 (bytes : List UInt8) : Unquoted (String.ofList (Text.Base64.encode bytes)) := by
  rw [Unquoted, String.toList_ofList]
  fun_induction Text.Base64.encode bytes with
  | case1 => simp
  | case2 a => simpa using fun h => quote_not_mem_group _ (List.mem_of_mem_take h)
  | case3 a b => simpa using fun h => quote_not_mem_group _ (List.mem_of_mem_take h)
  | case4 a b c rest ih => simpa [quote_not_mem_group] using ih

/-! ## Literals -/

theorem reads_withCast {text type : String} (negative : Bool) (h : Reads text)
    (htype : Runs .any .any 0 0 ("::" ++ type)) : Reads (Literal.withCast text negative type) := by
  rw [Literal.withCast, String.append_assoc]
  cases negative with
  | false => exact h.append htype
  | true => exact (h.inParens.ofAny (e := .clear)).append htype.ofAny

theorem reads_binaryFloat {f : Number.BinaryFormat} (x : Number.Binary f) {type : String}
    (htype : Runs .any .any 0 0 ("::" ++ type)) : Reads (Literal.binaryFloat x type) := by
  unfold Literal.binaryFloat
  split
  · exact reads_withCast _ (runs_fixed (by decide)) htype
  · split
    · refine reads_withCast _ ?_ htype
      split <;> exact runs_fixed (by decide)
    · exact reads_withCast _ (signed_binaryText x).reads htype

theorem reads_integerLiteral (i : Int) {type : String} (htype : runs .any .any 0 0 ("::" ++ type) = true) :
    Reads (Literal.integer i type) := reads_withCast _ (signed_integer i).reads (runs_fixed htype)

theorem reads_literal (v : Value) : Reads (Literal.ofValue v) := by
  cases v with
  | bool b => cases b <;> exact runs_fixed (by decide)
  | byte n => exact reads_integerLiteral n.toNat (by decide)
  | sbyte n => exact reads_integerLiteral n.toInt (by decide)
  | int16 n => exact reads_integerLiteral n.toInt (by decide)
  | int32 n => exact (signed_integer n.toInt).reads
  | int64 n => exact reads_integerLiteral n.toInt (by decide)
  | single x => exact reads_binaryFloat x (runs_fixed (by decide))
  | double x => exact reads_binaryFloat x (runs_fixed (by decide))
  | decimal x => exact reads_withCast _ (signed_decimalText x).reads (runs_fixed (by decide))
  | string s => exact reads_string s
  | binary bytes =>
    exact reads_plain 1 .between (by decide) (unquoted_base64 bytes) (by decide) rfl
  | guid g => exact reads_plain 0 .word (by decide) (unquoted_guid g) (by decide) rfl
  | dateTime t =>
    exact reads_plain 0 .afterString (by decide) (unquoted_timestamp t) (by decide) rfl
  | dateTimeOffset t =>
    exact reads_plain 0 .afterString (by decide) (unquoted_zonedTimestamp t) (by decide) rfl
  | time i =>
    exact reads_plain 0 .afterString (by decide) (unquoted_interval i) (by decide) rfl

end TreeSql.Quoting
