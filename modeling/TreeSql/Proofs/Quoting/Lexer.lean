/-
  TreeSql.Proofs.Quoting.Lexer — where in an SQL text names and strings begin and end.

  `scan` reads a text one character at a time. It knows names in double quotes, plain strings, strings
  with escapes (`E''`) and parentheses, and stops where a parenthesis is closed that was not opened, or
  where a comment begins. A text is `Closed` if it is read to the end, outside quotes and with all
  parentheses closed.

  `Runs` says of a stretch of text, without looking at what is around it, how the reading goes on over
  it; stretches are put together by `Runs.append`.
-/
namespace TreeSql.Quoting

/-! ## Reading characters -/

/-- What the characters read last belong to. -/
inductive Mode where
  | between
  /-- A word that is the letter `E` so far: a quote after it begins a string with escapes. -/
  | letterE
  | word
  | minus
  | slash
  | inName
  /-- After a quote in a name: the name has ended, unless a second quote follows. -/
  | afterName
  | inString
  | afterString
  | inEscapes
  | backslash
  | afterEscapes
deriving DecidableEq

namespace Mode

def all : List Mode :=
  [between, letterE, word, minus, slash, inName, afterName, inString, afterString, inEscapes, backslash,
    afterEscapes]

theorem mem_all (m : Mode) : m ∈ all := by cases m <;> decide

/-- Whether no name or string is open. -/
def isOutside : Mode → Bool
  | inName | inString | inEscapes | backslash => false
  | _ => true

end Mode

/-- What has been read: what it ends in, and how many parentheses are open. -/
structure Place where
  mode : Mode
  depth : Nat
deriving DecidableEq

/-- Whether a character goes on with a word. -/
def isWordChar (c : Char) : Bool := c.isAlphanum || c == '_' || c == '$' || decide (128 ≤ c.toNat)

/-- What a character outside quotes begins if it does not belong to what was read before it. -/
def Mode.start (c : Char) : Mode :=
  if c = '"' then inName
  else if c = '\'' then inString
  else if c = '-' then minus
  else if c = '/' then slash
  else if c = 'E' ∨ c = 'e' then letterE
  else if isWordChar c then word
  else between

/-- The open parentheses after a character outside quotes, if it closes none that is not open. -/
def depthAfter? (depth : Nat) (c : Char) : Option Nat :=
  if c = '(' then some (depth + 1)
  else if c = ')' then if depth = 0 then none else some (depth - 1)
  else some depth

def start (depth : Nat) (c : Char) : Option Place := (depthAfter? depth c).map fun d => ⟨Mode.start c, d⟩

/-- Reads a character. There is no place after a parenthesis too many, nor in a comment. -/
def step (p : Place) (c : Char) : Option Place :=
  match p.mode with
  | .between => start p.depth c
  | .letterE =>
    if c = '\'' then some ⟨.inEscapes, p.depth⟩
    else if isWordChar c then some ⟨.word, p.depth⟩
    else start p.depth c
  | .word => if isWordChar c then some ⟨.word, p.depth⟩ else start p.depth c
  | .minus => if c = '-' then none else start p.depth c
  | .slash => if c = '*' then none else start p.depth c
  | .inName => some ⟨if c = '"' then .afterName else .inName, p.depth⟩
  | .afterName => if c = '"' then some ⟨.inName, p.depth⟩ else start p.depth c
  | .inString => some ⟨if c = '\'' then .afterString else .inString, p.depth⟩
  | .afterString => if c = '\'' then some ⟨.inString, p.depth⟩ else start p.depth c
  | .inEscapes =>
    some ⟨if c = '\\' then .backslash else if c = '\'' then .afterEscapes else .inEscapes, p.depth⟩
  | .backslash => some ⟨.inEscapes, p.depth⟩
  | .afterEscapes => if c = '\'' then some ⟨.inEscapes, p.depth⟩ else start p.depth c

/-- Reads a text. -/
def scan (p : Place) (s : List Char) : Option Place := s.foldlM step p

/-- The text is read to its end, which is outside quotes, with all parentheses closed. -/
def Closed (text : String) : Prop :=
  ∃ m : Mode, m.isOutside = true ∧ scan ⟨.between, 0⟩ text.toList = some ⟨m, 0⟩

example : scan ⟨.between, 0⟩ "(\"a\"\"--(\" E'\\'--' '--'".toList = some ⟨.afterString, 1⟩ := by decide

example : scan ⟨.between, 0⟩ "a - -1 --".toList = none := by decide

theorem scan_cons (p : Place) (c : Char) (s : List Char) : scan p (c :: s) = (step p c).bind (scan · s) :=
  List.foldlM_cons

theorem scan_append (p : Place) (s s' : List Char) : scan p (s ++ s') = (scan p s).bind (scan · s') :=
  List.foldlM_append

/-! ## Parentheses around -/

/-- The place with more parentheses open. -/
def Place.under (p : Place) (k : Nat) : Place := ⟨p.mode, p.depth + k⟩

theorem depthAfter?_add {depth d : Nat} {c : Char} (h : depthAfter? depth c = some d) (k : Nat) :
    depthAfter? (depth + k) c = some (d + k) := by
  unfold depthAfter? at h ⊢
  split at h
  · obtain rfl := Option.some.inj h
    rw [if_pos ‹_›, Nat.add_right_comm]
  · rw [if_neg ‹_›]
    split at h
    · split at h
      · cases h
      · obtain rfl := Option.some.inj h
        rw [if_pos ‹_›, if_neg (by omega), Nat.sub_add_comm (by omega)]
    · obtain rfl := Option.some.inj h
      rw [if_neg ‹_›]

theorem start_under {depth : Nat} {c : Char} {q : Place} (h : start depth c = some q) (k : Nat) :
    start (depth + k) c = some (q.under k) := by
  obtain ⟨d, hd, rfl⟩ := Option.map_eq_some_iff.mp h
  rw [start, depthAfter?_add hd k]
  rfl

theorem step_under {p q : Place} {c : Char} (h : step p c = some q) (k : Nat) :
    step (p.under k) c = some (q.under k) := by
  obtain ⟨m, d⟩ := p
  have hstart (hq : start d c = some q) : start (d + k) c = some (q.under k) := start_under hq k
  cases m <;> simp only [step, Place.under] at h ⊢ <;> grind [Place.under]

theorem scan_under {p q : Place} {s : List Char} (h : scan p s = some q) (k : Nat) :
    scan (p.under k) s = some (q.under k) := by
  induction s generalizing p with
  | nil =>
    obtain rfl := Option.some.inj h
    rfl
  | cons c s ih =>
    rw [scan_cons] at h ⊢
    obtain ⟨r, hstep, hrest⟩ := Option.bind_eq_some_iff.mp h
    rw [step_under hstep k, Option.bind_some]
    exact ih hrest

/-! ## Stretches of text -/

/-- What a stretch of text begins or ends with, outside quotes. -/
inductive Edge where
  /-- Nothing that the next character could belong to. -/
  | clear
  | any
deriving DecidableEq

def Edge.allows : Edge → Mode → Bool
  | clear, m => m == .between
  | any, m => m.isOutside

/-- Whatever is open around it, the reading goes on over the stretch, from one edge and depth to another. -/
def Runs (e e' : Edge) (d d' : Nat) (s : String) : Prop :=
  ∀ m, e.allows m = true → ∀ k, ∃ m', e'.allows m' = true ∧ scan ⟨m, d + k⟩ s.toList = some ⟨m', d' + k⟩

/-- A stretch that can stand where nothing goes on, and leaves as many parentheses open as it finds. -/
abbrev Reads (s : String) : Prop := Runs .clear .any 0 0 s

section

variable {e e' e'' : Edge} {d d' d'' : Nat} {s s' : String}

theorem Edge.any_of_allows {m : Mode} (h : e.allows m = true) : Edge.any.allows m = true := by
  cases e with
  | any => exact h
  | clear =>
    obtain rfl : m = .between := by simpa [Edge.allows] using h
    rfl

theorem Runs.append (h : Runs e e' d d' s) (h' : Runs e' e'' d' d'' s') : Runs e e'' d d'' (s ++ s') := by
  intro m hm k
  obtain ⟨m', hm', hs⟩ := h m hm k
  obtain ⟨m'', hm'', hs'⟩ := h' m' hm' k
  refine ⟨m'', hm'', ?_⟩
  rw [String.toList_append, scan_append, hs, Option.bind_some, hs']

/-- A stretch that can stand anywhere can stand where nothing goes on. -/
theorem Runs.ofAny (h : Runs .any e' d d' s) : Runs e e' d d' s :=
  fun m hm => h m (Edge.any_of_allows hm)

theorem Runs.toAny (h : Runs e e' d d' s) : Runs e .any d d' s := by
  intro m hm k
  obtain ⟨m', hm', hs⟩ := h m hm k
  exact ⟨m', Edge.any_of_allows hm', hs⟩

theorem Runs.deeper (h : Runs e e' d d' s) (k : Nat) : Runs e e' (d + k) (d' + k) s := by
  intro m hm k'
  rw [Nat.add_assoc, Nat.add_assoc]
  exact h m hm (k + k')

/-- Nothing at all. -/
theorem runs_empty : Runs e e d d "" := fun m hm _ => ⟨m, hm, rfl⟩

/-- The text of a fixed stretch is read as the edges and depths say. -/
def runs (e e' : Edge) (d d' : Nat) (s : String) : Bool :=
  Mode.all.all fun m => !e.allows m ||
    (scan ⟨m, d⟩ s.toList).any fun p => e'.allows p.mode && p.depth == d'

theorem runs_fixed (h : runs e e' d d' s = true) : Runs e e' d d' s := by
  intro m hm k
  have hm' := List.all_eq_true.mp h m (Mode.mem_all m)
  rw [hm, Bool.not_true, Bool.false_or, Option.any_eq_true] at hm'
  obtain ⟨p, hp, hend⟩ := hm'
  simp only [Bool.and_eq_true, beq_iff_eq] at hend
  refine ⟨p.mode, hend.1, ?_⟩
  rw [← hend.2]
  exact scan_under hp k

/-- A stretch that reads is closed as a whole. -/
theorem Reads.closed (h : Reads s) : Closed s := h .between rfl 0

end

end TreeSql.Quoting
