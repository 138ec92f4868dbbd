import TreeSql.Expr.Basic

/-
  TreeSql.Proofs.Joins.Reader — joins read by the grammar of FROM clauses.

  The tokens of a `FROM` clause are sources, parentheses, the words of a join and conditions. The reader goes
  through them once. A join waits on a stack for its right side, and if its kind takes a condition then also for
  that. It takes both as soon as they come, so that joins group from the left; only where a condition is still
  missing when another join comes, that one is part of the right side. Behind an apply there is one source.

  What is read is always `Complete`: each join has a condition exactly if its kind takes one
  (`complete_of_parse?`). And every complete tree is read from its `tokens`, where a join on the right stands in
  parentheses (`parse?_tokens`).
-/
namespace TreeSql.Sql.Joins

/-! ## Trees and tokens -/

/-- A tree of joins by the texts of its sources and conditions. -/
inductive Outline where
  | source (text : String)
  | join (left : Outline) (kind : JoinKind) (right : Outline) (condition : Option String)
deriving DecidableEq

inductive Token where
  /-- A source with its alias. -/
  | source (text : String)
  | opening
  | closing
  | kind (kind : JoinKind)
  | on (condition : String)
deriving DecidableEq

def takesCondition : JoinKind → Bool
  | .cross | .crossApply => false
  | _ => true

namespace Outline

def isJoin : Outline → Bool
  | source _ => false
  | join .. => true

/-- Joins have conditions as their kinds take them, and on the right of an apply is a source. -/
def Complete : Outline → Prop
  | source _ => True
  | join l kind r condition =>
    l.Complete ∧ r.Complete ∧ condition.isSome = takesCondition kind ∧ (kind.isApply = true → r.isJoin = false)

/-- A right side stands in parentheses if it is a join. -/
def tokens : Outline → List Token
  | source text => [.source text]
  | join l kind r condition =>
    l.tokens ++ .kind kind :: (if r.isJoin then .opening :: r.tokens ++ [.closing] else r.tokens) ++
      condition.toList.map .on

end Outline

/-! ## Reading -/

/-- What waits for its right side, or for its closing parenthesis. -/
inductive Frame where
  | opening
  | side (left : Outline) (kind : JoinKind)
deriving DecidableEq

def Frame.isApply : Frame → Bool
  | opening => false
  | side _ kind => kind.isApply

inductive Reading where
  /-- A source has to come next, or a join in parentheses. -/
  | wanting (stack : List Frame)
  | holding (stack : List Frame) (read : Outline)
deriving DecidableEq

/-- The joins that wait for nothing but the right side that was read are complete. -/
def settle : List Frame → Outline → Reading
  | .side l kind :: s, r =>
    if takesCondition kind then .holding (.side l kind :: s) r else settle s (.join l kind r none)
  | s, x => .holding s x

/-- Whether an apply waits for its right side, or for its condition. -/
def appliesNext (s : List Frame) : Bool := s.head?.any Frame.isApply

def step : Reading → Token → Option Reading
  | .wanting s, .source text => some (settle s (.source text))
  | .wanting s, .opening => if appliesNext s then none else some (.wanting (.opening :: s))
  | .holding s l, .kind kind => if appliesNext s then none else some (.wanting (.side l kind :: s))
  | .holding (.side l kind :: s) r, .on c => some (settle s (.join l kind r (some c)))
  | .holding (.opening :: s) (.join l kind r c), .closing => some (settle s (.join l kind r c))
  | _, _ => none

/-- The tree, if nothing is missing from it. -/
def finish? : Reading → Option Outline
  | .holding [] x => some x
  | _ => none

def run (r : Reading) (ts : List Token) : Option Reading := ts.foldlM step r

/-- Reads a whole `FROM` clause. -/
def parse? (ts : List Token) : Option Outline := (run (.wanting []) ts).bind finish?

-- A condition belongs to the innermost join that waits for one.
example : parse? [.source "a", .kind .inner, .source "b", .kind .leftOuter, .source "c", .on "x", .on "y"] =
    some (.join (.source "a") .inner (.join (.source "b") .leftOuter (.source "c") (some "x")) (some "y")) := by
  decide

theorem run_cons (r : Reading) (t : Token) (ts : List Token) : run r (t :: ts) = (step r t).bind (run · ts) :=
  List.foldlM_cons

theorem run_append (r : Reading) (ts us : List Token) : run r (ts ++ us) = (run r ts).bind (run · us) :=
  List.foldlM_append

variable {s : List Frame} {l x : Outline} {kind : JoinKind} {r r' : Reading} {t : Token} {ts : List Token}

/-! ## What is read is complete -/

/-- What waits is complete, and only the last frame can be an apply. -/
structure Waits (s : List Frame) : Prop where
  left : ∀ l kind, .side l kind ∈ s → l.Complete
  apply : ∀ f ∈ s.tail, f.isApply = false

theorem Waits.tail {f : Frame} (h : Waits (f :: s)) : Waits s :=
  ⟨fun l kind hmem => h.left l kind (.tail _ hmem), fun f hmem => h.apply f (List.mem_of_mem_tail hmem)⟩

theorem Waits.notApplies {f : Frame} (h : Waits (f :: s)) : appliesNext s = false := by
  cases s with
  | nil => rfl
  | cons f' s => exact h.apply f' (.head _)

theorem Waits.push {f : Frame} (h : Waits s) (happly : appliesNext s = false)
    (hf : ∀ l kind, f = .side l kind → l.Complete) : Waits (f :: s) := by
  refine ⟨fun l kind hmem => ?_, fun f' hmem => ?_⟩
  · rcases List.mem_cons.mp hmem with rfl | hmem
    · exact hf l kind rfl
    · exact h.left l kind hmem
  · cases s with
    | nil => cases hmem
    | cons f'' s =>
      rcases List.mem_cons.mp hmem with rfl | hmem
      · exact happly
      · exact h.apply f' hmem

/-- Whatever was read so far is complete. What is held is on the right of an apply only if it is a source, and of
    a join only if that takes a condition. -/
def Reading.Sound : Reading → Prop
  | wanting s => Waits s
  | holding s x => Waits s ∧ x.Complete ∧ (appliesNext s = true → x.isJoin = false) ∧
      ∀ l kind, s.head? = some (.side l kind) → takesCondition kind = true

theorem sound_settle (hs : Waits s) (hx : x.Complete) (happly : appliesNext s = true → x.isJoin = false) :
    (settle s x).Sound := by
  fun_induction settle s x with
  | case1 l kind s r htakes =>
    refine ⟨hs, hx, happly, fun l' kind' h => ?_⟩
    cases h
    exact htakes
  | case2 l kind s r htakes ih =>
    have hnone : (none : Option String).isSome = takesCondition kind := by simpa using htakes
    exact ih hs.tail ⟨hs.left l kind (.head _), hx, hnone, happly⟩ fun h => absurd h (by simp [hs.notApplies])
  | case3 s x hside =>
    refine ⟨hs, hx, happly, fun l kind h => ?_⟩
    cases s with
    | nil => cases h
    | cons f s =>
      cases h
      exact absurd rfl (hside l kind s)

theorem sound_step (hr : r.Sound) (h : step r t = some r') : r'.Sound := by
  have habsurd {f : Frame} {s : List Frame} {x : Outline} (hs : Waits (f :: s)) :
      appliesNext s = true → x.isJoin = false := fun h => absurd h (by simp [hs.notApplies])
  unfold step at h
  split at h
  · obtain rfl := Option.some.inj h
    exact sound_settle hr trivial fun _ => rfl
  · split at h
    · cases h
    · rename_i happly
      obtain rfl := Option.some.inj h
      exact hr.push (by simpa using happly) nofun
  · split at h
    · cases h
    · rename_i s l kind happly
      obtain rfl := Option.some.inj h
      refine hr.1.push (by simpa using happly) fun l' kind' hf => ?_
      cases hf
      exact hr.2.1
  · rename_i l kind s r c
    obtain rfl := Option.some.inj h
    obtain ⟨hs, hr, happly, htakes⟩ := hr
    exact sound_settle hs.tail ⟨hs.left l kind (.head _), hr, (htakes l kind rfl).symm, happly⟩ (habsurd hs)
  · obtain rfl := Option.some.inj h
    exact sound_settle hr.1.tail hr.2.1 (habsurd hr.1)
  · cases h

theorem sound_run (hr : r.Sound) (h : run r ts = some r') : r'.Sound := by
  induction ts generalizing r with
  | nil =>
    obtain rfl := Option.some.inj h
    exact hr
  | cons t ts ih =>
    rw [run_cons] at h
    obtain ⟨r₁, hstep, hrest⟩ := Option.bind_eq_some_iff.mp h
    exact ih (sound_step hr hstep) hrest

/-- Every join that is read has the one condition that its kind takes, or none. -/
theorem complete_of_parse? (h : parse? ts = some x) : x.Complete := by
  obtain ⟨r, hrun, hfinish⟩ := Option.bind_eq_some_iff.mp h
  have hstart : Waits [] := ⟨nofun, nofun⟩
  have hsound : r.Sound := sound_run (r := .wanting []) hstart hrun
  unfold finish? at hfinish
  split at hfinish
  · obtain rfl := Option.some.inj hfinish
    exact hsound.2.1
  · cases hfinish

-- A condition is missing, and one is too many.
example : parse? [.source "a", .kind .inner, .source "b"] = none ∧
    parse? [.source "a", .kind .cross, .source "b", .on "x"] = none := by
  decide

/-! ## Complete trees are read -/

/-- No join waits for its right side, so that one can stand here without parentheses. -/
def Unawaited (s : List Frame) : Prop := ∀ l kind, s.head? ≠ some (.side l kind)

theorem unawaited_nil : Unawaited [] := by simp [Unawaited]

theorem unawaited_opening : Unawaited (.opening :: s) := by simp [Unawaited]

theorem Unawaited.settle (hs : Unawaited s) (x : Outline) : settle s x = .holding s x := by
  cases s with
  | nil => rfl
  | cons f s =>
    cases f with
    | opening => rfl
    | side l kind => exact absurd rfl (hs l kind)

theorem Unawaited.appliesNext (hs : Unawaited s) : appliesNext s = false := by
  cases s with
  | nil => rfl
  | cons f s =>
    cases f with
    | opening => rfl
    | side l kind => exact absurd rfl (hs l kind)

/-- With its right side and its condition a join is complete. -/
theorem run_condition (hs : Unawaited s) {condition : Option String} (h : condition.isSome = takesCondition kind) :
    run (settle (.side l kind :: s) x) (condition.toList.map .on) = some (.holding s (.join l kind x condition)) := by
  cases condition with
  | none =>
    rw [settle, if_neg (by simp [← h]), hs.settle]
    rfl
  | some c =>
    have htakes : takesCondition kind = true := h.symm
    rw [settle, if_pos htakes]
    exact congrArg some (hs.settle _)

/-- A right side in parentheses is read by itself and then taken, like a source. -/
theorem run_side {r : Outline} (happly : kind.isApply = true → r.isJoin = false)
    (hr : ∀ s, Unawaited s → run (.wanting s) r.tokens = some (.holding s r)) :
    run (.wanting (.side l kind :: s)) (if r.isJoin then .opening :: r.tokens ++ [.closing] else r.tokens) =
      some (settle (.side l kind :: s) r) := by
  cases r with
  | source text => rfl
  | join l' kind' r' condition' =>
    have hkind : kind.isApply = false := Bool.eq_false_iff.mpr fun h => Bool.false_ne_true (happly h).symm
    have hopen : step (.wanting (.side l kind :: s)) .opening = some (.wanting (.opening :: .side l kind :: s)) := by
      simp [step, appliesNext, Frame.isApply, hkind]
    rw [Outline.isJoin, if_pos rfl, List.cons_append, run_cons, hopen, Option.bind_some, run_append,
      hr _ unawaited_opening]
    rfl

theorem run_tokens (h : x.Complete) (s : List Frame) (hs : Unawaited s) :
    run (.wanting s) x.tokens = some (.holding s x) := by
  induction x generalizing s with
  | source text => exact congrArg some (hs.settle _)
  | join l kind r condition ihl ihr =>
    obtain ⟨hl, hr, hcondition, happly⟩ := h
    have hkind : step (.holding s l) (.kind kind) = some (.wanting (.side l kind :: s)) := by
      simp [step, hs.appliesNext]
    rw [Outline.tokens, run_append, run_append, ihl hl s hs, Option.bind_some, run_cons, hkind, Option.bind_some,
      run_side happly (ihr hr), Option.bind_some, run_condition hs hcondition]

theorem parse?_tokens (h : x.Complete) : parse? x.tokens = some x := by
  rw [parse?, run_tokens h [] unawaited_nil]
  rfl

end TreeSql.Sql.Joins
