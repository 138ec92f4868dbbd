import TreeSql.Proofs.Compile.Comparison
import TreeSql.Proofs.Compile.Run
import TreeSql.Proofs.Compile.Unqualified
import TreeSql.Proofs.Expr.Reads

/-
  TreeSql.Proofs.Compile.Direct — values compiled directly over a row.

  `direct vars (value e)` is what a scalar expression is compiled to where its columns are in scope. It
  says what the expression means: a function of the columns that it refers to.

  A scalar expression compiled anywhere else reads the same (`follows_value`): it differs from the
  direct form in the aliases of its columns and in lifted constants only, and each column that it
  refers to is shown by the stages between. How columns are resolved there is a parameter (`World`).
  Steps are compared in pairs (`Follows`): a step in some world, and the same step over a row.
-/
namespace TreeSql.Compile

open Sql SqlExpr Postgres

/-! ## Compiling over a row -/

/-- A stage is in scope, and constants stay where they are. -/
def rowContext : Context := { mode := .query, liftConstants := false, scopes := [0] }

/-- The variables are bound to the stage in scope, which has no alias. -/
def rowState (vars : List String) : State :=
  { stages := [{}], nodes := [{ first := ⟨"", 0⟩ }], bindings := vars.map fun x => (x, 0) }

/-- What a step gives where the columns of the variables are in scope. -/
def direct {α : Type} (vars : List String) (m : CompileM α) : Except Error α :=
  (·.1) <$> m.run rowContext (rowState vars)

theorem lookup_rowState {vars : List String} {x : String} (h : x ∈ vars) :
    (rowState vars).bindings.lookup x = some 0 := by
  show (vars.map fun x => (x, 0)).lookup x = some 0
  induction vars with
  | nil => cases h
  | cons y ys ih =>
    rw [List.map_cons, List.lookup_cons]
    by_cases hxy : x = y
    · simp [hxy]
    · rw [beq_false_of_ne hxy]
      exact ih ((List.mem_cons.mp h).resolve_left hxy)

theorem pullFrom_rowState (vars : List String) (path : ColumnPath) :
    Gives (pullFrom 0 path) rowContext (rowState vars) path (rowState vars) := by
  rw [pullFrom]
  rfl

theorem boundColumn_rowState {vars : List String} {x : String} (h : x ∈ vars) (t : DataType)
    (name : String) :
    Gives (boundColumn (.varRef x t) name) rowContext (rowState vars) (.columnRef "" name)
      (rowState vars) := by
  unfold boundColumn
  simp only [propertyOwner, gives_bind]
  refine ⟨x, rowState vars, rfl, some 0, rowState vars,
    gives_boundNode.mpr ⟨(lookup_rowState h).symm, rfl⟩, ?_⟩
  simp only [gives_bind]
  exact ⟨_, _, rfl, ⟨"", name⟩, rowState vars, pullFrom_rowState vars _, rfl⟩

/-! ## Worlds -/

/-- Where scalar expressions are compiled, and what their columns do there. -/
structure World where
  context : Context
  vars : List String
  Ok : State → Prop
  /-- A later state. -/
  Le : State → State → Prop
  /-- The column can be referred to by its own name. -/
  Shown : State → String → Prop
  query : context.mode = .query
  refl : ∀ s, Le s s
  trans : ∀ {s t u}, Le s t → Le t u → Le s u
  lifted : ∀ {s t}, Le s t → s.lifted <+: t.lifted
  shown : ∀ {s t name}, Le s t → Shown s name → Shown t name
  column : ∀ {s t x type name e}, x ∈ vars → Ok s →
    Gives (boundColumn (.varRef x type) name) context s e t →
    Ok t ∧ Le s t ∧ Shown t name ∧ ∃ a, e = .columnRef a name
  lift : ∀ {s} v, Ok s → Ok { s with lifted := s.lifted ++ [v] } ∧ Le s { s with lifted := s.lifted ++ [v] }

namespace World

variable (W : World)

/-- The two read the same in a row, and the columns of the first are shown. -/
structure Reads (s : State) (a b : SqlExpr) : Prop where
  same : ∀ lifted, s.lifted <+: lifted → a.unqualified lifted = b.unqualified lifted
  shown : ∀ name ∈ a.columns, W.Shown s name

variable {W}

theorem Reads.later {s t : State} {a b : SqlExpr} (h : W.Reads s a b) (ht : W.Le s t) :
    W.Reads t a b where
  same lifted hl := h.same lifted ((W.lifted ht).trans hl)
  shown name hname := W.shown ht (h.shown name hname)

variable {α β : Type}

variable (W) in
/-- From the state `w` on, the step keeps the world and gives what the other step gives over a row, up
    to `R`. -/
def Follows (w : State) (m m₀ : CompileM α) (R : State → α → α → Prop) : Prop :=
  ∀ s a t, W.Le w s → W.Ok s → Gives m W.context s a t →
    W.Ok t ∧ W.Le s t ∧
      ∃ a₀, Gives m₀ rowContext (rowState W.vars) a₀ (rowState W.vars) ∧ R t a a₀

theorem follows_pure {w : State} {a a₀ : α} {R : State → α → α → Prop}
    (h : ∀ t, W.Le w t → R t a a₀) : W.Follows w (pure a) (pure a₀) R := by
  intro s b t hw hok hrun
  obtain ⟨rfl, rfl⟩ := gives_pure.mp hrun
  exact ⟨hok, W.refl _, a₀, rfl, h _ hw⟩

theorem follows_bind {w : State} {m m₀ : CompileM α} {f f₀ : α → CompileM β}
    {R : State → α → α → Prop} {R' : State → β → β → Prop} (hm : W.Follows w m m₀ R)
    (hf : ∀ {u a a₀}, W.Le w u → R u a a₀ → W.Follows u (f a) (f₀ a₀) R') :
    W.Follows w (m >>= f) (m₀ >>= f₀) R' := by
  intro s b t hw hok hrun
  obtain ⟨a, u, hrun, hrest⟩ := gives_bind.mp hrun
  obtain ⟨hok, hsu, a₀, hrun₀, hR⟩ := hm _ _ _ hw hok hrun
  obtain ⟨hok, hut, b₀, hrest₀, hR'⟩ := hf (W.trans hw hsu) hR _ _ _ (W.refl u) hok hrest
  exact ⟨hok, W.trans hsu hut, b₀, gives_bind.mpr ⟨a₀, _, hrun₀, hrest₀⟩, hR'⟩

theorem follows_fail {w : State} {e : Error} {m₀ : CompileM α} {R : State → α → α → Prop} :
    W.Follows w (.fail e) m₀ R :=
  fun _ _ _ _ _ hrun => (not_gives_fail hrun).elim

/-! ## Expressions that read the same -/

section Reads

variable {s : State} {a b : SqlExpr}

theorem Reads.rfl_of_columns (h : a.columns = []) : W.Reads s a a where
  same _ _ := rfl
  shown name hname := by
    rw [h] at hname
    cases hname

/-- Two lists of expressions that read the same one by one. -/
abbrev ReadsAll (W : World) (s : State) : List SqlExpr → List SqlExpr → Prop :=
  List.Forall₂ (W.Reads s)

variable {as bs : List SqlExpr}

theorem ReadsAll.later {t : State} (h : W.ReadsAll s as bs) (ht : W.Le s t) : W.ReadsAll t as bs :=
  List.Forall₂.imp (fun _ _ hab => hab.later ht) h

theorem ReadsAll.same (h : W.ReadsAll s as bs) (lifted : List Value) (hl : s.lifted <+: lifted) :
    unqualifiedAll lifted as = unqualifiedAll lifted bs := by
  induction h with
  | nil => rfl
  | cons hab _ ih => rw [unqualifiedAll, unqualifiedAll, hab.same lifted hl, ih]

theorem ReadsAll.shown (h : W.ReadsAll s as bs) : ∀ name ∈ columnsOfAll as, W.Shown s name := by
  induction h with
  | nil =>
    intro name hname
    cases hname
  | cons hab _ ih =>
    intro name hname
    rcases List.mem_append.mp hname with hname | hname
    · exact hab.shown name hname
    · exact ih name hname

/-- An expression with the columns of another one, which reads the same where the other one does. -/
theorem Reads.map (h : W.Reads s a b) {f : SqlExpr → SqlExpr} (hcolumns : (f a).columns = a.columns)
    (hf : ∀ lifted, a.unqualified lifted = b.unqualified lifted →
      (f a).unqualified lifted = (f b).unqualified lifted) : W.Reads s (f a) (f b) where
  same lifted hl := hf lifted (h.same lifted hl)
  shown := by
    rw [hcolumns]
    exact h.shown

theorem congruence_reads (s : State) : Congruence (W.Reads s) where
  verbatim _ := .rfl_of_columns rfl
  int _ := .rfl_of_columns rfl
  seq h := ⟨fun lifted hl => by rw [unqualified, unqualified, ReadsAll.same h lifted hl], ReadsAll.shown h⟩
  list h := ⟨fun lifted hl => by rw [unqualified, unqualified, ReadsAll.same h lifted hl], ReadsAll.shown h⟩
  paren h _ := h.map (f := .paren) rfl fun lifted hl => by rw [unqualified, unqualified, hl]
  column h name type := h.map (f := (.column · name type)) rfl fun lifted hl => by rw [unqualified, unqualified, hl]
  call name _ _ h := ⟨fun lifted hl => by rw [unqualified, unqualified, ReadsAll.same h lifted hl], ReadsAll.shown h⟩
  cast h type := h.map (f := (.cast · type)) rfl fun lifted hl => by rw [unqualified, unqualified, hl]
  binary op _ _ _ _ ha hb :=
    { same := fun lifted hl => by rw [unqualified, unqualified, ha.same lifted hl, hb.same lifted hl]
      shown := fun name hname => (List.mem_append.mp hname).elim (ha.shown name) (hb.shown name) }
  leading op _ _ h := h.map (f := .leading op) rfl fun lifted hl => by rw [unqualified, unqualified, hl]
  trailing op _ _ h := h.map (f := .trailing op) rfl fun lifted hl => by rw [unqualified, unqualified, hl]
  exists_ h := h.map (f := .exists_) rfl fun lifted hl => by rw [unqualified, unqualified, hl]
  negate h := h.map (columns_negate _) fun _ => unqualified_negate
  followedBy h text _ := h.map (f := (·.followedBy text)) (columns_followedBy _ text)
    fun _ => unqualified_followedBy text

end Reads

variable (W) in
/-- A compilation in the world beside the one over a row. -/
def comparison : Comparison where
  World := State
  Le := W.Le
  Alike := W.Reads
  Steps w m m₀ R := W.Follows w m m₀ R
  refl := W.refl
  trans := W.trans
  later ht h := h.later ht
  congruence := congruence_reads
  pure := follows_pure
  bind := follows_bind
  fail _ := follows_fail

/-! ## Leaves -/

theorem follows_constantValue {w : State} (v : Value) :
    W.Follows w (constantValue v) (constantValue v) W.Reads := by
  intro s a t hw hok hrun
  rw [constantValue, gives_read_bind] at hrun
  by_cases hl : W.context.liftConstants = true
  · rw [if_pos hl] at hrun
    obtain ⟨name, u, hlift, hrun⟩ := gives_bind.mp hrun
    obtain ⟨rfl, rfl⟩ := gives_liftConstant.mp hlift
    obtain ⟨rfl, rfl⟩ := gives_pure.mp hrun
    obtain ⟨hok', hle⟩ := W.lift v hok
    refine ⟨hok', hle, .constant v, rfl, fun lifted hlifted => ?_, fun name hname => ?_⟩
    · obtain ⟨rest, rfl⟩ := hlifted
      have hi : s.lifted.length < (s.lifted ++ [v] ++ rest).length := by simp
      rw [unqualified, liftedValue?_placeholder hi]
      simp [unqualified]
    · cases hname
  · rw [if_neg hl] at hrun
    obtain ⟨rfl, rfl⟩ := gives_pure.mp hrun
    exact ⟨hok, W.refl _, .constant v, rfl, .rfl_of_columns rfl⟩

theorem follows_nullValue {w : State} (type : DataType) :
    W.Follows w (nullValue type) (nullValue type) W.Reads := by
  intro s a t hw hok hrun
  rw [nullValue, gives_read_bind] at hrun
  rw [W.query] at hrun
  obtain ⟨target, u', htarget, hlast⟩ := gives_bind.mp hrun
  obtain ⟨htarget', rfl⟩ := gives_lift.mp htarget
  obtain ⟨rfl, rfl⟩ := gives_pure.mp hlast
  refine ⟨hok, W.refl _, .cast (.verbatim "NULL") target, ?_, .rfl_of_columns rfl⟩
  exact gives_bind.mpr ⟨_, _, rfl, gives_bind.mpr ⟨target, _, gives_lift.mpr ⟨htarget', rfl⟩, rfl⟩⟩

theorem follows_propertyValue {w : State} {x : String} (hx : x ∈ W.vars) (type : DataType)
    (name : String) :
    W.Follows w (propertyValue (.varRef x type) name) (propertyValue (.varRef x type) name)
      W.Reads := by
  intro s a t hw hok hrun
  rw [propertyValue, gives_read_bind] at hrun
  rw [W.query] at hrun
  obtain ⟨hok', hle, hshown, a, rfl⟩ := W.column hx hok hrun
  refine ⟨hok', hle, .columnRef "" name, ?_, fun _ _ => rfl, fun n hn => ?_⟩
  · exact gives_bind.mpr ⟨_, _, rfl, boundColumn_rowState hx type name⟩
  · obtain rfl : n = name := by simpa [columns] using hn
    exact hshown

/-! ## All scalar expressions -/

section Steps

variable {w : State} {p p₀ : Parts}

/-- The parts of an expression are compiled alike, if all smaller expressions are. -/
def PartsAlike (W : World) (p p₀ : Parts) (size : Nat) : Prop :=
  ∀ e : Expr, e.readsOnly W.vars = true → e.size < size →
    ∀ w, W.Follows w (p.value e) (p₀.value e) W.Reads

theorem PartsAlike.all {es : List Expr} {size : Nat} (h : W.PartsAlike p p₀ size)
    (hes : Expr.readsOnlyAll W.vars es = true) (hsize : Expr.sizeOfAll es < size) :
    W.comparison.Compiles p.value p₀.value es := by
  intro e he
  have := Expr.size_le_sizeOfAll he
  exact h e (Expr.readsOnlyAll_iff.mp hes e he) (by omega)

theorem follows_reducedCaseValue {e : Expr} {size : Nat} (h : W.PartsAlike p p₀ size)
    (he : e.readsOnly W.vars = true) (hsize : e.size ≤ size)
    (hcase : (∃ ws ts o, e = .caseOf ws ts o) ∨ e.size < size) :
    W.Follows w (reducedCaseValue p e) (reducedCaseValue p₀ e) W.Reads := by
  unfold reducedCaseValue
  split
  · rename_i conditions values otherwise
    simp only [Expr.readsOnly, Bool.and_eq_true] at he
    obtain ⟨⟨hws, hts⟩, ho⟩ := he
    rw [Expr.size] at hsize
    have hws' := h.all hws (by omega)
    have hts' := h.all hts (by omega)
    have ho' : W.comparison.Compiles p.value p₀.value [otherwise] := by
      intro e he
      obtain rfl : e = otherwise := by simpa using he
      exact h e ho (by omega)
    exact Comparison.steps_caseValue (C := W.comparison) hws' hts' ho'
  · rename_i hne
    rcases hcase with ⟨ws, ts, o, rfl⟩ | hlt
    · exact (hne ws ts o rfl).elim
    · exact h e he hlt w

/-- One level: an expression is compiled alike, if its parts are. -/
theorem follows_valueStep {e : Expr} (h : W.PartsAlike p p₀ e.size)
    (he : e.readsOnly W.vars = true) :
    W.Follows w (valueStep p e) (valueStep p₀ e) W.Reads := by
  have hone (e' : Expr) (he' : e'.readsOnly W.vars = true) (hsize : e'.size < e.size) :
      W.comparison.Compiles p.value p₀.value [e'] := by
    refine h.all ?_ ?_
    · rw [Expr.readsOnlyAll, he']
      rfl
    · simpa [Expr.sizeOfAll] using hsize
  have htwo {l r : Expr} (hlr : (l.readsOnly W.vars && r.readsOnly W.vars) = true)
      (hsize : l.size + r.size < e.size) : W.comparison.Compiles p.value p₀.value [l, r] := by
    refine h.all ?_ ?_
    · simpa [Expr.readsOnlyAll] using hlr
    · simpa [Expr.sizeOfAll] using hsize
  cases e with
  | constant v => exact follows_constantValue v
  | null t => exact follows_nullValue t
  | paramRef name t => exact follows_pure fun _ _ => .rfl_of_columns rfl
  | property base name t =>
    cases base with
    | varRef x t' => exact follows_propertyValue (by simpa [Expr.readsOnly] using he) t' name
    | _ => cases he
  | comparison op l r | and l r | or l r | like l r =>
    exact Comparison.steps_binaryValue _ (htwo he (by simp [Expr.size]))
  | arithmetic op args => exact Comparison.steps_arithmeticValue op (h.all he (by simp [Expr.size]))
  | not e => exact Comparison.steps_one (hone e he (by simp [Expr.size])) fun hx => (congruence_reads _).negate hx
  | isNull e =>
    exact Comparison.steps_one (hone e he (by simp [Expr.size])) fun hx => (congruence_reads _).trailing _ hx
  | isIn item list =>
    refine Comparison.steps_isInValue (h.all ?_ ?_)
    · simpa [Expr.readsOnly, Expr.readsOnlyAll] using he
    · simp [Expr.size, Expr.sizeOfAll]
  | cast e t =>
    refine follows_bind (hone e he (by simp [Expr.size]) e (by simp) w) fun _ hx => ?_
    refine follows_bind (Comparison.steps_lift (C := W.comparison) _) fun hu htype => ?_
    subst htype
    exact follows_pure fun s ht => (congruence_reads s).cast (hx.later (W.trans hu ht)) _
  | caseOf ws ts o =>
    exact follows_reducedCaseValue h (Expr.readsOnly_reduce he) (Expr.size_reduce _)
      (Expr.reduce_caseOf ws ts o)
  | call f args t => exact Comparison.steps_callValue f t (h.all he (by simp [Expr.size]))
  | _ => cases he

end Steps

/-- A scalar expression reads the same wherever it is compiled. -/
theorem follows_partsTo (n : Nat) : ∀ {m : Nat} {e : Expr}, levels e ≤ m →
    e.readsOnly W.vars = true → ∀ w, W.Follows w ((partsTo n).value e) ((partsTo m).value e) W.Reads := by
  induction n with
  | zero =>
    intro m e hm he w
    exact follows_fail
  | succ n ih =>
    intro m e hm he w
    obtain ⟨m, rfl⟩ : ∃ k, m = k + 1 := ⟨m - 1, by unfold levels at hm; omega⟩
    refine follows_valueStep (fun e' he' hsize w => ih ?_ he' w) he
    unfold levels at hm ⊢
    omega

/-! ## Clauses -/

section Clauses

variable {w : State} {n : Nat}

theorem follows_value {e : Expr} (he : e.readsOnly W.vars = true) :
    W.Follows w ((partsTo n).value e) (value e) W.Reads :=
  follows_partsTo n (Nat.le_refl (levels e)) he w

theorem alike_value {es : List Expr} (hes : Expr.readsOnlyAll W.vars es = true) :
    W.comparison.Compiles (partsTo n).value value es :=
  fun _ he _ => follows_value (Expr.readsOnlyAll_iff.mp hes _ he)

variable (W) in
/-- Sort keys that read the same, in the same direction. -/
def ReadsItems (s : State) : List OrderItem → List OrderItem → Prop :=
  List.Forall₂ fun i j => W.Reads s i.expr j.expr ∧ i.ascending = j.ascending

theorem follows_orderItems {keys : List SortKey} (h : ∀ k ∈ keys, k.expr.readsOnly W.vars = true) :
    W.Follows w (orderItems (partsTo n) keys) (orderItems allParts keys) W.ReadsItems := by
  induction keys generalizing w with
  | nil => exact follows_pure fun _ _ => List.Forall₂.nil
  | cons key keys ih =>
    refine follows_bind (follows_value (h key (.head _))) fun _ hkey => ?_
    refine follows_bind (ih fun k hk => h k (.tail _ hk)) fun hu hkeys => ?_
    refine follows_pure fun _ ht => List.Forall₂.cons ⟨hkey.later (W.trans hu ht), rfl⟩ ?_
    exact List.Forall₂.imp (fun _ _ hij => ⟨hij.1.later ht, hij.2⟩) hkeys

variable (W) in
/-- Columns of select lists that read the same, with the same names. -/
def ReadsColumns (s : State) : List Column → List Column → Prop :=
  List.Forall₂ fun c d => W.Reads s c.expr d.expr ∧ c.name = d.name

theorem reads_columnValue {s : State} (arg : Expr) {a b : SqlExpr} (h : W.Reads s a b) :
    W.Reads s (columnValue arg a) (columnValue arg b) := by
  unfold columnValue
  split
  · exact (congruence_reads s).cast h _
  · exact h

theorem readsColumns_columnsOf {s : State} (members : List Member) (args : List Expr)
    {as bs : List SqlExpr} (h : W.ReadsAll s as bs) :
    W.ReadsColumns s (columnsOf members (args.zipWith columnValue as))
      (columnsOf members (args.zipWith columnValue bs)) := by
  induction h generalizing members args with
  | nil =>
    cases args <;> cases members <;> exact .nil
  | cons hab _ ih =>
    cases args with
    | nil => cases members <;> exact .nil
    | cons arg args =>
      cases members with
      | nil => exact .nil
      | cons m members => exact .cons ⟨reads_columnValue arg hab, rfl⟩ (ih members args)

theorem follows_rowColumns {t : DataType} {args : List Expr}
    (h : Expr.readsOnlyAll W.vars args = true) :
    W.Follows w (rowColumns (partsTo n) (.newInstance t args)) (rowColumns allParts (.newInstance t args))
      W.ReadsColumns := by
  cases hmembers : t.members? with
  | none =>
    simp only [rowColumns, hmembers]
    exact follows_fail
  | some members =>
    simp only [rowColumns, hmembers]
    by_cases hlength : members.length = args.length
    · rw [if_pos hlength, if_pos hlength]
      refine follows_bind (Comparison.steps_valuesOf (C := W.comparison) (alike_value h)) fun _ has => ?_
      exact follows_pure fun _ ht => readsColumns_columnsOf members args (ReadsAll.later has ht)
    · rw [if_neg hlength, if_neg hlength]
      exact follows_fail

/-- What a step gives reads like what it gives over a row. -/
theorem Follows.direct {α : Type} {s t : State} {m m₀ : CompileM α} {a : α}
    {R : State → α → α → Prop} (h : W.Follows s m m₀ R) (hok : W.Ok s)
    (hrun : Gives m W.context s a t) :
    W.Ok t ∧ W.Le s t ∧ ∃ a₀, Compile.direct W.vars m₀ = .ok a₀ ∧ R t a a₀ := by
  obtain ⟨hok', hle, a₀, hrun₀, hR⟩ := h s a t (W.refl s) hok hrun
  refine ⟨hok', hle, a₀, ?_, hR⟩
  have hrun₀' : m₀.run rowContext (rowState W.vars) = .ok (a₀, rowState W.vars) := hrun₀
  rw [Compile.direct, hrun₀']
  rfl

end Clauses

end World

end TreeSql.Compile
