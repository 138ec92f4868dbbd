import Mathlib.Data.List.Nodup
import TreeSql.Proofs.Arena.Statements
import TreeSql.Proofs.Compile.Lifting
import TreeSql.Proofs.References.Statement

/-
  TreeSql.Proofs.Compile.Parameters — the parameter that a placeholder stands for.

  A command has the parameters that the tree declares, and one for each lifted constant under the name of its
  place. If the tree declares distinct names, and names in its expressions only what it declares, then the
  names of all parameters are distinct just if no declared name is that of a lifted constant. In that case
  each placeholder has one parameter: a declared one without a value, or that of the constant which stands
  there without lifting (`CommandTree.parameters_toCommand`).

  A tree that declares the name of a lifted constant gets two parameters of that name (`two_parameters`).
-/
namespace TreeSql

open Compile

/-! ## Expressions that are alike, of which the second ones have a property -/

namespace Sql

variable {R : SqlExpr → SqlExpr → Prop} {L : String → Prop} {I : StageId → Prop}

theorem rel_and {α : Type} {r : α → α → Prop} {p : α → Prop} {a b : Option α} (h : Option.Rel r a b)
    (hb : ∀ x ∈ b, p x) :
    Option.Rel (fun x y => r x y ∧ p y) a b := by
  cases h with
  | none => exact .none
  | some h => exact .some ⟨h, hb _ rfl⟩

theorem forall₂_and {α : Type} {r : α → α → Prop} {p : α → Prop} {as bs : List α} (h : List.Forall₂ r as bs)
    (hb : ∀ x ∈ bs, p x) : List.Forall₂ (fun x y => r x y ∧ p y) as bs := by
  induction h with
  | nil => exact .nil
  | cons h _ ih =>
    rw [List.forall_mem_cons] at hb
    exact .cons ⟨h, hb.1⟩ (ih hb.2)

/-- Lists that are given or not. -/
theorem rel_forall₂_and {α : Type} {r r' : α → α → Prop} {p : α → Prop} (hr : ∀ x y, r x y ∧ p y → r' x y)
    {a b : Option (List α)} (h : Option.Rel (List.Forall₂ r) a b) (hb : ∀ bs ∈ b, ∀ x ∈ bs, p x) :
    Option.Rel (List.Forall₂ r') a b :=
  rel_mono (fun _ _ h => List.Forall₂.imp (fun x y => hr x y) (forall₂_and h.1 h.2)) (rel_and h hb)

variable (R L I) in
/-- The relation, on expressions that fit. -/
def Fitting (a b : SqlExpr) : Prop := R a b ∧ b.Fits L I

theorem SourceAlike.fitting {a b : Source} (h : SourceAlike R a b) (hb : b.Fits L I) :
    SourceAlike (Fitting R L I) a b := by
  cases h with
  | stage id => exact .stage id
  | table text => exact .table text
  | function h => exact .function ⟨h, hb⟩
  | rows h => exact .rows ⟨h, hb⟩
  | setOp kind ids => exact .setOp kind ids

theorem FromAlike.fitting {a b : FromTree} (h : FromAlike R a b) (hb : b.Fits L I) :
    FromAlike (Fitting R L I) a b := by
  induction h with
  | item h => exact .item { h with source := h.source.fitting hb }
  | join _ kind _ hc ihl ihr => exact .join (ihl hb.1) kind (ihr hb.2.1) (rel_and hc hb.2.2)

theorem StageAlike.fitting {s t : Stage} (h : StageAlike R s t) (ht : t.Fits L I) :
    StageAlike (Fitting R L I) s t where
  distinct := h.distinct
  projection := rel_forall₂_and (fun _ _ h => { h.1 with expr := ⟨h.1.expr, h.2⟩ }) h.projection ht.projection
  pulled := h.pulled
  from_ := rel_mono (fun _ _ h => h.1.fitting h.2) (rel_and h.from_ ht.from_)
  where_ := rel_and h.where_ ht.where_
  groupBy := rel_forall₂_and (fun _ _ h => h) h.groupBy ht.groupBy
  orderBy := rel_forall₂_and (fun _ _ h => { h.1 with expr := ⟨h.1.expr, h.2⟩ }) h.orderBy ht.orderBy
  skip := rel_and h.skip ht.skip
  limit := rel_and h.limit ht.limit

end Sql

open Sql in
theorem StatementAlike.fitting {R : SqlExpr → SqlExpr → Prop} {L : String → Prop} {I : StageId → Prop}
    {s t : Statement}
    (h : StatementAlike R s t) (ht : t.Fits L I) : StatementAlike (Fitting R L I) s t := by
  have hassignments {as bs : List (SqlExpr × SqlExpr)} (h : List.Forall₂ (AssignmentAlike R) as bs)
      (hb : ∀ a ∈ bs, a.1.Fits L I ∧ a.2.Fits L I) : List.Forall₂ (AssignmentAlike (Fitting R L I)) as bs :=
    List.Forall₂.imp (fun _ _ h => ⟨⟨h.1.1, h.2.1⟩, h.1.2, h.2.2⟩) (forall₂_and h hb)
  cases h with
  | select root => exact .select root
  | insert table has hr => exact .insert table (hassignments has ht.1) (rel_forall₂_and (fun _ _ h => h) hr ht.2)
  | update table has hc hr =>
    exact .update table (hassignments has ht.1) (rel_and hc ht.2.1) (rel_forall₂_and (fun _ _ h => h) hr ht.2.2)
  | delete table hc => exact .delete table (rel_and hc ht)

/-! ## Names of parameters -/

theorem names_declaredParameters {ds : List ParameterDecl} {ps : List Parameter}
    (h : declaredParameters ds = .ok ps) :
    ps.map (·.name) = ds.map (·.name) ∧ ∀ p ∈ ps, p.value = none := by
  induction ds generalizing ps with
  | nil =>
    cases h
    exact ⟨rfl, by simp⟩
  | cons d ds ih =>
    obtain ⟨p, hp, h⟩ := ok_of_bind h
    obtain ⟨rest, hrest, h⟩ := ok_of_bind h
    cases h
    obtain ⟨hnames, hvalues⟩ := ih hrest
    unfold ParameterDecl.parameter at hp
    split at hp
    · cases hp
      exact ⟨congrArg (d.name :: ·) hnames, List.forall_mem_cons.mpr ⟨rfl, hvalues⟩⟩
    · cases hp

theorem names_liftedParameters (place : Nat) (vs : List Value) :
    (liftedParameters place vs).map (·.name) = (List.range' place vs.length).map liftedName := by
  induction vs generalizing place with
  | nil => rfl
  | cons v vs ih => simp [liftedParameters, ih, List.range'_succ]

theorem liftedName_injective : Function.Injective liftedName :=
  fun _ _ h => Sql.placeholder_liftedName_inj (congrArg placeholder h)

/-- Distinct declared names stay distinct beside those of lifted constants if none of them is one of those. -/
theorem nodup_names_iff {ds : List ParameterDecl} {ps : List Parameter} (h : declaredParameters ds = .ok ps)
    (hdistinct : (ds.map (·.name)).Nodup) (vs : List Value) :
    ((ps ++ liftedParameters 0 vs).map (·.name)).Nodup ↔ ∀ d ∈ ds, ∀ k < vs.length, d.name ≠ liftedName k := by
  have hlifted : ((List.range' 0 vs.length).map liftedName).Nodup :=
    List.Nodup.map liftedName_injective (List.nodup_range' 1)
  rw [List.map_append, (names_declaredParameters h).1, names_liftedParameters, List.nodup_append]
  constructor
  · rintro ⟨-, -, hapart⟩ d hd k hk
    exact hapart _ (List.mem_map_of_mem hd) _ (List.mem_map_of_mem (by simpa using hk))
  · intro hapart
    refine ⟨hdistinct, hlifted, fun a ha b hb => ?_⟩
    obtain ⟨d, hd, rfl⟩ := List.mem_map.mp ha
    obtain ⟨k, hk, rfl⟩ := List.mem_map.mp hb
    exact hapart d hd k (by simpa using hk)

/-- Exactly one of the parameters has the name, and it has the value. -/
def BindsOnce (ps : List Parameter) (name : String) (value : Option Value) : Prop :=
  ∃ p, ps.filter (fun q => q.name = name) = [p] ∧ p.value = value

theorem bindsOnce_of_mem {ps : List Parameter} (h : (ps.map (·.name)).Nodup) {p : Parameter} (hp : p ∈ ps) :
    BindsOnce ps p.name p.value := by
  refine ⟨p, ?_, rfl⟩
  induction ps with
  | nil => cases hp
  | cons q ps ih =>
    rw [List.map_cons, List.nodup_cons] at h
    have hapart {r : Parameter} (hr : r ∈ ps) : r.name ≠ q.name := fun hsame => h.1 (hsame ▸ List.mem_map_of_mem hr)
    rcases List.mem_cons.mp hp with rfl | hp
    · have hnone : ps.filter (fun r => r.name = p.name) = [] := by simpa using fun r hr => hapart hr
      rw [List.filter_cons_of_pos (by simp), hnone]
    · rw [List.filter_cons_of_neg (by simpa using (hapart hp).symm), ih h.2 hp]

/-! ## Placeholders -/

/-- The second expression has constants where the first one has their parameters. All other placeholders stand in
    both, for declared parameters. -/
def Placed (ps : List Parameter) (a b : Sql.SqlExpr) : Prop :=
  (∀ text ∈ b.texts, Unmarked text ∨ ∃ name, text = placeholder name ∧ BindsOnce ps name none) ∧
    (a = b ∨ ∃ vs, Sql.Lifts vs a b ∧ ∀ k v, vs[k]? = some v → BindsOnce ps (liftedName k) (some v))

/-- Whether a node that refers to a parameter names one that the tree declares. -/
def CommandTree.declares (tree : CommandTree) : Expr → Bool
  | .paramRef name _ => tree.parameters.any (·.name == name)
  | _ => true

/-- The texts that are not those of parameters, and those of declared ones. -/
def CommandTree.Writes (tree : CommandTree) (text : String) : Prop :=
  Unmarked text ∨ ∃ d ∈ tree.parameters, text = placeholder d.name

theorem permits_declared (tree : CommandTree) : Permits tree.Writes tree.declares where
  unmarked h := .inl h
  paramRef name t h := by
    obtain ⟨d, hd, hname⟩ := List.any_eq_true.mp h
    exact .inr ⟨d, hd, by rw [eq_of_beq hname]⟩
  other e h := by
    cases e with
    | paramRef name t => exact absurd rfl (h name t)
    | _ => rfl

/-- Without lifting, what is built has the placeholders of declared parameters only. -/
theorem fits_unlifted {tree : CommandTree} (h : tree.body.everyNode tree.declares = true) {settings : Settings}
    {r : (Statement × List Member) × State} (hbuild : build (settings.lifting false) tree.body = .ok r) :
    r.1.1.Fits tree.Writes (fun _ => True) ∧ ∀ id, (r.2.stages.get id).Fits tree.Writes fun _ => True := by
  have hstart : Here tree.Writes (contextOf (settings.lifting false) tree.body) {} := by
    cases tree.body <;> exact ⟨wellFormed_empty _ _, fun h => by cases h⟩
  obtain ⟨ht, hfits⟩ := (proceeds_statement (permits_declared tree) hstart h).result r.1 r.2 hbuild
  obtain ⟨rank, hrank⟩ := ht.ranked
  refine ⟨hfits.mono fun _ _ => trivial, fun id => ?_⟩
  by_cases hid : id < r.2.stages.length
  · exact (hrank id ⟨Nat.zero_le _, hid⟩).2.mono fun _ _ => trivial
  · rw [Sql.Stages.get, List.getElem?_eq_none (Nat.not_lt.mp hid)]
    exact Sql.Stage.fits_empty

theorem statementAlike_same (s : Statement) : StatementAlike (· = ·) s s := by
  have hreturned (r : Option (List Sql.SqlExpr)) : Option.Rel (List.Forall₂ (· = ·)) r r :=
    Sql.rel_refl (fun _ => List.forall₂_same.mpr fun _ _ => rfl) r
  have hassignments (as : List (Sql.SqlExpr × Sql.SqlExpr)) : List.Forall₂ (AssignmentAlike (· = ·)) as as :=
    List.forall₂_same.mpr fun _ _ => ⟨rfl, rfl⟩
  cases s with
  | select root => exact .select root
  | insert table as r => exact .insert table (hassignments as) (hreturned r)
  | update table as c r => exact .update table (hassignments as) (Sql.rel_refl (fun _ => rfl) c) (hreturned r)
  | delete table c => exact .delete table (Sql.rel_refl (fun _ => rfl) c)

/-- Whether constants are lifted or not, without lifting the same is built, but for the constants. -/
theorem build_unlifted {settings : Settings} {body : CommandBody} {on : (Statement × List Member) × State}
    (h : build settings body = .ok on) :
    ∃ off, build (settings.lifting false) body = .ok off ∧
      StatementAlike (fun a b => a = b ∨ Sql.Lifts on.2.lifted a b) on.1.1 off.1.1 ∧
      ∀ id, Sql.StageAlike (fun a b => a = b ∨ Sql.Lifts on.2.lifted a b) (on.2.stages.get id)
        (off.2.stages.get id) := by
  have hcontext :
      contextOf settings body = contextOf (settings.lifting (contextOf settings body).liftConstants) body := by
    cases body <;> rfl
  have hbuild : build settings body = build (settings.lifting (contextOf settings body).liftConstants) body := by
    unfold build
    rw [← hcontext]
  cases hlift : (contextOf settings body).liftConstants with
  | false =>
    rw [hlift] at hbuild
    refine ⟨on, hbuild ▸ h, (statementAlike_same _).mono fun _ _ => .inl, fun id => ?_⟩
    exact (Sql.StageAlike.refl (R := (· = ·)) (fun _ => rfl) _).mono fun _ _ => .inl
  | true =>
    rw [hlift] at hbuild
    have hsame := build_lifting settings body
    rw [← hbuild, h] at hsame
    generalize build (settings.lifting false) body = x at hsame ⊢
    cases hsame with
    | ok hsame =>
      exact ⟨_, rfl, hsame.statement.mono fun _ _ h => .inr h.1,
        fun id => (hsame.stages id).mono fun _ _ h => .inr h.1⟩

/-- If no declared name is that of a lifted constant, then the names of all parameters are distinct, and every
    placeholder has one parameter: a declared one, or that of the constant which it stands for. -/
theorem CommandTree.parameters_toCommand {tree : CommandTree} {settings : Settings} {command : Command}
    (hdistinct : (tree.parameters.map (·.name)).Nodup) (hdeclared : tree.body.everyNode tree.declares = true)
    (hcommand : tree.toCommand settings = .ok command) :
    ∃ on off, build settings tree.body = .ok on ∧ build (settings.lifting false) tree.body = .ok off ∧
      command.text = on.1.1.render settings.serverVersion.regime on.2.stages ∧
      ((command.parameters.map (·.name)).Nodup ↔
        ∀ d ∈ tree.parameters, ∀ k < on.2.lifted.length, d.name ≠ liftedName k) ∧
      ((command.parameters.map (·.name)).Nodup →
        StatementAlike (Placed command.parameters) on.1.1 off.1.1 ∧
          ∀ id, Sql.StageAlike (Placed command.parameters) (on.2.stages.get id) (off.2.stages.get id)) := by
  obtain ⟨on, hbuild, hcommand⟩ := ok_of_bind hcommand
  obtain ⟨declared, hparameters, hcommand⟩ := ok_of_bind hcommand
  cases hcommand
  obtain ⟨off, hoff, hstatement, hstages⟩ := build_unlifted hbuild
  obtain ⟨hfits, hfitsAll⟩ := fits_unlifted hdeclared hoff
  refine ⟨on, off, hbuild, hoff, rfl, nodup_names_iff hparameters hdistinct _, fun hnodup => ?_⟩
  have hbinds (d : ParameterDecl) (hd : d ∈ tree.parameters) :
      BindsOnce (declared ++ liftedParameters 0 on.2.lifted) d.name none := by
    obtain ⟨hnames, hvalues⟩ := names_declaredParameters hparameters
    obtain ⟨p, hp, hname⟩ := List.mem_map.mp (hnames ▸ List.mem_map_of_mem hd : d.name ∈ declared.map (·.name))
    simpa only [hname, hvalues p hp] using bindsOnce_of_mem hnodup (List.mem_append_left _ hp)
  have hcarries (k : Nat) (v : Value) (hk : on.2.lifted[k]? = some v) :
      BindsOnce (declared ++ liftedParameters 0 on.2.lifted) (liftedName k) (some v) := by
    have hget : (liftedParameters 0 on.2.lifted)[k]? = some (liftedParameter (0 + k) v) := by
      rw [getElem?_liftedParameters, hk, Option.map_some]
    rw [Nat.zero_add] at hget
    exact bindsOnce_of_mem hnodup (List.mem_append_right _ (List.mem_of_getElem? hget))
  have hplaced (a b : Sql.SqlExpr)
      (h : Sql.Fitting (fun a b => a = b ∨ Sql.Lifts on.2.lifted a b) tree.Writes (fun _ => True) a b) :
      Placed (declared ++ liftedParameters 0 on.2.lifted) a b :=
    ⟨fun text ht => (h.2.texts text ht).imp_right fun ⟨d, hd, htext⟩ => ⟨d.name, htext, hbinds d hd⟩,
      h.1.imp_right fun hlifts => ⟨_, hlifts, hcarries⟩⟩
  exact ⟨(hstatement.fitting hfits).mono hplaced, fun id => ((hstages id).fitting (hfitsAll id)).mono hplaced⟩

namespace Compile.Films

/-- The removal of one film, if it has the rating that a parameter gives. -/
def removal (parameter : String) : CommandTree where
  body :=
    let column (name : String) : Expr := .property (.varRef "f" integer) name integer
    .delete { target := ⟨.scan films, "f"⟩,
              predicate := some (.and (.comparison .equals (column "Rating") (.paramRef parameter integer))
                (.comparison .equals (column "Id") (.constant (.int32 7)))) }
  parameters := [⟨parameter, integer⟩]

theorem parameters_removal :
    ((removal "rating").parameters.map (·.name)).Nodup ∧
      (removal "rating").body.everyNode (removal "rating").declares = true ∧
      ∃ command, (removal "rating").toCommand {} = .ok command ∧ command.parameters.map (·.name) = ["rating", "p_0"] ∧
        ∃ on off, build {} (removal "rating").body = .ok on ∧
          build (Settings.lifting {} false) (removal "rating").body = .ok off ∧
          StatementAlike (Placed command.parameters) on.1.1 off.1.1 := by
  have hdistinct : ((removal "rating").parameters.map (·.name)).Nodup := by decide
  have hdeclared : (removal "rating").body.everyNode (removal "rating").declares = true := by decide
  obtain ⟨command, hcommand, hnames⟩ : ∃ command, (removal "rating").toCommand {} = .ok command ∧
      command.parameters.map (·.name) = ["rating", "p_0"] := exists_ok (by decide +kernel)
  obtain ⟨on, off, hbuild, hoff, -, -, hplaced⟩ := CommandTree.parameters_toCommand hdistinct hdeclared hcommand
  have hnodup : (command.parameters.map (·.name)).Nodup := hnames ▸ by decide
  exact ⟨hdistinct, hdeclared, command, hcommand, hnames, on, off, hbuild, hoff, (hplaced hnodup).1⟩

/-- With the name of the lifted constant, the parameter is there twice. -/
theorem two_parameters :
    ((removal "p_0").parameters.map (·.name)).Nodup ∧ (removal "p_0").body.everyNode (removal "p_0").declares = true ∧
      ∃ command, (removal "p_0").toCommand {} = .ok command ∧
        command.text = "DELETE FROM \"dbo\".\"Film\" WHERE \"Rating\" = @p_0 AND \"Id\" = @p_0" ∧
        command.parameters.map (fun p => (p.name, p.value)) = [("p_0", none), ("p_0", some (.int32 7))] :=
  ⟨by decide, by decide, exists_ok (by decide +kernel)⟩

end Compile.Films

end TreeSql
