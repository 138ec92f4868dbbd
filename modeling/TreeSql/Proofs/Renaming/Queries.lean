import Mathlib.Logic.Equiv.Basic
import TreeSql.Command.Sql
import TreeSql.Proofs.References.Statement
import TreeSql.Proofs.References.Typing
import TreeSql.Proofs.Renaming.Relations

/-
  TreeSql.Proofs.Renaming.Queries — a query under other names.

  Names for the variables of a query are its own business: as long as compiling makes none of them (`Uncaptured`),
  the query and the renamed query compile to the same stages under other aliases (`toCommand_rename`). The aliases
  that compiling makes are not checked against the variables, and one that is the name of a variable takes its
  place (`Films.captured`).
-/
namespace TreeSql

open Sql

namespace Compile

open TreeSql.Expr

variable {r : VarRenaming} {vars : List String} {query : Expr}

/-! ## The root -/

/-- The columns that the query declares, if any, do not come from variables. -/
def RootKept (r : VarRenaming) (query : Expr) : Prop :=
  query.typedByVars = false ∨ ∀ var, declaredColumns? query var = none ∧ declaredColumns? (query.rename r) var = none

/-- The projection to declared columns reads the type of a query only. -/
theorem declaredColumns?_of_kind {e : Expr} (hproject : e.kind ≠ .project) (hgroup : e.kind ≠ .groupBy)
    (var : String) :
    declaredColumns? e var = (do
      let row ← e.resultType.element?
      let members ← row.members?
      if members.isEmpty || members.any (·.type.kind?.isNone) then none
      else
        let args := members.map fun m => Expr.property (e.bind var).varRef m.name m.type
        some (.project (e.bind var) (.newInstance (.ofMembers members) args))) := by
  cases e with
  | project => exact absurd rfl hproject
  | groupBy => exact absurd rfl hgroup
  | _ => rfl

theorem declaredColumns?_rename (hr : Renames r vars) (htype : query.typedByVars = false) (k : Nat) :
    declaredColumns? (query.rename r) (aliasName k) = (declaredColumns? query (aliasName k)).map (rename r) := by
  by_cases hproject : query.kind = .project
  · cases query with
    | project => rfl
    | _ => cases hproject
  by_cases hgroup : query.kind = .groupBy
  · cases query with
    | groupBy => rfl
    | _ => cases hgroup
  rw [declaredColumns?_of_kind hproject hgroup, declaredColumns?_of_kind (by rwa [kind_rename]) (by rwa [kind_rename]),
    resultType_rename query htype]
  cases query.resultType.element? with
  | none => rfl
  | some row =>
    cases hmembers : row.members? with
    | none => simp [hmembers]
    | some members =>
      simp only [Option.bind_eq_bind, Option.bind_some, hmembers]
      split
      · rfl
      · simp [rename, Expr.bind, BindingOf.varRef, BindingOf.elementType, memberRenamed, hr.fixesAlias, hr.fixesType,
          resultType_rename query htype, renameAll_eq_map, Function.comp_def]

theorem Renames.withAlias (hr : Renames r vars) (k : Nat) : Renames r (aliasName k :: vars) := by
  refine { hr with operand := fun h place => hr.operand (h.mono fun x hx => ?_) place }
  rcases List.mem_cons.mp hx with rfl | hx
  · exact .drawn k
  · exact .var hx

/-- A query with the columns that it declares can be renamed if the query can. -/
theorem everyNode_declaredColumns {root : Expr} {var : String} (hquery : query.everyNode (renamable vars) = true)
    (hroot : declaredColumns? query var = some root) : root.everyNode (renamable (var :: vars)) = true := by
  have hinput := everyNode_renamable_subset (List.subset_cons_self var vars) hquery
  obtain ⟨members, rfl⟩ := declaredColumns?_eq_some hroot
  have hargs : everyNodeOfAll (renamable (var :: vars))
      (members.map fun m => Expr.property (query.bind var).varRef m.name m.type) = true := by
    rw [everyNodeOfAll_iff, List.forall_mem_map]
    intro m _
    simp [everyNode, renamable, namesHere, keepsTypes, Expr.bind, BindingOf.varRef]
  simp only [Expr.bind] at hargs ⊢
  simp [everyNode, hinput, hargs, renamable, namesHere, keepsTypes]
  exact fun _ _ => .inr rfl

theorem mirrors_root (hr : Renames r vars) (hquery : query.everyNode (renamable vars) = true) (hroot : RootKept r query)
    (k w : Nat) :
    Mirrors r.name w (rows ((declaredColumns? query (aliasName k)).getD query) (aliasName k))
      (rows ((declaredColumns? (query.rename r) (aliasName k)).getD (query.rename r)) (aliasName k)) SameNode := by
  have hkept {e : Expr} (he : e.everyNode (renamable (aliasName k :: vars)) = true) :
      Mirrors r.name w (rows e (aliasName k)) (rows (e.rename r) (aliasName k)) SameNode := by
    have hrows := mirrors_rows (w := w) (hr.withAlias k) he (.drawn k)
    rwa [hr.fixesAlias] at hrows
  have hself := hkept (everyNode_renamable_subset (List.subset_cons_self (aliasName k) vars) hquery)
  rcases hroot with htype | hnone
  · rw [declaredColumns?_rename hr htype]
    cases hcolumns : declaredColumns? query (aliasName k) with
    | none => exact hself
    | some root => exact hkept (everyNode_declaredColumns hquery hcolumns)
  · rw [(hnone _).1, (hnone _).2]
    exact hself

theorem resultColumns_renamed (f : String → String) (s : Stage) : resultColumns (s.renamed f) = resultColumns s := by
  cases h : s.projection <;> simp [resultColumns, Stage.renamed, h, Function.comp_def, Column.renamed]

theorem mirrors_queryStatement (hr : Renames r vars) (hquery : query.everyNode (renamable vars) = true)
    (hroot : RootKept r query) :
    Mirrors r.name 0 (queryStatement allParts query) (queryStatement allParts (query.rename r)) fun _ a b => b = a := by
  unfold queryStatement
  rw [isRelational_rename]
  split
  · refine mirrors_bind (mirrors_nextAlias_drawn r.name) fun _ hlabel => ?_
    obtain ⟨rfl, k, rfl⟩ := hlabel
    refine mirrors_bind (mirrors_root hr hquery hroot k _) fun _ hnode => ?_
    obtain ⟨rfl, hnode⟩ := hnode
    refine mirrors_bind (mirrors_openStage hnode) fun _ hlast => ?_
    subst hlast
    refine mirrors_bind (mirrors_getStage _) fun _ hstage => ?_
    subst hstage
    rw [resultColumns_renamed]
    exact mirrors_pure fun _ _ => rfl
  · exact mirrors_fail _ _

/-- What is built for a query is built for the renamed one too, under other names. -/
theorem build_rename (hr : Renames r vars) (hquery : query.everyNode (renamable vars) = true) (hroot : RootKept r query)
    (settings : Settings) :
    FailTogether (fun a b => b = (a.1, a.2.renamed r.name)) (build settings (.query query))
      (build settings (.query (query.rename r))) :=
  (mirrors_queryStatement hr hquery hroot (contextOf settings (.query query)) {} rfl linked_empty (Nat.le_refl 0)).mono
    fun _ _ ⟨_, _, hstate, hstatement⟩ => Prod.ext hstatement hstate

/-! ## Variables that compiling does not capture -/

/-- The new names of the variables are distinct, and so are the types that they have then. No variable, old or new,
    is a name that compiling makes. -/
structure Uncaptured (r : VarRenaming) (vars : List String) : Prop where
  inj {x y : String} (hx : x ∈ vars) (hy : y ∈ vars) (h : r.name x = r.name y) : x = y
  sameType {x : String} (hx : x ∈ vars) (t u : DataType) :
    (r.rowType x t).SameType (r.rowType x u) ↔ t.SameType u
  old {x : String} (hx : x ∈ vars) : ¬Made vars x
  new {x : String} (hx : x ∈ vars) : ¬Made (vars.map r.name) (r.name x)

theorem Made.generated {x : String} (h : Made vars x) : Generated x :=
  h.imp_right fun ⟨y, place, _, hx⟩ => ⟨y, place, hx⟩

theorem uncaptured_ofNames {f : String → String} (hf : f.Injective) (hold : ∀ x ∈ vars, ¬Generated x)
    (hnew : ∀ x ∈ vars, ¬Generated (f x)) : Uncaptured (.ofNames f) vars where
  inj _ _ h := hf h
  sameType _ t u := DataType.sameType_renameMembers hf t u
  old hx h := hold _ hx h.generated
  new hx h := hnew _ hx h.generated

/-- The variables with their new names. -/
def newNames (r : VarRenaming) (vars : List String) : List (String × String) := vars.map fun x => (x, r.name x)

theorem mem_newNames {x y : String} : (x, y) ∈ newNames r vars ↔ x ∈ vars ∧ r.name x = y := by
  simp only [newNames, List.mem_map, Prod.mk.injEq]
  exact ⟨fun ⟨z, hz, hx, hy⟩ => hx ▸ ⟨hz, hy⟩, fun ⟨hx, hy⟩ => ⟨x, hx, rfl, hy⟩⟩

theorem fst_newNames : (newNames r vars).map Prod.fst = vars := by
  simp [newNames, Function.comp_def]

theorem snd_newNames : ((newNames r vars).map Prod.swap).map Prod.fst = vars.map r.name := by
  simp [newNames, Function.comp_def]

theorem Uncaptured.separate (h : Uncaptured r vars) : Separate (newNames r vars) where
  free x hx := by
    rw [fst_newNames] at hx ⊢
    exact h.old hx
  unique _ _ _ hy hy' := (mem_newNames.mp hy).2.symm.trans (mem_newNames.mp hy').2

theorem Uncaptured.separate_swap (h : Uncaptured r vars) : Separate ((newNames r vars).map Prod.swap) where
  free y hy := by
    rw [snd_newNames] at hy ⊢
    obtain ⟨x, hx, rfl⟩ := List.mem_map.mp hy
    exact h.new hx
  unique y x x' hx hx' := by
    have hpair {x : String} (hx : (y, x) ∈ (newNames r vars).map Prod.swap) : x ∈ vars ∧ r.name x = y := by
      obtain ⟨⟨x', y'⟩, hpair, hswap⟩ := List.mem_map.mp hx
      obtain ⟨rfl, rfl⟩ := Prod.mk.inj hswap
      exact mem_newNames.mp hpair
    exact h.inj (hpair hx).1 (hpair hx').1 ((hpair hx).2.trans (hpair hx').2.symm)

theorem carried_of_occurs {x : String} (h : Occurs vars x) : ∃ y, Carried (newNames r vars) x y := by
  induction h with
  | var hx => exact ⟨_, .var (mem_newNames.mpr ⟨hx, rfl⟩)⟩
  | drawn k => exact ⟨_, .drawn k⟩
  | operand _ place ih =>
    obtain ⟨y, hy⟩ := ih
    exact ⟨_, hy.operand place⟩

/-- The new names are those of a renaming of all names. -/
theorem Uncaptured.exists_renames (h : Uncaptured r vars) :
    ∃ r' : VarRenaming, Renames r' vars ∧ r.AgreeOn r' vars ∧
      ∀ x y, Carried (newNames r vars) x y → r'.name x = y := by
  obtain ⟨f, hf, hcarried⟩ := exists_injective_of_carried h.separate h.separate_swap
  refine ⟨⟨f, fun x t => if x ∈ vars then r.rowType x t else t⟩, ?_, fun x hx => ⟨?_, ?_⟩, hcarried⟩
  · refine ⟨⟨hf, fun x t u => ?_⟩, fun k => hcarried _ _ (.drawn k), fun k t => ?_, fun hx place => ?_⟩
    · dsimp only
      split
      · exact h.sameType ‹_› t u
      · rfl
    · exact if_neg fun hk => h.old hk (.inl ⟨k, rfl⟩)
    · obtain ⟨y, hy⟩ := carried_of_occurs (r := r) hx
      exact (hcarried _ _ (hy.operand place)).trans (congrArg (operandName · place) (hcarried _ _ hy).symm)
  · exact (hcarried x _ (.var (mem_newNames.mpr ⟨hx, rfl⟩))).symm
  · simp only [if_pos hx]

/-- The commands for two trees with the same declared parameters whose bodies are built alike. -/
theorem toCommand_of_build {body body' : CommandBody} {settings : Settings} {f : String → String}
    (h : FailTogether (fun a b => b = (a.1, a.2.renamed f)) (build settings body) (build settings body'))
    (parameters : List ParameterDecl) :
    FailTogether (fun a b => b.parameters = a.parameters ∧ b.columns = a.columns)
      (CommandTree.toCommand ⟨body, parameters⟩ settings) (CommandTree.toCommand ⟨body', parameters⟩ settings) := by
  unfold CommandTree.toCommand
  generalize build settings body = x, build settings body' = y at h
  cases h with
  | error e e' => exact .error e e'
  | ok h =>
    subst h
    dsimp only
    cases declaredParameters parameters with
    | error e => exact .error e e
    | ok declared => exact .ok ⟨rfl, rfl⟩

/-- A query is compiled in the same way under other names for its variables, unless compiling makes one of them. -/
theorem toCommand_rename (hr : Uncaptured r vars) (hquery : query.everyNode (renamable vars) = true)
    (hroot : RootKept r query) (settings : Settings) :
    ∃ f : String → String, f.Injective ∧ (∀ x y, Carried (newNames r vars) x y → f x = y) ∧
      FailTogether (fun a b => b = (a.1, a.2.renamed f)) (build settings (.query query))
        (build settings (.query (query.rename r))) ∧
      ∀ parameters, FailTogether (fun a b => b.parameters = a.parameters ∧ b.columns = a.columns)
        (CommandTree.toCommand ⟨.query query, parameters⟩ settings)
        (CommandTree.toCommand ⟨.query (query.rename r), parameters⟩ settings) := by
  obtain ⟨r', hr', hagree, hcarried⟩ := hr.exists_renames
  have hrename : query.rename r = query.rename r' := rename_congr hagree hquery
  have hbuild := build_rename hr' hquery (hroot.imp_right fun h => by rwa [← hrename]) settings
  rw [← hrename] at hbuild
  exact ⟨r'.name, hr'.name_inj, hcarried, hbuild, toCommand_of_build hbuild⟩

/-! ## Films -/

namespace Films

def filmRow : DataType := .ofMembers films.columns

def rating (e : Expr) : Expr := .property e "Rating" integer

/-- Two films of the same rating, where the second one is taken of two tables. -/
def pairs (left right : String) : Expr :=
  let pair := DataType.ofMembers [⟨left, filmRow⟩, ⟨right, filmRow⟩]
  let films := Expr.scan films
  .project
    ⟨.limit (.join .inner ⟨films, left⟩ ⟨.setOp .unionAll films films, right⟩
      (some (.comparison .equals (rating (.varRef left filmRow)) (rating (.varRef right filmRow)))))
      (.constant (.int32 2)), "pair"⟩
    (.newInstance (.ofMembers [⟨"Rating", integer⟩]) [rating (.property (.varRef "pair" pair) right filmRow)])

/-- The names of the sides are also those of the members of a pair. -/
theorem pairs_renamed :
    ∃ f : String → String, f.Injective ∧ f "l" = "old" ∧ f "r" = "new" ∧ f (operandName "r" 1) = operandName "new" 1 ∧
      ∃ a, build {} (.query (pairs "l" "r")) = .ok a ∧
        build {} (.query (pairs "old" "new")) = .ok (a.1, a.2.renamed f) := by
  let g := (Equiv.swap "l" "old").trans (Equiv.swap "r" "new")
  have hg : Uncaptured (.ofNames g) ["pair", "l", "r"] := by
    refine uncaptured_ofNames g.injective ?_ ?_ <;>
      simp only [List.forall_mem_cons, List.not_mem_nil, false_imp_iff, implies_true, and_true] <;>
      exact ⟨not_generated (by decide) (by decide), not_generated (by decide) (by decide),
        not_generated (by decide) (by decide)⟩
  have hquery : (pairs "l" "r").everyNode (renamable ["pair", "l", "r"]) = true := by decide
  obtain ⟨f, hf, hcarried, hbuild, -⟩ := toCommand_rename hg hquery (.inl rfl) {}
  have hr : Carried (newNames (.ofNames g) ["pair", "l", "r"]) "r" "new" := .var (by decide)
  refine ⟨f, hf, hcarried _ _ (.var (by decide)), hcarried _ _ hr, hcarried _ _ (hr.operand 1), ?_⟩
  obtain ⟨a, ha, -⟩ : ∃ a, build {} (.query (pairs "l" "r")) = .ok a ∧ True := exists_ok (by decide +kernel)
  have hrename : (pairs "l" "r").rename (.ofNames g) = pairs "old" "new" := rfl
  rw [ha, hrename] at hbuild
  generalize build {} (.query (pairs "old" "new")) = b at hbuild
  cases hbuild with
  | ok h => exact ⟨a, ha, congrArg Except.ok h⟩

/-- The films with a rating above two, if there are films. -/
def rated (x : String) : Expr :=
  .filter ⟨.scan films, x⟩ (.and (.not (.isEmpty (.limit (.scan films) (.constant (.int32 1)))))
    (.comparison .greaterThan (rating (.varRef x filmRow)) (.constant (.int32 2))))

/-- The second alias that is made takes the place of a variable of that name: the rating is looked up among the
    films that are tested for. -/
theorem captured :
    let f := Equiv.swap "x" (aliasName 2)
    let query := (rated "x").rename (.ofNames f)
    (rated "x").binders.Nodup ∧ query.binders.Nodup ∧
      ∃ a b, build {} (.query (rated "x")) = .ok a ∧ build {} (.query query) = .ok b ∧
        ∀ f', b ≠ (a.1, a.2.renamed f') := by
  intro f query
  obtain ⟨a, ha, hpulled⟩ :
      ∃ a, build {} (.query (rated "x")) = .ok a ∧ a.2.stages.map (·.pulled.length) = [0, 0] :=
    exists_ok (by decide +kernel)
  obtain ⟨b, hb, hpulled'⟩ : ∃ b, build {} (.query query) = .ok b ∧ b.2.stages.map (·.pulled.length) = [0, 1] :=
    exists_ok (by decide +kernel)
  refine ⟨by decide, by decide, a, b, ha, hb, fun f' h => ?_⟩
  subst h
  rw [State.renamed, List.map_map] at hpulled'
  simp only [Function.comp_def, Stage.renamed, List.length_map, hpulled] at hpulled'
  exact absurd hpulled' (by decide)

end Films

end Compile

end TreeSql
