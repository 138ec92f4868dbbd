import TreeSql.Command.Json
import TreeSql.Proofs.Expr.Nodes
import TreeSql.Proofs.Json.Types

/-
  TreeSql.Proofs.Json.Trees — command trees read back.

  A command tree is the one that its JSON text gives (`CommandTree.ofText_text`), if that text nests no deeper
  than is read, and if its constants are no floating-point numbers and have texts that give them back.
-/
namespace TreeSql

open Json Decoder

variable {levels : Nat}

/-! ## Entity sets and functions -/

theorem decodes_mapping (m : TableMapping) : Decodes levels TableMapping.decoder m.toJson m :=
  decodes_record rfl (by decide)
    (.getD rfl (decodes_optionalString _) (.getD rfl (decodes_optionalString _) (.getD rfl (decodes_optionalString _)
      (.getD rfl (decodes_optionalString _) (.getD rfl (decodes_optionalString _) (.done _))))))

theorem decodes_entitySet (s : EntitySet) : Decodes levels EntitySet.decoder s.toJson s :=
  decodes_record rfl (by decide)
    (.get rfl (decodes_string _) (.get rfl (decodes_string _) (.getD rfl (decodes_mapping _)
      (.getD rfl (decodes_map fun m _ => decodes_named m) (.done _)))))

theorem decodes_function (r : FunctionRef) : Decodes levels FunctionRef.decoder r.toJson r :=
  decodes_record rfl (by decide)
    (.get rfl (decodes_string _) (.get rfl (decodes_string _) (.getD rfl (decodes_optionalString _)
      (.getD rfl (decodes_optionalString _) (.done _)))))

namespace Expr

/-! ## Parts of expressions -/

section Parts

variable {expr : Decoder Expr} {j : Json} {e : Expr}

theorem decodes_binding (h : Decodes levels expr j e) (var : String) :
    Decodes levels (bindingDecoder expr) (bindingJson j var) ⟨e, var⟩ :=
  decodes_record rfl (by decide) (.get rfl h (.get rfl (decodes_string var) (.done _)))

theorem decodes_groupBinding (h : Decodes levels expr j e) (var groupVar : String) :
    Decodes levels (groupBindingDecoder expr) (groupBindingJson j var groupVar) ⟨e, var, groupVar⟩ :=
  decodes_record rfl (by decide)
    (.get rfl h (.get rfl (decodes_string var) (.get rfl (decodes_string groupVar) (.done _))))

theorem decodes_sortKey (h : Decodes levels expr j e) (ascending : Bool) :
    Decodes levels (sortKeyDecoder expr) (sortKeyJson j ascending) ⟨e, ascending⟩ :=
  decodes_record rfl (by decide) (.get rfl h (.get rfl (decodes_bool ascending) (.done _)))

theorem decodes_aggregate {args : List Json} {es : List Expr} (h : List.Forall₂ (Decodes levels expr) args es)
    (f : FunctionRef) (isDistinct : Bool) (t : DataType) :
    Decodes levels (aggregateDecoder expr) (aggregateJson f args isDistinct t) ⟨f, es, isDistinct, t⟩ :=
  decodes_record rfl (by decide)
    (.get rfl (decodes_function f) (.get rfl (decodes_list h) (.getD rfl (decodes_bool isDistinct)
      (.get rfl (decodes_type t) (.done _)))))

end Parts

/-! ## Expressions -/

/-- The test that an expression is no constant, or one that reads back. -/
def readsBack : Expr → Bool
  | constant v => v.readsBack
  | _ => true

/-- The decoder of expressions that may use itself so many times. -/
abbrev within (fuel : Nat) : Decoder Expr := nested (fun expr => variant (contentDecoder? expr)) fuel

mutual

theorem decodes_toJson : ∀ (e : Expr), e.everyNode readsBack = true → ∀ fuel, Decodes fuel (within fuel) e.toJson e
  | scan set, _ => decodes_nestedVariant (by decide) (fun _ => rfl) fun _ => (decodes_entitySet set).map scan
  | filter ⟨e, v⟩ p, h => by
    simp only [everyNode, Bool.and_eq_true] at h
    exact decodes_nestedVariant (by decide) (fun _ => rfl) fun fuel =>
      decodes_record rfl (by decide)
        (.get rfl (decodes_binding (decodes_toJson e h.2.1 fuel) v)
          (.get rfl (decodes_toJson p h.2.2 fuel) (.done _)))
  | project ⟨e, v⟩ row, h => by
    simp only [everyNode, Bool.and_eq_true] at h
    exact decodes_nestedVariant (by decide) (fun _ => rfl) fun fuel =>
      decodes_record rfl (by decide)
        (.get rfl (decodes_binding (decodes_toJson e h.2.1 fuel) v)
          (.get rfl (decodes_toJson row h.2.2 fuel) (.done _)))
  | sort ⟨e, v⟩ ks, h => by
    simp only [everyNode, Bool.and_eq_true] at h
    exact decodes_nestedVariant (by decide) (fun _ => rfl) fun fuel =>
      decodes_record rfl (by decide)
        (.get rfl (decodes_binding (decodes_toJson e h.2.1 fuel) v)
          (.get rfl (decodes_list (decodes_keysToJson ks h.2.2 fuel)) (.done _)))
  | skip ⟨e, v⟩ ks n, h => by
    simp only [everyNode, Bool.and_eq_true] at h
    exact decodes_nestedVariant (by decide) (fun _ => rfl) fun fuel =>
      decodes_record rfl (by decide)
        (.get rfl (decodes_binding (decodes_toJson e h.2.1.1 fuel) v)
          (.get rfl (decodes_list (decodes_keysToJson ks h.2.1.2 fuel))
            (.get rfl (decodes_toJson n h.2.2 fuel) (.done _))))
  | limit e n, h => by
    simp only [everyNode, Bool.and_eq_true] at h
    exact decodes_nestedVariant (by decide) (fun _ => rfl) fun fuel =>
      decodes_record rfl (by decide)
        (.get rfl (decodes_toJson e h.2.1 fuel) (.get rfl (decodes_toJson n h.2.2 fuel) (.done _)))
  | distinct e, h => by
    simp only [everyNode, Bool.and_eq_true] at h
    exact decodes_nestedVariant (by decide) (fun _ => rfl) fun fuel => (decodes_toJson e h.2 fuel).map distinct
  | groupBy ⟨e, v, g⟩ ks aggs t, h => by
    simp only [everyNode, Bool.and_eq_true] at h
    exact decodes_nestedVariant (by decide) (fun _ => rfl) fun fuel =>
      decodes_record rfl (by decide)
        (.get rfl (decodes_groupBinding (decodes_toJson e h.2.1.1 fuel) v g)
          (.get rfl (decodes_list (decodes_allToJson ks h.2.1.2 fuel))
            (.get rfl (decodes_list (decodes_aggregatesToJson aggs h.2.2 fuel))
              (.get rfl (decodes_type t) (.done _)))))
  | join k ⟨l, v⟩ ⟨r, w⟩ c, h => by
    simp only [everyNode, Bool.and_eq_true] at h
    exact decodes_nestedVariant (by decide) (fun _ => rfl) fun fuel =>
      decodes_record rfl (by decide)
        (.get rfl (decodes_enum k.ofName?_name)
          (.get rfl (decodes_binding (decodes_toJson l h.2.1.1 fuel) v)
            (.get rfl (decodes_binding (decodes_toJson r h.2.1.2 fuel) w)
              (.get? rfl (decodes_optionToJson c h.2.2 fuel) (.done _)))))
  | setOp k l r, h => by
    simp only [everyNode, Bool.and_eq_true] at h
    exact decodes_nestedVariant (by decide) (fun _ => rfl) fun fuel =>
      decodes_record rfl (by decide)
        (.get rfl (decodes_enum k.ofName?_name)
          (.get rfl (decodes_toJson l h.2.1 fuel) (.get rfl (decodes_toJson r h.2.2 fuel) (.done _))))
  | newInstance t es, h => by
    simp only [everyNode, Bool.and_eq_true] at h
    exact decodes_nestedVariant (by decide) (fun _ => rfl) fun fuel =>
      decodes_record rfl (by decide)
        (.get rfl (decodes_type t) (.get rfl (decodes_list (decodes_allToJson es h.2 fuel)) (.done _)))
  | element e, h => by
    simp only [everyNode, Bool.and_eq_true] at h
    exact decodes_nestedVariant (by decide) (fun _ => rfl) fun fuel => (decodes_toJson e h.2 fuel).map element
  | call f es t, h => by
    simp only [everyNode, Bool.and_eq_true] at h
    exact decodes_nestedVariant (by decide) (fun _ => rfl) fun fuel =>
      decodes_record rfl (by decide)
        (.get rfl (decodes_function f) (.get rfl (decodes_list (decodes_allToJson es h.2 fuel))
          (.get rfl (decodes_type t) (.done _))))
  | comparison op l r, h => by
    simp only [everyNode, Bool.and_eq_true] at h
    exact decodes_nestedVariant (by decide) (fun _ => rfl) fun fuel =>
      decodes_record rfl (by decide)
        (.get rfl (decodes_enum op.ofName?_name)
          (.get rfl (decodes_toJson l h.2.1 fuel) (.get rfl (decodes_toJson r h.2.2 fuel) (.done _))))
  | arithmetic op es, h => by
    simp only [everyNode, Bool.and_eq_true] at h
    exact decodes_nestedVariant (by decide) (fun _ => rfl) fun fuel =>
      decodes_record rfl (by decide)
        (.get rfl (decodes_enum op.ofName?_name) (.get rfl (decodes_list (decodes_allToJson es h.2 fuel)) (.done _)))
  | and l r, h => by
    simp only [everyNode, Bool.and_eq_true] at h
    exact decodes_nestedVariant (by decide) (fun _ => rfl) fun fuel =>
      (decodes_pair (decodes_toJson l h.2.1 fuel) (decodes_toJson r h.2.2 fuel)).map fun (l, r) => and l r
  | or l r, h => by
    simp only [everyNode, Bool.and_eq_true] at h
    exact decodes_nestedVariant (by decide) (fun _ => rfl) fun fuel =>
      (decodes_pair (decodes_toJson l h.2.1 fuel) (decodes_toJson r h.2.2 fuel)).map fun (l, r) => or l r
  | not e, h => by
    simp only [everyNode, Bool.and_eq_true] at h
    exact decodes_nestedVariant (by decide) (fun _ => rfl) fun fuel => (decodes_toJson e h.2 fuel).map not
  | isNull e, h => by
    simp only [everyNode, Bool.and_eq_true] at h
    exact decodes_nestedVariant (by decide) (fun _ => rfl) fun fuel => (decodes_toJson e h.2 fuel).map isNull
  | isEmpty e, h => by
    simp only [everyNode, Bool.and_eq_true] at h
    exact decodes_nestedVariant (by decide) (fun _ => rfl) fun fuel => (decodes_toJson e h.2 fuel).map isEmpty
  | like e p, h => by
    simp only [everyNode, Bool.and_eq_true] at h
    exact decodes_nestedVariant (by decide) (fun _ => rfl) fun fuel =>
      decodes_record rfl (by decide)
        (.get rfl (decodes_toJson e h.2.1 fuel) (.get rfl (decodes_toJson p h.2.2 fuel) (.done _)))
  | isIn e es, h => by
    simp only [everyNode, Bool.and_eq_true] at h
    exact decodes_nestedVariant (by decide) (fun _ => rfl) fun fuel =>
      decodes_record rfl (by decide)
        (.get rfl (decodes_toJson e h.2.1 fuel) (.get rfl (decodes_list (decodes_allToJson es h.2.2 fuel)) (.done _)))
  | cast e t, h => by
    simp only [everyNode, Bool.and_eq_true] at h
    exact decodes_nestedVariant (by decide) (fun _ => rfl) fun fuel =>
      decodes_record rfl (by decide)
        (.get rfl (decodes_toJson e h.2 fuel) (.get rfl (decodes_type t) (.done _)))
  | caseOf ws ts o, h => by
    simp only [everyNode, Bool.and_eq_true] at h
    exact decodes_nestedVariant (by decide) (fun _ => rfl) fun fuel =>
      decodes_record rfl (by decide)
        (.get rfl (decodes_list (decodes_allToJson ws h.2.1.1 fuel))
          (.get rfl (decodes_list (decodes_allToJson ts h.2.1.2 fuel))
            (.get rfl (decodes_toJson o h.2.2 fuel) (.done _))))
  | constant v, h =>
    decodes_nestedVariant (by decide) (fun _ => rfl) fun fuel =>
      ((Value.decodes_toJson (test_of_everyNode h)).mono (Nat.le_succ fuel)).map constant
  | null t, _ => decodes_nestedVariant (by decide) (fun _ => rfl) fun _ => (decodes_type t).map null
  | paramRef name t, _ =>
    decodes_nestedVariant (by decide) (fun _ => rfl) fun _ =>
      decodes_record rfl (by decide) (.get rfl (decodes_string name) (.get rfl (decodes_type t) (.done _)))
  | varRef name t, _ =>
    decodes_nestedVariant (by decide) (fun _ => rfl) fun _ =>
      decodes_record rfl (by decide) (.get rfl (decodes_string name) (.get rfl (decodes_type t) (.done _)))
  | property e name t, h => by
    simp only [everyNode, Bool.and_eq_true] at h
    exact decodes_nestedVariant (by decide) (fun _ => rfl) fun fuel =>
      decodes_record rfl (by decide)
        (.get rfl (decodes_toJson e h.2 fuel) (.get rfl (decodes_string name) (.get rfl (decodes_type t) (.done _))))
termination_by structural e => e

theorem decodes_allToJson : ∀ (es : List Expr), everyNodeOfAll readsBack es = true →
    ∀ fuel, List.Forall₂ (Decodes fuel (within fuel)) (allToJson es) es
  | [], _, _ => .nil
  | e :: es, h, fuel => by
    simp only [everyNodeOfAll, Bool.and_eq_true] at h
    exact .cons (decodes_toJson e h.1 fuel) (decodes_allToJson es h.2 fuel)
termination_by structural es => es

theorem decodes_keysToJson : ∀ (ks : List SortKey), everyNodeOfKeys readsBack ks = true →
    ∀ fuel, List.Forall₂ (Decodes fuel (sortKeyDecoder (within fuel))) (keysToJson ks) ks
  | [], _, _ => .nil
  | ⟨e, ascending⟩ :: ks, h, fuel => by
    simp only [everyNodeOfKeys, Bool.and_eq_true] at h
    exact .cons (decodes_sortKey (decodes_toJson e h.1 fuel) ascending) (decodes_keysToJson ks h.2 fuel)
termination_by structural ks => ks

theorem decodes_aggregatesToJson : ∀ (aggs : List Aggregate), everyNodeOfAggregates readsBack aggs = true →
    ∀ fuel, List.Forall₂ (Decodes fuel (aggregateDecoder (within fuel))) (aggregatesToJson aggs) aggs
  | [], _, _ => .nil
  | ⟨f, args, isDistinct, t⟩ :: aggs, h, fuel => by
    simp only [everyNodeOfAggregates, Bool.and_eq_true] at h
    exact .cons (decodes_aggregate (decodes_allToJson args h.1 fuel) f isDistinct t)
      (decodes_aggregatesToJson aggs h.2 fuel)
termination_by structural aggs => aggs

theorem decodes_optionToJson : ∀ (c : Option Expr), everyNodeOfOption readsBack c = true →
    ∀ fuel, Decodes fuel (option (within fuel)) (optionToJson c) c
  | none, _, _ => decodes_none
  | some e, h, fuel => decodes_some (ne_null_of_nested (decodes_toJson e h 0)) (decodes_toJson e h fuel)
termination_by structural c => c

end

end Expr

theorem decodes_expr {e : Expr} (h : e.everyNode Expr.readsBack = true) : Decodes levels Expr.decoder e.toJson e :=
  decodes_recursive (e.decodes_toJson h)

theorem decodes_optionalExpr {e : Option Expr} (h : e.all (·.everyNode Expr.readsBack) = true) :
    Decodes levels (option Expr.decoder) (.ofOption Expr.toJson e) e := by
  cases e with
  | none => exact decodes_none
  | some e => exact decodes_some (ne_null_of_nested (e.decodes_toJson h 0)) (decodes_expr h)

/-! ## Commands -/

theorem decodes_parameter (d : ParameterDecl) : Decodes levels ParameterDecl.decoder d.toJson d :=
  (decodes_named ⟨d.name, d.type⟩).map fun m => (⟨m.name, m.type⟩ : ParameterDecl)

theorem decodes_assignment {a : Assignment} (h : a.everyNode Expr.readsBack = true) :
    Decodes levels Assignment.decoder a.toJson a := by
  rw [Assignment.everyNode, Bool.and_eq_true] at h
  exact decodes_record rfl (by decide) (.get rfl (decodes_expr h.1) (.get rfl (decodes_expr h.2) (.done _)))

theorem decodes_assignments {as : List Assignment} (h : as.all (·.everyNode Expr.readsBack) = true) :
    Decodes levels (list Assignment.decoder) (.array (as.map Assignment.toJson)) as :=
  decodes_map fun a ha => decodes_assignment (List.all_eq_true.mp h a ha)

theorem decodes_target {b : Binding} (h : b.expr.everyNode Expr.readsBack = true) :
    Decodes levels BindingOf.decoder b.toJson b :=
  Expr.decodes_binding (decodes_expr h) b.var

theorem decodes_body {body : CommandBody} (h : body.everyNode Expr.readsBack = true) :
    Decodes (levels + 1) CommandBody.decoder body.toJson body := by
  cases body with
  | query e => exact decodes_variant (by decide) rfl ((decodes_expr h).map CommandBody.query)
  | insert c =>
    simp only [CommandBody.everyNode, Bool.and_eq_true] at h
    have hc : Decodes levels Insert.decoder c.toJson c :=
      decodes_record rfl (by decide)
        (.get rfl (decodes_target h.1.1) (.getD rfl (decodes_assignments h.1.2)
          (.getD rfl (decodes_optionalExpr h.2) (.done _))))
    exact decodes_variant (by decide) rfl (hc.map CommandBody.insert)
  | update c =>
    simp only [CommandBody.everyNode, Bool.and_eq_true] at h
    have hc : Decodes levels Update.decoder c.toJson c :=
      decodes_record rfl (by decide)
        (.get rfl (decodes_target h.1.1.1) (.getD rfl (decodes_assignments h.1.1.2)
          (.getD rfl (decodes_optionalExpr h.1.2) (.getD rfl (decodes_optionalExpr h.2) (.done _)))))
    exact decodes_variant (by decide) rfl (hc.map CommandBody.update)
  | delete c =>
    simp only [CommandBody.everyNode, Bool.and_eq_true] at h
    have hc : Decodes levels Delete.decoder c.toJson c :=
      decodes_record rfl (by decide)
        (.get rfl (decodes_target h.1) (.getD rfl (decodes_optionalExpr h.2) (.done _)))
    exact decodes_variant (by decide) rfl (hc.map CommandBody.delete)

namespace CommandTree

theorem decodes_toJson {tree : CommandTree} (h : tree.body.everyNode Expr.readsBack = true) :
    Decodes levels decoder tree.toJson tree :=
  decodes_record rfl (by decide)
    (.get rfl ((decodes_body h).mono (Nat.le_succ levels))
      (.getD rfl (decodes_map fun d _ => decodes_parameter d) (.done _)))

/-- A tree is read back from its text. -/
theorem ofText_text {tree : CommandTree} (h : tree.body.everyNode Expr.readsBack = true)
    (hdepth : tree.toJson.depth ≤ maxLevels) : ofText tree.text = .ok tree := by
  obtain ⟨hvalid, hreads⟩ := decodes_toJson h
  rw [ofText, text, String.toList_ofList, Json.ofText?_pretty hvalid, Option.bind_some, decode?,
    hreads (Nat.le_refl maxLevels) hdepth]

/-- A new order, with a constant of each kind that is written as text. -/
def order : CommandTree where
  body :=
    let set (column : String) (kind : PrimitiveKind) (value : Value) : Assignment :=
      ⟨.property (.varRef "o" (.ofKind .int32)) column (.ofKind kind), .constant value⟩
    let placed : Timestamp := ⟨2024, 2, 29, 12, 30, 0, 500000000, by decide, by decide, by decide, by decide,
      by decide⟩
    .insert {
      target := ⟨.scan { name := "Orders", container := "shop" }, "o"⟩
      assignments := [
        set "Number" .guid (.guid ⟨0x6f9619ff8b86d011b42d00c04fc964ff⟩),
        set "Total" .decimal (.decimal ⟨true, 1250, 2, by decide, by decide⟩),
        set "Placed" .dateTime (.dateTime placed),
        set "Due" .dateTimeOffset (.dateTimeOffset ⟨placed, -90, by decide⟩),
        set "Note" .string (.string "\"Größe\"\n\\")]
      returning := some (.property (.varRef "o" (.ofKind .int32)) "Id" (.ofKind .int32)) }
  parameters := [⟨"customer", .primitive .string { maxLength := some 40 }⟩]

theorem ofText_text_order :
    order.body.everyNode Expr.readsBack = true ∧ order.toJson.depth ≤ maxLevels ∧ ofText order.text = .ok order := by
  have hreads : order.body.everyNode Expr.readsBack = true := by decide +kernel
  have hdepth : order.toJson.depth ≤ maxLevels := by decide +kernel
  exact ⟨hreads, hdepth, ofText_text hreads hdepth⟩

end CommandTree

end TreeSql
