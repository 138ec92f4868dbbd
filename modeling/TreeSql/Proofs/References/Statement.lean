import TreeSql.Compile.Statement
import TreeSql.Proofs.Compile.Run
import TreeSql.Proofs.References.Scope

/-
  TreeSql.Proofs.References.Statement — the references of a whole statement.
-/
namespace TreeSql.Compile

open Sql

/-- The last stage of a query. -/
def root? : Statement → Option StageId
  | .select root => some root
  | _ => none

/-! ## Films -/

namespace Films

def integer : DataType := .ofKind .int32

def films : EntitySet :=
  { name := "Film", container := "dbo", columns := [⟨"Id", integer⟩, ⟨"Rating", integer⟩] }

def schema : Schema := fun text => if text = tableSql films then ["Id", "Rating"] else []

/-- The number of films of each rating, of two films. -/
def ratings : Expr :=
  .groupBy ⟨.limit (.scan films) (.constant (.int32 2)), "l", "g"⟩
    [.property (.varRef "l" integer) "Rating" integer]
    [.ofArg "Count" (.property (.varRef "g" integer) "Id" integer) integer]
    (.ofElement (.ofMembers [⟨"Key", integer⟩, ⟨"N", integer⟩]))

/-- The key of the groups is looked up in the limited table. -/
theorem key_not_visible :
    let key := Expr.property (.varRef "v" integer) "Key" integer
    let query := Expr.filter ⟨ratings, "v"⟩ (.comparison .greaterThan key (.constant (.int32 2)))
    ∃ root columns t, build {} (.query query) = .ok ((.select root, columns), t) ∧
      ∃ env id, Within t.stages root env id ∧ ∃ p ∈ (t.stages.get id).exprs env,
        ∃ r ∈ p.2.references, ¬Visible schema t.stages p.1 r := by
  intro key query
  obtain ⟨⟨⟨statement, columns⟩, t⟩, hrun, root, hroot, p, hp, q, hq, x, hx, ref, href, hvisible⟩ :
      ∃ r : (Statement × List Member) × State, build {} (.query query) = .ok r ∧ ∃ root ∈ root? r.1.1,
        ∃ p ∈ (r.2.stages.get root).inner [], ∃ q ∈ (r.2.stages.get p.2).inner p.1,
          ∃ x ∈ (r.2.stages.get q.2).exprs q.1, ∃ ref ∈ x.2.references, ¬Visible schema r.2.stages x.1 ref :=
    exists_ok (by decide +kernel)
  cases statement with
  | select root' =>
    obtain rfl : root' = root := by simpa [root?] using hroot
    exact ⟨root', columns, t, hrun, q.1, q.2, .step (.step .root hp) hq, x, hx, ref, href, hvisible⟩
  | _ => cases hroot

end Films

end TreeSql.Compile
