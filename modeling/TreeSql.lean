import TreeSql.Command.Basic
import TreeSql.Command.Json
import TreeSql.Command.Sql
import TreeSql.Compile.Canonical
import TreeSql.Compile.Clause
import TreeSql.Compile.Column
import TreeSql.Compile.Function
import TreeSql.Compile.Relation
import TreeSql.Compile.Scalar
import TreeSql.Compile.State
import TreeSql.Compile.Statement
import TreeSql.Compile.Tree
import TreeSql.DataType.Basic
import TreeSql.DataType.Description
import TreeSql.DataType.Json
import TreeSql.Error
import TreeSql.Expr.Basic
import TreeSql.Expr.Build
import TreeSql.Expr.Coalesce
import TreeSql.Expr.Equivalence
import TreeSql.Expr.Json
import TreeSql.Expr.Typing
import TreeSql.Json.Basic
import TreeSql.Json.Decoder
import TreeSql.Json.Float
import TreeSql.Json.Reader
import TreeSql.Json.Written
import TreeSql.Number.Binary
import TreeSql.Number.Decimal
import TreeSql.Number.Power
import TreeSql.Number.Shortest
import TreeSql.Postgres.Literal
import TreeSql.Postgres.Quote
import TreeSql.Postgres.Regex
import TreeSql.Postgres.StoreType
import TreeSql.Postgres.TypeName
import TreeSql.Postgres.Version
import TreeSql.Postgres.Wire
import TreeSql.Proofs.Arena.Inside
import TreeSql.Proofs.Arena.Relations
import TreeSql.Proofs.Arena.Rendering
import TreeSql.Proofs.Arena.Runs
import TreeSql.Proofs.Arena.Standing
import TreeSql.Proofs.Arena.Statements
import TreeSql.Proofs.Arena.Values
import TreeSql.Proofs.Canonical.Differences
import TreeSql.Proofs.Canonical.Evaluation
import TreeSql.Proofs.Canonical.Moments
import TreeSql.Proofs.Canonical.Strings
import TreeSql.Proofs.Canonical.Substrings
import TreeSql.Proofs.Compile.Arena
import TreeSql.Proofs.Compile.Chains
import TreeSql.Proofs.Compile.ColumnComparison
import TreeSql.Proofs.Compile.Comparison
import TreeSql.Proofs.Compile.Congruence
import TreeSql.Proofs.Compile.Constants
import TreeSql.Proofs.Compile.Direct
import TreeSql.Proofs.Compile.Frame
import TreeSql.Proofs.Compile.Gathered
import TreeSql.Proofs.Compile.Interchange
import TreeSql.Proofs.Compile.Leaves
import TreeSql.Proofs.Compile.Levels
import TreeSql.Proofs.Compile.Lifting
import TreeSql.Proofs.Compile.Negation
import TreeSql.Proofs.Compile.Operators
import TreeSql.Proofs.Compile.Parameters
import TreeSql.Proofs.Compile.Pulling
import TreeSql.Proofs.Compile.Recursion
import TreeSql.Proofs.Compile.Results
import TreeSql.Proofs.Compile.Returned
import TreeSql.Proofs.Compile.Run
import TreeSql.Proofs.Compile.StagesAlike
import TreeSql.Proofs.Compile.Target
import TreeSql.Proofs.Compile.TreeComparison
import TreeSql.Proofs.Compile.Unqualified
import TreeSql.Proofs.Compile.UpToConstants
import TreeSql.Proofs.Exposed.Clauses
import TreeSql.Proofs.Exposed.Elements
import TreeSql.Proofs.Exposed.Joins
import TreeSql.Proofs.Exposed.Nodes
import TreeSql.Proofs.Exposed.Operands
import TreeSql.Proofs.Exposed.Operators
import TreeSql.Proofs.Exposed.PulledNames
import TreeSql.Proofs.Exposed.Queries
import TreeSql.Proofs.Exposed.Sealed
import TreeSql.Proofs.Exposed.SelectLists
import TreeSql.Proofs.Exposed.Subqueries
import TreeSql.Proofs.Exposed.Values
import TreeSql.Proofs.Exposed.Vicinity
import TreeSql.Proofs.Expr.Coalesce
import TreeSql.Proofs.Expr.Equivalence
import TreeSql.Proofs.Expr.Nodes
import TreeSql.Proofs.Expr.NormalForm
import TreeSql.Proofs.Expr.PartialEquivalence
import TreeSql.Proofs.Expr.Reads
import TreeSql.Proofs.Joins.Lexer
import TreeSql.Proofs.Joins.ReadBack
import TreeSql.Proofs.Joins.Reader
import TreeSql.Proofs.Joins.Words
import TreeSql.Proofs.Json.Decoding
import TreeSql.Proofs.Json.Text
import TreeSql.Proofs.Json.Trees
import TreeSql.Proofs.Json.Types
import TreeSql.Proofs.Literals.Intervals
import TreeSql.Proofs.Literals.WholeNumbers
import TreeSql.Proofs.Meaning.Attach
import TreeSql.Proofs.Meaning.Columns
import TreeSql.Proofs.Meaning.Groups
import TreeSql.Proofs.Meaning.Narrowing
import TreeSql.Proofs.Meaning.Opening
import TreeSql.Proofs.Meaning.Pipeline
import TreeSql.Proofs.Meaning.Rows
import TreeSql.Proofs.Meaning.Select
import TreeSql.Proofs.Meaning.SetOperations
import TreeSql.Proofs.Operators.Legacy
import TreeSql.Proofs.Operators.Lexer
import TreeSql.Proofs.Operators.ReadBack
import TreeSql.Proofs.Operators.Reader
import TreeSql.Proofs.Operators.Recognition
import TreeSql.Proofs.Operators.TextQueries
import TreeSql.Proofs.Operators.Written
import TreeSql.Proofs.Passing.Relations
import TreeSql.Proofs.Passing.Statements
import TreeSql.Proofs.Passing.States
import TreeSql.Proofs.Passing.Values
import TreeSql.Proofs.Quoting.Commands
import TreeSql.Proofs.Quoting.Expressions
import TreeSql.Proofs.Quoting.Lexer
import TreeSql.Proofs.Quoting.Patterns
import TreeSql.Proofs.Quoting.ReadBack
import TreeSql.Proofs.Quoting.Relations
import TreeSql.Proofs.Quoting.Stages
import TreeSql.Proofs.Quoting.Steps
import TreeSql.Proofs.Quoting.Texts
import TreeSql.Proofs.Quoting.Types
import TreeSql.Proofs.Quoting.Values
import TreeSql.Proofs.References.After
import TreeSql.Proofs.References.Aliases
import TreeSql.Proofs.References.Built
import TreeSql.Proofs.References.Clauses
import TreeSql.Proofs.References.Closed
import TreeSql.Proofs.References.Joins
import TreeSql.Proofs.References.Names
import TreeSql.Proofs.References.Operators
import TreeSql.Proofs.References.Routes
import TreeSql.Proofs.References.Scope
import TreeSql.Proofs.References.SelectLists
import TreeSql.Proofs.References.SetOperations
import TreeSql.Proofs.References.Site
import TreeSql.Proofs.References.Sources
import TreeSql.Proofs.References.Statement
import TreeSql.Proofs.References.Typing
import TreeSql.Proofs.References.Values
import TreeSql.Proofs.References.Visible
import TreeSql.Proofs.Renaming.Names
import TreeSql.Proofs.Renaming.Queries
import TreeSql.Proofs.Renaming.Relations
import TreeSql.Proofs.Renaming.Stages
import TreeSql.Proofs.Renaming.Steps
import TreeSql.Proofs.Renaming.Trees
import TreeSql.Proofs.Renaming.Values
import TreeSql.Proofs.StoreTypes.Declarations
import TreeSql.Proofs.StoreTypes.Grammar
import TreeSql.Proofs.Text.Runs
import TreeSql.Proofs.Versions.ReadBack
import TreeSql.Settings.Basic
import TreeSql.Settings.Json
import TreeSql.Settings.Toml
import TreeSql.Sql.Expr
import TreeSql.Sql.Operator
import TreeSql.Sql.Render
import TreeSql.Sql.Stage
import TreeSql.Text.Base64
import TreeSql.Text.Blank
import TreeSql.Text.Digits
import TreeSql.Text.Quoted
import TreeSql.Text.Unprinted
import TreeSql.Toml.Reader
import TreeSql.Toml.Scalar
import TreeSql.Toml.Table
import TreeSql.Value.Basic
import TreeSql.Value.Guid
import TreeSql.Value.Interval
import TreeSql.Value.Json
import TreeSql.Value.Timestamp
