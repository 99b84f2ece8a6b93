import SchemaProse.Constraint.Description
import SchemaProse.Json.Literal
import SchemaProse.Json.Reader
import SchemaProse.Schema.Branch
import SchemaProse.Schema.Dependency
import SchemaProse.Schema.Expansion
import SchemaProse.Schema.Path
import SchemaProse.Schema.Reading
import SchemaProse.Settings.File
import SchemaProse.Signature.Inference
import SchemaProse.Synthesis.Example
import SchemaProse.Synthesis.Parameter
import SchemaProse.Synthesis.Variable
import SchemaProse.Proofs.Json.Members
import SchemaProse.Proofs.Json.Compact
import SchemaProse.Proofs.Json.Unspaced
import SchemaProse.Proofs.Json.Respelt
import SchemaProse.Proofs.Keyword.Table
import SchemaProse.Proofs.Reading.Scalar
import SchemaProse.Proofs.Reading.Steps
import SchemaProse.Proofs.Reading.Presence
import SchemaProse.Proofs.Reading.RoundTrip
import SchemaProse.Proofs.Reading.Document
import SchemaProse.Proofs.Reading.Tidy
import SchemaProse.Proofs.Reading.Blame
import SchemaProse.Proofs.Synthesis.Example
import SchemaProse.Proofs.Signature.Outline
import SchemaProse.Proofs.Signature.Readable
import SchemaProse.Proofs.Signature.Unambiguous
import SchemaProse.Proofs.Reading.Edited
import SchemaProse.Proofs.Reading.Annotations
import SchemaProse.Proofs.Signature.Documented
import SchemaProse.Proofs.Reading.Resolution
import SchemaProse.Proofs.Synthesis.Entries
import SchemaProse.Proofs.Schema.Spelling
import SchemaProse.Proofs.Synthesis.Wrapper
import SchemaProse.Proofs.Synthesis.Parameters
import SchemaProse.Proofs.Synthesis.Variables
import SchemaProse.Proofs.Reading.Distinct
import SchemaProse.Proofs.Schema.Views
import SchemaProse.Proofs.Schema.Extensions
import SchemaProse.Proofs.Synthesis.Distinct
import SchemaProse.Proofs.Synthesis.Dependencies
import SchemaProse.Proofs.Synthesis.Reachable
import SchemaProse.Proofs.Text.FirstSeen
import SchemaProse.Proofs.Text.Trimmed
import SchemaProse.Proofs.Settings.Knobs
import SchemaProse.Proofs.Settings.FilePath
import SchemaProse.Proofs.Settings.Precedence
import SchemaProse.Proofs.Number.Rounding
import SchemaProse.Proofs.Number.Shortest
import SchemaProse.Proofs.Number.Value
import SchemaProse.Proofs.Number.Numeral
import SchemaProse.Proofs.Number.Plain
import SchemaProse.Proofs.Number.Literal
import SchemaProse.Proofs.Number.Exact
import SchemaProse.Proofs.Number.Denoted
import SchemaProse.Proofs.Constraint.Demand
import SchemaProse.Proofs.Constraint.Readable
import SchemaProse.Proofs.Constraint.Described
import SchemaProse.Proofs.Constraint.Unambiguous
import SchemaProse.Proofs.Constraint.Truthful
import SchemaProse.Proofs.Constraint.Grouped
import SchemaProse.Proofs.Synthesis.Annotated
import SchemaProse.Proofs.Reading.Recast
import SchemaProse.Proofs.Settings.Layering
import SchemaProse.Proofs.Settings.Spelling
import SchemaProse.Proofs.Settings.Search
import SchemaProse.Proofs.Synthesis.Literal
import SchemaProse.Proofs.Signature.Flat
import SchemaProse.Proofs.Signature.Any
import SchemaProse.Proofs.Signature.Unions
import SchemaProse.Proofs.Synthesis.Carried
import SchemaProse.Proofs.Number.Places
import SchemaProse.Proofs.Constraint.Places
