import Formula.Main
import Formula.Program
import Formula.Proofs.Number.Equality
import Formula.Proofs.Value.Within
import Formula.Proofs.Mapping.WellKeyed
import Formula.Proofs.Value.Built
import Formula.Proofs.Mapping.Refinement
import Formula.Proofs.Mapping.Extensional
import Formula.Proofs.Mapping.Entries
import Formula.Proofs.Except
import Formula.Proofs.Operator.Congruence
import Formula.Proofs.Operator.Collections
import Formula.Proofs.Operator.Equality
import Formula.Proofs.Number.Integral
import Formula.Proofs.Operator.Index
import Formula.Proofs.Operator.Access
import Formula.Proofs.Operator.Concatenation
import Formula.Proofs.Operator.WellKeyed
import Formula.Proofs.Json.Conversion
import Formula.Proofs.Session
import Formula.Proofs.Operator.Operands
import Formula.Proofs.Catalog.Slots
import Formula.Proofs.Text.Utf8
import Formula.Proofs.Catalog.History
import Formula.Proofs.Operator.Unfit
import Formula.Proofs.Operator.Faults
import Formula.Proofs.Operator.NumberText
import Formula.Proofs.Interference
import Formula.Proofs.Catalog.Listing
import Formula.Proofs.Json.Canonical
import Formula.Proofs.Json.Lossless
import Formula.Proofs.Json.Norm
import Formula.Proofs.Reading
import Formula.Proofs.Json.RoundTrip
import Formula.Proofs.CommandLine.Assignments
import Formula.Proofs.Operator.RunningSum
import Formula.Proofs.Number.Magnitude
import Formula.Proofs.Number.Nearest
import Formula.Proofs.Operator.TextAsNumber
import Formula.Proofs.Number.Order
import Formula.Proofs.Number.Fewest
import Formula.Proofs.Number.NormalForm
import Formula.Proofs.Number.Arithmetic
import Formula.Proofs.Json.Decimals
import Formula.Proofs.Number.Accuracy
import Formula.Proofs.Operator.Containment
import Formula.Proofs.Json.Paths
import Formula.Proofs.Json.Operators
import Formula.Proofs.Json.Readability
import Formula.Proofs.Json.CanonicalText
import Formula.Proofs.CommandLine.Requests
import Formula.Proofs.CommandLine.Arguments
import Formula.Proofs.Mapping.Collected
import Formula.Proofs.Variables
