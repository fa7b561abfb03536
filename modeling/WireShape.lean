import WireShape.Proofs.Spec.Names
import WireShape.Proofs.Meaning.Compiled
import WireShape.Compile.Walk
import WireShape.Container
import WireShape.DocsSite
import WireShape.Guard
import WireShape.Json.Writer
import WireShape.Main
import WireShape.Text.Case
import WireShape.Text.Numeral
import WireShape.Proofs.Compile.Keywords
import WireShape.Proofs.Compile.References
import WireShape.Proofs.Registry.Discipline
import WireShape.Proofs.Registry.References
import WireShape.Proofs.Spec.References
import WireShape.Proofs.Compile.Componentised
import WireShape.Proofs.Compile.Independence
import WireShape.Proofs.Compile.Created
import WireShape.Proofs.Registry.Overwriting
import WireShape.Proofs.Json.Shapes
import WireShape.Proofs.Spec.Conflicts
import WireShape.Proofs.Compile.Hereditary
import WireShape.Proofs.Json.Expansion
import WireShape.Proofs.Compile.Absence
import WireShape.Proofs.Guard
import WireShape.Proofs.Logs
import WireShape.Proofs.Spec.Strictness
import WireShape.Proofs.Lockstep
import WireShape.Proofs.Registry.Reordered
import WireShape.Proofs.Document
import WireShape.Proofs.Json.Exact
import WireShape.Proofs.Spec.Sharing
import WireShape.Proofs.Compile.Replaced
import WireShape.Proofs.Command.Snapshot
import WireShape.Proofs.Command.Statuses
import WireShape.Proofs.Spec.RequestKeys
import WireShape.Proofs.Compile.Cycles
import WireShape.Proofs.Registry.Additions
import WireShape.Proofs.Withheld
import WireShape.Proofs.Nullable.Compiled
import WireShape.Proofs.Formed.Coercion
import WireShape.Proofs.Formed.FieldNames
import WireShape.Proofs.Formed.Lookups
import WireShape.Proofs.Formed.NullBranches
import WireShape.Proofs.Compile.Branches
import WireShape.Proofs.Compile.OpenKeys
import WireShape.Proofs.Formed.Regular
import WireShape.Proofs.Spec.Parameters
import WireShape.Proofs.Compile.RuleOrder
import WireShape.Proofs.Registry.ParameterDefinitions
import WireShape.Proofs.Limits
import WireShape.Proofs.Compile.Merging
import WireShape.Proofs.Building
import WireShape.Proofs.Spec.Agreement
