import RelSchema.Assembly
import RelSchema.Error.Outline
import RelSchema.Storage.Json
import RelSchema.Proofs.Model.Bare
import RelSchema.Proofs.Model.Layout
import RelSchema.Proofs.Model.Arrangement
import RelSchema.Proofs.Model.Settlement
import RelSchema.Proofs.Model.Growth
import RelSchema.Proofs.Resolve.Pairing
import RelSchema.Proofs.Registry.Sound
import RelSchema.Proofs.Resolve.Step
import RelSchema.Proofs.Resolve.Run
import RelSchema.Proofs.Resolve.Dropping
import RelSchema.Proofs.Resolve.Settled
import RelSchema.Proofs.Registry.History
import RelSchema.Proofs.Resolve.Coherent
import RelSchema.Proofs.Resolve.Correct
import RelSchema.Proofs.Assembly.Failures
import RelSchema.Proofs.Resolve.Staleness
import RelSchema.Proofs.Resolve.Confluence
import RelSchema.Proofs.Resolve.Schedule
import RelSchema.Proofs.Resolve.Approach
import RelSchema.Proofs.Resolve.Order
import RelSchema.Proofs.Resolve.KeyGraph
import RelSchema.Proofs.Resolve.Cycles
import RelSchema.Proofs.Resolve.LocalColumns
import RelSchema.Proofs.Resolve.ExpectedKey
import RelSchema.Proofs.Resolve.Outcome
import RelSchema.Proofs.Resolve.Criterion
import RelSchema.Proofs.Assembly.Tables
import RelSchema.Proofs.Assembly.Image
import RelSchema.Proofs.Resolve.Positions
import RelSchema.Proofs.Assembly.Build
import RelSchema.Proofs.Assembly.Depiction
import RelSchema.Proofs.Model.Declaring
import RelSchema.Proofs.Registry.ColumnLayout
import RelSchema.Proofs.Registry.ForeignKeyFlags
import RelSchema.Proofs.Resolve.Standstill
import RelSchema.Proofs.Resolve.Diagnosis
import RelSchema.Proofs.Registry.Obtainable
import RelSchema.Proofs.Resolve.Direction
import RelSchema.Proofs.Resolve.Locality
import RelSchema.Proofs.Resolve.Fixpoint
import RelSchema.Proofs.Registry.WellFormed
import RelSchema.Proofs.Error.Contexts
import RelSchema.Proofs.Association
import RelSchema.Proofs.Storage.Spellings
import RelSchema.Proofs.Model.Retention
import RelSchema.Proofs.Registry.Retention
import RelSchema.Proofs.Assembly.TableNames
import RelSchema.Proofs.Resolve.PassBound
import RelSchema.Proofs.Resolve.Invalidation
import RelSchema.Proofs.Registry.Synthesis
