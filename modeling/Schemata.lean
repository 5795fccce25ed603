import Schemata.Check.Engine
import Schemata.Check.Plugin
import Schemata.Image.Build
import Schemata.Settings.Json
import Schemata.Store
import Schemata.Upload.Push
import Schemata.Upload.Reception
import Schemata.Workspace.Build
import Schemata.Proofs.Graph
import Schemata.Proofs.Image.Compilation
import Schemata.Proofs.Image.Loading
import Schemata.Proofs.ModuleSet.OrderFree
import Schemata.Proofs.Sorted
import Schemata.Proofs.Image.WellFormed
import Schemata.Proofs.Image.Build
import Schemata.Proofs.Act
import Schemata.Proofs.ModuleSet.Build
import Schemata.Proofs.Module.Tampering
import Schemata.Proofs.ModuleSet.Conflicts
import Schemata.Proofs.Module.Caching
import Schemata.Proofs.Workspace.Roots
import Schemata.Proofs.Schema.Acceptance
import Schemata.Proofs.Store.Transparency
import Schemata.Proofs.ModuleSet.Coverage
import Schemata.Proofs.Registry.History
import Schemata.Proofs.Image.Orders
import Schemata.Proofs.Digest.Reading
import Schemata.Proofs.Settings.LockFile
import Schemata.Proofs.Storage.Coherence
import Schemata.Proofs.Module.Coherence
import Schemata.Proofs.Upload.Return
import Schemata.Proofs.Image.Unused
import Schemata.Proofs.Check.Breaking
import Schemata.Proofs.Schema.Layout
import Schemata.Proofs.Schema.Looks
import Schemata.Proofs.ModuleSet.ImportGraph
import Schemata.Proofs.Workspace.TargetFiles
import Schemata.Proofs.ModuleSet.TargetUnion
import Schemata.Proofs.ModuleSet.Identity
import Schemata.Proofs.Registry.Labels
import Schemata.Proofs.Store.Order
import Schemata.Proofs.Upload.Exchange
import Schemata.Proofs.Settings.Ignores
import Schemata.Proofs.Check.Positions
import Schemata.Proofs.Workspace.FileRequests
import Schemata.Proofs.Storage.Mapping
import Schemata.Proofs.Memo
import Schemata.Proofs.Schema.Nesting
import Schemata.Proofs.Path.NormalForm
import Schemata.Proofs.Path.Containment
import Schemata.Proofs.Spelling
import Schemata.Proofs.Source.Positions
import Schemata.Proofs.Image.Preorder
import Schemata.Proofs.Check.Naming
import Schemata.Proofs.Schema.Literals
