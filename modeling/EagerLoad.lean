import EagerLoad.Main
import EagerLoad.Proofs.Hydration.Coverage
import EagerLoad.Proofs.Path.RoundTrip
import EagerLoad.Proofs.Query.Ends
import EagerLoad.Proofs.Query.Layers
import EagerLoad.Proofs.Query.Unrolling
import EagerLoad.Proofs.Inclusion.Laws
import EagerLoad.Proofs.Graph.Loading
import EagerLoad.Proofs.Hydration.Inverse
import EagerLoad.Proofs.Inclusion.Typing
import EagerLoad.Proofs.Hydration.Saturation
import EagerLoad.Proofs.Query.Flattening
import EagerLoad.Proofs.Query.DefaultKeys
import EagerLoad.Proofs.CommandLine.Checks
import EagerLoad.Proofs.Path.Report
import EagerLoad.Proofs.Join.Lookups
import EagerLoad.Proofs.Schema.Redeclaration
import EagerLoad.Proofs.Inclusion.Rebuilding
import EagerLoad.Proofs.Fixture.Rereading
import EagerLoad.Proofs.Inclusion.Paths
import EagerLoad.Proofs.Path.Lookahead
import EagerLoad.Proofs.Store.Identity
