import Raeva.Library.Forest
import Raeva.Library.Run
import Raeva.Library.RunOrder
import Raeva.Maven.Version
import Raeva.Maven.VersionOrder
import Raeva.Maven.Range
import Raeva.Maven.Coord
import Raeva.Maven.Dependency
import Raeva.Resolver.Context
import Raeva.Resolver.Queue
import Raeva.Resolver.Graph
import Raeva.Resolver.Scopes
import Raeva.Resolver.Management
import Raeva.Resolver.Relocation
import Raeva.Resolver.Candidate
import Raeva.Resolver.Load
import Raeva.Resolver.Selected
import Raeva.Resolver.Solver
import Raeva.Resolver.Groups
import Raeva.Resolver.Fixpoint
import Raeva.Resolver.TreeOrder
import Raeva.Resolver.Sourced
import Raeva.Resolver.Ancestry
import Raeva.Lock.Merge
import Raeva.Lock.Inputs
import Raeva.Lock.GraphDigests
import Raeva.Lock.Adoption
import Raeva.Model.ReadSet
import Raeva.Model.TrustSound
import Raeva.Maven.RangeRoundTrip
import Raeva.Maven.Layout
import Raeva.Maven.SnapshotRoundTrip
import Raeva.Store.Tickets
import Raeva.Config.Security
import Raeva.Config.ProxyEnv
import Raeva.Repo.Guard
import Raeva.Repo.Credentials
import Raeva.Resolver.RepositoryList
import Raeva.Export.Collisions
import Raeva.Lock.Reads
import Raeva.Lock.NormalForm
import Raeva.Lock.AmbientText
import Raeva.Resolver.ConflictWalk
import Raeva.Resolver.ScopeRuns
import Raeva.Resolver.ScopeEquations
import Raeva.Lock.ChangeLines
import Raeva.Lock.ChangesListed
import Raeva.Lock.UnlistedRows
import Raeva.Lock.UnlistedEdges
import Raeva.Lock.SameForm
import Raeva.Lock.DriftListed
import Raeva.Model.Injection
import Raeva.Model.ManagedIndex
import Raeva.Maven.VersionSort
import Raeva.Maven.PrefixRange
import Raeva.Model.ArtifactOrder
import Raeva.Lock.ModuleReads
import Raeva.Vuln.Batch
import Raeva.Export.Markers
import Raeva.Maven.ParMap
import Raeva.Http.Retry
