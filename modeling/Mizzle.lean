import Mizzle.Lib.Blocks
import Mizzle.Lib.BoundedWalk
import Mizzle.Lib.ByteOrder
import Mizzle.Lib.Bytes
import Mizzle.Lib.ChildFirst
import Mizzle.Lib.Decimal
import Mizzle.Lib.Framing
import Mizzle.Lib.Frontier
import Mizzle.Lib.KeepLines
import Mizzle.Lib.Levels
import Mizzle.Lib.Lines
import Mizzle.Lib.Lock
import Mizzle.Lib.NodeWalk
import Mizzle.Lib.Outcome
import Mizzle.Lib.Program
import Mizzle.Lib.Reach
import Mizzle.Lib.Results
import Mizzle.Lib.Rows
import Mizzle.Lib.Runs
import Mizzle.Lib.Service
import Mizzle.Lib.Table
import Mizzle.Lib.Text
import Mizzle.Lib.Traverse
import Mizzle.Lib.Utf8
import Mizzle.Lib.Visit
import Mizzle.Lib.Walk
import Mizzle.Lib.Words
import Mizzle.Proto.Fetch
import Mizzle.Proto.FetchLines
import Mizzle.Proto.LsRefs
import Mizzle.Proto.PktLine
import Mizzle.Proto.Receive
import Mizzle.Proto.ReceiveLines
import Mizzle.Proto.Types
import Mizzle.Backend.Agreement
import Mizzle.Backend.Ancestry
import Mizzle.Backend.CloneRuns
import Mizzle.Backend.Operation
import Mizzle.Backend.PackDir
import Mizzle.Backend.Parity
import Mizzle.Backend.PushKind
import Mizzle.Backend.RefMap
import Mizzle.Backend.Repository
import Mizzle.Backend.Rollback
import Mizzle.Backend.TreeDiff
import Mizzle.Backend.Types
import Mizzle.Backend.Walks
import Mizzle.Backend.GitCli.Ingest
import Mizzle.Backend.GitCli.Reachable
import Mizzle.Backend.GitCli.Shallow
import Mizzle.Backend.GitCli.TreeDiff
import Mizzle.Backend.GitCli.UpdateRefs
import Mizzle.Backend.Gitoxide.Concurrent
import Mizzle.Backend.Gitoxide.Ingest
import Mizzle.Backend.Gitoxide.Refs
import Mizzle.Backend.Kv.BuildPack
import Mizzle.Backend.Kv.Concurrent
import Mizzle.Backend.Kv.Graph
import Mizzle.Backend.Kv.Holds
import Mizzle.Backend.Kv.Keys
import Mizzle.Backend.Kv.Layout
import Mizzle.Backend.Kv.Objects
import Mizzle.Backend.Kv.Operations
import Mizzle.Backend.Kv.ParentKeys
import Mizzle.Backend.Kv.Reachable
import Mizzle.Backend.Kv.Refs
import Mizzle.Backend.Kv.Repos
import Mizzle.Backend.Kv.Storage
import Mizzle.Backend.Sql.BuildPack
import Mizzle.Backend.Sql.Graph
import Mizzle.Backend.Sql.Holds
import Mizzle.Backend.Sql.Objects
import Mizzle.Backend.Sql.ParentRows
import Mizzle.Backend.Sql.Reachable
import Mizzle.Backend.Sql.Refs
import Mizzle.Backend.Sql.Storage
import Mizzle.Auth.Comparison
import Mizzle.Auth.NewCommits
import Mizzle.Auth.Signatures
import Mizzle.Auth.Sigverify
import Mizzle.Pack.Builders
import Mizzle.Pack.Cache
import Mizzle.Pack.CacheFile
import Mizzle.Pack.CacheKey
import Mizzle.Pack.Database
import Mizzle.Pack.Depth
import Mizzle.Pack.Fetch
import Mizzle.Pack.Filters
import Mizzle.Pack.Gitlinks
import Mizzle.Pack.Holding
import Mizzle.Pack.MixedWants
import Mizzle.Pack.Objects
import Mizzle.Pack.Options
import Mizzle.Pack.Partial
import Mizzle.Pack.PartialOdb
import Mizzle.Pack.Selection
import Mizzle.Bitmap.Agreement
import Mizzle.Bitmap.Dense
import Mizzle.Bitmap.Files
import Mizzle.Bitmap.PackBitmap
import Mizzle.Bitmap.Refinement
import Mizzle.Bitmap.Reuse
import Mizzle.Fetch.Appends
import Mizzle.Fetch.Client
import Mizzle.Fetch.Perform
import Mizzle.Fetch.RequestV1
import Mizzle.Fetch.StreamedResponse
import Mizzle.Fetch.Streaming
import Mizzle.Upload.Advertisement
import Mizzle.Upload.Clone
import Mizzle.Upload.ListRefs
import Mizzle.Upload.Session
import Mizzle.Lfs.Failures
import Mizzle.Lfs.Http
import Mizzle.Lfs.Pointer
import Mizzle.Lfs.Server
import Mizzle.Lfs.Store
import Mizzle.Serve.BranchProtection
import Mizzle.Serve.DriverParity
import Mizzle.Serve.DriverRuns
import Mizzle.Serve.DriverWorld
import Mizzle.Serve.Drivers
import Mizzle.Serve.PushBackends
import Mizzle.Serve.PushGate
import Mizzle.Serve.PushOutcome
import Mizzle.Serve.PushRefs
import Mizzle.Serve.PushReport
import Mizzle.Serve.PushedObjects
import Mizzle.Serve.ReceivePack
import Mizzle.Serve.Ssh
import Mizzle.Serve.StorageBackends
