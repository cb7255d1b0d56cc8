import FineDB.Lib.Run
import FineDB.Lib.Prog
import FineDB.Lib.Handler
import FineDB.Lib.Mvcc
import FineDB.Lib.Wp
import FineDB.Lib.Clients
import FineDB.Lib.Serial
import FineDB.Lib.Linear
import FineDB.Lib.Snapshot
import FineDB.Lib.Ledger
import FineDB.Lib.Lifetime
import FineDB.Lib.Env
import FineDB.Lib.Lockstep
import FineDB.Lib.Threads
import FineDB.Lib.Cursor
import FineDB.Lib.Pointer
import FineDB.Lib.Object
import FineDB.Lib.Lz
import FineDB.Lib.Heap
import FineDB.Model.Basic
import FineDB.Model.Ydynabin
import FineDB.Model.Snappy
import FineDB.Model.SnappyCompress
import FineDB.Model.SnappyUncompress
import FineDB.Model.Calls
import FineDB.Model.Protocol
import FineDB.Model.Database
import FineDB.Model.Connection
import FineDB.Model.Command
import FineDB.Model.Session
import FineDB.Model.Lmdb
import FineDB.Model.System
import FineDB.Model.SyncMap
import FineDB.Model.Catalog
import FineDB.Model.Mapped
import FineDB.Model.HandleTable
import FineDB.Model.Host
import FineDB.Model.Client
import FineDB.Model.Wire
import FineDB.Model.Sockets
import FineDB.Model.Cli
import FineDB.Model.CliLine
import FineDB.Model.Msgqueue
import FineDB.Model.Sinproc
import FineDB.Proofs.SnappyItems
import FineDB.Proofs.SnappyMatch
import FineDB.Proofs.SnappyCompress
import FineDB.Proofs.SnappyWriter
import FineDB.Proofs.SnappyUncompress
import FineDB.Proofs.SnappyCalls
import FineDB.Proofs.Msgqueue
import FineDB.Proofs.Sinproc
import FineDB.Proofs.Calls
import FineDB.Proofs.Discipline
import FineDB.Proofs.Linearizable
import FineDB.Proofs.Queue
import FineDB.Proofs.Writes
import FineDB.Proofs.Drained
import FineDB.Proofs.Snapshot
import FineDB.Proofs.Readers
import FineDB.Proofs.Transactions
import FineDB.Proofs.Descriptors
import FineDB.Proofs.Session
import FineDB.Proofs.Parse
import FineDB.Proofs.Responses
import FineDB.Proofs.Encoding
import FineDB.Proofs.Link
import FineDB.Proofs.Verdict
import FineDB.Proofs.Values
import FineDB.Proofs.Sockets
import FineDB.Proofs.Cli
import FineDB.Proofs.CliLine
import FineDB.Proofs.Handles
import FineDB.Proofs.Mapped
import FineDB.Proofs.Cells
import FineDB.Proofs.Names
import FineDB.Proofs.Isolation
import FineDB.Proofs.Buffer
import FineDB.Proofs.HandleTable
import FineDB.Proofs.HandleThreads
import FineDB.Proofs.Standalone
import FineDB.Proofs.AsyncWrites
import FineDB.Proofs.EndToEnd
import FineDB.Proofs.Listing
import FineDB.Proofs.CliLine
