import Postino.Lib.BTree
import Postino.Lib.Snapshot
import Postino.Lib.Crash
import Postino.Lib.Cursor
import Postino.Lib.Words
import Postino.Lib.Runs
import Postino.Lib.Fallible
import Postino.Lib.Text
import Postino.Lib.Float64
import Postino.Lib.Leases
import Postino.Id
import Postino.Glob
import Postino.Scope
import Postino.Db.Value
import Postino.Db.Db
import Postino.Db.Snapshot
import Postino.Db.Stream
import Postino.Commands.Reply
import Postino.Commands.Scan
import Postino.Journal.Line
import Postino.Journal.Journal
import Postino.Journal.Order
import Postino.Journal.Flush
import Postino.Journal.Open
import Postino.Journal.Recovery
import Postino.Forum.Store
import Postino.Forum.Json
import Postino.Forum.Rooms
import Postino.Forum.Indexes
import Postino.Forum.Inbox
import Postino.Forum.Frames
import Postino.Forum.Operations
import Postino.Forum.Refusals
import Postino.Forum.Reads
import Postino.Forum.Board
import Postino.Forum.Events
import Postino.Forum.Writes
import Postino.Forum.Faults
import Postino.Forum.Ids
import Postino.Forum.Runs
import Postino.Forum.Cursors
import Postino.Forum.Accepted
import Postino.Forum.Restarts
import Postino.Forum.Rebuilds
import Postino.Patterns
import Postino.Commands.Walk
import Postino.Commands.Exec
import Postino.Commands.Args
import Postino.Commands.Keys
import Postino.Commands.Strings
import Postino.Commands.Hashes
import Postino.Commands.Lists
import Postino.Commands.Sets
import Postino.Commands.SortedSets
import Postino.Commands.Streams
import Postino.Commands.Groups
import Postino.Commands.Dispatch
import Postino.Commands.Effects
import Postino.Commands.Footprints
import Postino.Commands.Written
import Postino.Commands.Growth
import Postino.Channels
import Postino.Captured
import Postino.Forum.Captures
import Postino.Commands.Pending
import Postino.Commands.Seats
import Postino.Forum.Core
import Postino.Forum.Lease
import Postino.Forum.Trims
import Postino.Commands.Autoclaim
import Postino.Db.ZSet
import Postino.Commands.Ranges
import Postino.Commands.Algebra
import Postino.Forum.Fairness
import Postino.Journal.Damage
import Postino.Forum.Privacy
import Postino.Lib.Relabel
import Postino.Forum.Reached
import Postino.Forum.Renames
import Postino.Broker.Permit
import Postino.Journal.Checksum
import Postino.Lib.Crc
import Postino.Commands.Lags
import Postino.Http.Percent
import Postino.Http.Target
import Postino.Lib.Json
import Postino.Lib.Number
import Postino.Commands.Json
import Postino.Db.Stored
import Postino.Http.Head
import Postino.Http.Request
import Postino.Lib.Scanner
import Postino.Http.Response
import Postino.Http.Connection
import Postino.Http.Client
import Postino.Lib.Trim
import Postino.Api.Auth
import Postino.Lib.Windows
import Postino.Api.Guard
import Postino.Broker.Confined
