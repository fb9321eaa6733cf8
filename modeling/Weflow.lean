import Weflow.Lib.Runs
import Weflow.Lib.Keyset
import Weflow.Lib.Broadcast
import Weflow.Store.Basic
import Weflow.Db.Catalog
import Weflow.Db.Live
import Weflow.Store.Index
import Weflow.Store.Increment
import Weflow.Sync.History
import Weflow.Server.PushEvents
import Weflow.Lib.GroupPage
import Weflow.Server.Params
import Weflow.Server.ChatlabPull
import Weflow.Server.PullRuns
import Weflow.Store.Sections
import Weflow.Store.Build
import Weflow.Store.Coverage
import Weflow.Store.Rebuilt
import Weflow.Sync.Account
import Weflow.Sync.Staging
import Weflow.Sync.Flags
import Weflow.Sync.Pending
import Weflow.Lib.Cursors
import Weflow.Lib.Overlay
import Weflow.Sync.Ledger
import Weflow.Sync.Rebuild
import Weflow.Sync.Progress
import Weflow.Sync.SessionKeys
import Weflow.Sync.Reload
import Weflow.Lib.Threads
import Weflow.Server.Accounts
import Weflow.Server.Registry
import Weflow.Server.Retired
import Weflow.Server.Cleared
import Weflow.Server.Generation
import Weflow.Server.Watchers
import Weflow.Lib.Utf8
import Weflow.Lib.Json
import Weflow.Lib.Effects
import Weflow.Lib.Files
import Weflow.Lib.Paths
import Weflow.Export.Names
import Weflow.Export.Lines
import Weflow.Export.Writer
import Weflow.Export.Run
import Weflow.Export.Sessions
import Weflow.Export.Rounds
import Weflow.Export.Calls
import Weflow.Export.Named
import Weflow.Export.History
import Weflow.Export.Atomic
import Weflow.Export.Verdicts
import Weflow.Export.Clobber
import Weflow.Export.Contained
import Weflow.Export.Accounting
import Weflow.Export.Ownership
import Weflow.Export.Secret
import Weflow.Lib.Blocks
import Weflow.Media.Dat
import Weflow.Media.Export
import Weflow.Media.Image
import Weflow.Server.Messages
import Weflow.Server.Chatlab
import Weflow.Export.Order
import Weflow.Lib.Scan
import Weflow.Export.Dangling
import Weflow.Sync.Original
import Weflow.Sync.Walk
import Weflow.Sync.Pushes
import Weflow.Sync.Idle
import Weflow.Sync.Once
import Weflow.Sync.Stalled
import Weflow.Lib.Buffer
import Weflow.Lib.Chaining
import Weflow.Db.Wcdb
import Weflow.Db.Wal
import Weflow.Lib.Framing
import Weflow.Lib.Search
import Weflow.Parser.Content
import Weflow.Parser.Xml
import Weflow.Parser.Message
import Weflow.Parser.Attributes
import Weflow.Parser.Feed
import Weflow.Lib.Beside
import Weflow.Export.Download
import Weflow.Export.MediaRun
import Weflow.Client.Regen
import Weflow.Cli.Since
import Weflow.Media.Segments
import Weflow.Lib.Groups
import Weflow.Media.Handles
import Weflow.Server.GroupMembers
import Weflow.Store.IndexProgress
import Weflow.Lib.Html
import Weflow.Lib.Url
import Weflow.Server.Sns
import Weflow.Client.Payload
import Weflow.Client.Frames
import Weflow.Client.Feed
import Weflow.Client.Python
import Weflow.Client.Chunks
import Weflow.Client.Blocks
import Weflow.Client.Agree
import Weflow.Client.Acknowledged
import Weflow.Server.Following
import Weflow.Client.Watch
