import RdRs.Lib.BinSearch
import RdRs.Lib.Spans
import RdRs.Lib.Runs
import RdRs.Lib.Traced
import RdRs.Lib.LittleEndian
import RdRs.Lib.FileTree
import RdRs.Lib.CopyNumbers
import RdRs.Lib.Programs
import RdRs.Lib.Marks
import RdRs.Lib.Paging
import RdRs.Lib.Broadcast
import RdRs.Lib.ShellWords
import RdRs.Lib.Zones
import RdRs.Lib.Form
import RdRs.Rd.Types
import RdRs.Rd.Errors
import RdRs.Rd.TokenPool
import RdRs.Rd.Execute
import RdRs.Rd.Cdn
import RdRs.Rd.Rotation
import RdRs.Config
import RdRs.Rd.BandwidthReset
import RdRs.Rd.FormBody
import RdRs.Rd.Pages
import RdRs.Cache.ByteRanges
import RdRs.Cache.Gaps
import RdRs.Cache.Worker
import RdRs.Cache.Heals
import RdRs.Cache.Sessions
import RdRs.Cache.Joins
import RdRs.Cache.RangeDb
import RdRs.Cache.Store
import RdRs.Cache.Flush
import RdRs.Cache.Paths
import RdRs.Cache.Invalidate
import RdRs.Cache.Eviction
import RdRs.Cache.Limits
import RdRs.Cache.Lru
import RdRs.Cache.Reopen
import RdRs.Cache.Sizes
import RdRs.Cache.Canonical
import RdRs.Cache.Progress
import RdRs.Fuse.VfsReadBuffer
import RdRs.Fuse.Resolve
import RdRs.Fuse.Dirent
import RdRs.Fuse.AllDir
import RdRs.Fuse.TorrentDir
import RdRs.Fuse.CachePaths
import RdRs.Fuse.CacheScan
import RdRs.Fuse.LinkCheck
import RdRs.Rd.Unrestrict
import RdRs.Fuse.Walk
import RdRs.Fuse.Inodes
import RdRs.Fuse.Cleanup
import RdRs.Fuse.Backed
import RdRs.Repair.Detect
import RdRs.Repair.Cascade
import RdRs.Repair.Survival
import RdRs.Repair.Success
import RdRs.Repair.Preflight
import RdRs.Repair.Bandwidth
import RdRs.Torrent.Manager
import RdRs.Torrent.Refresh
import RdRs.Torrent.Hook
import RdRs.Fuse.HookPath
import RdRs.Torrent.Pass
import RdRs.Torrent.Mirror
import RdRs.Repair.RepairOne
import RdRs.Repair.Converge
import RdRs.Repair.Orphans
import RdRs.Repair.Session
import RdRs.Repair.FileMarks
import RdRs.Repair.Rules
import RdRs.Torrent.Tasks
import RdRs.Torrent.Replicas
import RdRs.Torrent.Writes
import RdRs.Torrent.Snapshot
import RdRs.Torrent.Protection
import RdRs.Torrent.Verdict
import RdRs.Repair.Ends
import RdRs.Torrent.Listing
import RdRs.Repair.Wakeups
import RdRs.Repair.Guards
import RdRs.Torrent.Operations
import RdRs.Torrent.Clock
import RdRs.Torrent.Details
import RdRs.Cache.ReadAt
import RdRs.Fuse.Read
import RdRs.Fuse.ReadScope
import RdRs.Fuse.Visible
import RdRs.Lib.Records
import RdRs.Fuse.Attrs
import RdRs.Fuse.DirReply
import RdRs.Fuse.Handles
import RdRs.Fuse.Served
import RdRs.Lib.Newest
import RdRs.Lib.Spaced
import RdRs.Lib.Frontier
import RdRs.Torrent.Polling
import RdRs.Torrent.Debounce
import RdRs.Rd.Reload
import RdRs.Rd.RateLimit
import RdRs.Rd.Sweep
import RdRs.Rd.DnsProbe
import RdRs.Rd.CdnCache
import RdRs.Db.AppMeta
import RdRs.Db.Torrents
import RdRs.Repair.Schedule
import RdRs.Cache.Pause
