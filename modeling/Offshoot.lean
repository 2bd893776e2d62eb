import Offshoot.Ltx.Filter
import Offshoot.Wal.Reader
import Offshoot.Store.ListingOrder
import Offshoot.Store.PartPool
import Offshoot.Store.Returned
import Offshoot.Session.Record
import Offshoot.Ops.Diff
import Offshoot.Ops.Summary
import Offshoot.Ops.Routes
import Offshoot.System.Fencing
import Offshoot.System.Cleanup
import Offshoot.Data.Backups
import Offshoot.Data.Ledger
import Offshoot.Lifecycle.DestroyRuns
import Offshoot.Lifecycle.Reap
import Offshoot.Lifecycle.LocalFiles
import Offshoot.Heads.Report
import Offshoot.System.AcquireRuns
import Offshoot.System.Prune
import Offshoot.GC.Complete
import Offshoot.GC.Tombstones
import Offshoot.Daemon.Checkouts
import Offshoot.Dbfile.Calls
import Offshoot.Dbfile.Uri
