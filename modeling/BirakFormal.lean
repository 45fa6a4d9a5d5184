import BirakFormal.Daemon.Leftovers
import BirakFormal.Daemon.Readiness
import BirakFormal.Syncer.Transfers
import BirakFormal.Watcher.Revocation
import BirakFormal.Fileops.Writers
import BirakFormal.Daemon.Advertised
import BirakFormal.Gateway.UploadCap
import BirakFormal.Gateway.Decided
import BirakFormal.Daemon.Groups
import BirakFormal.Multipart.Acknowledged
import BirakFormal.Gateway.Copying
import BirakFormal.Syncer.PageBudget
import BirakFormal.Daemon.Reconciliation
import BirakFormal.Gateway.StreamedBody
import BirakFormal.Gateway.NameRanges
import BirakFormal.Store.ClockValues
import BirakFormal.Gateway.Locks
import BirakFormal.Gateway.UploadListing
import BirakFormal.Fileops.RemoveTree
import BirakFormal.Store.QueueStats
import BirakFormal.Fileops.ModTime
import BirakFormal.Watcher.Backlog
import BirakFormal.Gateway.Visibility
import BirakFormal.Gateway.Wire
import BirakFormal.Syncer.KeyedMutex
import BirakFormal.Syncer.Scheduler
