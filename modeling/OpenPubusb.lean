import OpenPubusb.Isolation
import OpenPubusb.ByteAccounting
import OpenPubusb.ConcurrentPublish
import OpenPubusb.ConcurrentAck
import OpenPubusb.RecordSerial
import OpenPubusb.Exclusivity
import OpenPubusb.AckIds
import OpenPubusb.Attempts
import OpenPubusb.PublishOrder
import OpenPubusb.Metadata
import OpenPubusb.Sentinel
import OpenPubusb.AttachPoint
import OpenPubusb.FilterCache
import OpenPubusb.Detach
import OpenPubusb.Compact
import OpenPubusb.Orphans
import OpenPubusb.ConcurrentCreate
import OpenPubusb.FlowControl
import OpenPubusb.LeaseRefusal
import OpenPubusb.LeaseCalls
import OpenPubusb.LeaseGc
import OpenPubusb.LeaseDeadlines
import OpenPubusb.LeaseContract
import OpenPubusb.LeaseFailures
import OpenPubusb.Redelivery
import OpenPubusb.SeekTime
import OpenPubusb.ReclaimPaths
import OpenPubusb.StreamClose
import OpenPubusb.CrashSafety
import OpenPubusb.AppendExact
import OpenPubusb.RetentionExact
import OpenPubusb.RecordUpdates
import OpenPubusb.StreamPull
import OpenPubusb.HalfMade
import OpenPubusb.IdleExpiry
import OpenPubusb.PushRetry
import OpenPubusb.PushReconcile
import OpenPubusb.ReadFailures
import OpenPubusb.LeaseRuns
import OpenPubusb.CursorSet
import OpenPubusb.AckIdCodec
import OpenPubusb.NameParsing
import OpenPubusb.Calendar
import OpenPubusb.PublishTimes
import OpenPubusb.KeyEncoding
import OpenPubusb.Listings
import OpenPubusb.SnapshotLifetime
import OpenPubusb.Timestamps
import OpenPubusb.FilterText
import OpenPubusb.SnapshotSeek
import OpenPubusb.LogHistory
import OpenPubusb.AckBatches
import OpenPubusb.StreamLifetime
import OpenPubusb.Drain
import OpenPubusb.SubscriptionExport
import OpenPubusb.PushLifetime
import OpenPubusb.Noninterference
import OpenPubusb.PullSplit
import OpenPubusb.RestRuns
