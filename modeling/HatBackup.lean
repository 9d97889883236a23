import HatBackup.OrderedCollection
import HatBackup.UniquePriorityQueue.Basic
import HatBackup.UniquePriorityQueue.Invariant
import HatBackup.UniquePriorityQueue.Calls
import HatBackup.UniquePriorityQueue.Ledger
import HatBackup.BlobIndex.Sql
import HatBackup.BlobIndex.Basic
import HatBackup.BlobIndex.Lifetimes
import HatBackup.ListDir.Basic
import HatBackup.ListDir.Invariant
import HatBackup.ListDir.Complete
import HatBackup.ListDir.Progress
import HatBackup.ListDir.Sequential
import HatBackup.ListDir.Snapshot
import HatBackup.Checkout.Basic
import HatBackup.Checkout.Tree
import HatBackup.Hat.FileIterator
import HatBackup.Hat.KeyEntry
import HatBackup.Hat.KeyStore
import HatBackup.Hat.RoundTrip
import HatBackup.Hat.PrintRate
