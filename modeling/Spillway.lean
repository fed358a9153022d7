import Spillway.Bytes.EndianLaws
import Spillway.Bytes.Hex
import Spillway.Main
import Spillway.Proofs.Action
import Spillway.Proofs.Agreement
import Spillway.Proofs.Bytes
import Spillway.Proofs.Checksum
import Spillway.Proofs.Dedup.Counting
import Spillway.Proofs.Dedup.Lines
import Spillway.Proofs.Dedup.Run
import Spillway.Proofs.Disk.Actions
import Spillway.Proofs.Disk.Directories
import Spillway.Proofs.Disk.Tree
import Spillway.Proofs.Engine
import Spillway.Proofs.Engine.Aftermath
import Spillway.Proofs.Engine.Batch
import Spillway.Proofs.Engine.Calls
import Spillway.Proofs.Engine.Directories
import Spillway.Proofs.Engine.Failure
import Spillway.Proofs.Engine.History
import Spillway.Proofs.Engine.Lifecycle
import Spillway.Proofs.Engine.Limits
import Spillway.Proofs.Engine.Scan
import Spillway.Proofs.Engine.Session
import Spillway.Proofs.Engine.Snapshot
import Spillway.Proofs.Engine.Start
import Spillway.Proofs.Factory.Isolation
import Spillway.Proofs.Factory.Making
import Spillway.Proofs.Ieee
import Spillway.Proofs.KeyMap
import Spillway.Proofs.Memtable
import Spillway.Proofs.Memtable.History
import Spillway.Proofs.Merge
import Spillway.Proofs.Merge.Answers
import Spillway.Proofs.Merge.Lanes
import Spillway.Proofs.Merge.Outlook
import Spillway.Proofs.Newest
import Spillway.Proofs.Partition
import Spillway.Proofs.Partition.Limits
import Spillway.Proofs.Partition.Serving
import Spillway.Proofs.Row.Acceptance
import Spillway.Proofs.Row.Order
import Spillway.Proofs.SpillMap
import Spillway.Proofs.SpillMap.Calls
import Spillway.Proofs.SpillMap.Endurance
import Spillway.Proofs.SpillMap.FailedPut
import Spillway.Proofs.SpillMap.Lease
import Spillway.Proofs.SpillMap.Lodging
import Spillway.Proofs.SpillMap.Tally
import Spillway.Proofs.SpillMap.Twins
import Spillway.Proofs.Store.Changes
import Spillway.Proofs.Store.Choice
import Spillway.Proofs.Store.Compaction
import Spillway.Proofs.Store.Discovery
import Spillway.Proofs.Store.Inventory
import Spillway.Proofs.Store.Load
import Spillway.Proofs.Store.Name
import Spillway.Proofs.Store.Reopen
import Spillway.Proofs.Store.Tables
import Spillway.Proofs.Store.Tier
import Spillway.Proofs.Table.Bounds
import Spillway.Proofs.Table.Cursor
import Spillway.Proofs.Table.Damage
import Spillway.Proofs.Table.Guards
import Spillway.Proofs.Table.Layout
import Spillway.Proofs.Table.Lookup
import Spillway.Proofs.Table.Reader
import Spillway.Proofs.Table.Refusals
import Spillway.Proofs.Table.RoundTrip
import Spillway.Proofs.Table.Size
import Spillway.Proofs.Table.Writer
import Spillway.Proofs.Wire
