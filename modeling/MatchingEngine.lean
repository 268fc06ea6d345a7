import MatchingEngine.Activations
import MatchingEngine.Arena
import MatchingEngine.Bbo
import MatchingEngine.BboPublisher
import MatchingEngine.Bitmap
import MatchingEngine.Book
import MatchingEngine.Check
import MatchingEngine.Command
import MatchingEngine.Compaction
import MatchingEngine.Engine
import MatchingEngine.Guarded
import MatchingEngine.Journal
import MatchingEngine.Ladder
import MatchingEngine.LaneMerge
import MatchingEngine.Ledger
import MatchingEngine.Lemmas.Accounts
import MatchingEngine.Lemmas.Auction
import MatchingEngine.Lemmas.Bitmap
import MatchingEngine.Lemmas.Cascade
import MatchingEngine.Lemmas.Changes
import MatchingEngine.Lemmas.Check
import MatchingEngine.Lemmas.Codecs
import MatchingEngine.Lemmas.Compaction
import MatchingEngine.Lemmas.Decide
import MatchingEngine.Lemmas.Decimals
import MatchingEngine.Lemmas.Effects
import MatchingEngine.Lemmas.Ends
import MatchingEngine.Lemmas.Engine
import MatchingEngine.Lemmas.Gateway
import MatchingEngine.Lemmas.Guarded
import MatchingEngine.Lemmas.Handles
import MatchingEngine.Lemmas.Journal
import MatchingEngine.Lemmas.Ladder
import MatchingEngine.Lemmas.Line
import MatchingEngine.Lemmas.MarketData
import MatchingEngine.Lemmas.Marks
import MatchingEngine.Lemmas.Messages
import MatchingEngine.Lemmas.Moves
import MatchingEngine.Lemmas.Names
import MatchingEngine.Lemmas.Opening
import MatchingEngine.Lemmas.Operations
import MatchingEngine.Lemmas.Pass
import MatchingEngine.Lemmas.Pipeline
import MatchingEngine.Lemmas.Population
import MatchingEngine.Lemmas.Priority
import MatchingEngine.Lemmas.ProRata
import MatchingEngine.Lemmas.Reads
import MatchingEngine.Lemmas.Recovery
import MatchingEngine.Lemmas.Refine
import MatchingEngine.Lemmas.Reflection
import MatchingEngine.Lemmas.Replay
import MatchingEngine.Lemmas.Repr
import MatchingEngine.Lemmas.Restore
import MatchingEngine.Lemmas.Rotation
import MatchingEngine.Lemmas.Runs
import MatchingEngine.Lemmas.RuntimeConfig
import MatchingEngine.Lemmas.Segments
import MatchingEngine.Lemmas.Sequencing
import MatchingEngine.Lemmas.Snapshot
import MatchingEngine.Lemmas.Spsc
import MatchingEngine.Lemmas.Steps
import MatchingEngine.Lemmas.Sweep
import MatchingEngine.Lemmas.Takers
import MatchingEngine.Lemmas.Traders
import MatchingEngine.Lemmas.Validity
import MatchingEngine.Lemmas.Visits
import MatchingEngine.Lemmas.Weights
import MatchingEngine.Lemmas.WriterCourses
import MatchingEngine.Lib.Bytes
import MatchingEngine.Lib.Codec
import MatchingEngine.Lib.Comp
import MatchingEngine.Lib.Fifo
import MatchingEngine.Lib.Folder
import MatchingEngine.Lib.Interrupt
import MatchingEngine.Lib.Links
import MatchingEngine.Lib.Mapped
import MatchingEngine.Lib.Merge
import MatchingEngine.Lib.Ratio
import MatchingEngine.Lib.Rounds
import MatchingEngine.Lib.Search
import MatchingEngine.Lib.Seqlock
import MatchingEngine.MarketData
import MatchingEngine.MarketDataInput
import MatchingEngine.Matching
import MatchingEngine.MbpPublisher
import MatchingEngine.Orders
import MatchingEngine.Paths
import MatchingEngine.Pipeline
import MatchingEngine.Protocol
import MatchingEngine.Reflection
import MatchingEngine.Replay
import MatchingEngine.RuntimeConfig
import MatchingEngine.RuntimeOperations
import MatchingEngine.Schedule
import MatchingEngine.Segments
import MatchingEngine.Snapshot
import MatchingEngine.SnapshotFile
import MatchingEngine.Spsc
import MatchingEngine.Theorems.Bbo
import MatchingEngine.Theorems.BboPublisher
import MatchingEngine.Theorems.Bitmap
import MatchingEngine.Theorems.Checker
import MatchingEngine.Theorems.Checksums
import MatchingEngine.Theorems.Codecs
import MatchingEngine.Theorems.Compaction
import MatchingEngine.Theorems.FillOrKill
import MatchingEngine.Theorems.Gateway
import MatchingEngine.Theorems.Handles
import MatchingEngine.Theorems.Invariants
import MatchingEngine.Theorems.Journal
import MatchingEngine.Theorems.LaneMerge
import MatchingEngine.Theorems.Ledger
import MatchingEngine.Theorems.MarketData
import MatchingEngine.Theorems.MarketDataInput
import MatchingEngine.Theorems.MbpPublisher
import MatchingEngine.Theorems.Opening
import MatchingEngine.Theorems.Paths
import MatchingEngine.Theorems.Pipeline
import MatchingEngine.Theorems.ProRata
import MatchingEngine.Theorems.Recovery
import MatchingEngine.Theorems.Reflection
import MatchingEngine.Theorems.Rejections
import MatchingEngine.Theorems.Replay
import MatchingEngine.Theorems.Results
import MatchingEngine.Theorems.Rotation
import MatchingEngine.Theorems.RuntimeConfig
import MatchingEngine.Theorems.RuntimeOperations
import MatchingEngine.Theorems.Schedule
import MatchingEngine.Theorems.Segments
import MatchingEngine.Theorems.SelfTrade
import MatchingEngine.Theorems.Sequencing
import MatchingEngine.Theorems.Snapshot
import MatchingEngine.Theorems.SnapshotFile
import MatchingEngine.Theorems.Spsc
import MatchingEngine.Theorems.Stage
import MatchingEngine.Theorems.Stops
import MatchingEngine.Theorems.Times
import MatchingEngine.Types
