import Flashlight.Math.FixedWidth
import Flashlight.Math.RoundNearest
import Flashlight.Math.RoundedSums
import Flashlight.Math.ListHeap
import Flashlight.Math.HeapRegion
import Flashlight.Math.Separators
import Flashlight.Math.Collecting
import Flashlight.Math.Interleaving
import Flashlight.Math.Ownership
import Flashlight.Math.Schedules
import Flashlight.Math.Shuffling
import Flashlight.Math.Splicing
import Flashlight.Platform
import Flashlight.Indexer.Plan
import Flashlight.Indexer.Coverage
import Flashlight.Indexer.Order
import Flashlight.Indexer.Clamping
import Flashlight.Chunk
import Flashlight.ChunkRegion
import Flashlight.Node
import Flashlight.Lookup
import Flashlight.Index
import Flashlight.IndexLookup
import Flashlight.LookupMem
import Flashlight.TextIndexer.Windows
import Flashlight.TextIndexer.Scan
import Flashlight.TextIndexer.Worker
import Flashlight.TextIndexer.Batches
import Flashlight.TextIndexer.Smooth
import Flashlight.TextIndexer.BatchLoop
import Flashlight.TextIndexer.File
import Flashlight.TextIndexer.FileInvariant
import Flashlight.TextIndexer.ShortReads
import Flashlight.TextIndexer.Exactness
import Flashlight.TextIndexer.Progress
import Flashlight.TextIndexer.Reports
import Flashlight.TextIndexer.Messages
import Flashlight.TextIndexer.Completion
import Flashlight.TextIndexer.LineCounts
import Flashlight.TextIndexer.Sequential
import Flashlight.TextIndexer.Termination
import Flashlight.TextIndexer.WholeWindows
import Flashlight.TextIndexer.Blocks
import Flashlight.TextIndexer.Owners
import Flashlight.TextIndexer.Footprint
import Flashlight.TextIndexer.MainBlocks
import Flashlight.TextIndexer.Memory
import Flashlight.Search.Plan
import Flashlight.Search.Tokenize
import Flashlight.Search.Splitting
import Flashlight.Search.Thread
import Flashlight.Search.Lines
import Flashlight.Search.Account
import Flashlight.Search.Crew
import Flashlight.Search.Limit
import Flashlight.Search.Run
import Flashlight.Search.Lookups
import Flashlight.Search.Sound
import Flashlight.Search.Complete
import Flashlight.Search.Tokens
import Flashlight.Search.Batching
import Flashlight.Search.Shown
import Flashlight.Search.Spans
import Flashlight.Search.Results
import Flashlight.Search.Independence
import Flashlight.Search.Progress
import Flashlight.Search.Termination
import Flashlight.Search.Sequential
import Flashlight.Search.Grep
import Flashlight.FailingExits
import Flashlight.Search.Blocks
import Flashlight.Search.Memory
import Flashlight.Search.Growth
import Flashlight.Search.Reports
