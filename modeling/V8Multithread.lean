import V8Multithread.Base.Machine
import V8Multithread.Base.Mailbox
import V8Multithread.Base.Tally
import V8Multithread.Base.Ring
import V8Multithread.Threading.Task
import V8Multithread.Threading.Channel
import V8Multithread.Threading.ChannelPressure
import V8Multithread.Threading.ChannelOrder
import V8Multithread.Threading.ChannelClose
import V8Multithread.Threading.ChannelPromises
import V8Multithread.Threading.Mutex
import V8Multithread.Threading.MutexExclusion
import V8Multithread.Threading.Pool
import V8Multithread.Threading.PoolSteps
import V8Multithread.Threading.PoolLedger
import V8Multithread.Threading.PoolActive
import V8Multithread.Threading.PoolWakeup
import V8Multithread.Threading.PoolResize
import V8Multithread.Threading.MutexHandOff
import V8Multithread.Threading.MutexOwner
import V8Multithread.Threading.Deque
import V8Multithread.Threading.DequeSafety
import V8Multithread.Threading.Join
import V8Multithread.Threading.JoinLedger
import V8Multithread.Threading.JoinDeadlock
import V8Multithread.Threading.HostCells
import V8Multithread.Threading.ParallelArray
import V8Multithread.Threading.ParallelChunks
import V8Multithread.Threading.ParallelReduce
import V8Multithread.Threading.ParallelMap
import V8Multithread.Execution.MicrotaskQueue
import V8Multithread.Threading.HostCellsOnce
import V8Multithread.Execution.AutoParallel
import V8Multithread.Base.Bytes
import V8Multithread.Base.Scan
import V8Multithread.Objects.Value
import V8Multithread.Objects.ValueSerializer
import V8Multithread.Objects.ValueDeserializer
import V8Multithread.Objects.ReaderSafety
import V8Multithread.Objects.Graph
import V8Multithread.Objects.Image
import V8Multithread.Objects.ReadBack
import V8Multithread.Objects.ObjectsBack
import V8Multithread.Objects.EntriesBack
import V8Multithread.Objects.WriterIds
import V8Multithread.Objects.KindsBack
import V8Multithread.Objects.DelegatesBack
import V8Multithread.Objects.RoundTrip
import V8Multithread.Objects.StructuredClone
import V8Multithread.Base.Utf8
import V8Multithread.Strings.UnicodeDecoder
import V8Multithread.Base.Ancestry
import V8Multithread.Wasm.Subtyping
import V8Multithread.Wasm.TypeLattice
import V8Multithread.Wasm.Leb128
import V8Multithread.Base.Matching
import V8Multithread.Strings.StringSearch
import V8Multithread.Strings.SearchTables
import V8Multithread.Strings.FirstOccurrence
import V8Multithread.Platform.DefaultJob
import V8Multithread.Platform.JobCounters
import V8Multithread.Platform.TaskIds
import V8Multithread.Tasks.CancelableTask
import V8Multithread.Tasks.Cancellation
import V8Multithread.Json.JsonString
import V8Multithread.Json.StringScan
import V8Multithread.Json.PropertyKey
import V8Multithread.Json.JsonNumber
import V8Multithread.Json.Grammar
import V8Multithread.Json.JsonParser
import V8Multithread.Json.ParserSteps
import V8Multithread.Json.IterativeParser
import V8Multithread.Json.RecursiveParser
import V8Multithread.Base.Limbs
import V8Multithread.Bigint.Digits
import V8Multithread.Bigint.VectorArithmetic
import V8Multithread.Bigint.DivHelpers
import V8Multithread.Base.LongDivision
import V8Multithread.Bigint.DivSchoolbook
import V8Multithread.Bigint.DivSingle
import V8Multithread.Bigint.MulKaratsuba
import V8Multithread.Base.Spelling
import V8Multithread.Bigint.AsIntN
import V8Multithread.Bigint.Bitwise
import V8Multithread.Strings.Uri
import V8Multithread.Threading.Transfer
import V8Multithread.Codegen.SourcePositionTable
import V8Multithread.Date.Calendar
import V8Multithread.Heap.Worklist
import V8Multithread.Wasm.Leb128
