import Beamr.Lib.ByteOrder
import Beamr.Lib.Decoder
import Beamr.Atom
import Beamr.Loader.Basic
import Beamr.Term.BigInt
import Beamr.Loader.Compact
import Beamr.Loader.OperandCodec
import Beamr.Loader.Literals
import Beamr.Loader.LiteralCodec
import Beamr.Loader.Opcodes
import Beamr.Loader.Code
import Beamr.Loader.Chunks
import Beamr.Loader.ChunkCodec
import Beamr.Loader.Container
import Beamr.Loader.RoundTrip
import Beamr.Lib.ObjectGraph
import Beamr.Lib.Refill
import Beamr.Term.Word
import Beamr.Process.Heap
import Beamr.Process.Roots
import Beamr.Gc.Collect
import Beamr.Gc.Objects
import Beamr.Gc.Invariant
import Beamr.Gc.Preserve
import Beamr.Gc.Reachable
import Beamr.Gc.Intact
import Beamr.Gc.Minor
import Beamr.Gc.Major
import Beamr.Gc.RootSet
import Beamr.Gc.EnsureSpace
import Beamr.Lib.Comparison
import Beamr.Lib.Float64
import Beamr.Term.Value
import Beamr.Term.Numbers
import Beamr.Lib.DepthRecursion
import Beamr.Term.Compare
import Beamr.Term.Order
import Beamr.Term.Ties
import Beamr.Term.Hash
import Beamr.Term.Tagged
import Beamr.Interpreter.Basic
import Beamr.Jit.Operands
import Beamr.Jit.Comparison
import Beamr.Term.BigIntMath
import Beamr.Native.Arithmetic
import Beamr.Interpreter.Bif
import Beamr.Jit.Arithmetic
import Beamr.Lib.MayReach
import Beamr.Jit.Plan
import Beamr.Jit.Lowering
import Beamr.Lib.Runs
import Beamr.Messaging.Mailbox
import Beamr.Scheduler.Delivery
import Beamr.Messaging.Interleaving
import Beamr.Messaging.Marker
import Beamr.Timer.Wheel
import Beamr.Timer.Represents
import Beamr.Timer.Fires
import Beamr.Supervision.Monitor
import Beamr.Supervision.Link
import Beamr.Lib.Entries
import Beamr.Ets.Copy
import Beamr.Ets.Bag
import Beamr.Etf.Encode
import Beamr.Etf.Iovec
import Beamr.Lib.SortedEntries
import Beamr.Ets.Tables
import Beamr.Ets.Semantics
import Beamr.Ets.Traversal
import Beamr.Etf.Decode
import Beamr.Etf.RoundTrip
import Beamr.Ets.Registry
import Beamr.Jit.Profiler
import Beamr.Lib.Persist
import Beamr.Loader.Budget
import Beamr.Loader.Validate
import Beamr.Loader.Encodes
import Beamr.Lib.BitField
import Beamr.Interpreter.Construction
import Beamr.Interpreter.Matching
import Beamr.Lib.Keep
import Beamr.Distribution.Global
import Beamr.Distribution.AtomCache
import Beamr.Distribution.AtomReferences
import Beamr.Distribution.AtomExchange
import Beamr.Scheduler.Tombstones
import Beamr.Scheduler.ExitWatch
import Beamr.Scheduler.ExitOnce
import Beamr.Distribution.ProcessGroups
import Beamr.Distribution.Control
import Beamr.Distribution.PgFrame
import Beamr.Distribution.ControlOrigin
import Beamr.Lib.Replay
import Beamr.Distribution.PgPropagation
import Beamr.Lib.Sessions
import Beamr.Distribution.ConnectionTable
import Beamr.Scheduler.ExitEvents
import Beamr.Scheduler.Clocks
import Beamr.Interpreter.Extraction
import Beamr.Scheduler.Capabilities
import Beamr.Scheduler.ExitSignals
import Beamr.Scheduler.RemoteLinks
import Beamr.Scheduler.Disposal
import Beamr.Scheduler.Leftovers
import Beamr.Scheduler.Suspensions
import Beamr.Scheduler.OwnCompletions
import Beamr.Term.LongDivision
import Beamr.Term.Integers
import Beamr.Term.Convert
import Beamr.Loader.IntegerOperands
import Beamr.Loader.OperandRoundTrip
import Beamr.Lib.Bisection
import Beamr.Jit.Select
import Beamr.Jit.PutMap
import Beamr.Lib.Outcome
import Beamr.Interpreter.MatchCommands
import Beamr.Scheduler.ReceiveWait
import Beamr.Jit.ReceiveAfter
import Beamr.Interpreter.MatchValues
import Beamr.Jit.BinaryMatch
import Beamr.Jit.MatchAgreement
import Beamr.Loader.LiteralTable
import Beamr.Loader.ContainerParsing
import Beamr.Interpreter.FrameFlow
import Beamr.Etf.UsedPrefix
import Beamr.Etf.Compressed
import Beamr.Etf.Recorded
import Beamr.Etf.SafeDecoding
import Beamr.Etf.CanonicalIntegers
import Beamr.Lib.Constraints
import Beamr.Ets.MatchSpec
import Beamr.Ets.MatchHeads
import Beamr.Ets.MatchEvaluators
import Beamr.Loader.Module
import Beamr.Loader.ModuleRegistry
import Beamr.Loader.ModuleVersions
import Beamr.Loader.Imports
import Beamr.Loader.FunctionSlices
import Beamr.Jit.Slicers
import Beamr.Lib.PrefixCode
import Beamr.Interpreter.Unicode
import Beamr.Messaging.LocalSend
import Beamr.Distribution.TermCodec
import Beamr.Distribution.TermFates
import Beamr.Distribution.TermStability
import Beamr.Process.Clone
import Beamr.Gc.CloneGraph
import Beamr.Gc.Cloned
import Beamr.Distribution.Dialing
import Beamr.Distribution.GlobalCleanup
import Beamr.Supervision.References
import Beamr.Jit.RootedAllocation
import Beamr.Lib.DecoderSurvey
import Beamr.Distribution.DecodeRoom
import Beamr.Distribution.FrameScanner
import Beamr.Distribution.DistMessage
import Beamr.Scheduler.RunQueue
import Beamr.Scheduler.QueueFairness
import Beamr.Distribution.ControlFrames
import Beamr.Interpreter.NativeContinuations
