import Rphp.Scheduler.Channel
import Rphp.Lib.Run
import Rphp.Lib.Worklist
import Rphp.Runtime.CycleLiveness
import Rphp.Lib.Assoc
import Rphp.Value.ReferenceArrayIteration
import Rphp.Value.ReferenceArrayIndex
import Rphp.Lib.Slots
import Rphp.Value.ObjectHandles
import Rphp.Value.CycleRoots
import Rphp.Value.CycleRootsRun
import Rphp.Lib.OrderedMap
import Rphp.Value.Array.Storage
import Rphp.Value.Array.HashStorage
import Rphp.Value.Array.HashMutation
import Rphp.Value.Array.PhpArray
import Rphp.Value.Array.WellFormed
import Rphp.Value.Array.Writes
import Rphp.Value.Array.IntWrites
import Rphp.Value.Array.Removals
import Rphp.Value.Array.Refinement
import Rphp.Value.Array.SlotWrites
import Rphp.Value.Array.CachedLong
import Rphp.Value.Array.CachedLongRun
import Rphp.Lib.Outcome
import Rphp.Scheduler.IoSet
import Rphp.Scheduler.IoSetInFlight
import Rphp.Scheduler.Scheduler
import Rphp.Scheduler.Registrations
import Rphp.Scheduler.RegistrationSteps
import Rphp.Scheduler.RegistrationEvents
import Rphp.Scheduler.RegistrationRun
import Rphp.Lib.HeapOrder
import Rphp.Stdlib.Heap
import Rphp.Stdlib.HeapRun
import Rphp.Stdlib.Deque
import Rphp.Stdlib.DequeRefinement
import Rphp.Stdlib.DequeRun
import Rphp.Generics.Variance
import Rphp.Generics.Subtype
import Rphp.Generics.Ancestors
import Rphp.Generics.Derivation
import Rphp.Generics.Termination
import Rphp.Generics.Congruence
import Rphp.Generics.VarianceSoundness
import Rphp.Generics.Linking
import Rphp.Generics.Transitivity
import Rphp.Regex.Analysis
import Rphp.Regex.Matcher
import Rphp.Regex.Relational
import Rphp.Regex.Search
import Rphp.Regex.LimitOrder
import Rphp.Regex.LimitUnmasked
import Rphp.Regex.LimitSafety
import Rphp.Regex.LimitIndependence
import Rphp.Lib.FinishOrder
import Rphp.Lib.Components
import Rphp.Runtime.CycleComponents
import Rphp.Runtime.DestructorOrder
import Rphp.Value.Array.ChunkPush
import Rphp.Value.Array.AppendKey
import Rphp.Value.Array.KeyProvenance
import Rphp.Value.Array.AppendRun
import Rphp.Value.Array.Cursor
import Rphp.Value.DynamicProperties
import Rphp.Jit.Straight
import Rphp.Jit.DefinitelyWritten
import Rphp.Jit.ScalarValidator
import Rphp.Jit.StraightMachine
import Rphp.Jit.EarlyIncrement
import Rphp.Jit.LocalResident
import Rphp.Jit.LinearStores
import Rphp.Codec.Uuencode
import Rphp.Codec.Base64
import Rphp.Codec.QuotedPrintable
import Rphp.Heap.Region
import Rphp.Heap.PageStack
import Rphp.Heap.RegionLayout
import Rphp.Heap.PageStackRun
import Rphp.Jit.Affine
import Rphp.Jit.AffineFusion
import Rphp.Scheduler.TimerRun
import Rphp.Regex.Lookbehind
import Rphp.Regex.FixedMatch
import Rphp.Regex.FixedRounds
import Rphp.Regex.FixedCollect
import Rphp.Regex.FixedDecision
import Rphp.Regex.Linear
import Rphp.Regex.LookbehindRun
import Rphp.Codec.Csv
import Rphp.Codec.Pack
import Rphp.Codec.UnpackSafety
import Rphp.Codec.PackRoundTrip
import Rphp.Json.Pieces
import Rphp.Json.Document
import Rphp.Generics.Merge
import Rphp.Json.DocumentScan
import Rphp.Json.NumberPlan
import Rphp.Lib.Splice
import Rphp.Regex.Confined
import Rphp.Regex.ConfinedEngine
import Rphp.Regex.Rejecting
import Rphp.Regex.Replace
import Rphp.Regex.ReplaceLinear
import Rphp.Regex.StartFilters
import Rphp.Jit.ComposeDouble
import Rphp.Jit.ForwardedArguments
import Rphp.Lib.DayCount
import Rphp.Lib.StepFunction
import Rphp.Stdlib.Calendar.Civil
import Rphp.Stdlib.Calendar.DaysInMonth
import Rphp.Stdlib.Calendar.Easter
import Rphp.Stdlib.Date.Tzdb
import Rphp.Vm.Blocks
import Rphp.Vm.MacroEquivalence
import Rphp.Jit.Remainder
import Rphp.Lib.Bytes
import Rphp.Stdlib.Serialization.ReferenceTargets
import Rphp.Stdlib.Date.IsoWeek
import Rphp.Stdlib.Date.LocalTime
import Rphp.Lib.BitLanes
import Rphp.Lib.PowerSums
import Rphp.Lib.StageFusion
import Rphp.Stdlib.Random.Engine
import Rphp.Vm.CallbackPipeline
import Rphp.Vm.CallbackStages
import Rphp.Vm.CallbackStreaming
import Rphp.Stdlib.Unserialize.Graph
import Rphp.Stdlib.Unserialize.CursorSafety
import Rphp.Stdlib.Unserialize.ParserSafety
import Rphp.Stdlib.Unserialize.ValueSafety
import Rphp.Lib.Rearrange
import Rphp.Stdlib.Sort.Schedule
import Rphp.Stdlib.Sort.ScheduleInsertion
import Rphp.Stdlib.Sort.SchedulePartition
import Rphp.Stdlib.Sort.ScheduleRun
import Rphp.Stdlib.Sort.StableOrder
import Rphp.Stdlib.Sort.UserSort
import Rphp.Stdlib.Sort.UserSortRun
import Rphp.Lib.Borders
import Rphp.Stream.Buffer
import Rphp.Stream.Reads
import Rphp.Stream.Refines
import Rphp.Stream.Temp
import Rphp.Stream.TempPlain
import Rphp.Lib.Draws
import Rphp.Stdlib.Random.MersenneTwister
import Rphp.Stdlib.Random.Ranges
import Rphp.Stdlib.Random.Shuffle
import Rphp.Stdlib.Output.Buffers
import Rphp.Stdlib.Output.Protocol
import Rphp.Stdlib.Output.Text
import Rphp.Stdlib.Sort.ScalarSort
