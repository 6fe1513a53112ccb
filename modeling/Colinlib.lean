import Colinlib.Theory.CMemory
import Colinlib.Source.RingBuffer
import Colinlib.Guarantees.RingBufferFifo
import Colinlib.Theory.Callbacks
import Colinlib.Source.IoWorld
import Colinlib.Source.Routine
import Colinlib.Guarantees.SchedulerDiscipline
import Colinlib.Source.Clink
import Colinlib.Source.TimingWheel
import Colinlib.Source.WheelSlots
import Colinlib.Guarantees.TimerExactness
import Colinlib.Source.Set
import Colinlib.Source.SetHeap
import Colinlib.Source.SetInsert
import Colinlib.Source.SetDelete
import Colinlib.Guarantees.SetRedBlack
import Colinlib.Source.IoService
import Colinlib.Source.EventLoop
import Colinlib.Source.IoChanges
import Colinlib.Source.IoTrace
import Colinlib.Guarantees.PollerRegistrations
import Colinlib.Guarantees.DescriptorOwnership
import Colinlib.Guarantees.StaleEvents
import Colinlib.Source.Vec
import Colinlib.Source.Queue
import Colinlib.Guarantees.QueueFifo
import Colinlib.Source.Pqueue
import Colinlib.Guarantees.PriorityOrder
import Colinlib.Guarantees.TickConversion
import Colinlib.Source.Falloc
import Colinlib.Source.FallocPool
import Colinlib.Guarantees.AllocatorItems
import Colinlib.Guarantees.FreeFlag
import Colinlib.Source.TimerService
import Colinlib.Guarantees.TimerContract
import Colinlib.Theory.Keyed
import Colinlib.Guarantees.SetSemantics
import Colinlib.Source.Dict
import Colinlib.Source.DictHeap
import Colinlib.Source.DictBuckets
import Colinlib.Source.DictContents
import Colinlib.Guarantees.DictMap
import Colinlib.Guarantees.DictTraversal
import Colinlib.Theory.Utf8
import Colinlib.Source.Utf8
import Colinlib.Guarantees.Utf8Acceptance
import Colinlib.Source.WordFilter
import Colinlib.Source.WordTrie
import Colinlib.Theory.Keywords
import Colinlib.Source.WordScan
import Colinlib.Guarantees.KeywordSet
import Colinlib.Guarantees.TextSearch
import Colinlib.Guarantees.DnsBounds
import Colinlib.Guarantees.DnsAnswers
import Colinlib.Guarantees.DnsQuery
import Colinlib.Source.Traffic
import Colinlib.Source.Delivery
import Colinlib.Guarantees.SendQueues
import Colinlib.Guarantees.DatagramDelivery
import Colinlib.Guarantees.ReceiveBuffers
import Colinlib.Theory.SignedList
import Colinlib.Guarantees.VectorList
import Colinlib.Source.LinkedList
import Colinlib.Guarantees.LinkedList
import Colinlib.Source.Buffer
import Colinlib.Guarantees.IntegerRoundTrip
import Colinlib.Source.SetIterate
import Colinlib.Guarantees.SetAlgebra
import Colinlib.Guarantees.SetIteration
import Colinlib.Guarantees.SleepTimers
import Colinlib.Guarantees.ErrorReentry
import Colinlib.Guarantees.CloseNotices
import Colinlib.Guarantees.SlotAllocation
import Colinlib.Guarantees.RequestBounds
import Colinlib.Guarantees.Utf8Length
import Colinlib.Guarantees.BufferSeek
import Colinlib.Theory.SinglePrecision
import Colinlib.Source.FloatBuffer
import Colinlib.Guarantees.FloatRoundTrip
import Colinlib.Guarantees.CoroutineIdentity
import Colinlib.Guarantees.KeywordRejection
import Colinlib.Source.WordFile
import Colinlib.Guarantees.KeywordFile
import Colinlib.Source.WheelLinks
import Colinlib.Guarantees.WheelStates
import Colinlib.Guarantees.TimerRemoval
import Colinlib.Guarantees.UpdateTermination
import Colinlib.Source.BlockingTcp
import Colinlib.Source.IoFrames
import Colinlib.Guarantees.BlockedCalls
import Colinlib.Guarantees.ConnectWaits
import Colinlib.Source.VecBytes
import Colinlib.Guarantees.VectorProducts
import Colinlib.Guarantees.VectorCopy
import Colinlib.Guarantees.AllocatorCarving
import Colinlib.Guarantees.CircularLinks
import Colinlib.Source.WordChildren
import Colinlib.Theory.Bisect
import Colinlib.Guarantees.ChildSearch
import Colinlib.Source.ResolvConf
import Colinlib.Guarantees.ServerAddress
import Colinlib.Source.Str
import Colinlib.Guarantees.CountedStrings
import Colinlib.Guarantees.RingBufferSums
import Colinlib.Theory.Amd64
import Colinlib.Source.CoCtx
import Colinlib.Source.RoutineSwap
import Colinlib.Guarantees.CallsReturn
import Colinlib.Guarantees.StreamDelivery
import Colinlib.Guarantees.WakeUps
import Colinlib.Guarantees.StreamPath
import Colinlib.Guarantees.LoopDeadlines
import Colinlib.Source.DictKeys
import Colinlib.Guarantees.Releases
import Colinlib.Guarantees.StringKeys
import Colinlib.Guarantees.PollerBackends
import Colinlib.Guarantees.BufferFile
import Colinlib.Guarantees.DatagramPath
import Colinlib.Guarantees.SingleRoundTrip
import Colinlib.Source.VecItems
