import Serverbox.Lib.Machine
import Serverbox.Box.Mutex
import Serverbox.Box.Signal
import Serverbox.Box.InterruptibleMutex
import Serverbox.Box.InterruptibleMutexInterruption
import Serverbox.Box.MultiConsumerQueue
import Serverbox.Box.MultiConsumerQueueBlocks
import Serverbox.Box.MultiConsumerQueueConsume
import Serverbox.Box.MultiConsumerQueueOrder
import Serverbox.Box.MultiConsumerQueuePending
import Serverbox.Box.MultiConsumerQueueRecycle
import Serverbox.Box.MultiConsumerQueueFlush
import Serverbox.Box.SignalDelivery
import Serverbox.Net.BufferStreamFifo
import Serverbox.Net.BufferStreamScatter
import Serverbox.Net.BuffersCopy
import Serverbox.Box.BinaryHeap
import Serverbox.Box.BinaryHeapRun
import Serverbox.Box.ForwardList
import Serverbox.Box.SharedPtr
import Serverbox.Net.BufferLinkListRun
import Serverbox.Net.Endpoint
import Serverbox.Net.HostText
import Serverbox.Net.SSLStream
import Serverbox.Net.SSLStreamInput
import Serverbox.Net.SSLStreamOutput
import Serverbox.Lib.Placement
import Serverbox.Sch.TaskLife
import Serverbox.Sch.TaskSchedulerQuiescence
import Serverbox.Sch.TaskSchedulerGuarantees
import Serverbox.Sch.TaskSchedulerWakeup
import Serverbox.Aio.TCPSocketOrder
import Serverbox.Aio.TCPSocketWork
import Serverbox.Box.MultiConsumerQueueCount
import Serverbox.Net.DomainToIPProgress
import Serverbox.Sch.TaskSchedulerRound
import Serverbox.Aio.TCPServer
import Serverbox.Box.ThreadLocalPool
import Serverbox.Box.Coro
import Serverbox.Aio.SSLSocketRecv
import Serverbox.Aio.IOCoreRound
import Serverbox.Aio.IOCoreCount
import Serverbox.Aio.IOCoreDeadline
import Serverbox.Aio.IOCoreEpoll
import Serverbox.Aio.IOCoreEpollPlaces
import Serverbox.Aio.IOCoreEpollLife
import Serverbox.Aio.IOCoreEpollGuarantees
import Serverbox.Aio.IOCoreEpollSleep
import Serverbox.Aio.IOCoreEpollTurn
import Serverbox.Aio.IOCoreEpollProgress
import Serverbox.Aio.IOCoreEpollDelivery
import Serverbox.Aio.IOCoreEpollDrain
import Serverbox.Aio.IOTaskIOCP
import Serverbox.Aio.IOTaskIOUring
import Serverbox.Aio.TCPSocketCtl
import Serverbox.Sio.TCPSocket
import Serverbox.Box.MultiProducerQueueIntrusive
import Serverbox.Box.IOVecPropagate
import Serverbox.Tst.Message
import Serverbox.Aio.TCPSocketShutdown
import Serverbox.Aio.TCPSocketCtlDomain
import Serverbox.Aio.TCPSocketCtlLifetime
import Serverbox.Aio.SSLSocketSend
import Serverbox.Aio.SSLSocketOnRecv
import Serverbox.Net.BufferRelease
import Serverbox.Box.DoublyList
import Serverbox.Aio.IOCoreWait
import Serverbox.Sch.TaskSchedulerSleep
