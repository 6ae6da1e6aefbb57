import ZeroCopyRpc.Transitions
import ZeroCopyRpc.Cells
import ZeroCopyRpc.Words
import ZeroCopyRpc.SafeLag
import ZeroCopyRpc.CyclicMemoryPool
import ZeroCopyRpc.CyclicBuffer
import ZeroCopyRpc.BufferLog
import ZeroCopyRpc.PoolInterleaving
import ZeroCopyRpc.TopicService
import ZeroCopyRpc.IDPool
import ZeroCopyRpc.SubscriptionSlots
import ZeroCopyRpc.TokenLedger
import ZeroCopyRpc.SubscriptionDelivery
import ZeroCopyRpc.MessageQueue
import ZeroCopyRpc.SharedMemoryServer
import ZeroCopyRpc.ReplyRouting
import ZeroCopyRpc.Framing
import ZeroCopyRpc.LittleEndian
import ZeroCopyRpc.TcpReplicator
import ZeroCopyRpc.TcpTopicReplication
import ZeroCopyRpc.TcpRouting
import ZeroCopyRpc.FastBitSet
import ZeroCopyRpc.Chunks
import ZeroCopyRpc.UdpFrameIterator
import ZeroCopyRpc.Reassembly
import ZeroCopyRpc.Splits
import ZeroCopyRpc.UdpReassembly
import ZeroCopyRpc.UdpLoss
import ZeroCopyRpc.FrameSteps
import ZeroCopyRpc.UdpFrameOrder
import ZeroCopyRpc.ReplicationAgreement
import ZeroCopyRpc.IdOwnership
import ZeroCopyRpc.BagInterleaving
import ZeroCopyRpc.BagIteration
import ZeroCopyRpc.TopicRestart
import ZeroCopyRpc.TopicReopening
import ZeroCopyRpc.ServerCrash
import ZeroCopyRpc.CrashRecovery
import ZeroCopyRpc.RequestAnswers
import ZeroCopyRpc.SharedMemoryClient
import ZeroCopyRpc.RequestMatching
import ZeroCopyRpc.SharedLedger
import ZeroCopyRpc.PublisherThreads
import ZeroCopyRpc.ThreadedDelivery
import ZeroCopyRpc.IDPoolContract
import ZeroCopyRpc.FrameContracts
import ZeroCopyRpc.NotifyExactness
import ZeroCopyRpc.FrameBounds
import ZeroCopyRpc.FrameProvenance
import ZeroCopyRpc.MappedBuffer
import ZeroCopyRpc.MappedOperations
import ZeroCopyRpc.AttachTransparency
import ZeroCopyRpc.TopicClearing
import ZeroCopyRpc.BagList
import ZeroCopyRpc.UdpFragmentLoop
import ZeroCopyRpc.LiveEntries
import ZeroCopyRpc.ScopeMoves
import ZeroCopyRpc.ClientShutdown
import ZeroCopyRpc.ReceiveBuffer
import ZeroCopyRpc.LeftoverReads
import ZeroCopyRpc.Envelopes
import ZeroCopyRpc.ReplyEnvelopes
import ZeroCopyRpc.QueuedObject
import ZeroCopyRpc.TopicCommands
import ZeroCopyRpc.TopicResults
import ZeroCopyRpc.FlowControl
import ZeroCopyRpc.FlowProgress
import ZeroCopyRpc.ObjectNames
import ZeroCopyRpc.UdpSender
import ZeroCopyRpc.ServerRestarts
import ZeroCopyRpc.ServerOverlap
import ZeroCopyRpc.TopicIsolation
import ZeroCopyRpc.StaleTopics
