import MyTests.Lib.Transition
import MyTests.Lib.Adjacent
import MyTests.QueuedSpin.Word
import MyTests.QueuedSpin.Lock
import MyTests.QueuedSpin.Invariant
import MyTests.QueuedSpin.Transitions
import MyTests.QueuedSpin.Order
import MyTests.QueuedSpin.System
import MyTests.Lib.Fairness
import MyTests.QueuedSpin.Fifo
import MyTests.QueuedSpin.Progress
import MyTests.Lib.Effect
import MyTests.RlTtt.Agent
import MyTests.RlTtt.Opponents
import MyTests.RlTtt.Train
import MyTests.RlTtt.Episode
import MyTests.RlTtt.LoopRules
import MyTests.RlTtt.Schedule
import MyTests.Lib.Negamax
import MyTests.RlTtt.Minimax
import MyTests.RlTtt.BitBoard
import MyTests.RlTtt.PlayGame
import MyTests.RlTtt.EvalLeak
import MyTests.RlTtt.Play
import MyTests.RlTtt.TableInvariant
import MyTests.Lib.Agree
import MyTests.RlTtt.PlaySession
import MyTests.RlTtt.Undisturbed
import MyTests.RlTtt.EvaluateIntact
import MyTests.Lib.Recording
import MyTests.RlTtt.QStateLog
import MyTests.Lib.Framing
import MyTests.Utf8.Length
import MyTests.Lib.Positional
import MyTests.Utf8.Ceph
import MyTests.Utf8.Pattern
import MyTests.Utf8.Decode
import MyTests.Lib.Rendezvous
import MyTests.Lib.Segments
import MyTests.Lib.Tally
import MyTests.MemoryOrder.Harness
import MyTests.MemoryOrder.Invariant
import MyTests.MemoryOrder.Rounds
import MyTests.Lib.Transfer
import MyTests.VioBench.Handlers
import MyTests.VioBench.Lockstep
import MyTests.Lib.Bootstrap
import MyTests.RlTtt.FeedGames
import MyTests.RlTtt.QlDemo
import MyTests.RlTtt.QlDemoAgrees
import MyTests.RlTtt.Export
import MyTests.RlTtt.WebApp
import MyTests.RlTtt.WebAppLookup
import MyTests.Bmi.ExtractBits
import MyTests.Lib.Arm64
import MyTests.Bmi.ExtractBitsNeon
import MyTests.Bmi.PextTable
import MyTests.Counting.Range
import MyTests.Counting.SortRange
import MyTests.Counting.ByteSort
import MyTests.Lib.Best
import MyTests.Counting.ModeRange
import MyTests.Ascii.Checks
import MyTests.Ascii.Asm
import MyTests.Lib.RingBuffer
import MyTests.Tlpi.Tail
import MyTests.Tlpi.Interrupted
import MyTests.Lib.Narrow
import MyTests.CephHash.StrHash
import MyTests.Lib.Stripes
import MyTests.Mydd.Dio
import MyTests.Mydd.Aio
import MyTests.Mydd.AioCoverage
import MyTests.Lib.Tiers
import MyTests.Tax.IncomeTax
import MyTests.Tax.Yearly
import MyTests.Tax.NetPay
import MyTests.L1iMiss.Cache
import MyTests.Lib.Recency
import MyTests.L1iMiss.Lru
import MyTests.L1iMiss.Books
import MyTests.L1iMiss.Lfu
import MyTests.Cpp.UniqPtr
import MyTests.Cpp.SharedPtr
import MyTests.Rdma.FileTransfer
import MyTests.Rdma.Baton
import MyTests.Rdma.Passing
import MyTests.Rdma.Delivery
import MyTests.Lib.Exclusive
import MyTests.QueuedSpin.Atomics
import MyTests.RlTtt.Animation
import MyTests.RlTtt.History
import MyTests.RlTtt.LogRun
import MyTests.Rdma.Exchange
import MyTests.Lib.FifoLock
import MyTests.QueuedSpin.McsLock
import MyTests.QueuedSpin.McsProgress
import MyTests.QueuedSpin.Inspect
import MyTests.Threads.CondWait
import MyTests.Threads.PrintInTurn
import MyTests.Ascii.ReadLe
import MyTests.Rdma.Parting
