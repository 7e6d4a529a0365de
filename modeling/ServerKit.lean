import ServerKit.RbTree.Refinement
import ServerKit.BTree.Contracts
import ServerKit.Threads.Wakeup
import ServerKit.Mempool.FreeList
import ServerKit.Reactor.System
import ServerKit.Threads.Overflow
import ServerKit.Threads.Teardown
import ServerKit.Reactor.Conn
import ServerKit.Reactor.Mirror
import ServerKit.Reactor.Http
import ServerKit.Reactor.Websocket
import ServerKit.Reactor.Single
import ServerKit.Reactor.Served
import ServerKit.Reactor.Handshake
import ServerKit.Reactor.Gets
import ServerKit.ItemReactor.Code
import ServerKit.ItemReactor.Registered
import ServerKit.BTree.Emptied
import ServerKit.Lib.Links
import ServerKit.Threads.Semaphores
import ServerKit.Reactor.Chain
import ServerKit.Reactor.Framing
import ServerKit.ItemReactor.Echo
import ServerKit.C1000k.Code
import ServerKit.Lib.Padding
import ServerKit.C1000k.Echo
import ServerKit.RbTree.Twin
import ServerKit.Lib.Blind
import ServerKit.RbTree.Guarded
import ServerKit.RbTree.Sentinel
import ServerKit.RbTree.Indifference
import ServerKit.BTree.Traced
import ServerKit.BTree.Erasure
import ServerKit.BTree.Accesses
import ServerKit.BTree.Descent
import ServerKit.BTree.InBounds
import ServerKit.BTree.Lifetimes
import ServerKit.RbTree.Successor
import ServerKit.RbTree.Height
import ServerKit.BTree.Height
import ServerKit.Mempool.Init
import ServerKit.Mempool.Peak
import ServerKit.Mempool.DoubleFree
import ServerKit.Reactor.Refused
import ServerKit.Lib.SplitPair
import ServerKit.Reactor.Readline
import ServerKit.Lib.Base64
import ServerKit.Reactor.AcceptKey
import ServerKit.Reactor.Method
import ServerKit.Reactor.RequestBounds
import ServerKit.Reactor.Stale
import ServerKit.Reactor.HandshakeBounds
import ServerKit.Reactor.Unmask
import ServerKit.C1000k.Chain
import ServerKit.Reactor.Malloc
import ServerKit.Lib.Pthreads
import ServerKit.Threads.Exclusion
import ServerKit.Threads.Startup
import ServerKit.Threads.ZeroPool
import ServerKit.Threads.AllDone
import ServerKit.Epoll2.ReadLoop
import ServerKit.BTree.BinSearch
import ServerKit.RbTree.Unrotate
import ServerKit.RbTree.Counted
import ServerKit.RbTree.Rotations
import ServerKit.BTree.SplitMerge
import ServerKit.BTree.Slots
import ServerKit.BTree.Allocated
import ServerKit.Threads.Handover
import ServerKit.Threads.Lifecycle
import ServerKit.Threads.Stop
import ServerKit.Io.Exits
import ServerKit.Io.Select
import ServerKit.Io.Replies
import ServerKit.RbTree.Amortized
import ServerKit.Threads.Starved
import ServerKit.C1000k.Unclosed
