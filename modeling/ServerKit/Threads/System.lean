import ServerKit.Threads.Code
import ServerKit.Lib.Monitor
import ServerKit.Lib.Transition

/-! All threads of a pool together. A stretch of code under `mutexPool`, up to its release or to a
`pthread_cond_wait`, is one step. -/
namespace ServerKit.Threads
open ServerKit.Lib

/-- Where a worker is. -/
inductive WorkerPc
  /-- before the lock at the head of its loop -/
  | ready
  /-- in `pthread_cond_wait` -/
  | blocked
  /-- woken up in `pthread_cond_wait`, before it gets the lock -/
  | woken
  /-- with a task, before `busyNum++` -/
  | taken (task : Task)
  /-- in its task, before `busyNum--` -/
  | running (task : Task)
  /-- in `threadExit`, before it clears its entry -/
  | exiting
  | exited
  deriving DecidableEq, Repr

/-- Where a thread is that adds tasks. -/
inductive ProducerPc
  /-- outside `threadPoolAdd` -/
  | idle
  /-- before it gets the lock, for the first time or again -/
  | ready (task : Task)
  /-- in `pthread_cond_wait` -/
  | blocked (task : Task)
  deriving DecidableEq, Repr

/-- Where the manager is, with the values of its local variables. -/
inductive ManagerPc
  | test
  | sleeping
  /-- before it reads `busyNum` -/
  | counted (queueSize liveNum : ℤ)
  /-- before it adds threads -/
  | sampled (queueSize liveNum busyNum : ℤ)
  /-- before it sets `exitNum` -/
  | grown (liveNum busyNum : ℤ)
  | signalling (i : ℕ)
  | done
  deriving DecidableEq, Repr

/-- Where `threadPoolDestroy` is. -/
inductive DestroyPc
  /-- not called yet -/
  | idle
  | joining
  | signalling (i : ℤ)
  /-- the pool is freed -/
  | freed
  deriving DecidableEq, Repr

def WorkerPc.wake : WorkerPc → Option WorkerPc
  | .blocked => some .woken
  | _ => none

def ProducerPc.wake : ProducerPc → Option ProducerPc
  | .blocked task => some (.ready task)
  | _ => none

/-- The worker at the place `w` of its list is the thread `w + 1`. The last two fields are the tasks
that `threadPoolAdd` has accepted and those that workers have taken, in order. -/
structure State where
  pool : ThreadPool
  workers : List WorkerPc
  producers : List ProducerPc
  manager : ManagerPc
  destroyer : DestroyPc
  accepted : List Task
  taken : List Task

/-- After the return of `threadPoolCreate`, with `n` threads that may add tasks. -/
def start (taskQ : ℤ → Task) (min max queueSize : ℤ) (n : ℕ) : State where
  pool := threadPoolCreate taskQ min max queueSize
  workers := List.replicate min.toNat .ready
  producers := List.replicate n .idle
  manager := .test
  destroyer := .idle
  accepted := []
  taken := []

/-- Who does what. -/
inductive Action
  | lock (w : ℕ)
  | relock (w : ℕ)
  | spuriousWorker (w : ℕ)
  | busy (w : ℕ)
  | unbusy (w : ℕ)
  | threadExit (w : ℕ)
  | call (p : ℕ) (task : Task)
  | add (p : ℕ)
  | spuriousProducer (p : ℕ)
  | managerTest
  | managerCount
  | managerBusy
  | managerGrow
  | managerShrink
  | managerSignal
  | managerLoop
  | shutdown
  | join
  | destroySignal
  | free
  deriving DecidableEq, Repr

/-- A worker leaves the lock. -/
inductive WorkerLeaves (s : State) (w : ℕ) : WorkerEnd → State → Prop
  | wait {pool} : WorkerLeaves s w (.wait pool)
      { s with pool := pool, workers := s.workers.set w .blocked }
  | exit {pool} : WorkerLeaves s w (.exit pool)
      { s with pool := pool, workers := s.workers.set w .exiting }
  | take {pool task producers} (signal : Signal ProducerPc.wake s.producers producers) :
      WorkerLeaves s w (.take pool task)
        { s with
          pool := pool, workers := s.workers.set w (.taken task), producers := producers
          taken := s.taken ++ [task] }

/-- A producer leaves the lock. -/
inductive ProducerLeaves (s : State) (p : ℕ) (task : Task) : AddEnd → State → Prop
  | wait : ProducerLeaves s p task .wait { s with producers := s.producers.set p (.blocked task) }
  | closed : ProducerLeaves s p task .closed { s with producers := s.producers.set p .idle }
  | added {pool workers} (signal : Signal WorkerPc.wake s.workers workers) :
      ProducerLeaves s p task (.added pool)
        { s with
          pool := pool, workers := workers, producers := s.producers.set p .idle
          accepted := s.accepted ++ [task] }

inductive WorkerStep (s : State) : Action → State → Prop
  | lock {w s'} (hw : s.workers[w]? = some .ready) (leaves : WorkerLeaves s w (workerTest s.pool) s') :
      WorkerStep s (.lock w) s'
  | relock {w s'} (hw : s.workers[w]? = some .woken)
      (leaves : WorkerLeaves s w (workerWoken s.pool) s') : WorkerStep s (.relock w) s'
  | spurious {w} (hw : s.workers[w]? = some .blocked) :
      WorkerStep s (.spuriousWorker w) { s with workers := s.workers.set w .woken }
  | busy {w task} (hw : s.workers[w]? = some (.taken task)) :
      WorkerStep s (.busy w)
        { s with
          pool := { s.pool with busyNum := s.pool.busyNum+1 }
          workers := s.workers.set w (.running task) }
  | unbusy {w task} (hw : s.workers[w]? = some (.running task)) :
      WorkerStep s (.unbusy w)
        { s with
          pool := { s.pool with busyNum := s.pool.busyNum-1 }
          workers := s.workers.set w .ready }
  | threadExit {w} (hw : s.workers[w]? = some .exiting) :
      WorkerStep s (.threadExit w)
        { s with pool := threadExit s.pool (w+1), workers := s.workers.set w .exited }

inductive ProducerStep (s : State) : Action → State → Prop
  | call {p task} (hp : s.producers[p]? = some .idle) :
      ProducerStep s (.call p task) { s with producers := s.producers.set p (.ready task) }
  | add {p task s'} (hp : s.producers[p]? = some (.ready task))
      (leaves : ProducerLeaves s p task (threadPoolAdd s.pool task) s') : ProducerStep s (.add p) s'
  | spurious {p task} (hp : s.producers[p]? = some (.blocked task)) :
      ProducerStep s (.spuriousProducer p) { s with producers := s.producers.set p (.ready task) }

/-- The state after the manager has added threads. -/
def State.grow (s : State) (queueSize liveNum : ℤ) : State :=
  let r := managerGrow s.pool (s.workers.length+1) queueSize liveNum
  { s with pool := r.1, workers := s.workers ++ List.replicate r.2 .ready }

inductive ManagerStep (s : State) : Action → State → Prop
  | test (hm : s.manager = .test) :
      ManagerStep s .managerTest { s with manager := if s.pool.shutdown then .done else .sleeping }
  | count (hm : s.manager = .sleeping) :
      ManagerStep s .managerCount
        { s with manager := .counted s.pool.queueSize s.pool.liveNum }
  | busy {queueSize liveNum} (hm : s.manager = .counted queueSize liveNum) :
      ManagerStep s .managerBusy
        { s with manager := .sampled queueSize liveNum s.pool.busyNum }
  | grow {queueSize liveNum busyNum} (hm : s.manager = .sampled queueSize liveNum busyNum) :
      ManagerStep s .managerGrow
        { s.grow queueSize liveNum with manager := .grown liveNum busyNum }
  | shrink {liveNum busyNum} (hm : s.manager = .grown liveNum busyNum)
      (h : busyNum*2 < liveNum ∧ liveNum > s.pool.minNum) :
      ManagerStep s .managerShrink
        { s with pool := { s.pool with exitNum := NUMBER }, manager := .signalling 0 }
  | keep {liveNum busyNum} (hm : s.manager = .grown liveNum busyNum)
      (h : ¬ (busyNum*2 < liveNum ∧ liveNum > s.pool.minNum)) :
      ManagerStep s .managerShrink { s with manager := .test }
  | signal {i workers} (hm : s.manager = .signalling i) (hi : i < NUMBER)
      (signal : Signal WorkerPc.wake s.workers workers) :
      ManagerStep s .managerSignal { s with workers := workers, manager := .signalling (i+1) }
  | loop {i} (hm : s.manager = .signalling i) (hi : ¬ i < NUMBER) :
      ManagerStep s .managerLoop { s with manager := .test }

/-- The steps of `threadPoolDestroy`, which takes no lock. -/
inductive DestroyStep (s : State) : Action → State → Prop
  | shutdown (hd : s.destroyer = .idle) :
      DestroyStep s .shutdown
        { s with pool := { s.pool with shutdown := true }, destroyer := .joining }
  | join (hd : s.destroyer = .joining) (hm : s.manager = .done) :
      DestroyStep s .join { s with destroyer := .signalling 0 }
  | signal {i workers} (hd : s.destroyer = .signalling i) (hi : i < s.pool.liveNum)
      (signal : Signal WorkerPc.wake s.workers workers) :
      DestroyStep s .destroySignal { s with workers := workers, destroyer := .signalling (i+1) }
  | free {i} (hd : s.destroyer = .signalling i) (hi : ¬ i < s.pool.liveNum) :
      DestroyStep s .free { s with destroyer := .freed }

/-- One step of one of the threads. Nothing is said about a pool that has been freed. -/
inductive Step (s : State) (a : Action) (s' : State) : Prop
  | worker (hpool : s.destroyer ≠ .freed) (h : WorkerStep s a s')
  | producer (hpool : s.destroyer ≠ .freed) (h : ProducerStep s a s')
  | manager (hpool : s.destroyer ≠ .freed) (h : ManagerStep s a s')
  | destroyer (h : DestroyStep s a s')

end ServerKit.Threads
