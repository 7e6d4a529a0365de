import ServerKit.Threads.System

/-! The pools of `threadpool/src/threadpool.cpp` and `threadpool/src2/pthreadpool.cpp`. Their record and
their workers are those of `threadpool/src3/pthreadpool2.cpp`, with other names in `src2` (`task_now` is
`queueSize`, `alive_thread_num` is `liveNum` and so on). The add functions test only once whether the
queue is full. -/
namespace ServerKit.Threads
open Function ServerKit.Lib

namespace WorkerEnd

def pool : WorkerEnd → ThreadPool
  | wait pool | exit pool | take pool _ => pool

def pc : WorkerEnd → WorkerPc
  | wait _ => .blocked
  | exit _ => .exiting
  | take _ task => .taken task

def task? : WorkerEnd → Option Task
  | wait _ | exit _ => none
  | take _ task => some task

end WorkerEnd

/-- What the worker `tid` of any of the pools does in one step: the pool and its place afterwards, and
the task that it has taken. -/
inductive WorkerMove (pool : ThreadPool) (tid : ThreadId) :
    WorkerPc → ThreadPool → WorkerPc → Option Task → Prop
  | lock : WorkerMove pool tid .ready
      (workerTest pool).pool (workerTest pool).pc (workerTest pool).task?
  | relock : WorkerMove pool tid .woken
      (workerWoken pool).pool (workerWoken pool).pc (workerWoken pool).task?
  | spurious : WorkerMove pool tid .blocked pool .woken none
  | busy {task} : WorkerMove pool tid (.taken task)
      { pool with busyNum := pool.busyNum+1 } (.running task) none
  | unbusy {task} : WorkerMove pool tid (.running task)
      { pool with busyNum := pool.busyNum-1 } .ready none
  | threadExit : WorkerMove pool tid .exiting (threadExit pool tid) .exited none

namespace Earlier

/-- The two programs. -/
inductive Version
  | src
  | src2
  deriving DecidableEq, Repr

/-- An add function after its `pthread_cond_wait`, or when the queue was not full. -/
def addTask (pool : ThreadPool) (task : Task) : AddEnd :=
  if pool.shutdown then .closed
  else .added { pool with
    taskQ := update pool.taskQ pool.queueRear task
    queueRear := (pool.queueRear+1).tmod pool.queueCapacity
    queueSize := pool.queueSize+1 }

/-- An add function from its first lock on. -/
def addOnce (pool : ThreadPool) (task : Task) : AddEnd :=
  if pool.queueSize = pool.queueCapacity ∧ ¬ pool.shutdown then .wait else addTask pool task

def threadpoolAdd (pool : ThreadPool) (task : Task) : AddEnd := addOnce pool task
def threadpoolAddWoken (pool : ThreadPool) (task : Task) : AddEnd := addTask pool task
def taskAdd (pool : ThreadPool) (task : Task) : AddEnd := addOnce pool task
def taskAddWoken (pool : ThreadPool) (task : Task) : AddEnd := addTask pool task

def Version.add : Version → ThreadPool → Task → AddEnd
  | .src => threadpoolAdd
  | .src2 => taskAdd

def Version.addWoken : Version → ThreadPool → Task → AddEnd
  | .src => threadpoolAddWoken
  | .src2 => taskAddWoken

/-- The loop of `manager` in `src` that starts threads. It does not look at `liveNum` again but only
at the value `threadAlive` from before. -/
def startThreadsStale (maxNum threadAlive : ℤ) (tid : ThreadId) (count : ℕ) (liveNum : ℤ) :
    List ThreadId → List ThreadId × ℤ × ℕ
  | [] => ([],liveNum,count)
  | id :: ids =>
    if count < NUMBER ∧ threadAlive < maxNum then
      if id = 0 then
        let r := startThreadsStale maxNum threadAlive (tid+1) (count+1) (liveNum+1) ids
        (tid :: r.1,r.2)
      else
        let r := startThreadsStale maxNum threadAlive tid count liveNum ids
        (id :: r.1,r.2)
    else (id :: ids,liveNum,count)

def managerGrowStale (pool : ThreadPool) (tid : ThreadId) (queueSize threadAlive : ℤ) :
    ThreadPool × ℕ :=
  if queueSize > threadAlive ∧ threadAlive < pool.maxNum then
    let r := startThreadsStale pool.maxNum threadAlive tid 0 pool.liveNum pool.threadIDs
    ({ pool with threadIDs := r.1, liveNum := r.2.1 },r.2.2)
  else (pool,0)

/-- In `src2` the loop looks at the present number of threads, as in `pthreadpool2.cpp`. -/
def Version.grow : Version → ThreadPool → ThreadId → ℤ → ℤ → ThreadPool × ℕ
  | .src => managerGrowStale
  | .src2 => managerGrow

/-- Where a thread is that adds tasks. -/
inductive ProducerPc
  /-- outside the add function -/
  | idle
  /-- before it gets the lock for the first time -/
  | ready (task : Task)
  /-- in `pthread_cond_wait` -/
  | blocked (task : Task)
  /-- woken up in `pthread_cond_wait`, before it gets the lock again -/
  | woken (task : Task)
  deriving DecidableEq, Repr

def ProducerPc.wake : ProducerPc → Option ProducerPc
  | .blocked task => some (.woken task)
  | _ => none

/-- Where the manager is, with the values of its local variables. -/
inductive ManagerPc
  | test
  | sleeping
  /-- before it adds threads -/
  | sampled (queueSize liveNum busyNum : ℤ)
  | grown (liveNum busyNum : ℤ)
  /-- in `src`, with the `busyNum` it has read without a lock -/
  | compareLive (busyNum : ℤ)
  | compareMin
  /-- before it sets `exitNum` -/
  | shrink
  | signalling (i : ℕ)
  | done
  deriving DecidableEq, Repr

structure State where
  pool : ThreadPool
  workers : List WorkerPc
  producers : List ProducerPc
  manager : ManagerPc
  destroyer : DestroyPc
  accepted : List Task
  taken : List Task

/-- After the return of the create function, with `n` threads that may add tasks. -/
def start (taskQ : ℤ → Task) (min max queueSize : ℤ) (n : ℕ) : State where
  pool := threadPoolCreate taskQ min max queueSize
  workers := List.replicate min.toNat .ready
  producers := List.replicate n .idle
  manager := .test
  destroyer := .idle
  accepted := []
  taken := []

/-- Who does what. -/
inductive Action
  | worker (w : ℕ)
  | call (p : ℕ) (task : Task)
  | add (p : ℕ)
  | readd (p : ℕ)
  | spuriousProducer (p : ℕ)
  | manager
  | destroyer
  deriving DecidableEq, Repr

inductive WorkerStep (s : State) : Action → State → Prop
  | quiet {w pc pool pc'} (hw : s.workers[w]? = some pc)
      (move : WorkerMove s.pool (w+1) pc pool pc' none) :
      WorkerStep s (.worker w) { s with pool := pool, workers := s.workers.set w pc' }
  | take {w pc pool pc' task producers} (hw : s.workers[w]? = some pc)
      (move : WorkerMove s.pool (w+1) pc pool pc' (some task))
      (signal : Signal ProducerPc.wake s.producers producers) :
      WorkerStep s (.worker w)
        { s with
          pool := pool, workers := s.workers.set w pc', producers := producers
          taken := s.taken ++ [task] }

/-- A producer leaves the lock. -/
inductive ProducerLeaves (s : State) (p : ℕ) (task : Task) : AddEnd → State → Prop
  | wait : ProducerLeaves s p task .wait { s with producers := s.producers.set p (.blocked task) }
  | closed : ProducerLeaves s p task .closed { s with producers := s.producers.set p .idle }
  | added {pool workers} (signal : Signal WorkerPc.wake s.workers workers) :
      ProducerLeaves s p task (.added pool)
        { s with
          pool := pool, workers := workers, producers := s.producers.set p .idle
          accepted := s.accepted ++ [task] }

inductive ProducerStep (v : Version) (s : State) : Action → State → Prop
  | call {p task} (hp : s.producers[p]? = some .idle) :
      ProducerStep v s (.call p task) { s with producers := s.producers.set p (.ready task) }
  | add {p task s'} (hp : s.producers[p]? = some (.ready task))
      (leaves : ProducerLeaves s p task (v.add s.pool task) s') : ProducerStep v s (.add p) s'
  | readd {p task s'} (hp : s.producers[p]? = some (.woken task))
      (leaves : ProducerLeaves s p task (v.addWoken s.pool task) s') : ProducerStep v s (.readd p) s'
  | spurious {p task} (hp : s.producers[p]? = some (.blocked task)) :
      ProducerStep v s (.spuriousProducer p) { s with producers := s.producers.set p (.woken task) }

/-- The state after the manager has added threads. -/
def State.grow (v : Version) (s : State) (queueSize liveNum : ℤ) : State :=
  let r := v.grow s.pool (s.workers.length+1) queueSize liveNum
  { s with pool := r.1, workers := s.workers ++ List.replicate r.2 .ready }

/-- The steps of `manager`. To decide whether threads should exit, `src` reads the pool three times
without a lock, and `src2` takes the values from before. -/
inductive ManagerStep (s : State) : Version → State → Prop
  | test {v} (hm : s.manager = .test) :
      ManagerStep s v { s with manager := if s.pool.shutdown then .done else .sleeping }
  | sample {v} (hm : s.manager = .sleeping) :
      ManagerStep s v
        { s with manager := .sampled s.pool.queueSize s.pool.liveNum s.pool.busyNum }
  | grow {v queueSize liveNum busyNum} (hm : s.manager = .sampled queueSize liveNum busyNum) :
      ManagerStep s v { s.grow v queueSize liveNum with manager := .grown liveNum busyNum }
  | readBusy {liveNum busyNum} (hm : s.manager = .grown liveNum busyNum) :
      ManagerStep s .src { s with manager := .compareLive s.pool.busyNum }
  | readLive {busyNum} (hm : s.manager = .compareLive busyNum) :
      ManagerStep s .src
        { s with manager := if busyNum*2 < s.pool.liveNum then .compareMin else .test }
  | readMin (hm : s.manager = .compareMin) :
      ManagerStep s .src
        { s with manager := if s.pool.liveNum > s.pool.minNum then .shrink else .test }
  | shrinkSrc (hm : s.manager = .shrink) :
      ManagerStep s .src
        { s with pool := { s.pool with exitNum := NUMBER }, manager := .signalling 0 }
  | shrink {liveNum busyNum} (hm : s.manager = .grown liveNum busyNum)
      (h : busyNum*2 < liveNum ∧ liveNum > s.pool.minNum) :
      ManagerStep s .src2
        { s with pool := { s.pool with exitNum := NUMBER }, manager := .signalling 0 }
  | keep {liveNum busyNum} (hm : s.manager = .grown liveNum busyNum)
      (h : ¬ (busyNum*2 < liveNum ∧ liveNum > s.pool.minNum)) :
      ManagerStep s .src2 { s with manager := .test }
  | signal {v i workers} (hm : s.manager = .signalling i) (hi : i < NUMBER)
      (signal : Signal WorkerPc.wake s.workers workers) :
      ManagerStep s v { s with workers := workers, manager := .signalling (i+1) }
  | loop {v i} (hm : s.manager = .signalling i) (hi : ¬ i < NUMBER) :
      ManagerStep s v { s with manager := .test }

/-- The steps of the destroy functions, which take no lock. -/
inductive DestroyStep (s : State) : State → Prop
  | shutdown (hd : s.destroyer = .idle) :
      DestroyStep s { s with pool := { s.pool with shutdown := true }, destroyer := .joining }
  | join (hd : s.destroyer = .joining) (hm : s.manager = .done) :
      DestroyStep s { s with destroyer := .signalling 0 }
  | signal {i workers} (hd : s.destroyer = .signalling i) (hi : i < s.pool.liveNum)
      (signal : Signal WorkerPc.wake s.workers workers) :
      DestroyStep s { s with workers := workers, destroyer := .signalling (i+1) }
  | free {i} (hd : s.destroyer = .signalling i) (hi : ¬ i < s.pool.liveNum) :
      DestroyStep s { s with destroyer := .freed }

/-- One step of one of the threads. Nothing is said about a pool that has been freed. -/
inductive Step (v : Version) (s : State) : Action → State → Prop
  | worker {a s'} (hpool : s.destroyer ≠ .freed) (h : WorkerStep s a s') : Step v s a s'
  | producer {a s'} (hpool : s.destroyer ≠ .freed) (h : ProducerStep v s a s') : Step v s a s'
  | manager {s'} (hpool : s.destroyer ≠ .freed) (h : ManagerStep s v s') : Step v s .manager s'
  | destroyer {s'} (h : DestroyStep s s') : Step v s .destroyer s'

end Earlier
end ServerKit.Threads
