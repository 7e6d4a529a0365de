import ServerKit.Lib.Pthreads
import ServerKit.Threads.Code

/-! The functions of `threadpool/src2/pthreadpool.cpp` and `threadpool/src3/pthreadpool.cpp`, one statement at
a time. The two differ in where `threadpool_create` starts the threads, in how `task_add` waits and in when
`manager` adds threads. -/
namespace ServerKit.Threads.Statements
open Function ServerKit.Lib ServerKit.Lib.Pthreads

inductive Version
  | src2
  | src3
  deriving DecidableEq, Repr

def ADDTHREADNUM : ℕ := 2

inductive Mutex
  | pthreadpool
  | pthreadBusy
  deriving DecidableEq, Repr

inductive Cond
  | notFull
  | notEmpty
  deriving DecidableEq, Repr

/-- The cells of `task` and of `workerThread` are what lies from their base addresses on. -/
structure Threadpool where
  task : ℤ → Task
  taskCapicity : ℤ
  taskNow : ℤ
  queueFront : ℤ
  queueBack : ℤ
  maxThreadNum : ℤ
  minThreadNum : ℤ
  busyThreadNum : ℤ
  aliveThreadNum : ℤ
  destroyThreadNum : ℤ
  shutdown : Bool
  managerThread : ThreadId
  workerThread : ℤ → ThreadId

/-- What a worker and the manager rely on `threadpool_create` for. -/
inductive Item
  | task
  | taskCapicity
  | taskNow
  | queueFront
  | mutex
  | cond (c : Cond)
  deriving DecidableEq, Repr

/-- The pool, and what of it has been initialised. -/
structure Memory where
  pool : Threadpool
  ready : Item → Bool

/-- A statement that says which of the items it reads. -/
abbrev Prog (α : Type) := Logged Memory Item α

namespace Prog

def look {α : Type} (f : Threadpool → α) : Prog α := .get fun m => f m.pool

def read {α : Type} (item : Item) (f : Threadpool → α) : Prog α :=
  Logged.read (fun m => f m.pool) fun _ => item

def write (f : Threadpool → Threadpool) : Prog Unit := .modify fun m => { m with pool := f m.pool }

def initialise (item : Item) : Prog Unit := .modify fun m => { m with ready := update m.ready item true }

def taskNow : Prog ℤ := read .taskNow (·.taskNow)
def taskCapicity : Prog ℤ := read .taskCapicity (·.taskCapicity)
def queueFront : Prog ℤ := read .queueFront (·.queueFront)
def task (i : ℤ) : Prog Task := read .task (·.task i)

end Prog

/-- Where a thread is in `task_add`. -/
inductive AddPc
  | lock
  | test
  | wait
  | shutdown
  | close
  | function
  | arg
  | now
  | back
  | signal
  | unlock
  deriving DecidableEq, Repr

/-- Where it is in `alive_thread_num`. -/
inductive AlivePc
  | firstUnlock
  | read
  | secondUnlock (aliveThreadNum : ℤ)
  deriving DecidableEq, Repr

/-- Where it is in `worker`, with the task that it has taken. -/
inductive WorkerPc
  | lock
  | test
  | wait
  | woken
  | destroy
  | compare
  | alive
  | leave
  | shutdown
  | close
  | arg
  | function (arg : Addr)
  | front (task : Task)
  | now (task : Task)
  | signal (task : Task)
  | unlock (task : Task)
  | busyLock (task : Task)
  | busy (task : Task)
  | busyUnlock (task : Task)
  | run (task : Task)
  | freeLock
  | free
  | freeUnlock
  /-- the loop of `thread_exit` -/
  | threadExit (i : ℕ)
  | pthreadExit
  deriving DecidableEq, Repr

/-- The local variables of `manager`. -/
structure Locals where
  busyThreadNum : ℤ
  aliveThreadNum : ℤ
  maxThreadNum : ℤ
  minThreadNum : ℤ
  taskNow : ℤ
  deriving DecidableEq, Repr

inductive ManagerPc
  | test
  | sleep
  | lock
  | busy
  | alive (locals : Locals)
  | max (locals : Locals)
  | min (locals : Locals)
  | now (locals : Locals)
  | unlock (locals : Locals)
  | grow (locals : Locals)
  | growLock (locals : Locals)
  | growTest (locals : Locals) (i : ℕ) (count : ℕ)
  | growSlot (locals : Locals) (i : ℕ) (count : ℕ)
  | growCreate (locals : Locals) (i : ℕ) (count : ℕ)
  | growAlive (locals : Locals) (i : ℕ) (count : ℕ)
  | growUnlock (locals : Locals)
  | shrink (locals : Locals)
  | shrinkLock
  | shrinkSet
  | shrinkUnlock
  | shrinkTest (i : ℕ)
  | shrinkSignal (i : ℕ)
  | done
  deriving DecidableEq, Repr

/-- The statements of `threadpool_create` behind its first allocation, all of which succeed. -/
inductive CreateStmt
  | workerThread
  | maxThreadNum
  | minThreadNum
  | busyThreadNum
  | aliveThreadNum
  | destroyThreadNum
  | shutdown
  | manager
  | workers
  | task
  | taskCapicity
  | taskNow
  | queueBack
  | queueFront
  | mutexPthreadBusy
  | mutexPthreadpool
  | notFull
  | notEmpty
  deriving DecidableEq, Repr

/-- The arguments of `threadpool_create`, and what is in the array of tasks that `malloc` gives. -/
structure CreateArgs where
  min : ℤ
  max : ℤ
  taskNum : ℤ
  task : ℤ → Task

/-- Where a thread is. Outside of the functions it is `idle`, or it has `ended`. -/
inductive Place
  | idle
  | ended
  | add (task : Task) (pc : AddPc)
  | alive (pc : AlivePc)
  | worker (pc : WorkerPc)
  | manager (pc : ManagerPc)
  /-- before the statement `k` of `threadpool_create`, in its loop over the workers with `i` -/
  | create (args : CreateArgs) (k i : ℕ)
  /-- at the call of `pthread_create` in this loop -/
  | createWorker (args : CreateArgs) (k i : ℕ)

abbrev PoolInstr := Instr Memory Item Mutex Cond Place

/-- In `src2` the test before the wait is not repeated. -/
def Version.woken : Version → AddPc
  | .src2 => .shutdown
  | .src3 => .test

def taskAdd (v : Version) (task : Task) : AddPc → PoolInstr
  | .lock => .lock .pthreadpool (.add task .test)
  | .test => .act do
      if (← Prog.taskNow) = (← Prog.taskCapicity) then
        return .add task (if (← Prog.look (·.shutdown)) then .shutdown else .wait)
      else return .add task .shutdown
  | .wait => .wait .notFull .pthreadpool (.add task v.woken)
  | .shutdown => .act do
      return .add task (if (← Prog.look (·.shutdown)) then .close else .function)
  | .close => .unlock .pthreadpool .idle
  | .function => .act do
      Prog.write fun p => { p with
        task := update p.task p.queueBack { p.task p.queueBack with function := task.function } }
      return .add task .arg
  | .arg => .act do
      Prog.write fun p => { p with
        task := update p.task p.queueBack { p.task p.queueBack with arg := task.arg } }
      return .add task .now
  | .now => .act do
      let now ← Prog.taskNow
      Prog.write fun p => { p with taskNow := now+1 }
      return .add task .back
  | .back => .act do
      let capicity ← Prog.taskCapicity
      Prog.write fun p => { p with queueBack := (p.queueBack+1).tmod capicity }
      return .add task .signal
  | .signal => .signal .notEmpty (.add task .unlock)
  | .unlock => .unlock .pthreadpool .idle

/-- The first statement is an unlock. -/
def aliveThreadNum : AlivePc → PoolInstr
  | .firstUnlock => .unlock .pthreadpool (.alive .read)
  | .read => .act do return .alive (.secondUnlock (← Prog.look (·.aliveThreadNum)))
  | .secondUnlock _ => .unlock .pthreadpool .idle

/-- Here `tid` is `pthread_self()`. The functions of tasks do not touch the pool. -/
def worker (tid : ThreadId) : WorkerPc → PoolInstr
  | .lock => .lock .pthreadpool (.worker .test)
  | .test => .act do
      if (← Prog.taskNow) = 0 then
        return .worker (if (← Prog.look (·.shutdown)) then .shutdown else .wait)
      else return .worker .shutdown
  | .wait => .wait .notEmpty .pthreadpool (.worker .woken)
  | .woken => .act do return .worker (if (← Prog.look (·.destroyThreadNum)) > 0 then .destroy else .test)
  | .destroy => .act do
      Prog.write fun p => { p with destroyThreadNum := p.destroyThreadNum-1 }
      return .worker .compare
  | .compare => .act do
      let alive ← Prog.look (·.aliveThreadNum)
      return .worker (if alive > (← Prog.look (·.minThreadNum)) then .alive else .test)
  | .alive => .act do
      Prog.write fun p => { p with aliveThreadNum := p.aliveThreadNum-1 }
      return .worker .leave
  | .leave => .unlock .pthreadpool (.worker (.threadExit 0))
  | .shutdown => .act do return .worker (if (← Prog.look (·.shutdown)) then .close else .arg)
  | .close => .unlock .pthreadpool (.worker (.threadExit 0))
  | .arg => .act do return .worker (.function (← Prog.task (← Prog.queueFront)).arg)
  | .function arg => .act do return .worker (.front ⟨(← Prog.task (← Prog.queueFront)).function,arg⟩)
  | .front task => .act do
      let front ← Prog.queueFront
      let capicity ← Prog.taskCapicity
      Prog.write fun p => { p with queueFront := (front+1).tmod capicity }
      return .worker (.now task)
  | .now task => .act do
      let now ← Prog.taskNow
      Prog.write fun p => { p with taskNow := now-1 }
      return .worker (.signal task)
  | .signal task => .signal .notFull (.worker (.unlock task))
  | .unlock task => .unlock .pthreadpool (.worker (.busyLock task))
  | .busyLock task => .lock .pthreadBusy (.worker (.busy task))
  | .busy task => .act do
      Prog.write fun p => { p with busyThreadNum := p.busyThreadNum+1 }
      return .worker (.busyUnlock task)
  | .busyUnlock task => .unlock .pthreadBusy (.worker (.run task))
  | .run _ => .act do return .worker .freeLock
  | .freeLock => .lock .pthreadBusy (.worker .free)
  | .free => .act do
      Prog.write fun p => { p with busyThreadNum := p.busyThreadNum-1 }
      return .worker .freeUnlock
  | .freeUnlock => .unlock .pthreadBusy (.worker .lock)
  | .threadExit i => .act do
      if i < (← Prog.look (·.maxThreadNum)) then
        if (← Prog.look (·.workerThread i)) = tid then
          Prog.write fun p => { p with workerThread := update p.workerThread i 0 }
          return .worker .pthreadExit
        else return .worker (.threadExit (i+1))
      else return .worker .pthreadExit
  | .pthreadExit => .exit

/-- The test before threads are added. -/
def Version.growsAt : Version → Locals → Bool
  | .src2,l => l.taskNow > l.aliveThreadNum ∧ l.aliveThreadNum < l.maxThreadNum
  | .src3,l => l.taskNow > l.aliveThreadNum-l.busyThreadNum ∧ l.aliveThreadNum < l.maxThreadNum

/-- The thread goes on behind its call of `manager`, or it ends. -/
def manager (v : Version) : ManagerPc → PoolInstr
  | .test => .act do return .manager (if (← Prog.look (·.shutdown)) then .done else .sleep)
  | .sleep => .act do return .manager .lock
  | .lock => .lock .pthreadpool (.manager .busy)
  | .busy => .act do return .manager (.alive ⟨← Prog.look (·.busyThreadNum),0,0,0,0⟩)
  | .alive l => .act do
      return .manager (.max { l with aliveThreadNum := ← Prog.look (·.aliveThreadNum) })
  | .max l => .act do return .manager (.min { l with maxThreadNum := ← Prog.look (·.maxThreadNum) })
  | .min l => .act do return .manager (.now { l with minThreadNum := ← Prog.look (·.minThreadNum) })
  | .now l => .act do return .manager (.unlock { l with taskNow := ← Prog.taskNow })
  | .unlock l => .unlock .pthreadpool (.manager (.grow l))
  | .grow l => .act do return .manager (if v.growsAt l then .growLock l else .shrink l)
  | .growLock l => .lock .pthreadpool (.manager (.growTest l 0 0))
  | .growTest l i count => .act do
      let alive ← Prog.look (·.aliveThreadNum)
      return .manager (if i < l.maxThreadNum ∧ count < ADDTHREADNUM ∧ alive < l.maxThreadNum then
        .growSlot l i count else .growUnlock l)
  | .growSlot l i count => .act do
      let slot ← Prog.look (·.workerThread i)
      return .manager (if slot = 0 then .growCreate l i count else .growTest l (i+1) count)
  | .growCreate l i count => .spawn (.worker .lock) fun n => do
      Prog.write fun p => { p with workerThread := update p.workerThread i (n+1) }
      return .manager (.growAlive l i count)
  | .growAlive l i count => .act do
      Prog.write fun p => { p with aliveThreadNum := p.aliveThreadNum+1 }
      return .manager (.growTest l (i+1) (count+1))
  | .growUnlock l => .unlock .pthreadpool (.manager (.shrink l))
  | .shrink l => .act do
      return .manager (if l.busyThreadNum*2 < l.aliveThreadNum ∧ l.aliveThreadNum > l.minThreadNum then
        .shrinkLock else .test)
  | .shrinkLock => .lock .pthreadpool (.manager .shrinkSet)
  | .shrinkSet => .act do
      Prog.write fun p => { p with destroyThreadNum := ADDTHREADNUM }
      return .manager .shrinkUnlock
  | .shrinkUnlock => .unlock .pthreadpool (.manager (.shrinkTest 0))
  | .shrinkTest i => .act do return .manager (if i < ADDTHREADNUM then .shrinkSignal i else .test)
  | .shrinkSignal i => .signal .notEmpty (.manager (.shrinkTest (i+1)))
  | .done => .choose fun l => l = .idle ∨ l = .ended

/-- The order of the statements. -/
def createStmts : Version → List CreateStmt
  | .src2 => [.workerThread,.maxThreadNum,.minThreadNum,.busyThreadNum,.aliveThreadNum,.destroyThreadNum,
      .shutdown,.manager,.workers,.task,.taskCapicity,.taskNow,.queueBack,.queueFront,.mutexPthreadBusy,
      .mutexPthreadpool,.notFull,.notEmpty]
  | .src3 => [.workerThread,.maxThreadNum,.minThreadNum,.busyThreadNum,.aliveThreadNum,.destroyThreadNum,
      .shutdown,.task,.taskCapicity,.taskNow,.queueBack,.queueFront,.mutexPthreadBusy,.mutexPthreadpool,
      .notFull,.notEmpty,.manager,.workers]

/-- What a statement other than those that start threads does. -/
def assign (args : CreateArgs) : CreateStmt → Prog Unit
  | .workerThread => Prog.write fun p => { p with workerThread := fun _ => 0 }
  | .maxThreadNum => Prog.write fun p => { p with maxThreadNum := args.max }
  | .minThreadNum => Prog.write fun p => { p with minThreadNum := args.min }
  | .busyThreadNum => Prog.write fun p => { p with busyThreadNum := 0 }
  | .aliveThreadNum => Prog.write fun p => { p with aliveThreadNum := args.min }
  | .destroyThreadNum => Prog.write fun p => { p with destroyThreadNum := 0 }
  | .shutdown => Prog.write fun p => { p with shutdown := false }
  | .manager | .workers => pure ()
  | .task => do
      Prog.write fun p => { p with task := args.task }
      Prog.initialise .task
  | .taskCapicity => do
      Prog.write fun p => { p with taskCapicity := args.taskNum }
      Prog.initialise .taskCapicity
  | .taskNow => do
      Prog.write fun p => { p with taskNow := 0 }
      Prog.initialise .taskNow
  | .queueBack => Prog.write fun p => { p with queueBack := 0 }
  | .queueFront => do
      Prog.write fun p => { p with queueFront := 0 }
      Prog.initialise .queueFront
  | .mutexPthreadBusy => pure ()
  | .mutexPthreadpool => Prog.initialise .mutex
  | .notFull => Prog.initialise (.cond .notFull)
  | .notEmpty => Prog.initialise (.cond .notEmpty)

def threadpoolCreate (v : Version) (args : CreateArgs) (k i : ℕ) : PoolInstr :=
  match (createStmts v)[k]? with
  | none => .exit
  | some .manager => .spawn (.manager .test) fun n => do
      Prog.write fun p => { p with managerThread := n+1 }
      return .create args (k+1) 0
  | some .workers => .act do
      if i < (← Prog.look (·.minThreadNum)) then return .createWorker args k i
      else return .create args (k+1) 0
  | some stmt => .act do
      assign args stmt
      return .create args (k+1) 0

def createWorker (args : CreateArgs) (k i : ℕ) : PoolInstr :=
  .spawn (.worker .lock) fun n => do
    Prog.write fun p => { p with workerThread := update p.workerThread i (n+1) }
    return .create args k (i+1)

/-- A thread that is idle calls one of the functions, or it ends. -/
def Called (l : Place) : Prop :=
  (∃ task, l = .add task .lock) ∨ l = .alive .firstUnlock ∨ l = .worker .lock ∨ l = .manager .test ∨
    l = .ended

/-- What the thread number `n`, which has the identifier `n+1`, does at its place. -/
def code (v : Version) (n : ℕ) : Place → PoolInstr
  | .idle => .choose Called
  | .ended => .exit
  | .add task pc => taskAdd v task pc
  | .alive pc => aliveThreadNum pc
  | .worker pc => worker (n+1) pc
  | .manager pc => manager v pc
  | .create args k i => threadpoolCreate v args k i
  | .createWorker args k i => createWorker args k i

end ServerKit.Threads.Statements
