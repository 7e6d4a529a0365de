import ServerKit.Lib.Pthreads

/-! The pool of `zero_threadpool/threadpool.cpp`, one statement at a time. A wait with a condition is the loop
that the standard library makes of it. -/
namespace ServerKit.Threads.ZeroPool
open Function ServerKit.Lib ServerKit.Lib.Pthreads

/-- A task has the number of its submission. -/
structure Task where
  serial : ℕ
  expireTime : ℤ
  deriving DecidableEq, Repr

/-- The members of the pool that the threads share. In `submitted` is how many tasks have been pushed, and in
`finished` are the tasks whose execution is over. -/
structure Memory where
  tasks : List Task
  bTerminate : Bool
  atomic : ℤ
  submitted : ℕ
  finished : List ℕ
  deriving Repr

abbrev Prog (α : Type) := Logged Memory Empty α

/-- Where a thread is in `exec`. -/
inductive ExecPc
  | lock
  | push
  | notify
  | unlock
  deriving DecidableEq, Repr

/-- Where it is in `waitForAllDone`, which returns its result when the mutex is unlocked. -/
inductive AllDonePc
  | lock
  | empty
  | test
  | wait
  | testFor
  | waitFor
  | wokenFor
  | lastFor
  | unlock (result : Bool)
  | done (result : Bool)
  deriving DecidableEq, Repr

/-- Where a worker is in `run`, and in its call of `get`, with the task that it has got. -/
inductive RunPc
  | isTerminate
  | lock
  | empty
  | test
  | wait
  | terminate
  | front
  | pop (task : Task)
  | unlockTrue (task : Task)
  | unlockFalse
  | increment (task : Task)
  | expire (task : Task)
  | skip (task : Task)
  | func (task : Task)
  | decrement
  | lockDone
  | testDone
  | notifyDone
  | unlockDone
  deriving DecidableEq, Repr

/-- A call of `waitForAllDone` when `before` tasks have been submitted. -/
structure Call where
  millsecond : ℤ
  before : ℕ
  deriving DecidableEq, Repr

/-- Where a thread is. Outside of the functions it is `idle`, or it has `ended`. -/
inductive Place
  | idle
  | ended
  | exec (expireTime : ℤ) (pc : ExecPc)
  | call (millsecond : ℤ)
  | waitForAllDone (call : Call) (pc : AllDonePc)
  | run (pc : RunPc)
  deriving DecidableEq, Repr

/-- There is one mutex and one condition variable. -/
abbrev PoolInstr := Instr Memory Empty Unit Unit Place

/-- One task is pushed under the lock. -/
def exec (expireTime : ℤ) : ExecPc → PoolInstr
  | .lock => .lock () (.exec expireTime .push)
  | .push => .act do
      Logged.modify fun m =>
        { m with tasks := m.tasks ++ [⟨m.submitted,expireTime⟩], submitted := m.submitted+1 }
      return .exec expireTime .notify
  | .notify => .signal () (.exec expireTime .unlock)
  | .unlock => .unlock () .idle

/-- The predicate of the waits. -/
def isEmpty : Prog Bool := .get fun m => m.tasks.isEmpty

def waitForAllDone (call : Call) : AllDonePc → PoolInstr
  | .lock => .lock () (.waitForAllDone call .empty)
  | .empty => .act do
      if ← isEmpty then return .waitForAllDone call (.unlock true)
      else return .waitForAllDone call (if call.millsecond < 0 then .test else .testFor)
  | .test => .act do
      return .waitForAllDone call (if ← isEmpty then .unlock true else .wait)
  | .wait => .wait () () (.waitForAllDone call .test)
  | .testFor => .act do
      return .waitForAllDone call (if ← isEmpty then .unlock true else .waitFor)
  | .waitFor => .wait () () (.waitForAllDone call .wokenFor)
  -- the time may be over
  | .wokenFor => .choose fun l => l = .waitForAllDone call .testFor ∨ l = .waitForAllDone call .lastFor
  | .lastFor => .act do return .waitForAllDone call (.unlock (← isEmpty))
  | .unlock result => .unlock () (.waitForAllDone call (.done result))
  | .done _ => .choose fun l => l = .idle

/-- The result of `_func` and what it throws are not used. -/
def finish (task : Task) : Prog Unit := .modify fun m => { m with finished := task.serial :: m.finished }

def run : RunPc → PoolInstr
  | .isTerminate => .act do
      if ← Logged.get (·.bTerminate) then return .ended else return .run .lock
  | .lock => .lock () (.run .empty)
  | .empty => .act do return .run (if ← isEmpty then .test else .terminate)
  | .test => .act do
      return .run (if (← Logged.get (·.bTerminate)) || !(← isEmpty) then .terminate else .wait)
  | .wait => .wait () () (.run .test)
  | .terminate => .act do return .run (if ← Logged.get (·.bTerminate) then .unlockFalse else .front)
  | .front => .act do
      match ← Logged.get (·.tasks) with
      | task :: _ => return .run (.pop task)
      | [] => return .run .unlockFalse
  | .pop task => .act do
      Logged.modify fun m => { m with tasks := m.tasks.tail }
      return .run (.unlockTrue task)
  | .unlockTrue task => .unlock () (.run (.increment task))
  | .unlockFalse => .unlock () (.run .isTerminate)
  | .increment task => .act do
      Logged.modify fun m => { m with atomic := m.atomic+1 }
      return .run (.expire task)
  | .expire task => .choose fun l => ∃ now : ℤ,
      l = .run (if task.expireTime ≠ 0 ∧ task.expireTime < now then .skip task else .func task)
  | .skip task => .act do
      finish task
      return .run .decrement
  | .func task => .act do
      finish task
      return .run .decrement
  | .decrement => .act do
      Logged.modify fun m => { m with atomic := m.atomic-1 }
      return .run .lockDone
  | .lockDone => .lock () (.run .testDone)
  | .testDone => .act do
      let atomic ← Logged.get (·.atomic)
      return .run (if atomic = 0 && (← isEmpty) then .notifyDone else .unlockDone)
  | .notifyDone => .broadcast () (.run .unlockDone)
  | .unlockDone => .unlock () (.run .isTerminate)

/-- A thread outside of the pool submits a task, waits for all of them, or ends. -/
def code (_ : ℕ) : Place → PoolInstr
  | .idle => .choose fun l =>
      (∃ expireTime, l = .exec expireTime .lock) ∨ (∃ millsecond, l = .call millsecond) ∨ l = .ended
  | .ended => .exit
  | .exec expireTime pc => exec expireTime pc
  | .call millsecond => .act do
      return .waitForAllDone ⟨millsecond,← Logged.get (·.submitted)⟩ .lock
  | .waitForAllDone call pc => waitForAllDone call pc
  | .run pc => run pc

/-- The pool when `start` has made its `n` workers, and `m` threads that use it. -/
def started (n m : ℕ) : Config Memory Unit Unit Place where
  mem := ⟨[],false,0,0,[]⟩
  locked := fun _ => false
  threads := List.replicate n ⟨.running (.run .isTerminate),fun _ => false⟩ ++
    List.replicate m ⟨.running .idle,fun _ => false⟩

end ServerKit.Threads.ZeroPool
