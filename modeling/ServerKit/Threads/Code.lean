import Mathlib.Data.Int.Notation
import Mathlib.Logic.Function.Basic
import ServerKit.Lib.Loops

/-! The thread pool of `threadpool/src3/pthreadpool2.cpp`: its record, and what each stretch of code
between two points where the locks change hands does to it. -/
namespace ServerKit.Threads
open Function ServerKit.Lib

/-- The address of a function or of its argument. -/
abbrev Addr := ℕ

/-- The number of a thread; `0` stands for no thread. -/
abbrev ThreadId := ℕ

structure Task where
  function : Addr
  arg : Addr
  deriving DecidableEq, Repr

/-- The cells of `taskQ` are the tasks from its base address on. `threadIDs` has `maxNum` entries. -/
structure ThreadPool where
  taskQ : ℤ → Task
  queueCapacity : ℤ
  queueSize : ℤ
  queueFront : ℤ
  queueRear : ℤ
  threadIDs : List ThreadId
  minNum : ℤ
  maxNum : ℤ
  busyNum : ℤ
  liveNum : ℤ
  exitNum : ℤ
  shutdown : Bool

def NUMBER : ℕ := 2

/-- The first `min` threads get the numbers from `1` on; `taskQ` is what `malloc` returns. -/
def threadPoolCreate (taskQ : ℤ → Task) (min max queueSize : ℤ) : ThreadPool where
  taskQ := taskQ
  queueCapacity := queueSize
  queueSize := 0
  queueFront := 0
  queueRear := 0
  threadIDs := forUp 0 min.toNat (fun i ids => ids.set i (i+1)) (List.replicate max.toNat 0)
  minNum := min
  maxNum := max
  busyNum := 0
  liveNum := min
  exitNum := 0
  shutdown := false

/-- How the code of a producer leaves the lock: it waits for `notFull`, or it returns because the pool
is shut down, or it has added its task and signals `notEmpty`. -/
inductive AddEnd
  | wait
  | closed
  | added (pool : ThreadPool)

/-- From the test of the loop on, which is where a producer is after it has got the lock. -/
def threadPoolAdd (pool : ThreadPool) (task : Task) : AddEnd :=
  if pool.queueSize = pool.queueCapacity ∧ ¬ pool.shutdown then .wait
  else if pool.shutdown then .closed
  else .added { pool with
    taskQ := update pool.taskQ pool.queueRear task
    queueRear := (pool.queueRear+1).tmod pool.queueCapacity
    queueSize := pool.queueSize+1 }

/-- How the code of a worker leaves the lock: it waits for `notEmpty`, or it is in `threadExit`, or it
has taken a task and signals `notFull`. -/
inductive WorkerEnd
  | wait (pool : ThreadPool)
  | exit (pool : ThreadPool)
  | take (pool : ThreadPool) (task : Task)

/-- From the test of the inner loop on. -/
def workerTest (pool : ThreadPool) : WorkerEnd :=
  if pool.queueSize = 0 ∧ ¬ pool.shutdown then .wait pool
  else if pool.shutdown then .exit pool
  else .take { pool with
    queueFront := (pool.queueFront+1).tmod pool.queueCapacity
    queueSize := pool.queueSize-1 } (pool.taskQ pool.queueFront)

/-- From the return of `pthread_cond_wait` on. -/
def workerWoken (pool : ThreadPool) : WorkerEnd :=
  if pool.exitNum > 0 then
    let pool := { pool with exitNum := pool.exitNum-1 }
    if pool.liveNum > pool.minNum then .exit { pool with liveNum := pool.liveNum-1 }
    else workerTest pool
  else workerTest pool

/-- The loop of `threadExit`, which clears the entry of the thread `tid`. -/
def clearSlot (tid : ThreadId) : List ThreadId → List ThreadId
  | [] => []
  | id :: ids => if id = tid then 0 :: ids else id :: clearSlot tid ids

def threadExit (pool : ThreadPool) (tid : ThreadId) : ThreadPool :=
  { pool with threadIDs := clearSlot tid pool.threadIDs }

/-- The loop of `manager` that starts threads, over the entries that it has not passed yet: the new
thread gets the number `tid`. It returns the entries, `liveNum` and `counter`. -/
def startThreads (maxNum : ℤ) (tid : ThreadId) (counter : ℕ) (liveNum : ℤ) :
    List ThreadId → List ThreadId × ℤ × ℕ
  | [] => ([],liveNum,counter)
  | id :: ids =>
    if counter < NUMBER ∧ liveNum < maxNum then
      if id = 0 then
        let r := startThreads maxNum (tid+1) (counter+1) (liveNum+1) ids
        (tid :: r.1,r.2)
      else
        let r := startThreads maxNum tid counter liveNum ids
        (id :: r.1,r.2)
    else (id :: ids,liveNum,counter)

/-- The part of `manager` that adds threads; it also returns how many. -/
def managerGrow (pool : ThreadPool) (tid : ThreadId) (queueSize liveNum : ℤ) : ThreadPool × ℕ :=
  if queueSize > liveNum ∧ liveNum < pool.maxNum then
    let r := startThreads pool.maxNum tid 0 pool.liveNum pool.threadIDs
    ({ pool with threadIDs := r.1, liveNum := r.2.1 },r.2.2)
  else (pool,0)

section Ends
variable (pool : ThreadPool)

theorem threadPoolAdd_cases (task : Task) :
    (pool.queueSize = pool.queueCapacity ∧ pool.shutdown = false ∧ threadPoolAdd pool task = .wait) ∨
      (pool.shutdown = true ∧ threadPoolAdd pool task = .closed) ∨
      (pool.queueSize ≠ pool.queueCapacity ∧ pool.shutdown = false ∧
        threadPoolAdd pool task = .added { pool with
          taskQ := update pool.taskQ pool.queueRear task
          queueRear := (pool.queueRear+1).tmod pool.queueCapacity
          queueSize := pool.queueSize+1 }) := by
  rw [threadPoolAdd]
  cases hs : pool.shutdown with
  | true => simp
  | false => by_cases hfull : pool.queueSize = pool.queueCapacity <;> simp [hfull]

theorem workerTest_cases :
    (pool.queueSize = 0 ∧ pool.shutdown = false ∧ workerTest pool = .wait pool) ∨
      (pool.shutdown = true ∧ workerTest pool = .exit pool) ∨
      (pool.queueSize ≠ 0 ∧ pool.shutdown = false ∧
        workerTest pool = .take { pool with
          queueFront := (pool.queueFront+1).tmod pool.queueCapacity
          queueSize := pool.queueSize-1 } (pool.taskQ pool.queueFront)) := by
  rw [workerTest]
  cases hs : pool.shutdown with
  | true => simp
  | false => by_cases hempty : pool.queueSize = 0 <;> simp [hempty]

/-- A woken worker exits, or it is back at the test with a new value of `exitNum` at most. -/
theorem workerWoken_cases :
    (pool.exitNum > 0 ∧ pool.liveNum > pool.minNum ∧
        workerWoken pool = .exit { pool with
          exitNum := pool.exitNum-1, liveNum := pool.liveNum-1 }) ∨
      ¬ (pool.exitNum > 0 ∧ pool.liveNum > pool.minNum) ∧
        ∃ e, workerWoken pool = workerTest { pool with exitNum := e } := by
  rw [workerWoken]
  by_cases hexit : pool.exitNum > 0
  · by_cases hlive : pool.liveNum > pool.minNum
    · exact .inl ⟨hexit,hlive,by simp [hexit,hlive]⟩
    · exact .inr ⟨fun h => hlive h.2,pool.exitNum-1,by simp [hexit,hlive]⟩
  · exact .inr ⟨fun h => hexit h.1,pool.exitNum,by simp [hexit]⟩

end Ends

end ServerKit.Threads
