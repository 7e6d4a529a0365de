import ServerKit.Threads.AllDone

/-! A pool of `zero_threadpool/threadpool.cpp` that one thread sets up, starts and stops as often as it likes,
while other threads use it. What the threads do in between is the code of the pool itself. -/
namespace ServerKit.Threads.ZeroPool.Lifecycle
open Function ServerKit.Lib ServerKit.Lib.Pthreads

/-- All the members of the pool. An entry of `threads` is NULL behind the `delete`; in `returned` are the
threads that have come to their end. -/
structure Pool where
  memory : Memory
  threadNum : ℕ
  threads : List (Option ℕ)
  returned : List ℕ

/-- Where the owner is in `init`. -/
inductive InitPc
  | lock
  | empty
  | store
  | unlock (result : Bool)

/-- Where it is in `start`. -/
inductive StartPc
  | lock
  | empty
  | loop (i : ℕ)
  | create (i : ℕ)
  | unlock (result : Bool)

/-- Where it is in `stop`. -/
inductive StopPc
  | lock
  | terminate
  | notify
  | unlock
  | loop (i : ℕ)
  | join (i : ℕ)
  | delete (i : ℕ)
  | lockAgain
  | clear
  | unlockAgain

inductive OwnerPc
  | idle
  | init (num : ℕ) (pc : InitPc)
  | start (pc : StartPc)
  | stop (pc : StopPc)
  /-- a NULL of `threads` was used -/
  | crashed

inductive Place
  | pool (l : ZeroPool.Place)
  | owner (pc : OwnerPc)
  | gone

abbrev LifeInstr := Instr Pool Empty Unit Unit Place

/-- A statement of the pool leaves the other members alone. -/
def within (p : Prog ZeroPool.Place) : Logged Pool Empty Place := fun s =>
  (.pool (p.val s.memory),{ s with memory := p.state s.memory },p.log s.memory)

def inPool : PoolInstr → LifeInstr
  | .act p => .act (within p)
  | .choose next => .choose fun l => ∃ l₀, next l₀ ∧ l = .pool l₀
  | .lock m next => .lock m (.pool next)
  | .unlock m next => .unlock m (.pool next)
  | .wait c m next => .wait c m (.pool next)
  | .signal c next => .signal c (.pool next)
  | .broadcast c next => .broadcast c (.pool next)
  | .spawn start store => .spawn (.pool start) fun n => within (store n)
  | .exit => .exit

def init (num : ℕ) : InitPc → LifeInstr
  | .lock => .lock () (.owner (.init num .empty))
  | .empty => .act do
      let started := !(← Logged.get (·.threads.isEmpty))
      return .owner (.init num (if started then .unlock false else .store))
  | .store => .act do
      Logged.modify fun s => { s with threadNum := num }
      return .owner (.init num (.unlock true))
  | .unlock _ => .unlock () (.owner .idle)

def start : StartPc → LifeInstr
  | .lock => .lock () (.owner (.start .empty))
  | .empty => .act do
      let started := !(← Logged.get (·.threads.isEmpty))
      return .owner (.start (if started then .unlock false else .loop 0))
  | .loop i => .act do
      let threadNum ← Logged.get (·.threadNum)
      return .owner (.start (if i < threadNum then .create i else .unlock true))
  | .create i => .spawn (.pool (.run .isTerminate)) fun n => do
      Logged.modify fun s => { s with threads := s.threads ++ [some n] }
      return .owner (.start (.loop (i+1)))
  | .unlock _ => .unlock () (.owner .idle)

/-- A `join` goes on when the thread has returned. -/
def stop : StopPc → LifeInstr
  | .lock => .lock () (.owner (.stop .terminate))
  | .terminate => .act do
      Logged.modify fun s => { s with memory := { s.memory with bTerminate := true } }
      return .owner (.stop .notify)
  | .notify => .broadcast () (.owner (.stop .unlock))
  | .unlock => .unlock () (.owner (.stop (.loop 0)))
  | .loop i => .act do
      let size ← Logged.get (·.threads.length)
      return .owner (.stop (if i < size then .join i else .lockAgain))
  | .join i => .act do
      match ← Logged.get (·.threads[i]?) with
      | some (some n) =>
        let returned ← Logged.get (·.returned)
        return .owner (.stop (if n ∈ returned then .delete i else .join i))
      | _ => return .owner .crashed
  | .delete i => .act do
      Logged.modify fun s => { s with threads := s.threads.set i none }
      return .owner (.stop (.loop (i+1)))
  | .lockAgain => .lock () (.owner (.stop .clear))
  | .clear => .act do
      Logged.modify fun s => { s with threads := [] }
      return .owner (.stop .unlockAgain)
  | .unlockAgain => .unlock () (.owner .idle)

/-- The owner calls the three functions one after the other, in any order. -/
def owner : OwnerPc → LifeInstr
  | .idle => .choose fun l =>
      (∃ num, l = .owner (.init num .lock)) ∨ l = .owner (.start .lock) ∨ l = .owner (.stop .lock)
  | .init num pc => init num pc
  | .start pc => start pc
  | .stop pc => stop pc
  | .crashed => .choose fun _ => False

/-- A thread that leaves the code of the pool has returned. -/
def code (i : ℕ) : Place → LifeInstr
  | .pool .ended => .act do
      Logged.modify fun s => { s with returned := i :: s.returned }
      return .gone
  | .pool l => inPool (ZeroPool.code i l)
  | .owner pc => owner pc
  | .gone => .exit

theorem code_pool {i : ℕ} {l : ZeroPool.Place} (hl : l ≠ .ended) :
    code i (.pool l) = inPool (ZeroPool.code i l) := by
  cases l with
  | ended => exact absurd rfl hl
  | idle | exec | call | waitForAllDone | run => rfl

/-- A new pool with its owner, and `m` threads that use it. -/
def created (m : ℕ) : Config Pool Unit Unit Place where
  mem := ⟨⟨[],false,0,0,[]⟩,1,[],[]⟩
  locked := fun _ => false
  threads := ⟨.running (.owner .idle),fun _ => false⟩ ::
    List.replicate m ⟨.running (.pool .idle),fun _ => false⟩

def InitPc.owned : InitPc → Bool
  | .lock => false
  | _ => true

def StartPc.owned : StartPc → Bool
  | .lock => false
  | _ => true

def StopPc.owned : StopPc → Bool
  | .terminate | .notify | .unlock | .clear | .unlockAgain => true
  | _ => false

/-- Whether a thread has locked the mutex at a place. -/
def owned : Place → Unit → Bool
  | .pool l,m => ZeroPool.owned l m
  | .owner (.init _ pc),_ => pc.owned
  | .owner (.start pc),_ => pc.owned
  | .owner (.stop pc),_ => pc.owned
  | _,_ => false

section Discipline

theorem inPool_disciplined {instr : PoolInstr} {bad : Prop} {here : Unit → Bool}
    (h : instr.Disciplined ZeroPool.owned bad here) : (inPool instr).Disciplined owned bad here := by
  cases instr with
  | act p => exact fun s => h s.memory
  | choose next =>
    rintro _ ⟨l₀,hl₀,rfl⟩
    exact h l₀ hl₀
  | lock | unlock | wait | signal | broadcast | exit => exact h
  | spawn start store => exact ⟨h.1,fun n s => h.2 n s.memory⟩

theorem init_disciplined (num : ℕ) (pc : InitPc) :
    (init num pc).Disciplined owned False (owned (.owner (.init num pc))) := by
  cases pc with
  | lock => exact (update_eq_const_of_subsingleton () true _).symm
  | empty =>
    intro s
    simp only [Logged.val_bind, Logged.val_pure]
    split <;> rfl
  | store => exact fun _ => rfl
  | unlock => exact fun _ => ⟨rfl,(update_eq_const_of_subsingleton () false _).symm⟩

theorem start_disciplined (pc : StartPc) :
    (start pc).Disciplined owned False (owned (.owner (.start pc))) := by
  cases pc with
  | lock => exact (update_eq_const_of_subsingleton () true _).symm
  | empty | loop =>
    intro s
    simp only [Logged.val_bind, Logged.val_pure]
    split <;> rfl
  | create => exact ⟨rfl,fun _ _ => rfl⟩
  | unlock => exact fun _ => ⟨rfl,(update_eq_const_of_subsingleton () false _).symm⟩

theorem stop_disciplined (pc : StopPc) :
    (stop pc).Disciplined owned False (owned (.owner (.stop pc))) := by
  cases pc with
  | lock | lockAgain => exact (update_eq_const_of_subsingleton () true _).symm
  | terminate | delete | clear => exact fun _ => rfl
  | notify => rfl
  | unlock | unlockAgain => exact fun _ => ⟨rfl,(update_eq_const_of_subsingleton () false _).symm⟩
  | loop =>
    intro s
    simp only [Logged.val_bind, Logged.val_pure]
    split <;> rfl
  | join =>
    intro s
    simp only [Logged.val_bind]
    split
    · simp only [Logged.val_bind, Logged.val_pure]
      split <;> rfl
    · rfl

theorem code_disciplined : Disciplined code owned fun _ => False := by
  intro i l
  cases l with
  | pool l =>
    by_cases hl : l = .ended
    · subst hl
      exact fun _ => rfl
    · rw [code_pool hl]
      exact inPool_disciplined (ZeroPool.code_disciplined i l)
  | owner pc =>
    cases pc with
    | idle => rintro _ (⟨_,rfl⟩ | rfl | rfl) <;> rfl
    | init num pc => exact init_disciplined num pc
    | start pc => exact start_disciplined pc
    | stop pc => exact stop_disciplined pc
    | crashed => nofun
  | gone => rfl

end Discipline
end ServerKit.Threads.ZeroPool.Lifecycle
