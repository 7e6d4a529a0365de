import ServerKit.Threads.Statements

/-! Who holds the locks of the pools in `src2/pthreadpool.cpp` and `src3/pthreadpool.cpp`, in any run of
threads that call any of the functions. -/
namespace ServerKit.Threads.Statements
open Function ServerKit.Lib ServerKit.Lib.Pthreads

def AddPc.owned : AddPc → Bool
  | .lock => false
  | _ => true

def WorkerPc.owned : WorkerPc → Mutex → Bool
  | .test,.pthreadpool | .wait,.pthreadpool | .woken,.pthreadpool | .destroy,.pthreadpool
  | .compare,.pthreadpool | .alive,.pthreadpool | .leave,.pthreadpool | .shutdown,.pthreadpool
  | .close,.pthreadpool | .arg,.pthreadpool | .function _,.pthreadpool | .front _,.pthreadpool
  | .now _,.pthreadpool | .signal _,.pthreadpool | .unlock _,.pthreadpool => true
  | .busy _,.pthreadBusy | .busyUnlock _,.pthreadBusy | .free,.pthreadBusy | .freeUnlock,.pthreadBusy => true
  | _,_ => false

def ManagerPc.owned : ManagerPc → Bool
  | .busy | .alive _ | .max _ | .min _ | .now _ | .unlock _ => true
  | .growTest _ _ _ | .growSlot _ _ _ | .growCreate _ _ _ | .growAlive _ _ _ | .growUnlock _ => true
  | .shrinkSet | .shrinkUnlock => true
  | _ => false

/-- The mutexes that a thread has locked at a place. -/
def owned : Place → Mutex → Bool
  | .add _ pc,.pthreadpool => pc.owned
  | .worker pc,m => pc.owned m
  | .manager pc,.pthreadpool => pc.owned
  | _,_ => false

/-- The statements of `alive_thread_num` that unlock. -/
def InAlive : Place → Prop
  | .alive .firstUnlock | .alive (.secondUnlock _) => True
  | _ => False

section Discipline
variable {v : Version} {bad : Prop}

theorem owned_eq {h h' : Mutex → Bool} (hpool : h .pthreadpool = h' .pthreadpool)
    (hbusy : h .pthreadBusy = h' .pthreadBusy) : h = h' := by
  funext m
  cases m with
  | pthreadpool => exact hpool
  | pthreadBusy => exact hbusy

theorem taskAdd_disciplined (task : Task) (pc : AddPc) :
    (taskAdd v task pc).Disciplined owned bad (owned (.add task pc)) := by
  cases pc with
  | lock => exact owned_eq rfl rfl
  | test =>
    intro s
    simp only [Logged.val_bind, Logged.val_ite, Logged.val_pure]
    split
    · split <;> exact owned_eq rfl rfl
    · exact owned_eq rfl rfl
  | wait => cases v <;> exact ⟨rfl,owned_eq rfl rfl⟩
  | shutdown =>
    intro s
    simp only [Logged.val_bind, Logged.val_pure]
    split <;> exact owned_eq rfl rfl
  | function | arg | now | back => exact fun s => owned_eq rfl rfl
  | signal => exact owned_eq rfl rfl
  | close | unlock => exact fun _ => ⟨rfl,owned_eq rfl rfl⟩

theorem worker_disciplined (tid : ThreadId) (pc : WorkerPc) :
    (worker tid pc).Disciplined owned bad (owned (.worker pc)) := by
  cases pc with
  | lock | busyLock | freeLock => exact owned_eq rfl rfl
  | test =>
    intro s
    simp only [Logged.val_bind, Logged.val_ite, Logged.val_pure]
    split
    · split <;> exact owned_eq rfl rfl
    · exact owned_eq rfl rfl
  | wait => exact ⟨rfl,owned_eq rfl rfl⟩
  | woken | compare | shutdown =>
    intro s
    simp only [Logged.val_bind, Logged.val_pure]
    split <;> exact owned_eq rfl rfl
  | threadExit i =>
    intro s
    simp only [Logged.val_bind, Logged.val_ite, Logged.val_pure]
    split
    · split <;> exact owned_eq rfl rfl
    · exact owned_eq rfl rfl
  | destroy | alive | arg | function | front | now | busy | run | free => exact fun s => owned_eq rfl rfl
  | signal => exact owned_eq rfl rfl
  | leave | close | unlock | busyUnlock | freeUnlock => exact fun _ => ⟨rfl,owned_eq rfl rfl⟩
  | pthreadExit => exact owned_eq rfl rfl

theorem manager_disciplined (pc : ManagerPc) :
    (manager v pc).Disciplined owned bad (owned (.manager pc)) := by
  cases pc with
  | test | grow | growTest | growSlot | shrink | shrinkTest =>
    intro s
    simp only [Logged.val_bind, Logged.val_pure]
    split <;> exact owned_eq rfl rfl
  | sleep | busy | alive | max | min | now | growAlive | shrinkSet => exact fun s => owned_eq rfl rfl
  | lock | growLock | shrinkLock => exact owned_eq rfl rfl
  | unlock | growUnlock | shrinkUnlock => exact fun _ => ⟨rfl,owned_eq rfl rfl⟩
  | growCreate => exact ⟨owned_eq rfl rfl,fun n s => owned_eq rfl rfl⟩
  | shrinkSignal => exact owned_eq rfl rfl
  | done =>
    rintro l (rfl | rfl)
    · exact owned_eq rfl rfl
    · exact owned_eq rfl rfl

/-- Nothing is locked in `threadpool_create`. -/
theorem create_disciplined (args : CreateArgs) (k i : ℕ) :
    (threadpoolCreate v args k i).Disciplined owned bad (owned (.create args k i)) := by
  unfold threadpoolCreate
  split
  · exact owned_eq rfl rfl
  · exact ⟨owned_eq rfl rfl,fun n s => owned_eq rfl rfl⟩
  · intro s
    simp only [Logged.val_bind, Logged.val_ite, Logged.val_pure]
    split <;> exact owned_eq rfl rfl
  · exact fun s => owned_eq rfl rfl

/-- Apart from `alive_thread_num`, every statement keeps to the locks of its place. -/
theorem code_disciplined (v : Version) : Disciplined (code v) owned InAlive := by
  intro n l
  cases l with
  | idle =>
    rintro l (⟨task,rfl⟩ | rfl | rfl | rfl | rfl)
    all_goals exact owned_eq rfl rfl
  | ended => exact owned_eq rfl rfl
  | add task pc => exact taskAdd_disciplined task pc
  | alive pc =>
    cases pc with
    | firstUnlock => exact fun hnot => absurd trivial hnot
    | read => exact fun s => owned_eq rfl rfl
    | secondUnlock => exact fun hnot => absurd trivial hnot
  | worker pc => exact worker_disciplined (n+1) pc
  | manager pc => exact manager_disciplined pc
  | create args k i => exact create_disciplined args k i
  | createWorker => exact ⟨owned_eq rfl rfl,fun n s => owned_eq rfl rfl⟩

end Discipline

/-- Any number of threads that have not called anything yet, with a pool in any state. -/
def atStart (mem : Memory) (n : ℕ) : Config Memory Mutex Cond Place where
  mem := mem
  locked := fun _ => false
  threads := List.replicate n ⟨.running .idle,fun _ => false⟩

theorem owns_atStart (mem : Memory) (n : ℕ) : Owns owned (atStart mem n) where
  fits t ht := by
    rw [List.eq_of_mem_replicate ht]
    exact owned_eq rfl rfl
  single m := List.countP_eq_zero.mpr fun t ht => by
    rw [List.eq_of_mem_replicate ht]
    exact Bool.false_ne_true

/-- Along a run, `mutex_pthreadpool` is unlocked by the thread that holds it only, and no two threads are
between their lock and their unlock of it, exactly if no thread runs an unlock of `alive_thread_num`. -/
theorem exclusion_iff (v : Version) (mem : Memory) (n : ℕ)
    {steps : List (Config Memory Mutex Cond Place × Label)} {s : Config Memory Mutex Cond Place}
    (h : Trace (Pthreads.Step (code v)) (atStart mem n) steps s) :
    (∀ x ∈ steps, UnlocksOwn (code v) .pthreadpool x.1 x.2 ∧ x.1.Exclusive .pthreadpool) ∧
        s.Exclusive .pthreadpool ↔
      ∀ x ∈ steps, ¬ RunsAt InAlive x.1 x.2 := by
  refine (code_disciplined v).steps_iff (owns_atStart mem n) (fun i l hl => ?_) h
  match l with
  | .alive .firstUnlock => exact ⟨_,rfl,rfl⟩
  | .alive (.secondUnlock _) => exact ⟨_,rfl,rfl⟩

section Runs

/-- An empty pool with room for one task. -/
def emptyPool : Memory where
  pool := ⟨fun _ => ⟨0,0⟩,1,0,0,0,2,1,0,1,0,false,0,fun _ => 0⟩
  ready _ := true

/-- The thread `i` calls `task_add`. -/
theorem calls_add {v : Version} {s : Config Memory Mutex Cond Place} {i : ℕ}
    {g : Mutex → Bool} (hi : s.threads[i]? = some ⟨.running .idle,g⟩) (task : Task) :
    Pthreads.Step (code v) s (.run i) ⟨s.mem,s.locked,s.threads.set i ⟨.running (.add task .lock),g⟩⟩ :=
  .choose hi rfl (.inl ⟨task,rfl⟩)

/-- One thread is in `task_add` while another one has called it. -/
theorem exclusion_adding : ∃ steps s, Trace (Pthreads.Step (code .src3)) (atStart emptyPool 2) steps s ∧
    steps.length = 3 ∧ (∀ x ∈ steps, UnlocksOwn (code .src3) .pthreadpool x.1 x.2 ∧
      x.1.Exclusive .pthreadpool) ∧ s.Exclusive .pthreadpool := by
  have h := ((Trace.nil.snoc (calls_add (v := .src3) (s := atStart emptyPool 2) (i := 0) rfl ⟨1,1⟩)).snoc
    (calls_add (i := 1) rfl ⟨2,2⟩)).snoc (.lock (i := 0) rfl rfl rfl)
  refine ⟨_,_,h,rfl,(exclusion_iff .src3 emptyPool 2 h).mpr fun x hx => ?_⟩
  obtain rfl | rfl | rfl : x = _ ∨ x = _ ∨ x = _ := by simpa using hx
  all_goals
    rintro ⟨l,g,hi,hl⟩
    cases hi
    exact hl

/-- A thread is in `task_add` when a second one calls `alive_thread_num`; then a third one gets the lock. -/
theorem exclusion_broken : ∃ steps s, Trace (Pthreads.Step (code .src3)) (atStart emptyPool 3) steps s ∧
    ¬ s.Exclusive .pthreadpool := by
  have hcall := Trace.nil.snoc (calls_add (v := .src3) (s := atStart emptyPool 3) (i := 0) rfl ⟨1,1⟩)
  have hlock := hcall.snoc (.lock (i := 0) rfl rfl rfl)
  have halive := hlock.snoc (.choose (i := 1) rfl rfl (.inr (.inl rfl)))
  have hunlock := halive.snoc (.unlock (i := 1) rfl rfl)
  have hcall' := hunlock.snoc (calls_add (i := 2) rfl ⟨2,2⟩)
  have hlock' := hcall'.snoc (.lock (i := 2) rfl rfl rfl)
  refine ⟨_,_,hlock',?_⟩
  change ¬ 2 ≤ 1
  decide

end Runs
end ServerKit.Threads.Statements
