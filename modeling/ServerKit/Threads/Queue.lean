import ServerKit.Threads.System
import ServerKit.Lib.RingBuffer
import Mathlib.Tactic.Common

/-! The task queue. Whatever the threads do, it is the queue of the tasks that were accepted and not yet
taken. -/
namespace ServerKit.Threads
open Function ServerKit.Lib

/-- The part of a state that concerns the tasks. -/
structure Queue where
  taskQ : ℤ → Task
  capacity : ℤ
  size : ℤ
  front : ℤ
  rear : ℤ
  accepted : List Task
  taken : List Task

namespace Queue

def push (q : Queue) (task : Task) : Queue :=
  { q with
    taskQ := update q.taskQ q.rear task, rear := (q.rear+1).tmod q.capacity, size := q.size+1
    accepted := q.accepted ++ [task] }

def pop (q : Queue) : Queue :=
  { q with
    front := (q.front+1).tmod q.capacity, size := q.size-1
    taken := q.taken ++ [q.taskQ q.front] }

/-- The tasks in the occupied cells. -/
def tasks (q : Queue) : List Task := ring q.taskQ q.capacity q.front q.size.toNat

/-- What holds of the indices. -/
structure Ordered (q : Queue) : Prop where
  front_nonneg : 0 ≤ q.front
  front_lt : q.front < q.capacity
  size_nonneg : 0 ≤ q.size
  rear : q.rear = (q.front+q.size) % q.capacity

/-- There is room for the tasks, and none is lost. -/
structure Kept (q : Queue) : Prop where
  size_le : q.size ≤ q.capacity
  fifo : q.accepted = q.taken ++ q.tasks

structure Valid (q : Queue) : Prop where
  front_nonneg : 0 ≤ q.front
  front_lt : q.front < q.capacity
  size_nonneg : 0 ≤ q.size
  size_le : q.size ≤ q.capacity
  rear : q.rear = (q.front+q.size) % q.capacity
  fifo : q.accepted = q.taken ++ q.tasks

variable {q : Queue}

theorem valid_iff : q.Valid ↔ q.Ordered ∧ q.Kept := by
  constructor
  · rintro ⟨h0,hlt,hs0,hle,hrear,hfifo⟩
    exact ⟨⟨h0,hlt,hs0,hrear⟩,⟨hle,hfifo⟩⟩
  · rintro ⟨⟨h0,hlt,hs0,hrear⟩,⟨hle,hfifo⟩⟩
    exact ⟨h0,hlt,hs0,hle,hrear,hfifo⟩

theorem Ordered.push (hq : q.Ordered) (task : Task) : (q.push task).Ordered := by
  obtain ⟨h0,hlt,hs0,hrear⟩ := hq
  have hrear0 : 0 ≤ q.rear := by
    rw [hrear]
    exact Int.emod_nonneg _ (by omega)
  refine ⟨h0,hlt,by simp only [Queue.push]; omega,?_⟩
  change (q.rear+1).tmod q.capacity = (q.front+(q.size+1)) % q.capacity
  rw [Int.tmod_eq_emod_of_nonneg (by omega), hrear, Int.emod_add_emod, add_assoc]

theorem Ordered.pop (hq : q.Ordered) (hempty : q.size ≠ 0) : q.pop.Ordered := by
  obtain ⟨h0,hlt,hs0,hrear⟩ := hq
  have hmod : (q.front+1).tmod q.capacity = (q.front+1) % q.capacity :=
    Int.tmod_eq_emod_of_nonneg (by omega)
  refine ⟨?_,?_,by simp only [Queue.pop]; omega,?_⟩
  · change 0 ≤ (q.front+1).tmod q.capacity
    rw [hmod]
    exact Int.emod_nonneg _ (by omega)
  · change (q.front+1).tmod q.capacity < q.capacity
    rw [hmod]
    exact Int.emod_lt_of_pos _ (by omega)
  · change q.rear = ((q.front+1).tmod q.capacity+(q.size-1)) % q.capacity
    rw [hmod, Int.emod_add_emod, hrear]
    congr 1
    omega

theorem Valid.push (hq : q.Valid) (hfull : q.size ≠ q.capacity) (task : Task) : (q.push task).Valid := by
  refine valid_iff.mpr ⟨(valid_iff.mp hq).1.push task,?_,?_⟩
  · have hle := hq.size_le
    simp only [Queue.push]
    omega
  · obtain ⟨h0,hlt,hs0,hle,hrear,hfifo⟩ := hq
    obtain ⟨n,hn⟩ := Int.eq_ofNat_of_zero_le hs0
    have hpush := ring_push q.taskQ q.front (show (n : ℤ) < q.capacity by omega) task
    change q.accepted ++ [task] =
      q.taken ++ ring (update q.taskQ q.rear task) q.capacity q.front (q.size+1).toNat
    rw [hfifo, tasks, hrear, hn, show ((n : ℤ)+1).toNat = n+1 by omega, hpush, Int.toNat_natCast,
      List.append_assoc]

theorem Valid.pop (hq : q.Valid) (hempty : q.size ≠ 0) : q.pop.Valid := by
  refine valid_iff.mpr ⟨(valid_iff.mp hq).1.pop hempty,?_,?_⟩
  · have hle := hq.size_le
    simp only [Queue.pop]
    omega
  · obtain ⟨h0,hlt,hs0,hle,hrear,hfifo⟩ := hq
    obtain ⟨n,hn⟩ := Int.eq_ofNat_of_zero_le (show 0 ≤ q.size-1 by omega)
    have hmod : (q.front+1).tmod q.capacity = (q.front+1) % q.capacity :=
      Int.tmod_eq_emod_of_nonneg (by omega)
    have hpop := ring_pop q.taskQ n h0 hlt
    change q.accepted = (q.taken ++ [q.taskQ q.front]) ++
      ring q.taskQ q.capacity ((q.front+1).tmod q.capacity) (q.size-1).toNat
    rw [hfifo, tasks, hmod, hn, show q.size.toNat = n+1 by omega, hpop, Int.toNat_natCast]
    simp

end Queue

def State.queue (s : State) : Queue where
  taskQ := s.pool.taskQ
  capacity := s.pool.queueCapacity
  size := s.pool.queueSize
  front := s.pool.queueFront
  rear := s.pool.queueRear
  accepted := s.accepted
  taken := s.taken

/-- What a step can do to the queue. -/
inductive QueueStep (q : Queue) : Queue → Prop
  | same : QueueStep q q
  | push (task : Task) (hfull : q.size ≠ q.capacity) : QueueStep q (q.push task)
  | pop (hempty : q.size ≠ 0) : QueueStep q q.pop

section Steps
variable {s s' : State} {w p : ℕ} {a : Action}

theorem WorkerLeaves.queue {e : ℤ} (h : WorkerLeaves s w (workerTest { s.pool with exitNum := e }) s') :
    QueueStep s.queue s'.queue := by
  obtain ⟨-,-,hend⟩ | ⟨-,hend⟩ | ⟨hempty,-,hend⟩ := workerTest_cases { s.pool with exitNum := e }
  · rw [hend] at h
    cases h
    exact .same
  · rw [hend] at h
    cases h
    exact .same
  · rw [hend] at h
    cases h
    exact .pop hempty

theorem WorkerStep.queue (h : WorkerStep s a s') : QueueStep s.queue s'.queue := by
  cases h with
  | lock hw leaves => exact WorkerLeaves.queue (e := s.pool.exitNum) leaves
  | relock hw leaves =>
    obtain ⟨-,-,hend⟩ | ⟨-,e,hend⟩ := workerWoken_cases s.pool
    · rw [hend] at leaves
      cases leaves
      exact .same
    · rw [hend] at leaves
      exact leaves.queue
  | spurious hw => exact .same
  | busy hw => exact .same
  | unbusy hw => exact .same
  | threadExit hw => exact .same

theorem ProducerStep.queue (h : ProducerStep s a s') : QueueStep s.queue s'.queue := by
  cases h with
  | call hp => exact .same
  | @add p task s' hp leaves =>
    obtain ⟨-,-,hend⟩ | ⟨-,hend⟩ | ⟨hfull,-,hend⟩ := threadPoolAdd_cases s.pool task
    · rw [hend] at leaves
      cases leaves
      exact .same
    · rw [hend] at leaves
      cases leaves
      exact .same
    · rw [hend] at leaves
      cases leaves
      exact .push task hfull
  | spurious hp => exact .same

theorem State.grow_queue (queueSize liveNum : ℤ) : (s.grow queueSize liveNum).queue = s.queue := by
  unfold State.grow managerGrow
  split <;> rfl

theorem ManagerStep.queue (h : ManagerStep s a s') : s'.queue = s.queue := by
  cases h with
  | grow hm => exact State.grow_queue _ _
  | test | count | busy | shrink | keep | signal | loop => rfl

theorem DestroyStep.queue (h : DestroyStep s a s') : s'.queue = s.queue := by
  cases h <;> rfl

theorem Step.queue (h : Step s a s') : QueueStep s.queue s'.queue := by
  cases h with
  | worker hpool h => exact h.queue
  | producer hpool h => exact h.queue
  | manager hpool h =>
    rw [h.queue]
    exact .same
  | destroyer h =>
    rw [h.queue]
    exact .same

end Steps

theorem QueueStep.valid {q q' : Queue} (hq : q.Valid) (h : QueueStep q q') :
    q'.Valid ∧ q'.capacity = q.capacity := by
  cases h with
  | same => exact ⟨hq,rfl⟩
  | push task hfull => exact ⟨hq.push hfull task,rfl⟩
  | pop hempty => exact ⟨hq.pop hempty,rfl⟩

theorem start_valid (taskQ : ℤ → Task) (min max : ℤ) {queueSize : ℤ} (n : ℕ) (hcap : 1 ≤ queueSize) :
    (start taskQ min max queueSize n).queue.Valid where
  front_nonneg := le_rfl
  front_lt := by
    change 0 < queueSize
    omega
  size_nonneg := le_rfl
  size_le := by
    change 0 ≤ queueSize
    omega
  rear := (Int.zero_emod _).symm
  fifo := rfl

section Run
variable {taskQ : ℤ → Task} {min max queueSize : ℤ} {n : ℕ} {actions : List Action} {s : State}

/-- The queue in every state that the threads can reach. -/
theorem run_valid (hcap : 1 ≤ queueSize)
    (h : Run Step (start taskQ min max queueSize n) actions s) :
    s.queue.Valid ∧ s.pool.queueCapacity = queueSize := by
  refine h.invariant (P := fun s => s.queue.Valid ∧ s.pool.queueCapacity = queueSize)
    ⟨start_valid taskQ min max n hcap,rfl⟩ fun s a s' hs hstep => ?_
  obtain ⟨hvalid,hsame⟩ := hstep.queue.valid hs.1
  exact ⟨hvalid,hsame.trans hs.2⟩

/-- The tasks are kept as a bounded queue of `queueSize` cells. -/
structure TasksKept (queueSize : ℤ) (s : State) : Prop where
  capacity : s.pool.queueCapacity = queueSize
  size_nonneg : 0 ≤ s.pool.queueSize
  size_le : s.pool.queueSize ≤ queueSize
  rear : s.pool.queueRear = (s.pool.queueFront+s.pool.queueSize) % queueSize
  /-- The occupied cells hold, in order, the tasks that were accepted and not taken yet. -/
  cells : s.accepted = s.taken ++ (List.range s.pool.queueSize.toNat).map
    fun i : ℕ => s.pool.taskQ ((s.pool.queueFront+i) % queueSize)
  /-- The next task does not go to an occupied cell. -/
  no_overwrite : ∀ task pool, threadPoolAdd s.pool task = .added pool → ∀ i : ℕ,
    i < s.pool.queueSize → (s.pool.queueFront+i) % queueSize ≠ s.pool.queueRear ∧
      pool.taskQ ((s.pool.queueFront+i) % queueSize) =
        s.pool.taskQ ((s.pool.queueFront+i) % queueSize)
  fifo : s.taken <+: s.accepted

/-- Whatever the threads do and in whatever order, the tasks are kept as a bounded queue. -/
theorem run_tasksKept (taskQ : ℤ → Task) (min max : ℤ) {queueSize : ℤ} (n : ℕ) (hcap : 1 ≤ queueSize)
    (actions : List Action) (s : State)
    (h : Run Step (start taskQ min max queueSize n) actions s) : TasksKept queueSize s := by
  obtain ⟨hvalid,rfl⟩ := run_valid hcap h
  have hle : s.pool.queueSize ≤ s.pool.queueCapacity := hvalid.size_le
  have hrear : s.pool.queueRear = (s.pool.queueFront+s.pool.queueSize) % s.pool.queueCapacity :=
    hvalid.rear
  have hfifo : s.accepted = s.taken ++ s.queue.tasks := hvalid.fifo
  refine ⟨rfl,hvalid.size_nonneg,hle,hrear,hfifo,fun task pool hadd i hi => ?_,?_⟩
  · obtain ⟨-,-,hend⟩ | ⟨-,hend⟩ | ⟨hfull,-,hend⟩ := threadPoolAdd_cases s.pool task
    · rw [hend] at hadd
      cases hadd
    · rw [hend] at hadd
      cases hadd
    · rw [hend] at hadd
      cases hadd
      have hne : (s.pool.queueFront+i) % s.pool.queueCapacity ≠ s.pool.queueRear := by
        obtain ⟨m,hm⟩ := Int.eq_ofNat_of_zero_le (show 0 ≤ s.pool.queueSize from hvalid.size_nonneg)
        rw [hrear, hm]
        exact ring_index_ne (by omega) (by omega)
      exact ⟨hne,update_of_ne hne ..⟩
  · rw [hfifo]
    exact List.prefix_append ..

/-- In a queue of two cells the third task goes to the cell of the first one, which has been taken. -/
theorem run_tasksKept_three : ∃ s, Run Step (start (fun _ => ⟨0,0⟩) 1 1 2 2)
    [.call 0 ⟨1,10⟩,.add 0,.call 1 ⟨2,20⟩,.add 1,.lock 0,.call 0 ⟨3,30⟩,.add 0,.busy 0,.unbusy 0,.lock 0] s ∧
    s.accepted = [⟨1,10⟩,⟨2,20⟩,⟨3,30⟩] ∧ s.taken = [⟨1,10⟩,⟨2,20⟩] ∧ s.pool.queueFront = 0 ∧
    TasksKept 2 s := by
  have h₀ : Run Step (start (fun _ => ⟨0,0⟩) 1 1 2 2) [] _ := .nil
  have h₁ := h₀.snoc (l := .call 0 ⟨1,10⟩) (.producer (by decide) (.call rfl))
  have h₂ := h₁.snoc (l := .add 0) (.producer (by decide) (.add rfl (.added (.lost (by decide)))))
  have h₃ := h₂.snoc (l := .call 1 ⟨2,20⟩) (.producer (by decide) (.call rfl))
  have h₄ := h₃.snoc (l := .add 1) (.producer (by decide) (.add rfl (.added (.lost (by decide)))))
  have h₅ := h₄.snoc (l := .lock 0) (.worker (by decide) (.lock rfl (.take (.lost (by decide)))))
  have h₆ := h₅.snoc (l := .call 0 ⟨3,30⟩) (.producer (by decide) (.call rfl))
  have h₇ := h₆.snoc (l := .add 0) (.producer (by decide) (.add rfl (.added (.lost (by decide)))))
  have h₈ := h₇.snoc (l := .busy 0) (.worker (by decide) (.busy rfl))
  have h₉ := h₈.snoc (l := .unbusy 0) (.worker (by decide) (.unbusy rfl))
  have h₁₀ := h₉.snoc (l := .lock 0) (.worker (by decide) (.lock rfl (.take (.lost (by decide)))))
  exact ⟨_,h₁₀,rfl,rfl,rfl,run_tasksKept _ _ _ _ (by decide) _ _ h₁₀⟩

end Run

end ServerKit.Threads
