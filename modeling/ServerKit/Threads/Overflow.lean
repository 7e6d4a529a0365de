import ServerKit.Threads.Counts
import ServerKit.Threads.Queue

/-! The task queue of the two earlier pools. Their add functions test only once whether the queue is
full, and when a producer has the lock again another one may have filled it. -/
namespace ServerKit.Threads.Earlier
open Function ServerKit.Lib

def queueOf (pool : ThreadPool) (accepted taken : List Task) : Queue where
  taskQ := pool.taskQ
  capacity := pool.queueCapacity
  size := pool.queueSize
  front := pool.queueFront
  rear := pool.queueRear
  accepted := accepted
  taken := taken

def State.queue (s : State) : Queue := queueOf s.pool s.accepted s.taken

/-- The queue holds no more than its capacity, and its occupied cells hold, in order, the tasks that
were accepted and not taken yet. -/
structure Intact (s : State) : Prop where
  size_le : s.pool.queueSize ≤ s.pool.queueCapacity
  cells : s.accepted = s.taken ++ (List.range s.pool.queueSize.toNat).map
    fun i : ℕ => s.pool.taskQ ((s.pool.queueFront+i) % s.pool.queueCapacity)

theorem intact_iff {s : State} : Intact s ↔ s.queue.Kept :=
  ⟨fun h => ⟨h.size_le,h.cells⟩,fun h => ⟨h.size_le,h.fifo⟩⟩

/-- A producer that has waited has the lock again, and the queue is full. -/
def Overflows (s : State) : Action → Prop
  | .readd _ => s.pool.shutdown = false ∧ s.pool.queueSize = s.pool.queueCapacity
  | _ => False

/-- What a step does to the queue. A task may be added to a full queue by the steps in `late`. -/
inductive QueueMove (late : Prop) (q : Queue) : Queue → Prop
  | same : QueueMove late q q
  | push (task : Task) (hfull : q.size = q.capacity → late) : QueueMove late q (q.push task)
  | pop (hempty : q.size ≠ 0) : QueueMove late q q.pop

namespace QueueMove
variable {late : Prop} {q q' : Queue}

theorem ordered (hq : q.Ordered) (h : QueueMove late q q') : q'.Ordered := by
  cases h with
  | same => exact hq
  | push task hfull => exact hq.push task
  | pop hempty => exact hq.pop hempty

theorem kept (hq : q.Valid) (hlate : ¬ late) (h : QueueMove late q q') : q'.Kept := by
  cases h with
  | same => exact (Queue.valid_iff.mp hq).2
  | push task hfull => exact (Queue.valid_iff.mp (hq.push (fun heq => hlate (hfull heq)) task)).2
  | pop hempty => exact (Queue.valid_iff.mp (hq.pop hempty)).2

end QueueMove

section Steps
variable {v : Version} {s s' : State} {a : Action} {w p : ℕ} {accepted taken : List Task}
  {task : Task} {late : Prop}

theorem workerTest_queue (pool : ThreadPool) : QueueMove late (queueOf pool accepted taken)
    (queueOf (workerTest pool).pool accepted (taken ++ (workerTest pool).task?.toList)) := by
  obtain ⟨-,-,hend⟩ | ⟨-,hend⟩ | ⟨hempty,-,hend⟩ := workerTest_cases pool
  · rw [hend, WorkerEnd.task?, Option.toList_none, List.append_nil]
    exact .same
  · rw [hend, WorkerEnd.task?, Option.toList_none, List.append_nil]
    exact .same
  · rw [hend]
    exact .pop hempty

theorem workerMove_queue {pool pool' : ThreadPool} {tid : ThreadId} {pc pc' : WorkerPc}
    {task? : Option Task} (h : WorkerMove pool tid pc pool' pc' task?) :
    QueueMove late (queueOf pool accepted taken)
      (queueOf pool' accepted (taken ++ task?.toList)) := by
  cases h with
  | lock => exact workerTest_queue pool
  | relock =>
    obtain ⟨-,-,hend⟩ | ⟨-,e,hend⟩ := workerWoken_cases pool
    · rw [hend, WorkerEnd.task?, Option.toList_none, List.append_nil]
      exact .same
    · rw [hend]
      exact workerTest_queue { pool with exitNum := e }
  | spurious | busy | unbusy | threadExit =>
    rw [Option.toList_none, List.append_nil]
    exact .same

theorem WorkerStep.queue (h : WorkerStep s a s') : QueueMove late s.queue s'.queue := by
  cases h with
  | @quiet w pc pool pc' hw move =>
    have hmove : QueueMove late s.queue (queueOf pool s.accepted (s.taken ++ [])) :=
      workerMove_queue move
    rwa [List.append_nil] at hmove
  | take hw move signal => exact workerMove_queue move

theorem ProducerLeaves.queue (h : ProducerLeaves s p task (addTask s.pool task) s')
    (hfull : s.pool.shutdown = false → s.pool.queueSize = s.pool.queueCapacity → late) :
    QueueMove late s.queue s'.queue := by
  obtain ⟨-,hend⟩ | ⟨hdown,hend⟩ := addTask_cases s.pool task
  · rw [hend] at h
    cases h
    exact .same
  · rw [hend] at h
    cases h
    exact .push task (hfull hdown)

theorem ProducerStep.queue (h : ProducerStep v s a s') : QueueMove (Overflows s a) s.queue s'.queue := by
  cases h with
  | call hp => exact .same
  | @add p task s' hp leaves =>
    obtain ⟨-,-,hend⟩ | ⟨hroom,hend⟩ := add_cases (v := v) s.pool task
    · rw [hend] at leaves
      cases leaves
      exact .same
    · rw [hend] at leaves
      exact leaves.queue fun hdown hfull => hroom ⟨hfull,hdown⟩
  | readd hp leaves =>
    rw [v.addWoken_eq] at leaves
    exact leaves.queue fun hdown hfull => ⟨hdown,hfull⟩
  | spurious hp => exact .same

theorem State.grow_queue (queueSize liveNum : ℤ) : (s.grow v queueSize liveNum).queue = s.queue := by
  have hgrown : GrownTo s.pool (s.workers.length+1)
      (v.grow s.pool (s.workers.length+1) queueSize liveNum) := grow_grownTo v
  obtain ⟨ids',-,hgrown⟩ := hgrown
  change queueOf (v.grow s.pool (s.workers.length+1) queueSize liveNum).1 s.accepted s.taken = s.queue
  rw [hgrown]
  rfl

theorem ManagerStep.queue (h : ManagerStep s v s') : s'.queue = s.queue := by
  cases h with
  | grow hm => exact State.grow_queue _ _
  | test | sample | readBusy | readLive | readMin | shrinkSrc | shrink | keep | signal | loop => rfl

theorem DestroyStep.queue (h : DestroyStep s s') : s'.queue = s.queue := by
  cases h <;> rfl

theorem Step.queue (h : Step v s a s') : QueueMove (Overflows s a) s.queue s'.queue := by
  cases h with
  | worker hpool h => exact h.queue
  | producer hpool h => exact h.queue
  | manager hpool h =>
    rw [h.queue]
    exact .same
  | destroyer h =>
    rw [h.queue]
    exact .same

/-- A task that is added late makes the queue too long. -/
theorem Overflows.not_intact (hs : Overflows s a) (h : Step v s a s') : ¬ Intact s' := by
  cases a with
  | readd p =>
    obtain ⟨hdown,hfull⟩ := hs
    cases h with
    | worker hpool h => cases h
    | producer hpool h =>
      cases h with
      | @readd p task s' hp leaves =>
        rw [v.addWoken_eq] at leaves
        obtain ⟨hdown',-⟩ | ⟨-,hend⟩ := addTask_cases s.pool task
        · exact absurd (hdown.symm.trans hdown') Bool.false_ne_true
        · rw [hend] at leaves
          cases leaves
          intro hs'
          have hle : s.pool.queueSize+1 ≤ s.pool.queueCapacity := hs'.size_le
          omega
  | worker | call | add | spuriousProducer | manager | destroyer => exact hs.elim

end Steps

section Run
variable {taskQ : ℤ → Task} {min max queueSize : ℤ} {n : ℕ}

theorem start_valid (hcap : 1 ≤ queueSize) : (start taskQ min max queueSize n).queue.Valid :=
  Threads.start_valid taskQ min max n hcap

/-- Along a run the queue stays intact exactly if no producer adds its task to a full queue after a
wait. -/
theorem never_overflows_iff (v : Version) (taskQ : ℤ → Task) (min max : ℤ) {queueSize : ℤ} (n : ℕ)
    (hcap : 1 ≤ queueSize) (steps : List (State × Action)) (s : State)
    (h : Trace (Step v) (start taskQ min max queueSize n) steps s) :
    ((∀ x ∈ steps, Intact x.1) ∧ Intact s) ↔ ∀ x ∈ steps, ¬ Overflows x.1 x.2 := by
  have hstart : (start taskQ min max queueSize n).queue.Valid := start_valid hcap
  obtain ⟨hordered,hkept⟩ := Queue.valid_iff.mp hstart
  refine h.always_iff (I := fun s => s.queue.Ordered) (P := Intact) hordered (intact_iff.mpr hkept)
    ?_ ?_ ?_
  · exact fun s a s' hs hstep => hstep.queue.ordered hs
  · intro s a s' hs hintact hnot hstep
    exact intact_iff.mpr (hstep.queue.kept (Queue.valid_iff.mpr ⟨hs,intact_iff.mp hintact⟩) hnot)
  · exact fun s a s' _ hlate hstep => hlate.not_intact hstep

theorem never_overflows_iff_one : ∃ steps s,
    Trace (Step .src) (start (fun _ => ⟨0,0⟩) 1 1 1 1) steps s ∧ s.pool.queueSize = 1 ∧ Intact s := by
  have h₀ : Trace (Step .src) (start (fun _ => ⟨0,0⟩) 1 1 1 1) [] _ := .nil
  have h₁ := h₀.snoc (l := .call 0 ⟨1,1⟩) (.producer (by decide) (.call rfl))
  have h₂ := h₁.snoc (l := .add 0) (.producer (by decide) (.add rfl (.added (.lost (by decide)))))
  refine ⟨_,_,h₂,rfl,((never_overflows_iff .src _ 1 1 1 (by decide) _ _ h₂).mpr fun x hx => ?_).2⟩
  simp only [List.nil_append, List.cons_append, List.mem_cons, List.not_mem_nil, or_false] at hx
  obtain rfl | rfl := hx
  · exact id
  · exact id

/-- Two producers and a queue of one cell: the second one fills the queue before the first one, whose
task did not fit before, has the lock again. -/
theorem exists_overflow (v : Version) : ∃ actions s,
    Run (Step v) (start (fun _ => ⟨0,0⟩) 1 1 1 2) actions s ∧ s.pool.queueSize = 2 ∧ ¬ Intact s := by
  have h₀ : Run (Step v) (start (fun _ => ⟨0,0⟩) 1 1 1 2) [] _ := .nil
  cases v with
  | src | src2 =>
    have h₁ := h₀.snoc (l := .call 0 ⟨1,1⟩) (.producer (by decide) (.call rfl))
    have h₂ := h₁.snoc (l := .add 0) (.producer (by decide) (.add rfl (.added (.lost (by decide)))))
    have h₃ := h₂.snoc (l := .call 0 ⟨2,2⟩) (.producer (by decide) (.call rfl))
    have h₄ := h₃.snoc (l := .add 0) (.producer (by decide) (.add rfl .wait))
    have h₅ := h₄.snoc (l := .call 1 ⟨3,3⟩) (.producer (by decide) (.call rfl))
    have h₆ := h₅.snoc (l := .worker 0)
      (.worker (by decide) (.take rfl .lock (.woken (i := 0) rfl rfl)))
    have h₇ := h₆.snoc (l := .add 1) (.producer (by decide) (.add rfl (.added (.lost (by decide)))))
    have h₈ := h₇.snoc (l := .readd 0)
      (.producer (by decide) (.readd rfl (.added (.lost (by decide)))))
    refine ⟨_,_,h₈,rfl,fun hs => ?_⟩
    exact absurd hs.size_le (by decide)

theorem overflow_reachable :
    (∃ actions s, Run (Step .src) (start (fun _ => ⟨0,0⟩) 1 1 1 2) actions s ∧ ¬ Intact s) ∧
    ∃ actions s, Run (Step .src2) (start (fun _ => ⟨0,0⟩) 1 1 1 2) actions s ∧ ¬ Intact s := by
  obtain ⟨actions,s,hrun,-,hs⟩ := exists_overflow .src
  obtain ⟨actions',s',hrun',-,hs'⟩ := exists_overflow .src2
  exact ⟨⟨actions,s,hrun,hs⟩,⟨actions',s',hrun',hs'⟩⟩

end Run

end ServerKit.Threads.Earlier
