import ServerKit.Threads.Chat

/-! Where something is that the tasks of the chat server bring along: with the threads that add tasks, in the
queue, or with the workers. No step of the pool itself makes or loses any of it. -/
namespace ServerKit.Threads
open Function ServerKit.Lib

variable {β : Type}

def ProducerPc.pending : ProducerPc → List Task
  | .ready task | .blocked task => [task]
  | .idle => []

/-- `f task` comes with a task, and a worker in it has `g w task`. -/
def WorkerPc.holds (f : Task → List β) (g : ℕ → Task → List β) (w : ℕ) : WorkerPc → List β
  | .taken task => f task
  | .running task => g w task
  | _ => []

def State.shared (f : Task → List β) (g : ℕ → Task → List β) (s : State) : List β :=
  carried (fun _ pc => pc.pending.flatMap f) s.producers ++ s.queue.tasks.flatMap f ++
    carried (WorkerPc.holds f g) s.workers

section Shared
variable {f : Task → List β} {g g' : ℕ → Task → List β} {s s' : State} {w p : ℕ} {a : Action}

theorem Queue.Valid.tasks_push {q : Queue} (hq : q.Valid) (hfull : q.size ≠ q.capacity) (task : Task) :
    (q.push task).tasks = q.tasks ++ [task] := by
  have hfifo : q.accepted ++ [task] = q.taken ++ (q.push task).tasks := (hq.push hfull task).fifo
  rw [hq.fifo, List.append_assoc] at hfifo
  exact (List.append_cancel_left hfifo).symm

theorem Queue.Valid.tasks_pop {q : Queue} (hq : q.Valid) (hempty : q.size ≠ 0) :
    q.tasks = q.taskQ q.front :: q.pop.tasks := by
  have hfifo : q.accepted = (q.taken ++ [q.taskQ q.front]) ++ q.pop.tasks := (hq.pop hempty).fifo
  rw [hq.fifo, List.append_assoc] at hfifo
  exact List.append_cancel_left hfifo

theorem WorkerPc.holds_wake {pc pc' : WorkerPc} (h : pc.wake = some pc') (i : ℕ) :
    pc'.holds f g i = pc.holds f g i := by
  cases pc <;> cases h
  rfl

theorem ProducerPc.pending_wake {pc pc' : ProducerPc} (h : pc.wake = some pc') : pc'.pending = pc.pending := by
  cases pc <;> cases h
  rfl

/-- A worker that holds nothing goes to another place without a task. -/
theorem holds_set {pc pc' : WorkerPc} (hw : s.workers[w]? = some pc) (hpc : pc.holds f g w = [])
    (hpc' : pc'.holds f g w = []) :
    carried (WorkerPc.holds f g) (s.workers.set w pc') = carried (WorkerPc.holds f g) s.workers :=
  carried_set hw (hpc'.trans hpc.symm)

theorem pending_set {pc pc' : ProducerPc} (hp : s.producers[p]? = some pc) (hsame : pc'.pending = pc.pending) :
    carried (fun _ pc => pc.pending.flatMap f) (s.producers.set p pc') =
      carried (fun _ pc => pc.pending.flatMap f) s.producers :=
  carried_set hp (by rw [hsame])

/-- The threads that the manager starts bring nothing. -/
theorem ManagerStep.shared_eq (h : ManagerStep s a s') : s'.shared f g = s.shared f g := by
  have hqueue := h.queue
  have hsame : s'.producers = s.producers ∧
      carried (WorkerPc.holds f g) s'.workers = carried (WorkerPc.holds f g) s.workers := by
    cases h with
    | grow hm =>
      refine ⟨rfl,carried_append fun i x hx => ?_⟩
      rw [List.eq_of_mem_replicate hx]
      rfl
    | signal hm hi signal => exact ⟨rfl,signal.carried fun i x y hwake => x.holds_wake hwake i⟩
    | test | count | busy | shrink | keep | loop => exact ⟨rfl,rfl⟩
  unfold State.shared
  rw [hqueue, hsame.1, hsame.2]

variable [DecidableEq β]

/-- A worker leaves the lock with what it has taken from the queue. -/
theorem WorkerLeaves.count_shared {pc : WorkerPc} {e : ℤ} (hq : s.queue.Valid)
    (hw : s.workers[w]? = some pc) (hpc : pc.holds f g w = [])
    (h : WorkerLeaves s w (workerTest { s.pool with exitNum := e }) s') (b : β) :
    (s'.shared f g).count b = (s.shared f g).count b := by
  obtain ⟨-,-,hend⟩ | ⟨-,hend⟩ | ⟨hempty,-,hend⟩ := workerTest_cases { s.pool with exitNum := e }
  · rw [hend] at h
    cases h
    unfold State.shared
    rw [holds_set hw hpc rfl]
    rfl
  · rw [hend] at h
    cases h
    unfold State.shared
    rw [holds_set hw hpc rfl]
    rfl
  · rw [hend] at h
    cases h with
    | @take _ _ producers signal =>
      have htasks : s.queue.tasks = s.pool.taskQ s.pool.queueFront :: s.queue.pop.tasks :=
        hq.tasks_pop hempty
      have hproducers := signal.carried (H := fun _ pc => pc.pending.flatMap f)
        fun i x y hwake => by rw [ProducerPc.pending_wake hwake]
      have hset := count_carried_set (H := WorkerPc.holds f g)
        (y := .taken (s.pool.taskQ s.pool.queueFront)) b hw fun _ _ => rfl
      have hnew : (WorkerPc.taken (s.pool.taskQ s.pool.queueFront)).holds f g w =
        f (s.pool.taskQ s.pool.queueFront) := rfl
      rw [hpc, hnew, List.count_nil] at hset
      unfold State.shared
      rw [htasks, hproducers, List.flatMap_cons]
      change List.count b (_ ++ s.queue.pop.tasks.flatMap f ++ _) = _
      simp only [List.count_append]
      omega

theorem WorkerStep.count_shared (hq : s.queue.Valid) (hown : Chat.Own a) (h : WorkerStep s a s') (b : β) :
    (s'.shared f g).count b = (s.shared f g).count b := by
  cases h with
  | lock hw leaves => exact leaves.count_shared (e := s.pool.exitNum) hq hw rfl b
  | @relock w _ hw leaves =>
    obtain ⟨-,-,hend⟩ | ⟨-,e,hend⟩ := workerWoken_cases s.pool
    · rw [hend] at leaves
      cases leaves
      unfold State.shared
      rw [holds_set hw rfl rfl]
      rfl
    · rw [hend] at leaves
      exact leaves.count_shared hq hw rfl b
  | spurious hw =>
    unfold State.shared
    rw [holds_set hw rfl rfl]
    rfl
  | threadExit hw =>
    unfold State.shared
    rw [holds_set hw rfl rfl]
    rfl
  | busy | unbusy => exact hown.elim

theorem ProducerStep.count_shared (hq : s.queue.Valid) (hopen : s.pool.shutdown = false) (hown : Chat.Own a)
    (h : ProducerStep s a s') (b : β) : (s'.shared f g).count b = (s.shared f g).count b := by
  cases h with
  | call => exact hown.elim
  | @add p task _ hp leaves =>
    obtain ⟨-,-,hend⟩ | ⟨hclosed,-⟩ | ⟨hfull,-,hend⟩ := threadPoolAdd_cases s.pool task
    · rw [hend] at leaves
      cases leaves
      have hsame : (ProducerPc.blocked task).pending = (ProducerPc.ready task).pending := rfl
      unfold State.shared
      rw [pending_set hp hsame]
      rfl
    · rw [hopen] at hclosed
      cases hclosed
    · rw [hend] at leaves
      cases leaves with
      | @added _ workers signal =>
        have htasks := hq.tasks_push hfull task
        have hworkers := signal.carried (H := WorkerPc.holds f g) fun i x y hwake => x.holds_wake hwake i
        have hset := count_carried_set (H := fun _ pc => pc.pending.flatMap f) (y := .idle) b hp
          fun _ _ => rfl
        unfold State.shared
        rw [hworkers]
        change List.count b (_ ++ (s.queue.push task).tasks.flatMap f ++ _) = _
        rw [htasks, List.flatMap_append]
        simp only [ProducerPc.pending, List.flatMap_cons, List.flatMap_nil, List.append_nil, List.count_nil,
          List.count_append] at hset ⊢
        omega
  | @spurious p task hp =>
    have hsame : (ProducerPc.ready task).pending = (ProducerPc.blocked task).pending := rfl
    unfold State.shared
    rw [pending_set hp hsame]
    rfl

/-- What the pool does by itself. -/
theorem Step.count_shared (hq : s.queue.Valid) (hopen : s.pool.shutdown = false) (hown : Chat.Own a)
    (h : Step s a s') (b : β) : (s'.shared f g).count b = (s.shared f g).count b := by
  cases h with
  | worker hpool h => exact h.count_shared hq hown b
  | producer hpool h => exact h.count_shared hq hopen hown b
  | manager hpool h => rw [h.shared_eq]
  | destroyer h => cases h <;> exact hown.elim

/-- A call of `threadPoolAdd`. -/
theorem Step.count_call {task : Task} (h : Step s (.call p task) s') (b : β) :
    (s'.shared f g).count b = (s.shared f g).count b+(f task).count b := by
  cases h with
  | producer hpool h =>
    cases h with
    | call hp =>
      have hset := count_carried_set (H := fun _ pc => pc.pending.flatMap f) (y := .ready task) b hp
        fun _ _ => rfl
      unfold State.shared
      change List.count b (_ ++ s.queue.tasks.flatMap f ++ carried (WorkerPc.holds f g) s.workers) = _
      simp only [ProducerPc.pending, List.flatMap_cons, List.flatMap_nil, List.append_nil, List.count_nil,
        List.count_append] at hset ⊢
      omega
  | worker hpool h | manager hpool h | destroyer h => cases h

/-- A worker comes to another place in its task. -/
theorem count_shared_update {task : Task} (hw : s.workers[w]? = some (.running task))
    (hsame : ∀ v, v ≠ w → g' v = g v) (b : β) :
    (s.shared f g').count b+(g w task).count b = (s.shared f g).count b+(g' w task).count b := by
  have hupdate := count_carried_update (H := WorkerPc.holds f g) (K := WorkerPc.holds f g') b hw
    fun v hv => funext fun pc => by cases pc <;> simp only [WorkerPc.holds, hsame v hv]
  simp only [WorkerPc.holds] at hupdate
  unfold State.shared
  simp only [List.count_append]
  omega

/-- A worker starts its task. -/
theorem Step.count_busy {task : Task} (hw : s.workers[w]? = some (.taken task)) (h : Step s (.busy w) s')
    (hsame : ∀ v, v ≠ w → g' v = g v) (b : β) :
    (s'.shared f g').count b+(f task).count b = (s.shared f g).count b+(g' w task).count b := by
  cases h with
  | worker hpool h =>
    cases h with
    | @busy _ task' hw' =>
      cases hw.symm.trans hw'
      have hset := count_carried_set (H := WorkerPc.holds f g) (K := WorkerPc.holds f g')
        (y := .running task) b hw fun v hv => funext fun pc => by
          cases pc <;> simp only [WorkerPc.holds, hsame v hv]
      simp only [WorkerPc.holds] at hset
      unfold State.shared
      change List.count b (carried _ s.producers ++ s.queue.tasks.flatMap f ++ carried _ _) + _ = _
      simp only [List.count_append]
      omega
  | producer hpool h | manager hpool h | destroyer h => cases h

/-- A worker has ended its task. -/
theorem Step.count_unbusy {task : Task} (hw : s.workers[w]? = some (.running task)) (h : Step s (.unbusy w) s')
    (b : β) : (s'.shared f g).count b+(g w task).count b = (s.shared f g).count b := by
  cases h with
  | worker hpool h =>
    cases h with
    | @unbusy _ task' hw' =>
      cases hw.symm.trans hw'
      have hset := count_carried_set (H := WorkerPc.holds f g) (y := .ready) b hw fun _ _ => rfl
      simp only [WorkerPc.holds, List.count_nil] at hset
      unfold State.shared
      change List.count b (carried _ s.producers ++ s.queue.tasks.flatMap f ++ carried _ _) + _ = _
      simp only [List.count_append]
      omega
  | producer hpool h | manager hpool h | destroyer h => cases h

/-- What each place has less of, all places together have less of. -/
theorem count_shared_le {F : Task → List β} {G : ℕ → Task → List β} (b : β) (hf : ∀ task, (f task).count b ≤ (F task).count b)
    (hg : ∀ w task, (g w task).count b ≤ (G w task).count b) :
    (s.shared f g).count b ≤ (s.shared F G).count b := by
  have htasks (tasks : List Task) : (tasks.flatMap f).count b ≤ (tasks.flatMap F).count b := by
    induction tasks with
    | nil => exact Nat.le_refl _
    | cons task tasks ih =>
      rw [List.flatMap_cons, List.flatMap_cons, List.count_append, List.count_append]
      exact Nat.add_le_add (hf task) ih
  unfold State.shared
  simp only [List.count_append]
  refine Nat.add_le_add (Nat.add_le_add ?_ (htasks _)) ?_
  · exact count_carried_le b fun _ pc _ => htasks pc.pending
  · refine count_carried_le b fun w pc _ => ?_
    cases pc with
    | taken task => exact hf task
    | running task => exact hg w task
    | ready | blocked | woken | exiting | exited => exact Nat.le_refl _

end Shared
end ServerKit.Threads
