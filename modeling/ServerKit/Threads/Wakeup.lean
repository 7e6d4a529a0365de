import ServerKit.Threads.Queue

/-! Wake-ups of the workers. `notEmpty` carries two messages, that a task has come and that a thread
should exit, and a worker that is woken up for the first may take it for the second. -/
namespace ServerKit.Threads
open ServerKit.Lib

/-- A worker that has not left its loop. -/
def WorkerPc.Live : WorkerPc → Prop
  | .exiting | .exited => False
  | _ => True

/-- There are tasks, but all workers wait and none of them has been woken up. -/
def Stranded (s : State) : Prop :=
  s.pool.shutdown = false ∧ 0 < s.pool.queueSize ∧ ∀ w ∈ s.workers, w.Live → w = .blocked

/-- The steps that leave a task behind: a worker that has been woken up exits although there are
tasks and all other workers wait, or a task is added when there is no worker. -/
def Strands (s : State) : Action → Prop
  | .relock w => s.pool.shutdown = false ∧ 0 < s.pool.queueSize ∧ s.pool.exitNum > 0 ∧
      s.pool.liveNum > s.pool.minNum ∧
      ∀ v pc, v ≠ w → s.workers[v]? = some pc → pc.Live → pc = .blocked
  | .add _ => s.pool.shutdown = false ∧ s.pool.queueSize ≠ s.pool.queueCapacity ∧
      ∀ w ∈ s.workers, ¬ w.Live
  | _ => False

section Lists
variable {l : List WorkerPc} {w : ℕ} {pc pc' : WorkerPc}

theorem mem_set_self_of_getElem? (hw : l[w]? = some pc) : pc' ∈ l.set w pc' := by
  obtain ⟨hlt,-⟩ := List.getElem?_eq_some_iff.mp hw
  exact List.mem_set hlt pc'

theorem signal_workers {l' : List WorkerPc} (h : Signal WorkerPc.wake l l') :
    .woken ∈ l' ∨ (l' = l ∧ ∀ pc ∈ l, pc ≠ .blocked) := by
  cases h with
  | @woken i x y hi hx =>
    cases x <;> simp [WorkerPc.wake] at hx
    exact .inl (hx ▸ mem_set_self_of_getElem? hi)
  | lost h =>
    refine .inr ⟨rfl,fun pc hpc heq => ?_⟩
    have hnone := h pc hpc
    rw [heq] at hnone
    cases hnone

theorem mem_set_of_ne {v : ℕ} (hv : l[v]? = some pc) (hvw : v ≠ w) : pc ∈ l.set w pc' := by
  refine List.mem_of_getElem? (i := v) ?_
  rwa [List.getElem?_set_ne hvw.symm]

theorem exists_of_mem_set (h : pc ∈ l.set w pc') :
    pc = pc' ∨ ∃ v, v ≠ w ∧ l[v]? = some pc := by
  obtain ⟨v,hv⟩ := List.mem_iff_getElem?.mp h
  by_cases hvw : v = w
  · subst hvw
    obtain ⟨hlt,hget⟩ := List.getElem?_eq_some_iff.mp hv
    exact .inl (by rw [← hget, List.getElem_set_self])
  · exact .inr ⟨v,hvw,by rwa [List.getElem?_set_ne (Ne.symm hvw)] at hv⟩

end Lists

section Steps
variable {s s' : State} {a : Action} {w : ℕ}

/-- A worker comes to a place in its loop where it does not wait. -/
theorem not_stranded_of_set {pc pc' : WorkerPc} (hw : s.workers[w]? = some pc)
    (hset : s'.workers = s.workers.set w pc') (hlive : pc'.Live) (hpc : pc' ≠ .blocked) :
    ¬ Stranded s' := fun h =>
  hpc (h.2.2 pc' (hset ▸ mem_set_self_of_getElem? hw) hlive)

/-- A signal has found no worker that waits if a task is stranded after it. -/
theorem Stranded.signal_lost (hs' : Stranded s') (h : Signal WorkerPc.wake s.workers s'.workers) :
    s'.workers = s.workers ∧ ∀ pc ∈ s.workers, pc ≠ .blocked := by
  obtain hwoken | hlost := signal_workers h
  · have hblocked : WorkerPc.woken = .blocked := hs'.2.2 .woken hwoken trivial
    cases hblocked
  · exact hlost

/-- A worker that leaves the lock from the test has taken a task, or there is none. -/
theorem WorkerLeaves.not_stranded {e : ℤ} {pc : WorkerPc} (hw : s.workers[w]? = some pc)
    (h : WorkerLeaves s w (workerTest { s.pool with exitNum := e }) s') : ¬ Stranded s' := by
  obtain ⟨hempty,-,hend⟩ | ⟨hdown,hend⟩ | ⟨-,-,hend⟩ := workerTest_cases { s.pool with exitNum := e }
  · rw [hend] at h
    cases h
    exact fun hs => hs.2.1.ne' hempty
  · rw [hend] at h
    cases h
    exact fun hs => Bool.false_ne_true (hs.1.symm.trans hdown)
  · rw [hend] at h
    cases h
    exact not_stranded_of_set hw rfl trivial (by simp)

theorem WorkerStep.stranded (h : WorkerStep s a s') (hs' : Stranded s') :
    Stranded s ∨ Strands s a := by
  cases h with
  | lock hw leaves => exact absurd hs' (WorkerLeaves.not_stranded (e := s.pool.exitNum) hw leaves)
  | @relock w s' hw leaves =>
    obtain ⟨hexit,hlive,hend⟩ | ⟨-,e,hend⟩ := workerWoken_cases s.pool
    · rw [hend] at leaves
      cases leaves
      refine .inr ⟨hs'.1,hs'.2.1,hexit,hlive,fun v pc hvw hv hpc => ?_⟩
      exact hs'.2.2 pc (mem_set_of_ne hv hvw) hpc
    · rw [hend] at leaves
      exact absurd hs' (leaves.not_stranded hw)
  | spurious hw => exact absurd hs' (not_stranded_of_set hw rfl trivial (by simp))
  | busy hw => exact absurd hs' (not_stranded_of_set hw rfl trivial (by simp))
  | unbusy hw => exact absurd hs' (not_stranded_of_set hw rfl trivial (by simp))
  | @threadExit w hw =>
    refine .inl ⟨hs'.1,hs'.2.1,fun pc hpc hlive => ?_⟩
    obtain ⟨v,hv⟩ := List.mem_iff_getElem?.mp hpc
    refine hs'.2.2 pc (mem_set_of_ne hv ?_) hlive
    rintro rfl
    rw [hw] at hv
    cases hv
    exact hlive

theorem ProducerStep.stranded (h : ProducerStep s a s') (hs' : Stranded s') :
    Stranded s ∨ Strands s a := by
  cases h with
  | call hp => exact .inl hs'
  | @add p task s' hp leaves =>
    obtain ⟨-,-,hend⟩ | ⟨-,hend⟩ | ⟨hfull,hdown,hend⟩ := threadPoolAdd_cases s.pool task
    · rw [hend] at leaves
      cases leaves
      exact .inl hs'
    · rw [hend] at leaves
      cases leaves
      exact .inl hs'
    · rw [hend] at leaves
      cases leaves with
      | added signal =>
        obtain ⟨hsame,hnone⟩ := hs'.signal_lost (s := s) signal
        refine .inr ⟨hdown,hfull,fun pc hpc hlive => hnone pc hpc ?_⟩
        exact hs'.2.2 pc (hsame ▸ hpc) hlive
  | spurious hp => exact .inl hs'

theorem ManagerStep.stranded (h : ManagerStep s a s') (hs' : Stranded s') : Stranded s := by
  cases h with
  | @grow queueSize liveNum busyNum hm =>
    have hqueue : (s.grow queueSize liveNum).pool.queueSize = s.pool.queueSize :=
      congrArg Queue.size (State.grow_queue queueSize liveNum)
    have hdown : (s.grow queueSize liveNum).pool.shutdown = s.pool.shutdown := by
      unfold State.grow managerGrow
      split <;> rfl
    refine ⟨hdown.symm.trans hs'.1,hqueue ▸ hs'.2.1,fun pc hpc hlive => ?_⟩
    exact hs'.2.2 pc (List.mem_append_left _ hpc) hlive
  | signal hm hi signal =>
    obtain ⟨hsame,-⟩ := hs'.signal_lost (s := s) signal
    exact ⟨hs'.1,hs'.2.1,hsame ▸ hs'.2.2⟩
  | test | count | busy | shrink | keep | loop => exact hs'

theorem DestroyStep.stranded (h : DestroyStep s a s') (hs' : Stranded s') : Stranded s := by
  cases h with
  | shutdown hd => exact absurd hs'.1 (by simp)
  | signal hd hi signal =>
    obtain ⟨hsame,-⟩ := hs'.signal_lost (s := s) signal
    exact ⟨hs'.1,hs'.2.1,hsame ▸ hs'.2.2⟩
  | join | free => exact hs'

/-- A task is left behind by the two kinds of steps only. -/
theorem Step.stranded (h : Step s a s') (hs' : Stranded s') : Stranded s ∨ Strands s a := by
  cases h with
  | worker hpool h => exact h.stranded hs'
  | producer hpool h => exact h.stranded hs'
  | manager hpool h => exact .inl (h.stranded hs')
  | destroyer h => exact .inl (h.stranded hs')

theorem relock_stranded (hs : Strands s (.relock w)) (h : WorkerStep s (.relock w) s') :
    Stranded s' := by
  obtain ⟨hdown,hsize,hexit,hlive,hall⟩ := hs
  cases h with
  | relock hw leaves =>
    obtain ⟨-,-,hend⟩ | ⟨hnot,-⟩ := workerWoken_cases s.pool
    · rw [hend] at leaves
      cases leaves
      refine ⟨hdown,hsize,fun pc hpc hpclive => ?_⟩
      obtain rfl | ⟨v,hvw,hv⟩ := exists_of_mem_set hpc
      · exact absurd hpclive id
      · exact hall v pc hvw hv hpclive
    · exact absurd ⟨hexit,hlive⟩ hnot

theorem add_stranded {p : ℕ} (hq : s.queue.Valid) (hs : Strands s (.add p))
    (h : ProducerStep s (.add p) s') : Stranded s' := by
  obtain ⟨hdown,hfull,hnone⟩ := hs
  cases h with
  | @add p task s' hp leaves =>
    obtain ⟨hfull',-⟩ | ⟨hdown',-⟩ | ⟨-,-,hend⟩ := threadPoolAdd_cases s.pool task
    · exact absurd hfull' hfull
    · exact absurd (hdown.symm.trans hdown') Bool.false_ne_true
    · rw [hend] at leaves
      cases leaves with
      | @added pool workers signal =>
        have hsize : 0 ≤ s.pool.queueSize := hq.size_nonneg
        have hworkers : workers = s.workers := by
          cases signal with
          | @woken i x y hi hx =>
            cases x <;> simp [WorkerPc.wake] at hx
            exact absurd trivial (hnone _ (List.mem_of_getElem? hi))
          | lost h => rfl
        refine ⟨hdown,by dsimp only; omega,fun pc hpc hlive => ?_⟩
        rw [hworkers] at hpc
        exact absurd hlive (hnone pc hpc)

/-- Each of these steps does leave a task behind. -/
theorem Strands.stranded (hq : s.queue.Valid) (hs : Strands s a) (h : Step s a s') : Stranded s' := by
  cases a with
  | relock w =>
    cases h with
    | worker hpool h => exact relock_stranded hs h
    | producer hpool h | manager hpool h | destroyer h => cases h
  | add p =>
    cases h with
    | producer hpool h => exact add_stranded hq hs h
    | worker hpool h | manager hpool h | destroyer h => cases h
  | lock | spuriousWorker | busy | unbusy | threadExit | call | spuriousProducer => exact hs.elim
  | managerTest | managerCount | managerBusy | managerGrow | managerShrink | managerSignal => exact hs.elim
  | managerLoop | shutdown | join | destroySignal | free => exact hs.elim

end Steps

/-- Along a run no task is ever stranded exactly if no step of the run leaves one behind. -/
theorem never_stranded_iff (taskQ : ℤ → Task) (min max : ℤ) {queueSize : ℤ} (n : ℕ)
    (hcap : 1 ≤ queueSize) (steps : List (State × Action)) (s : State)
    (h : Trace Step (start taskQ min max queueSize n) steps s) :
    ((∀ x ∈ steps, ¬ Stranded x.1) ∧ ¬ Stranded s) ↔ ∀ x ∈ steps, ¬ Strands x.1 x.2 := by
  refine h.always_iff (I := fun s => s.queue.Valid) (P := fun s => ¬ Stranded s)
    (start_valid taskQ min max n hcap) ?_ ?_ ?_ ?_
  · exact fun hs => lt_irrefl _ hs.2.1
  · exact fun s a s' hs hstep => (hstep.queue.valid hs).1
  · exact fun s a s' _ hs hnot hstep hs' => (hstep.stranded hs').elim hs hnot
  · exact fun s a s' hq hs hstep hnot => hnot (hs.stranded hq hstep)

theorem never_stranded_iff_add : ∃ steps s, Trace Step (start (fun _ => ⟨0,0⟩) 1 2 2 1) steps s ∧
    s.pool.queueSize = 1 ∧ ¬ Stranded s := by
  have h₀ : Trace Step (start (fun _ => ⟨0,0⟩) 1 2 2 1) [] _ := .nil
  have h₁ := h₀.snoc (l := .call 0 ⟨1,1⟩) (.producer (by decide) (.call rfl))
  have h₂ := h₁.snoc (l := .add 0) (.producer (by decide) (.add rfl (.added (.lost (by decide)))))
  refine ⟨_,_,h₂,rfl,((never_stranded_iff _ 1 2 1 (by decide) _ _ h₂).mpr fun x hx => ?_).2⟩
  simp only [List.nil_append, List.cons_append, List.mem_cons, List.not_mem_nil, or_false] at hx
  obtain rfl | rfl := hx
  · exact id
  · exact fun hs => hs.2.2 .ready (by decide) trivial

/-- A pool of one to two threads and two tasks at most comes to a state in which a task is stranded
while a worker waits. -/
theorem stranded_reachable : ∃ actions s, Run Step (start (fun _ => ⟨0,0⟩) 1 2 2 1) actions s ∧
    Stranded s ∧ .blocked ∈ s.workers := by
  have h₀ : Run Step (start (fun _ => ⟨0,0⟩) 1 2 2 1) [] _ := .nil
  -- two tasks are more than the one thread, so the manager adds another one
  have h₁ := h₀.snoc (l := .call 0 ⟨1,1⟩) (.producer (by decide) (.call rfl))
  have h₂ := h₁.snoc (l := .add 0) (.producer (by decide) (.add rfl (.added (.lost (by decide)))))
  have h₃ := h₂.snoc (l := .call 0 ⟨2,2⟩) (.producer (by decide) (.call rfl))
  have h₄ := h₃.snoc (l := .add 0) (.producer (by decide) (.add rfl (.added (.lost (by decide)))))
  have h₅ := h₄.snoc (l := .managerTest) (.manager (by decide) (.test rfl))
  have h₆ := h₅.snoc (l := .managerCount) (.manager (by decide) (.count rfl))
  have h₇ := h₆.snoc (l := .managerBusy) (.manager (by decide) (.busy rfl))
  have h₈ := h₇.snoc (l := .managerGrow) (.manager (by decide) (.grow rfl))
  have h₉ := h₈.snoc (l := .managerShrink) (.manager (by decide) (.keep rfl (by decide)))
  -- the first worker does both tasks
  have h₁₀ := h₉.snoc (l := .lock 0) (.worker (by decide) (.lock rfl (.take (.lost (by decide)))))
  have h₁₁ := h₁₀.snoc (l := .busy 0) (.worker (by decide) (.busy rfl))
  have h₁₂ := h₁₁.snoc (l := .unbusy 0) (.worker (by decide) (.unbusy rfl))
  have h₁₃ := h₁₂.snoc (l := .lock 0) (.worker (by decide) (.lock rfl (.take (.lost (by decide)))))
  have h₁₄ := h₁₃.snoc (l := .busy 0) (.worker (by decide) (.busy rfl))
  have h₁₅ := h₁₄.snoc (l := .unbusy 0) (.worker (by decide) (.unbusy rfl))
  -- two threads are too many now, but nobody waits yet, so both signals of the manager are lost
  have h₁₆ := h₁₅.snoc (l := .managerTest) (.manager (by decide) (.test rfl))
  have h₁₇ := h₁₆.snoc (l := .managerCount) (.manager (by decide) (.count rfl))
  have h₁₈ := h₁₇.snoc (l := .managerBusy) (.manager (by decide) (.busy rfl))
  have h₁₉ := h₁₈.snoc (l := .managerGrow) (.manager (by decide) (.grow rfl))
  have h₂₀ := h₁₉.snoc (l := .managerShrink) (.manager (by decide) (.shrink rfl (by decide)))
  have h₂₁ := h₂₀.snoc (l := .managerSignal)
    (.manager (by decide) (.signal rfl (by decide) (.lost (by decide))))
  have h₂₂ := h₂₁.snoc (l := .managerSignal)
    (.manager (by decide) (.signal rfl (by decide) (.lost (by decide))))
  have h₂₃ := h₂₂.snoc (l := .lock 0) (.worker (by decide) (.lock rfl .wait))
  have h₂₄ := h₂₃.snoc (l := .lock 1) (.worker (by decide) (.lock rfl .wait))
  -- the third task wakes the first worker up, which exits
  have h₂₅ := h₂₄.snoc (l := .call 0 ⟨3,3⟩) (.producer (by decide) (.call rfl))
  have h₂₆ := h₂₅.snoc (l := .add 0)
    (.producer (by decide) (.add rfl (.added (.woken (i := 0) rfl rfl))))
  have h₂₇ := h₂₆.snoc (l := .relock 0) (.worker (by decide) (.relock rfl .exit))
  refine ⟨_,_,h₂₇,⟨rfl,by decide,fun w hw hlive => ?_⟩,by decide⟩
  have hw' : w ∈ [WorkerPc.exiting,.blocked] := hw
  obtain rfl | hw' := List.mem_cons.mp hw'
  · exact absurd hlive id
  · exact List.mem_singleton.mp hw'

end ServerKit.Threads
