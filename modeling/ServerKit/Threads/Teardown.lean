import ServerKit.Threads.Counts

/-! The end of a pool. `threadPoolDestroy` waits for the manager and signals `notEmpty`, but it waits for
no worker, and for no thread that is in `threadPoolAdd`. -/
namespace ServerKit.Threads
open ServerKit.Lib

/-- Every worker has left its loop and `threadExit`, and no producer is in `threadPoolAdd`. -/
structure Vacated (s : State) : Prop where
  workers : ∀ pc ∈ s.workers, pc = .exited
  producers : ∀ pc ∈ s.producers, pc = .idle

/-- What a thread does next, whether the pool is still there or not. -/
inductive ThreadStep (s : State) (a : Action) (s' : State) : Prop
  | worker (h : WorkerStep s a s')
  | producer (h : ProducerStep s a s')
  | manager (h : ManagerStep s a s')

/-- A producer enters `threadPoolAdd`. All other steps of the threads work on the pool. -/
def Action.Calls : Action → Prop
  | .call _ _ => True
  | _ => False

/-- No thread ever takes a step that works on the pool. -/
def Unused (s : State) : Prop := ∀ later s', Run ThreadStep s later s' → ∀ a ∈ later, a.Calls

/-- A step, but no call of `threadPoolAdd`. -/
def QuietStep (s : State) (a : Action) (s' : State) : Prop := Step s a s' ∧ ¬ a.Calls

/-- The manager has not looked at `shutdown` since its last test, and it will start a thread. -/
def ManagerStarts (s : State) : Prop :=
  match s.manager with
  | .sleeping => (managerGrow s.pool (s.workers.length+1) s.pool.queueSize s.pool.liveNum).2 ≠ 0
  | .counted queueSize liveNum | .sampled queueSize liveNum _ =>
    (managerGrow s.pool (s.workers.length+1) queueSize liveNum).2 ≠ 0
  | _ => False

/-- Nobody uses the pool, and the manager will not start a thread any more. -/
structure Quiet (s : State) : Prop where
  vacated : Vacated s
  manager : ¬ ManagerStarts s

section Kept
variable {s s' : State} {a : Action}

theorem Vacated.signal (h : Vacated s) {workers : List WorkerPc}
    (signal : Signal WorkerPc.wake s.workers workers) : workers = s.workers := by
  cases signal with
  | @woken i x y hi hx =>
    rw [h.workers x (List.mem_of_getElem? hi)] at hx
    cases hx
  | lost => rfl

/-- The threads that start are counted the same before and after the shutdown. -/
theorem managerGrow_shutdown (pool : ThreadPool) (tid : ThreadId) (queueSize liveNum : ℤ) (b : Bool) :
    (managerGrow { pool with shutdown := b } tid queueSize liveNum).2 =
      (managerGrow pool tid queueSize liveNum).2 := by
  unfold managerGrow
  split <;> rfl

theorem WorkerStep.not_vacated (h : WorkerStep s a s') (hs : Vacated s) : False := by
  obtain ⟨w,pc,pc',task,hw,hmove,-⟩ := h.move
  have hpc := hs.workers pc (List.mem_of_getElem? hw)
  rw [hpc] at hmove
  cases hmove

/-- The producers that are outside can only call `threadPoolAdd`. -/
theorem ProducerStep.calls (h : ProducerStep s a s') (hs : Vacated s) : a.Calls := by
  cases h with
  | call => trivial
  | add hp leaves => cases hs.producers _ (List.mem_of_getElem? hp)
  | spurious hp => cases hs.producers _ (List.mem_of_getElem? hp)

theorem ManagerStep.quiet (h : ManagerStep s a s') (hs : Quiet s) (hdown : s.pool.shutdown = true) :
    Quiet s' ∧ s'.pool.shutdown = true := by
  obtain ⟨hvacated,hmanager⟩ := hs
  cases h with
  | test hm => exact ⟨⟨⟨hvacated.workers,hvacated.producers⟩,by simp [ManagerStarts,hdown]⟩,hdown⟩
  | count hm | busy hm =>
    exact ⟨⟨⟨hvacated.workers,hvacated.producers⟩,by simpa [ManagerStarts,hm] using hmanager⟩,hdown⟩
  | @grow queueSize liveNum busyNum hm =>
    have hnone : (managerGrow s.pool (s.workers.length+1) queueSize liveNum).2 = 0 := by
      simpa [ManagerStarts,hm] using hmanager
    have hgrown : GrownTo s.pool (s.workers.length+1)
        (managerGrow s.pool (s.workers.length+1) queueSize liveNum) := managerGrow_grownTo
    obtain ⟨ids',-,hpool⟩ := hgrown
    have hworkers : (s.grow queueSize liveNum).workers = s.workers := by
      simp [State.grow,hnone]
    refine ⟨⟨⟨?_,hvacated.producers⟩,id⟩,?_⟩
    · change ∀ pc ∈ (s.grow queueSize liveNum).workers, pc = .exited
      rw [hworkers]
      exact hvacated.workers
    · change (managerGrow s.pool (s.workers.length+1) queueSize liveNum).1.shutdown = true
      rw [hpool]
      exact hdown
  | shrink | keep | loop => exact ⟨⟨⟨hvacated.workers,hvacated.producers⟩,id⟩,hdown⟩
  | signal hm hi signal =>
    rw [hvacated.signal signal]
    exact ⟨⟨⟨hvacated.workers,hvacated.producers⟩,id⟩,hdown⟩

theorem DestroyStep.quiet (h : DestroyStep s a s') (hs : Quiet s) (hstart : s.destroyer ≠ .idle)
    (hdown : s.pool.shutdown = true) : Quiet s' ∧ s'.pool.shutdown = true := by
  obtain ⟨hvacated,hmanager⟩ := hs
  cases h with
  | shutdown hd => exact absurd hd hstart
  | join | free => exact ⟨⟨⟨hvacated.workers,hvacated.producers⟩,hmanager⟩,hdown⟩
  | signal hd hi signal =>
    rw [hvacated.signal signal]
    exact ⟨⟨⟨hvacated.workers,hvacated.producers⟩,hmanager⟩,hdown⟩

theorem DestroyStep.not_idle (h : DestroyStep s a s') : s'.destroyer ≠ .idle := by
  cases h <;> simp

theorem ManagerStep.not_done (h : ManagerStep s a s') : s.manager ≠ .done := by
  intro hdone
  cases h <;> simp_all

/-- Behind the call the manager has ended. -/
theorem DestroyStep.joined (h : DestroyStep s a s') (hs : s.destroyer = .joining ∨ s.manager = .done)
    (hstart : s.destroyer ≠ .idle) : s'.manager = .done := by
  cases h with
  | shutdown hd => exact absurd hd hstart
  | join hd hm => exact hm
  | signal hd hi signal => exact hs.resolve_left (hd.trans_ne nofun)
  | free hd hi => exact hs.resolve_left (hd.trans_ne nofun)

/-- What holds from the shutdown on, if the pool was quiet. -/
structure Ending (s : State) : Prop where
  quiet : Quiet s
  shutdown : s.pool.shutdown = true
  started : s.destroyer ≠ .idle
  joined : s.destroyer = .joining ∨ s.manager = .done

/-- Unless `threadPoolAdd` is called, a quiet pool stays quiet. -/
theorem QuietStep.ending (h : QuietStep s a s') (hs : Ending s) : Ending s' := by
  obtain ⟨hstep,hcalls⟩ := h
  cases hstep with
  | worker hpool h => exact absurd hs.quiet.vacated h.not_vacated
  | producer hpool h => exact absurd (h.calls hs.quiet.vacated) hcalls
  | manager hpool h =>
    obtain ⟨hquiet',hdown'⟩ := h.quiet hs.quiet hs.shutdown
    refine ⟨hquiet',hdown',h.destroyer_eq ▸ hs.started,?_⟩
    rw [h.destroyer_eq]
    refine hs.joined.imp_right fun hdone => ?_
    exact absurd hdone h.not_done
  | destroyer h =>
    obtain ⟨hquiet',hdown'⟩ := h.quiet hs.quiet hs.started hs.shutdown
    exact ⟨hquiet',hdown',h.not_idle,.inr (h.joined hs.joined hs.started)⟩

/-- After the join only a call can come. -/
theorem Ending.calls (hs : Ending s) (hfreed : s.destroyer = .freed) (h : ThreadStep s a s') : a.Calls := by
  have hdone := hs.joined.resolve_left (hfreed.trans_ne nofun)
  cases h with
  | worker h => exact absurd hs.quiet.vacated h.not_vacated
  | producer h => exact h.calls hs.quiet.vacated
  | manager h => exact absurd hdone h.not_done

theorem Quiet.shutdown (hs : Quiet s) (h : Step s .shutdown s') : Ending s' := by
  obtain ⟨hvacated,hmanager⟩ := hs
  cases h with
  | worker hpool h | producer hpool h | manager hpool h => cases h
  | destroyer h =>
    cases h with
    | shutdown hd =>
      refine ⟨⟨⟨hvacated.workers,hvacated.producers⟩,?_⟩,rfl,nofun,.inl rfl⟩
      simpa only [ManagerStarts, managerGrow_shutdown] using hmanager

end Kept

section Left
variable {s s' : State} {a : Action}

/-- A thread is left behind: only steps of its own would take it away. -/
theorem Vacated.of_signal {workers : List WorkerPc} (signal : Signal WorkerPc.wake s.workers workers)
    (h : ∀ pc ∈ workers, pc = .exited) : ∀ pc ∈ s.workers, pc = .exited := by
  cases signal with
  | @woken i x y hi hx =>
    have hy : y = .exited := h y (List.mem_set (List.getElem?_eq_some_iff.mp hi).1 y)
    cases x <;> simp [WorkerPc.wake] at hx
    rw [hy] at hx
    cases hx
  | lost => exact h

theorem ManagerStep.vacated (h : ManagerStep s a s') (hs' : Vacated s') : Vacated s := by
  obtain ⟨hworkers,hproducers⟩ := hs'
  cases h with
  | grow hm => exact ⟨fun pc hpc => hworkers pc (List.mem_append_left _ hpc),hproducers⟩
  | signal hm hi signal => exact ⟨Vacated.of_signal signal hworkers,hproducers⟩
  | test | count | busy | shrink | keep | loop => exact ⟨hworkers,hproducers⟩

theorem DestroyStep.vacated (h : DestroyStep s a s') (hs' : Vacated s') : Vacated s := by
  obtain ⟨hworkers,hproducers⟩ := hs'
  cases h with
  | signal hd hi signal => exact ⟨Vacated.of_signal signal hworkers,hproducers⟩
  | shutdown | join | free => exact ⟨hworkers,hproducers⟩

theorem State.grow_not_vacated {queueSize liveNum : ℤ}
    (h : (managerGrow s.pool (s.workers.length+1) queueSize liveNum).2 ≠ 0) :
    ¬ ∀ pc ∈ (s.grow queueSize liveNum).workers, pc = .exited := by
  intro hall
  have hmem : WorkerPc.ready ∈ (s.grow queueSize liveNum).workers :=
    List.mem_append_right _ (List.mem_replicate.mpr ⟨h,rfl⟩)
  cases hall _ hmem

end Left

section Finish
variable {s : State}

/-- Without a call of `threadPoolAdd`, the pool is freed with a thread left behind. -/
def FreesEarly (s : State) : Prop :=
  ∃ actions s', Run QuietStep s actions s' ∧ s'.destroyer = .freed ∧ ¬ Vacated s'

theorem FreesEarly.cons {s' : State} {a : Action} (h : QuietStep s a s') (hs' : FreesEarly s') :
    FreesEarly s := by
  obtain ⟨actions,s'',hrun,hfreed,hleft⟩ := hs'
  exact ⟨a :: actions,s'',hrun.cons h,hfreed,hleft⟩

theorem FreesEarly.destroyer {s' : State} {a : Action} (h : DestroyStep s a s') (hs' : FreesEarly s') :
    FreesEarly s :=
  .cons ⟨.destroyer h,by cases h <;> exact not_false⟩ hs'

theorem FreesEarly.manager {s' : State} {a : Action} (hpool : s.destroyer ≠ .freed) (h : ManagerStep s a s')
    (hs' : FreesEarly s') : FreesEarly s :=
  .cons ⟨.manager hpool h,by cases h <;> exact not_false⟩ hs'

/-- The signals of `threadPoolDestroy`. -/
theorem freesEarly_of_signalling {i : ℤ} (hd : s.destroyer = .signalling i) (hleft : ¬ Vacated s) :
    FreesEarly s := by
  generalize hk : (s.pool.liveNum-i).toNat = k
  induction k generalizing s i with
  | zero =>
    have hfree : DestroyStep s .free { s with destroyer := .freed } := .free hd (by omega)
    exact .destroyer hfree ⟨[],_,.nil,rfl,fun h => hleft (hfree.vacated h)⟩
  | succ k ih =>
    obtain ⟨workers,signal⟩ := Signal.exists WorkerPc.wake s.workers
    have hsignal : DestroyStep s .destroySignal
        { s with workers := workers, destroyer := .signalling (i+1) } := .signal hd (by omega) signal
    refine .destroyer hsignal (ih rfl (fun h => hleft (hsignal.vacated h)) ?_)
    change (s.pool.liveNum-(i+1)).toNat = k
    omega

theorem freesEarly_of_done (hjoin : s.destroyer = .joining) (hm : s.manager = .done)
    (hleft : ¬ Vacated s) : FreesEarly s := by
  have hstep : DestroyStep s .join { s with destroyer := .signalling 0 } := .join hjoin hm
  exact .destroyer hstep (freesEarly_of_signalling rfl fun h => hleft (hstep.vacated h))

variable (hdown : s.pool.shutdown = true) (hjoin : s.destroyer = .joining)
include hdown hjoin

theorem freesEarly_of_test (hm : s.manager = .test) (hleft : ¬ Vacated s) : FreesEarly s := by
  have hstep := ManagerStep.test hm
  refine .manager (by simp [hjoin]) hstep ?_
  exact freesEarly_of_done hjoin (by simp [hdown]) fun h => hleft (hstep.vacated h)

theorem freesEarly_of_managerSignals {i : ℕ} (hm : s.manager = .signalling i) (hleft : ¬ Vacated s) :
    FreesEarly s := by
  generalize hk : NUMBER-i = k
  induction k generalizing s i with
  | zero =>
    have hstep : ManagerStep s .managerLoop { s with manager := .test } := .loop hm (by omega)
    exact .manager (by simp [hjoin]) hstep
      (freesEarly_of_test hdown hjoin rfl fun h => hleft (hstep.vacated h))
  | succ k ih =>
    obtain ⟨workers,signal⟩ := Signal.exists WorkerPc.wake s.workers
    have hstep : ManagerStep s .managerSignal
        { s with workers := workers, manager := .signalling (i+1) } := .signal hm (by omega) signal
    exact .manager (by simp [hjoin]) hstep
      (ih hdown hjoin rfl (fun h => hleft (hstep.vacated h)) (by omega))

theorem freesEarly_of_grown {liveNum busyNum : ℤ} (hm : s.manager = .grown liveNum busyNum)
    (hleft : ¬ Vacated s) : FreesEarly s := by
  have hpool : s.destroyer ≠ .freed := by simp [hjoin]
  by_cases hshrink : busyNum*2 < liveNum ∧ liveNum > s.pool.minNum
  · have hstep := ManagerStep.shrink hm hshrink
    exact .manager hpool hstep
      (freesEarly_of_managerSignals hdown hjoin rfl fun h => hleft (hstep.vacated h))
  · have hstep := ManagerStep.keep hm hshrink
    exact .manager hpool hstep
      (freesEarly_of_test hdown hjoin rfl fun h => hleft (hstep.vacated h))

theorem freesEarly_of_sampled {queueSize liveNum busyNum : ℤ}
    (hm : s.manager = .sampled queueSize liveNum busyNum) (hleft : ¬ Quiet s) : FreesEarly s := by
  have hstep := ManagerStep.grow hm
  have hgrown : GrownTo s.pool (s.workers.length+1)
      (managerGrow s.pool (s.workers.length+1) queueSize liveNum) := managerGrow_grownTo
  obtain ⟨ids',-,hpool⟩ := hgrown
  refine .manager (by simp [hjoin]) hstep (freesEarly_of_grown ?_ hjoin rfl ?_)
  · change (managerGrow s.pool (s.workers.length+1) queueSize liveNum).1.shutdown = true
    rw [hpool]
    exact hdown
  · intro hs'
    refine hleft ⟨hstep.vacated hs',fun hstarts => ?_⟩
    simp only [ManagerStarts, hm] at hstarts
    exact State.grow_not_vacated hstarts hs'.workers

theorem freesEarly_of_counted {queueSize liveNum : ℤ} (hm : s.manager = .counted queueSize liveNum)
    (hleft : ¬ Quiet s) : FreesEarly s := by
  have hstep := ManagerStep.busy hm
  refine .manager (by simp [hjoin]) hstep (freesEarly_of_sampled hdown hjoin rfl ?_)
  rintro ⟨hvacated,hmanager⟩
  exact hleft ⟨hstep.vacated hvacated,by simpa [ManagerStarts,hm] using hmanager⟩

theorem freesEarly_of_sleeping (hm : s.manager = .sleeping) (hleft : ¬ Quiet s) : FreesEarly s := by
  have hstep := ManagerStep.count hm
  refine .manager (by simp [hjoin]) hstep (freesEarly_of_counted hdown hjoin rfl ?_)
  rintro ⟨hvacated,hmanager⟩
  exact hleft ⟨hstep.vacated hvacated,by simpa [ManagerStarts,hm] using hmanager⟩

/-- Wherever the manager is. -/
theorem freesEarly (hleft : ¬ Quiet s) : FreesEarly s := by
  have hvacated : ¬ ManagerStarts s → ¬ Vacated s := fun hmanager h => hleft ⟨h,hmanager⟩
  cases hm : s.manager with
  | test => exact freesEarly_of_test hdown hjoin hm (hvacated (by simp [ManagerStarts,hm]))
  | sleeping => exact freesEarly_of_sleeping hdown hjoin hm hleft
  | counted => exact freesEarly_of_counted hdown hjoin hm hleft
  | sampled => exact freesEarly_of_sampled hdown hjoin hm hleft
  | grown => exact freesEarly_of_grown hdown hjoin hm (hvacated (by simp [ManagerStarts,hm]))
  | signalling => exact freesEarly_of_managerSignals hdown hjoin hm (hvacated (by simp [ManagerStarts,hm]))
  | done => exact freesEarly_of_done hjoin hm (hvacated (by simp [ManagerStarts,hm]))

end Finish

section Destroy
variable {s s' : State} {a : Action}

/-- From the call of `threadPoolDestroy` on, the pool is freed with a thread left behind. -/
theorem freesEarly_of_idle (hidle : s.destroyer = .idle) (hquiet : ¬ Quiet s) :
    ∃ actions s', Run QuietStep s (.shutdown :: actions) s' ∧ s'.destroyer = .freed ∧ ¬ Vacated s' := by
  have hstep : QuietStep s .shutdown
      { s with pool := { s.pool with shutdown := true }, destroyer := .joining } :=
    ⟨.destroyer (.shutdown hidle),not_false⟩
  have hquiet' : ¬ Quiet { s with
      pool := { s.pool with shutdown := true }, destroyer := .joining } := by
    rintro ⟨hvacated,hmanager⟩
    refine hquiet ⟨⟨hvacated.workers,hvacated.producers⟩,?_⟩
    simpa only [ManagerStarts, managerGrow_shutdown] using hmanager
  obtain ⟨actions',s',hrun,hfreed,hleft⟩ := freesEarly rfl rfl hquiet'
  exact ⟨actions',s',hrun.cons hstep,hfreed,hleft⟩

/-- A producer that calls `threadPoolAdd` when the pool is shut down already is left behind, too. -/
theorem freesEarly_of_call (hidle : s.destroyer = .idle) (hs : Vacated s) (hproducers : s.producers ≠ []) :
    ∃ actions s', Run Step s (.shutdown :: actions) s' ∧ s'.destroyer = .freed ∧ ¬ Vacated s' := by
  obtain ⟨pc,producers,hcons⟩ := List.exists_cons_of_ne_nil hproducers
  have hpc : s.producers[0]? = some .idle := by
    rw [hcons, ← hs.producers pc (hcons ▸ List.mem_cons_self), List.getElem?_cons_zero]
  let down : State := { s with pool := { s.pool with shutdown := true }, destroyer := .joining }
  have hshutdown : Step s .shutdown down := .destroyer (.shutdown hidle)
  let entered : State := { down with producers := down.producers.set 0 (.ready ⟨0,0⟩) }
  have hcall : Step down (.call 0 ⟨0,0⟩) entered := .producer nofun (.call hpc)
  have hleft : ¬ Quiet entered := by
    rintro ⟨⟨-,hidle'⟩,-⟩
    cases hidle' (.ready ⟨0,0⟩) (List.mem_set (List.getElem?_eq_some_iff.mp hpc).1 _)
  obtain ⟨actions,s',hrun,hfreed,hleft'⟩ := freesEarly (s := entered) rfl rfl hleft
  exact ⟨_,s',((hrun.mono fun _ _ _ h => h.1).cons hcall).cons hshutdown,hfreed,hleft'⟩

theorem WorkerLeaves.no_producers {w : ℕ} {r : WorkerEnd} (h : WorkerLeaves s w r s')
    (hs : s.producers = []) : s'.producers = [] := by
  cases h with
  | wait | exit => exact hs
  | take signal =>
    cases signal with
    | woken hi hx =>
      rw [hs, List.getElem?_nil] at hi
      cases hi
    | lost => exact hs

/-- Without producers nobody calls `threadPoolAdd`. -/
theorem ThreadStep.no_producers (h : ThreadStep s a s') (hs : s.producers = []) :
    s'.producers = [] ∧ ¬ a.Calls := by
  have hnone : ∀ (p : ℕ) (pc : ProducerPc), s.producers[p]? ≠ some pc := by
    intro p pc hp
    rw [hs, List.getElem?_nil] at hp
    cases hp
  cases h with
  | worker h =>
    cases h with
    | lock hw leaves | relock hw leaves => exact ⟨leaves.no_producers hs,not_false⟩
    | spurious | busy | unbusy | threadExit => exact ⟨hs,not_false⟩
  | producer h =>
    cases h with
    | call hp => exact absurd hp (hnone _ _)
    | add hp => exact absurd hp (hnone _ _)
    | spurious hp => exact absurd hp (hnone _ _)
  | manager h => cases h <;> exact ⟨hs,not_false⟩

theorem Step.no_producers (h : Step s a s') (hs : s.producers = []) : s'.producers = [] ∧ ¬ a.Calls := by
  cases h with
  | worker hpool h => exact (ThreadStep.worker h).no_producers hs
  | producer hpool h => exact (ThreadStep.producer h).no_producers hs
  | manager hpool h => exact (ThreadStep.manager h).no_producers hs
  | destroyer h => cases h <;> exact ⟨hs,not_false⟩

theorem run_no_producers {actions : List Action} (h : Run Step s actions s') (hs : s.producers = []) :
    Run QuietStep s actions s' ∧ s'.producers = [] := by
  induction h with
  | nil => exact ⟨.nil,hs⟩
  | snoc _ last ih =>
    obtain ⟨hrun,hs₁⟩ := ih
    obtain ⟨hs₂,hcalls⟩ := last.no_producers hs₁
    exact ⟨hrun.snoc ⟨last,hcalls⟩,hs₂⟩

theorem Ending.unused (hs : Ending s) (hfreed : s.destroyer = .freed) (hproducers : s.producers = []) :
    Unused s := by
  intro later s' hrun
  cases later with
  | nil => exact List.forall_mem_nil _
  | cons a later =>
    obtain ⟨s₁,hfirst,-⟩ := hrun.of_cons rfl
    exact absurd (hs.calls hfreed hfirst) (hfirst.no_producers hproducers).2

end Destroy

/-- If the pool is quiet when `threadPoolDestroy` is called, no later step of a thread uses it, but for
those behind a call of `threadPoolAdd`. -/
theorem vacated_iff (taskQ : ℤ → Task) (min max queueSize : ℤ) (n : ℕ) :
    ∀ actions s, Run Step (start taskQ min max queueSize n) actions s → s.destroyer = .idle →
      ((∀ actions' s', Run Step s (.shutdown :: actions') s' → s'.destroyer = .freed →
        Vacated s' ∧ Unused s') ↔ Quiet s ∧ s.producers = []) ∧
      ((∀ actions' s', Run QuietStep s (.shutdown :: actions') s' → s'.destroyer = .freed →
        Vacated s' ∧ ∀ a s'', ThreadStep s' a s'' → a.Calls) ↔ Quiet s) := by
  intro actions s _ hidle
  have hcalm : ∀ actions' s', Run QuietStep s (.shutdown :: actions') s' → s'.destroyer = .freed →
      Quiet s → Ending s' := by
    intro actions' s' hrun _ hquiet
    obtain ⟨s₁,hfirst,hrest⟩ := hrun.of_cons rfl
    exact hrest.invariant (hquiet.shutdown hfirst.1) fun _ _ _ hs hstep => hstep.ending hs
  refine ⟨⟨fun hall => ?_,?_⟩,fun hall => ?_,?_⟩
  · have hquiet : Quiet s := by
      by_contra hquiet
      obtain ⟨actions',s',hrun,hfreed,hleft⟩ := freesEarly_of_idle hidle hquiet
      exact hleft (hall _ s' (hrun.mono fun _ _ _ h => h.1) hfreed).1
    refine ⟨hquiet,?_⟩
    by_contra hproducers
    obtain ⟨actions',s',hrun,hfreed,hleft⟩ := freesEarly_of_call hidle hquiet.vacated hproducers
    exact hleft (hall _ s' hrun hfreed).1
  · rintro ⟨hquiet,hproducers⟩ actions' s' hrun hfreed
    -- nobody can call
    have hruns : Run QuietStep s (.shutdown :: actions') s' ∧ s'.producers = [] :=
      run_no_producers hrun hproducers
    have hending := hcalm _ s' hruns.1 hfreed hquiet
    exact ⟨hending.quiet.vacated,hending.unused hfreed hruns.2⟩
  · by_contra hquiet
    obtain ⟨actions',s',hrun,hfreed,hleft⟩ := freesEarly_of_idle hidle hquiet
    exact hleft (hall _ s' hrun hfreed).1
  · intro hquiet actions' s' hrun hfreed
    have hending := hcalm _ s' hrun hfreed hquiet
    exact ⟨hending.quiet.vacated,fun _ _ => hending.calls hfreed⟩

/-- A pool that has done a task and whose only thread has left again is quiet. -/
theorem vacated_iff_used : ∃ actions s, Run Step (start (fun _ => ⟨0,0⟩) 0 1 1 1) actions s ∧
    s.taken = [⟨1,1⟩] ∧ s.workers = [.exited] ∧ Quiet s ∧
    ((∀ actions' s', Run Step s (.shutdown :: actions') s' → s'.destroyer = .freed →
      Vacated s' ∧ Unused s') ↔ Quiet s ∧ s.producers = []) ∧
    ((∀ actions' s', Run QuietStep s (.shutdown :: actions') s' → s'.destroyer = .freed →
      Vacated s' ∧ ∀ a s'', ThreadStep s' a s'' → a.Calls) ↔ Quiet s) := by
  have h₀ : Run Step (start (fun _ => ⟨0,0⟩) 0 1 1 1) [] _ := .nil
  have h₁ := h₀.snoc (l := .call 0 ⟨1,1⟩) (.producer (by decide) (.call rfl))
  have h₂ := h₁.snoc (l := .add 0) (.producer (by decide) (.add rfl (.added (.lost (by decide)))))
  have h₃ := h₂.snoc (l := .managerTest) (.manager (by decide) (.test rfl))
  have h₄ := h₃.snoc (l := .managerCount) (.manager (by decide) (.count rfl))
  have h₅ := h₄.snoc (l := .managerBusy) (.manager (by decide) (.busy rfl))
  have h₆ := h₅.snoc (l := .managerGrow) (.manager (by decide) (.grow rfl))
  have h₇ := h₆.snoc (l := .managerShrink) (.manager (by decide) (.keep rfl (by decide)))
  -- the thread does the task and waits
  have h₈ := h₇.snoc (l := .lock 0) (.worker (by decide) (.lock rfl (.take (.lost (by decide)))))
  have h₉ := h₈.snoc (l := .busy 0) (.worker (by decide) (.busy rfl))
  have h₁₀ := h₉.snoc (l := .unbusy 0) (.worker (by decide) (.unbusy rfl))
  have h₁₁ := h₁₀.snoc (l := .lock 0) (.worker (by decide) (.lock rfl .wait))
  -- it is not needed any more
  have h₁₂ := h₁₁.snoc (l := .managerTest) (.manager (by decide) (.test rfl))
  have h₁₃ := h₁₂.snoc (l := .managerCount) (.manager (by decide) (.count rfl))
  have h₁₄ := h₁₃.snoc (l := .managerBusy) (.manager (by decide) (.busy rfl))
  have h₁₅ := h₁₄.snoc (l := .managerGrow) (.manager (by decide) (.grow rfl))
  have h₁₆ := h₁₅.snoc (l := .managerShrink) (.manager (by decide) (.shrink rfl (by decide)))
  have h₁₇ := h₁₆.snoc (l := .managerSignal)
    (.manager (by decide) (.signal rfl (by decide) (.woken (i := 0) rfl rfl)))
  have h₁₈ := h₁₇.snoc (l := .relock 0) (.worker (by decide) (.relock rfl .exit))
  have h₁₉ := h₁₈.snoc (l := .threadExit 0) (.worker (by decide) (.threadExit rfl))
  have h₂₀ := h₁₉.snoc (l := .managerSignal)
    (.manager (by decide) (.signal rfl (by decide) (.lost (by decide))))
  have h₂₁ := h₂₀.snoc (l := .managerLoop) (.manager (by decide) (.loop rfl (by decide)))
  refine ⟨_,_,h₂₁,rfl,rfl,⟨⟨by decide,by decide⟩,id⟩,?_⟩
  exact vacated_iff (fun _ => ⟨0,0⟩) 0 1 1 1 _ _ h₂₁ rfl

/-- The pool is freed while its worker is in a task, and then the worker takes the lock of `busyNum`. -/
theorem freed_in_use : ∃ actions s, Run Step (start (fun _ => ⟨0,0⟩) 1 1 1 1) actions s ∧
    s.destroyer = .freed ∧ s.workers = [.running ⟨1,1⟩] ∧ ¬ Vacated s ∧
    (∃ s', ThreadStep s (.unbusy 0) s') ∧ ¬ Unused s := by
  have h₀ : Run Step (start (fun _ => ⟨0,0⟩) 1 1 1 1) [] _ := .nil
  have h₁ := h₀.snoc (l := .call 0 ⟨1,1⟩) (.producer (by decide) (.call rfl))
  have h₂ := h₁.snoc (l := .add 0) (.producer (by decide) (.add rfl (.added (.lost (by decide)))))
  have h₃ := h₂.snoc (l := .lock 0) (.worker (by decide) (.lock rfl (.take (.lost (by decide)))))
  have h₄ := h₃.snoc (l := .busy 0) (.worker (by decide) (.busy rfl))
  have h₅ := h₄.snoc (l := .shutdown) (.destroyer (.shutdown rfl))
  have h₆ := h₅.snoc (l := .managerTest) (.manager (by decide) (.test rfl))
  have h₇ := h₆.snoc (l := .join) (.destroyer (.join rfl rfl))
  have h₈ := h₇.snoc (l := .destroySignal) (.destroyer (.signal rfl (by decide) (.lost (by decide))))
  have h₉ := h₈.snoc (l := .free) (.destroyer (.free rfl (by decide)))
  refine ⟨_,_,h₉,rfl,rfl,fun hs => ?_,⟨_,.worker (.unbusy rfl)⟩,fun hs => ?_⟩
  · cases hs.workers (.running ⟨1,1⟩) (by decide)
  · exact hs [.unbusy 0] _ (Run.nil.snoc (.worker (.unbusy rfl))) (.unbusy 0) (by decide)

/-- With `minNum` at least 1 there is always a thread, so no pool is ever quiet. -/
theorem not_quiet (taskQ : ℤ → Task) {min max : ℤ} (queueSize : ℤ) (n : ℕ) (hmin : 1 ≤ min)
    (hle : min ≤ max) {actions : List Action} {s : State}
    (h : Run Step (start taskQ min max queueSize n) actions s) (hidle : s.destroyer = .idle) :
    ¬ Quiet s := by
  intro hquiet
  have hcounted := run_counted taskQ queueSize n (show 0 ≤ min by omega) hle h hidle
  have hlive := hcounted.live
  have hmin_le := hcounted.min_le
  have hzero : s.workers.countP WorkerPc.isLive = 0 := by
    refine List.countP_eq_zero.mpr fun pc hpc => ?_
    rw [hquiet.vacated.workers pc hpc]
    exact Bool.false_ne_true
  omega

end ServerKit.Threads
