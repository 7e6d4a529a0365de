import ServerKit.Threads.Managed

/-! What `stop` of `zero_threadpool/threadpool.cpp` brings about: it returns when no worker is left, and from
then on no task is executed. -/
namespace ServerKit.Threads.ZeroPool
open ServerKit.Lib ServerKit.Lib.Pthreads

section Code
variable {mem mem' : Memory} {i n : ℕ} {l l' : Place}

/-- A thread that is not about to take a task out can put one in, or finish the one that it has got. -/
theorem Does.halted (h : Does mem l l' mem') (hl : l.committed = false) :
    (∃ new, mem'.tasks = mem.tasks ++ new) ∧
      (∀ k ∈ mem'.finished, k ∈ mem.finished ∨ ∃ task, l.task = some task ∧ task.serial = k) ∧
      ∀ task, l'.task = some task → l.task = some task := by
  cases h with
  | quiet a hrun htask =>
    exact ⟨⟨[],(List.append_nil _).symm⟩,fun _ => .inl,fun _ => htask ▸ id⟩
  | push expireTime heq heq' =>
    subst heq'
    exact ⟨⟨[⟨mem.submitted,expireTime⟩],rfl⟩,fun _ => .inl,nofun⟩
  | pop task heq =>
    subst heq
    cases hl
  | finish task htask heq' =>
    subst heq'
    refine ⟨⟨[],(List.append_nil _).symm⟩,fun k hk => ?_,nofun⟩
    obtain rfl | hk := List.mem_cons.mp hk
    · exact .inr ⟨task,htask,rfl⟩
    · exact .inl hk

/-- A call of `waitForAllDone` that has not yet found the queue empty. -/
def Place.Asks (millsecond : ℤ) : Place → Prop
  | .call millsecond' => millsecond' = millsecond
  | .waitForAllDone c .lock | .waitForAllDone c .empty | .waitForAllDone c .test
  | .waitForAllDone c .wait => c.millsecond = millsecond
  | _ => False

/-- Without a time limit the call stays in its loop as long as there are tasks. -/
theorem Place.Asks.goes {millsecond : ℤ} (hasks : l.Asks millsecond) (hnegative : millsecond < 0)
    (htasks : mem.tasks ≠ []) (h : (code i l).Leads n mem l' mem') : l'.Asks millsecond := by
  have hsome : mem.tasks.isEmpty = false := by simpa using htasks
  cases l with
  | call =>
    cases h
    exact hasks
  | waitForAllDone call pc =>
    cases pc with
    | lock | wait =>
      cases h
      exact hasks
    | empty =>
      cases h
      have hlimit : call.millsecond < 0 := lt_of_eq_of_lt hasks hnegative
      simp [isEmpty,hsome,hlimit]
      exact hasks
    | test =>
      cases h
      simp [isEmpty,hsome]
      exact hasks
    | testFor | waitFor | wokenFor | lastFor | unlock | done => exact hasks.elim
  | idle | ended | exec | run => exact hasks.elim

end Code

namespace Lifecycle

/-- Behind `notify_all`. -/
def StopPc.signalled : StopPc → Bool
  | .lock | .terminate | .notify => false
  | _ => true

/-- Behind the loop that joins the workers. -/
def StopPc.joined : StopPc → Bool
  | .lockAgain | .clear | .unlockAgain => true
  | _ => false

/-- The task that a thread has got and that is not finished. -/
def holding (s : State) (i : ℕ) : Option Task :=
  match s.place i with
  | some (.pool l) => l.task
  | _ => none

/-- Since the pool was stopped in the state `s₀`, no task has been taken out of the queue, and only those that
a worker had got have been finished. -/
structure Halted (s₀ s : State) : Prop where
  managed : Managed s
  stopped : s.mem.memory.bTerminate = true
  tasks : ∃ new, s.mem.memory.tasks = s₀.mem.memory.tasks ++ new
  holding : ∀ i task, holding s i = some task → ∃ j, holding s₀ j = some task
  finished : ∀ k ∈ s.mem.memory.finished, k ∈ s₀.mem.memory.finished ∨
    ∃ j task, Lifecycle.holding s₀ j = some task ∧ task.serial = k

section Halted
variable {s₀ s s' : State} {i : ℕ} {label : Label}

theorem holding_eq {l : ZeroPool.Place} (hi : s.place i = some (.pool l)) : holding s i = l.task := by
  unfold holding
  rw [hi]

theorem holding_congr (hi : s'.place i = s.place i) : holding s' i = holding s i := by
  unfold holding
  rw [hi]

/-- A statement of the pool when no thread is about to take a task out. -/
theorem Halted.within (h : Halted s₀ s) (hmanaged : Managed s') {l l' : ZeroPool.Place}
    (hi : s.place i = some (.pool l)) (hdoes : Does s.mem.memory l l' s'.mem.memory)
    (hplace : s'.place i = some (.pool l')) (hothers : ∀ j, j ≠ i → s'.place j = s.place j) :
    Halted s₀ s' := by
  obtain ⟨⟨new',hnew'⟩,hfinished,htask⟩ := hdoes.halted (h.managed.halted h.stopped i l hi)
  obtain ⟨new,hnew⟩ := h.tasks
  refine ⟨hmanaged,hdoes.bTerminate.trans h.stopped,⟨new ++ new',?_⟩,fun j task hj => ?_,fun k hk => ?_⟩
  · rw [hnew', hnew, List.append_assoc]
  · apply h.holding j task
    obtain rfl | hne := eq_or_ne j i
    · rw [holding_eq hplace] at hj
      rw [holding_eq hi]
      exact htask task hj
    · rwa [holding_congr (hothers j hne)] at hj
  · obtain hk | ⟨task,hl,rfl⟩ := hfinished k hk
    · exact h.finished k hk
    · obtain ⟨j,hj⟩ := h.holding i task ((holding_eq hi).trans hl)
      exact .inr ⟨j,task,hj,rfl⟩

/-- A step at which the memory of the pool stays, and no thread comes to have a task. -/
theorem Halted.silent (h : Halted s₀ s) (hmanaged : Managed s') (hmem : s'.mem.memory = s.mem.memory)
    (hholding : ∀ j, Lifecycle.holding s' j = Lifecycle.holding s j ∨ Lifecycle.holding s' j = none) :
    Halted s₀ s' := by
  refine ⟨hmanaged,hmem ▸ h.stopped,hmem ▸ h.tasks,fun j task hj => ?_,hmem ▸ h.finished⟩
  obtain hsame | hnone := hholding j
  · exact h.holding j task (hsame ▸ hj)
  · cases hnone.symm.trans hj

theorem Halted.step (h : Halted s₀ s) (hstep : Pthreads.Step code s label s') : Halted s₀ s' := by
  have hmanaged := h.managed.step hstep
  cases hstep.moves with
  | silent hmem hplace =>
    exact h.silent hmanaged (congrArg Pool.memory hmem) fun j => .inl (holding_congr (hplace j))
  | @goes i l g l' _ hi hleads hplace hothers =>
    -- a new thread has no task
    have hothers' (j : ℕ) (hj : j ≠ i) : Lifecycle.holding s' j = Lifecycle.holding s j ∨
        Lifecycle.holding s' j = none := by
      obtain hsame | ⟨-,hstarts⟩ := hothers j hj
      · exact .inl (holding_congr hsame)
      · right
        cases hstart : (code i l).starts with
        | none =>
          unfold Lifecycle.holding
          rw [hstarts, hstart]
        | some start =>
          obtain ⟨rfl,-⟩ := code_starts hstart
          exact holding_eq (hstarts.trans hstart)
    cases l with
    | pool l =>
      have hnone (j : ℕ) (hj : j ≠ i) : s'.place j = s.place j := by
        obtain hsame | ⟨hnew,hstarts⟩ := hothers j hj
        · exact hsame
        · have hout : s.place j = none := by
            by_contra hin
            exact place_ne hin hnew
          rw [hstarts, hout]
          by_contra hsome
          obtain ⟨start,hstart⟩ := Option.ne_none_iff_exists'.mp hsome
          obtain ⟨-,pc,heq⟩ := code_starts hstart
          cases heq
      have hmoves := pool_moves hleads
      cases hmoves with
      | within hcode => exact h.within hmanaged (place_eq hi) (code_does hcode) hplace hnone
      | returns hl hmemory =>
        refine h.silent hmanaged hmemory fun j => ?_
        obtain rfl | hne := eq_or_ne j i
        · right
          unfold Lifecycle.holding
          rw [hplace]
        · exact hothers' j hne
    | owner pc =>
      obtain ⟨pc₀,hfirst,hpc⟩ := h.managed.first
      obtain rfl := h.managed.single i pc (place_eq hi)
      cases (place_eq hi).symm.trans hfirst
      obtain ⟨pc',hmoves⟩ := owner_moves hleads hpc
      have hmem : s'.mem.memory = s.mem.memory := by
        obtain hmem | ⟨-,-,hmem⟩ := hmoves.memory
        · exact hmem
        · rw [hmem, ← h.stopped]
      refine h.silent hmanaged hmem fun j => ?_
      obtain rfl | hne := eq_or_ne j 0
      · right
        unfold Lifecycle.holding
        rw [hplace, hmoves.place]
      · exact hothers' j hne
    | gone => cases hleads
  | @exits i l g _ hi hcode hmem hplace hothers =>
    refine h.silent hmanaged (congrArg Pool.memory hmem) fun j => ?_
    obtain rfl | hne := eq_or_ne j i
    · right
      unfold Lifecycle.holding
      rw [hplace]
    · exact .inl (holding_congr (hothers j hne))

end Halted

section Results
variable (m : ℕ) {ls ls₀ : List Label} {s s₀ : State}

theorem managed_run (h : Run (Pthreads.Step code) (created m) ls s) : Managed s :=
  h.invariant (managed_created m) fun _ _ _ hs => hs.step

/-- Behind its `notify_all`, `stop` never waits for a worker that sleeps; behind its loop, no worker is left;
and it finds no NULL in `threads`. -/
theorem stop_joins (h : Run (Pthreads.Step code) (created m) ls s) :
    s.place 0 ≠ some (.owner .crashed) ∧ ∀ pc, s.place 0 = some (.owner (.stop pc)) →
      (pc.signalled = true → ∀ t ∈ s.threads, ¬ Asleep t) ∧
      (pc.joined = true → ∀ i pc', s.place i ≠ some (.pool (.run pc'))) := by
  have hs := managed_run m h
  obtain ⟨pc₀,hfirst,hholds⟩ := hs.first
  rw [hfirst]
  refine ⟨?_,fun pc hpc => ⟨fun hsignalled => ?_,fun hjoined i pc' hi => ?_⟩⟩
  · rintro ⟨⟩
    exact hholds
  · cases hpc
    apply hs.awake
    · cases pc with
      | lock | terminate | notify => cases hsignalled
      | unlock | loop | join | delete | lockAgain | clear | unlockAgain => exact hholds.1
    · rw [hfirst]
      rintro ⟨⟩
      cases hsignalled
  · cases hpc
    have hin := hs.workers i pc' hi
    cases pc with
    | lockAgain | clear => cases hholds.2 _ hin
    | unlockAgain =>
      rw [hholds.2] at hin
      cases hin
    | lock | terminate | notify | unlock | loop | join | delete => cases hjoined

/-- From the moment that `stop` sets `_bTerminate` on, whatever is submitted and however often the pool is
started again, no task is taken out of the queue, and none is executed that a worker had not got before. -/
theorem stopped_executes_nothing (h₀ : Run (Pthreads.Step code) (created m) ls₀ s₀)
    (hstop : s₀.mem.memory.bTerminate = true) (h : Run (Pthreads.Step code) s₀ ls s) :
    (∃ new, s.mem.memory.tasks = s₀.mem.memory.tasks ++ new) ∧
      ∀ k ∈ s.mem.memory.finished, k ∈ s₀.mem.memory.finished ∨ ∃ i pc task,
        s₀.place i = some (.pool (.run pc)) ∧ pc.task = some task ∧ task.serial = k := by
  have hstart : Halted s₀ s₀ :=
    ⟨managed_run m h₀,hstop,⟨[],(List.append_nil _).symm⟩,fun j task hj => ⟨j,hj⟩,fun _ => .inl⟩
  have hs : Halted s₀ s := h.invariant hstart fun _ _ _ hs => hs.step
  refine ⟨hs.tasks,fun k hk => ?_⟩
  obtain hk | ⟨i,task,hi,rfl⟩ := hs.finished k hk
  · exact .inl hk
  · right
    unfold holding at hi
    split at hi
    · next l hl =>
      cases l with
      | run pc => exact ⟨i,pc,task,hl,hi,rfl⟩
      | idle | ended | exec | call | waitForAllDone => cases hi
    · cases hi

/-- A call of `waitForAllDone` without a time limit does not return any more when the pool has been stopped
with tasks in the queue. -/
theorem stopped_waits_forever {millsecond : ℤ} {i : ℕ} {l₀ : ZeroPool.Place}
    (h₀ : Run (Pthreads.Step code) (created m) ls₀ s₀) (hstop : s₀.mem.memory.bTerminate = true)
    (htasks : s₀.mem.memory.tasks ≠ []) (hnegative : millsecond < 0)
    (hi : s₀.place i = some (.pool l₀)) (hasks : l₀.Asks millsecond)
    (h : Run (Pthreads.Step code) s₀ ls s) : ∃ l, s.place i = some (.pool l) ∧ l.Asks millsecond := by
  have hstart : Halted s₀ s₀ :=
    ⟨managed_run m h₀,hstop,⟨[],(List.append_nil _).symm⟩,fun j task hj => ⟨j,hj⟩,fun _ => .inl⟩
  suffices hboth : Halted s₀ s ∧ ∃ l, s.place i = some (.pool l) ∧ l.Asks millsecond from hboth.2
  refine h.invariant (P := fun s => Halted s₀ s ∧ ∃ l, s.place i = some (.pool l) ∧ l.Asks millsecond)
    ⟨hstart,l₀,hi,hasks⟩ ?_
  rintro s label s' ⟨hs,l,hl,hasks⟩ hstep
  refine ⟨hs.step hstep,?_⟩
  have hsome : s.mem.memory.tasks ≠ [] := by
    obtain ⟨new,hnew⟩ := hs.tasks
    rw [hnew]
    exact fun hnil => htasks (List.append_eq_nil_iff.mp hnil).1
  cases hstep.moves with
  | silent hmem hplace => exact ⟨l,(hplace i).trans hl,hasks⟩
  | @goes j l₁ g l' _ hj hleads hplace hothers =>
    obtain rfl | hne := eq_or_ne i j
    · cases (place_eq hj).symm.trans hl
      have hmoves := pool_moves hleads
      cases hmoves with
      | within hcode => exact ⟨_,hplace,hasks.goes hnegative hsome hcode⟩
      | returns heq =>
        subst heq
        exact hasks.elim
    · obtain hsame | ⟨hnew,-⟩ := hothers i hne
      · exact ⟨l,hsame.trans hl,hasks⟩
      · exact absurd hnew (place_ne (hl ▸ nofun))
  | @exits j l₁ g _ hj hcode hmem hplace hothers =>
    obtain rfl | hne := eq_or_ne i j
    · cases (place_eq hj).symm.trans hl
      cases code_exit hcode
    · exact ⟨l,(hothers i hne).trans hl,hasks⟩

end Results

section Sample

/-- The owner starts one worker, which has nothing to do, and stops the pool as far as the join. -/
theorem reached_join : ∃ ls s, Run (Pthreads.Step code) (created 0) ls s ∧
    s.place 0 = some (.owner (.stop (.join 0))) ∧ s.mem.memory.bTerminate = true := by
  have hcall : Run (Pthreads.Step code) (created 0) _ _ := Run.nil.snoc
    (.choose (i := 0) rfl rfl (.inr (.inl rfl)))
  have hlock := hcall.snoc (.lock (i := 0) rfl rfl rfl)
  have hloop := (hlock.snoc (.act (i := 0) rfl rfl)).snoc (.act (i := 0) rfl rfl)
  have hcreate := hloop.snoc (.spawn (i := 0) rfl rfl)
  have hstarted := (hcreate.snoc (.act (i := 0) rfl rfl)).snoc (.unlock (i := 0) rfl rfl)
  have hcall' := hstarted.snoc (.choose (i := 0) rfl rfl (.inr (.inr rfl)))
  have hlock' := hcall'.snoc (.lock (i := 0) rfl rfl rfl)
  have hnotify := (hlock'.snoc (.act (i := 0) rfl rfl)).snoc (.broadcast (i := 0) rfl rfl)
  have hjoin := (hnotify.snoc (.unlock (i := 0) rfl rfl)).snoc (.act (i := 0) rfl rfl)
  exact ⟨_,_,hjoin,rfl,rfl⟩

theorem stop_joins_one : ∃ ls s, Run (Pthreads.Step code) (created 0) ls s ∧
    s.place 0 = some (.owner (.stop (.join 0))) ∧ ∀ t ∈ s.threads, ¬ Asleep t := by
  obtain ⟨ls,s,hrun,hplace,-⟩ := reached_join
  exact ⟨ls,s,hrun,hplace,((stop_joins 0 hrun).2 _ hplace).1 rfl⟩

/-- A thread has submitted a task and is going to wait for it, when the owner has set `_bTerminate`. -/
def stopping (locked g g' : Unit → Bool) : State :=
  ⟨⟨⟨[⟨0,0⟩],true,0,1,[]⟩,1,[],[]⟩,locked,
    [⟨.running (.owner (.stop .notify)),g⟩,⟨.running (.pool (.call (-1))),g'⟩]⟩

theorem reached_stopping : ∃ ls locked g g',
    Run (Pthreads.Step code) (created 1) ls (stopping locked g g') := by
  have hcall : Run (Pthreads.Step code) (created 1) _ _ := Run.nil.snoc
    (.choose (i := 1) rfl rfl ⟨_,.inl ⟨0,rfl⟩,rfl⟩)
  have hpush := (hcall.snoc (.lock (i := 1) rfl rfl rfl)).snoc (.act (i := 1) rfl rfl)
  have hnotify := hpush.snoc (.signal (i := 1) rfl rfl (.lost (by simp [created,Thread.wake])))
  have hexec := hnotify.snoc (.unlock (i := 1) rfl rfl)
  have hstop := hexec.snoc (.choose (i := 0) rfl rfl (.inr (.inr rfl)))
  have hlock := hstop.snoc (.lock (i := 0) rfl rfl rfl)
  have hterminate := hlock.snoc (.act (i := 0) rfl rfl)
  have hwait := hterminate.snoc (.choose (i := 1) rfl rfl ⟨_,.inr (.inl ⟨-1,rfl⟩),rfl⟩)
  exact ⟨_,_,_,_,hwait⟩

/-- The owner goes on, and the thread waits. -/
theorem reached_waiting : ∃ ls₀ s₀ ls s, Run (Pthreads.Step code) (created 1) ls₀ s₀ ∧
    s₀.mem.memory.bTerminate = true ∧ s₀.mem.memory.tasks = [⟨0,0⟩] ∧
    s₀.place 1 = some (.pool (.call (-1))) ∧ Run (Pthreads.Step code) s₀ ls s ∧
    s.place 0 = some (.owner (.stop (.loop 0))) ∧
    s.place 1 = some (.pool (.waitForAllDone ⟨-1,1⟩ .test)) := by
  obtain ⟨ls₀,locked,g,g',hrun⟩ := reached_stopping
  have hbroadcast : Run (Pthreads.Step code) (stopping locked g g') _ _ := Run.nil.snoc
    (.broadcast (i := 0) rfl rfl)
  have hsignalled := hbroadcast.snoc (.unlock (i := 0) rfl rfl)
  have hempty := (hsignalled.snoc (.act (i := 1) rfl rfl)).snoc (.lock (i := 1) rfl rfl rfl)
  have htest := (hempty.snoc (.act (i := 1) rfl rfl)).snoc (.act (i := 1) rfl rfl)
  exact ⟨_,_,_,_,hrun,rfl,rfl,rfl,htest.snoc (.wait (i := 1) rfl rfl),rfl,rfl⟩

theorem stopped_executes_nothing_one : ∃ ls₀ s₀ ls s, Run (Pthreads.Step code) (created 1) ls₀ s₀ ∧
    s₀.mem.memory.tasks = [⟨0,0⟩] ∧ Run (Pthreads.Step code) s₀ ls s ∧
      s.place 0 = some (.owner (.stop (.loop 0))) ∧
      (∃ new, s.mem.memory.tasks = s₀.mem.memory.tasks ++ new) ∧
      ∀ k ∈ s.mem.memory.finished, k ∈ s₀.mem.memory.finished ∨ ∃ i pc task,
        s₀.place i = some (.pool (.run pc)) ∧ pc.task = some task ∧ task.serial = k := by
  obtain ⟨ls₀,s₀,ls,s,hrun,hstop,htasks,-,hrun',hloop,-⟩ := reached_waiting
  exact ⟨ls₀,s₀,ls,s,hrun,htasks,hrun',hloop,stopped_executes_nothing 1 hrun hstop hrun'⟩

theorem stopped_waits_forever_one : ∃ ls₀ s₀ ls s, Run (Pthreads.Step code) (created 1) ls₀ s₀ ∧
    s₀.mem.memory.tasks = [⟨0,0⟩] ∧ Run (Pthreads.Step code) s₀ ls s ∧
      s.place 1 = some (.pool (.waitForAllDone ⟨-1,1⟩ .test)) ∧
      ∃ l, s.place 1 = some (.pool l) ∧ l.Asks (-1) := by
  obtain ⟨ls₀,s₀,ls,s,hrun,hstop,htasks,hcall,hrun',-,htest⟩ := reached_waiting
  refine ⟨ls₀,s₀,ls,s,hrun,htasks,hrun',htest,?_⟩
  refine stopped_waits_forever 1 hrun hstop ?_ (by decide) hcall rfl hrun'
  rw [htasks]
  exact List.cons_ne_nil _ _

end Sample
end Lifecycle
end ServerKit.Threads.ZeroPool
