import ServerKit.Threads.ZeroPool

/-! What is finished when `waitForAllDone` of `zero_threadpool/threadpool.cpp` returns true. -/
namespace ServerKit.Threads.ZeroPool
open Function ServerKit.Lib ServerKit.Lib.Pthreads

/-- The task that a worker has got and that is not finished. -/
def RunPc.task : RunPc → Option Task
  | .unlockTrue task | .increment task | .expire task | .skip task | .func task => some task
  | _ => none

def Place.task : Place → Option Task
  | .run pc => pc.task
  | _ => none

def Place.isRun : Place → Bool
  | .run _ => true
  | _ => false

/-- How many tasks had been submitted before the call that the thread is in. -/
def Place.before : Place → Option ℕ
  | .waitForAllDone c _ => some c.before
  | _ => none

/-- The same of a call that is going to return true. -/
def Place.promised : Place → Option ℕ
  | .waitForAllDone c (.unlock true) => some c.before
  | .waitForAllDone c (.done true) => some c.before
  | _ => none

/-- The task that the thread `i` has got. -/
def held (s : Config Memory Unit Unit Place) (i : ℕ) : Option Task := (s.place i).bind Place.task

namespace Memory

/-- How many tasks the workers have got. -/
def popped (mem : Memory) : ℕ := mem.submitted-mem.tasks.length

def push (mem : Memory) (expireTime : ℤ) : Memory :=
  { mem with tasks := mem.tasks ++ [⟨mem.submitted,expireTime⟩], submitted := mem.submitted+1 }

def pop (mem : Memory) : Memory := { mem with tasks := mem.tasks.tail }

def finish (mem : Memory) (task : Task) : Memory :=
  { mem with finished := task.serial :: mem.finished }

end Memory

/-- The tasks are got in the order of their submission. One that has been got is finished, or one thread
has it. -/
structure Accounted (mem : Memory) (held : ℕ → Option Task) : Prop where
  length : mem.tasks.length ≤ mem.submitted
  queue : mem.tasks.map (·.serial) = List.range' mem.popped mem.tasks.length
  finished : ∀ k ∈ mem.finished, k < mem.popped
  got : ∀ i task, held i = some task → task.serial < mem.popped ∧ task.serial ∉ mem.finished
  once : ∀ i j task task', held i = some task → held j = some task' → task.serial = task'.serial → i = j
  all : ∀ k < mem.popped, k ∈ mem.finished ∨ ∃ i task, held i = some task ∧ task.serial = k

section Accounted
variable {mem : Memory} {held : ℕ → Option Task} {i : ℕ} {task : Task}

theorem Accounted.atomic (h : Accounted mem held) (a : ℤ) : Accounted { mem with atomic := a } held :=
  ⟨h.length,h.queue,h.finished,h.got,h.once,h.all⟩

theorem Accounted.push (h : Accounted mem held) (expireTime : ℤ) :
    Accounted (mem.push expireTime) held := by
  have hlength := h.length
  have hlast : mem.submitted = mem.popped+mem.tasks.length := (Nat.sub_add_cancel hlength).symm
  have hnew : (mem.push expireTime).tasks.length = mem.tasks.length+1 := List.length_append
  have hpopped : (mem.push expireTime).popped = mem.popped := by
    unfold Memory.popped
    rw [hnew]
    exact Nat.add_sub_add_right ..
  refine ⟨?_,?_,hpopped ▸ h.finished,hpopped ▸ h.got,h.once,hpopped ▸ h.all⟩
  · rw [hnew]
    exact Nat.succ_le_succ hlength
  · rw [hpopped, hnew, List.range'_1_concat, ← hlast, ← h.queue]
    exact List.map_append

/-- A thread that has no task gets the first one. -/
theorem Accounted.pop (h : Accounted mem held) (hi : held i = none) (hhead : mem.tasks.head? = some task) :
    Accounted mem.pop (update held i (some task)) := by
  obtain ⟨rest,htasks⟩ := List.head?_eq_some_iff.mp hhead
  have hlength := h.length
  have hqueue := h.queue
  rw [htasks, List.length_cons] at hlength
  rw [htasks, List.map_cons, List.length_cons, List.range'_succ] at hqueue
  obtain ⟨hserial,hrest⟩ := List.cons.inj hqueue
  have hnew : mem.pop.tasks = rest := congrArg List.tail htasks
  have hpopped : mem.pop.popped = mem.popped+1 := by
    have hsubmitted : mem.pop.submitted = mem.submitted := rfl
    unfold Memory.popped
    rw [hnew, htasks, List.length_cons, hsubmitted]
    omega
  constructor
  · rw [hnew]
    exact Nat.le_of_succ_le hlength
  · rw [hpopped, hnew]
    exact hrest
  · rw [hpopped]
    exact fun k hk => Nat.lt_succ_of_lt (h.finished k hk)
  · rw [hpopped]
    intro j task' hj
    obtain rfl | hne := eq_or_ne j i
    · rw [update_self] at hj
      obtain rfl := Option.some.inj hj
      rw [hserial]
      exact ⟨Nat.lt_succ_self _,fun hin => Nat.lt_irrefl _ (h.finished _ hin)⟩
    · rw [update_of_ne hne] at hj
      obtain ⟨hlt,hnot⟩ := h.got j task' hj
      exact ⟨Nat.lt_succ_of_lt hlt,hnot⟩
  · intro j j' t t' hj hj' heq
    -- no other thread has a task with the number of the first one
    have hother {j : ℕ} {t : Task} (hne : j ≠ i) (hj : update held i (some task) j = some t) :
        t.serial ≠ task.serial := by
      rw [update_of_ne hne] at hj
      rw [hserial]
      exact (h.got j t hj).1.ne
    obtain rfl | hne := eq_or_ne j i
    · rw [update_self] at hj
      obtain rfl := Option.some.inj hj
      by_contra hne'
      exact hother (Ne.symm hne') hj' heq.symm
    · obtain rfl | hne' := eq_or_ne j' i
      · rw [update_self] at hj'
        obtain rfl := Option.some.inj hj'
        exact absurd heq (hother hne hj)
      · rw [update_of_ne hne] at hj
        rw [update_of_ne hne'] at hj'
        exact h.once j j' t t' hj hj' heq
  · rw [hpopped]
    intro k hk
    obtain rfl | hlt := Nat.lt_succ_iff_lt_or_eq.mp hk |>.symm
    · exact .inr ⟨i,task,update_self ..,hserial⟩
    · refine (h.all k hlt).imp_right ?_
      rintro ⟨j,t,hj,ht⟩
      refine ⟨j,t,?_,ht⟩
      rw [update_of_ne, hj]
      rintro rfl
      rw [hi] at hj
      cases hj

theorem Accounted.finish (h : Accounted mem held) (hi : held i = some task) :
    Accounted (mem.finish task) (update held i none) := by
  have hother {j : ℕ} {t : Task} (hj : update held i none j = some t) : j ≠ i ∧ held j = some t := by
    obtain rfl | hne := eq_or_ne j i
    · rw [update_self] at hj
      cases hj
    · rw [update_of_ne hne] at hj
      exact ⟨hne,hj⟩
  refine ⟨h.length,h.queue,?_,?_,?_,?_⟩
  · intro k hk
    obtain rfl | hk := List.mem_cons.mp hk
    · exact (h.got i task hi).1
    · exact h.finished k hk
  · intro j t hj
    obtain ⟨hne,hj⟩ := hother hj
    obtain ⟨hlt,hnot⟩ := h.got j t hj
    refine ⟨hlt,fun hin => ?_⟩
    obtain heq | hin := List.mem_cons.mp hin
    · exact hne (h.once j i t task hj hi heq)
    · exact hnot hin
  · intro j j' t t' hj hj'
    exact h.once j j' t t' (hother hj).2 (hother hj').2
  · intro k hk
    obtain hin | ⟨j,t,hj,rfl⟩ := h.all k hk
    · exact .inl (List.mem_cons_of_mem _ hin)
    · obtain rfl | hne := eq_or_ne j i
      · obtain rfl := Option.some.inj (hi.symm.trans hj)
        exact .inl List.mem_cons_self
      · exact .inr ⟨j,t,(update_of_ne hne ..).trans hj,rfl⟩

end Accounted

/-- What a statement does: nothing to the tasks, or a task is submitted, got or finished. -/
inductive Does (mem : Memory) (l l' : Place) : Memory → Prop
  | quiet (a : ℤ) (hrun : l'.isRun = true → l.isRun = true) (htask : l'.task = l.task)
      (hpop : ∀ task, l' = .run (.pop task) → mem.tasks.head? = some task)
      (hbefore : ∀ k, l'.before = some k → k = mem.submitted ∨ l.before = some k)
      (hpromised : ∀ k, l'.promised = some k → l.promised = some k ∨ mem.tasks = [] ∧ l.before = some k) :
      Does mem l l' { mem with atomic := a }
  | push (expireTime : ℤ) (hl : l = .exec expireTime .push) (hl' : l' = .exec expireTime .notify) :
      Does mem l l' (mem.push expireTime)
  | pop (task : Task) (hl : l = .run (.pop task)) (hl' : l' = .run (.unlockTrue task)) :
      Does mem l l' mem.pop
  | finish (task : Task) (hl : l.task = some task) (hl' : l' = .run .decrement) :
      Does mem l l' (mem.finish task)

section Does
variable {mem mem' : Memory} {n : ℕ} {l' : Place}

/-- A statement of a worker, or of a thread outside of `waitForAllDone`. -/
theorem Does.apart {l : Place} (a : ℤ) (hrun : l'.isRun = true → l.isRun = true)
    (htask : l'.task = l.task) (hbefore : l'.before = none) (hpromised : l'.promised = none)
    (hpop : ∀ task, l' ≠ .run (.pop task)) : Does mem l l' { mem with atomic := a } := by
  refine .quiet a hrun htask (fun task heq => absurd heq (hpop task)) (fun k hk => ?_) fun k hk => ?_
  · rw [hbefore] at hk
    cases hk
  · rw [hpromised] at hk
    cases hk

theorem exec_does {expireTime : ℤ} {pc : ExecPc} (h : (exec expireTime pc).Leads n mem l' mem') :
    Does mem (.exec expireTime pc) l' mem' := by
  cases pc with
  | push =>
    cases h
    exact .push expireTime rfl rfl
  | lock | notify | unlock =>
    cases h
    exact .apart mem.atomic id rfl rfl rfl nofun

/-- A call that goes on returns true only when it has seen the queue empty. -/
theorem Does.calling {call : Call} {pc pc' : AllDonePc}
    (h : (Place.waitForAllDone call pc').promised = (Place.waitForAllDone call pc).promised ∨
      mem.tasks = [] ∨ (Place.waitForAllDone call pc').promised = none) :
    Does mem (.waitForAllDone call pc) (.waitForAllDone call pc') mem := by
  refine .quiet mem.atomic id rfl nofun (fun k => Or.inr) fun k hk => ?_
  obtain heq | hnil | hnone := h
  · exact .inl (heq ▸ hk)
  · have hbefore : (Place.waitForAllDone call pc').promised = some k → call.before = k := by
      unfold Place.promised
      split
      · next heq =>
        cases heq
        exact Option.some.inj
      · next heq =>
        cases heq
        exact Option.some.inj
      · nofun
    exact .inr ⟨hnil,congrArg some (hbefore hk)⟩
  · rw [hnone] at hk
    cases hk

theorem waitForAllDone_does {call : Call} {pc : AllDonePc}
    (h : (waitForAllDone call pc).Leads n mem l' mem') : Does mem (.waitForAllDone call pc) l' mem' := by
  have hempty (hnil : mem.tasks.isEmpty = true) : mem.tasks = [] := List.isEmpty_iff.mp hnil
  cases pc with
  | empty =>
    cases h
    simp only [Logged.val_bind, Logged.state_bind, Logged.val_ite, Logged.state_ite, Logged.val_pure,
      Logged.state_pure, ite_self]
    split
    · next hnil => exact .calling (.inr (.inl (hempty hnil)))
    · split <;> exact .calling (.inr (.inr rfl))
  | test | testFor =>
    cases h
    simp only [Logged.val_bind, Logged.state_bind, Logged.val_pure, Logged.state_pure]
    split
    · next hnil => exact .calling (.inr (.inl (hempty hnil)))
    · exact .calling (.inr (.inr rfl))
  | lastFor =>
    cases h
    simp only [Logged.val_bind, Logged.state_bind, Logged.val_pure, Logged.state_pure]
    cases hnil : Logged.val isEmpty mem with
    | true => exact .calling (.inr (.inl (hempty hnil)))
    | false => exact .calling (.inr (.inr rfl))
  | wokenFor =>
    cases h with
    | choose hl => obtain rfl | rfl := hl <;> exact .calling (.inr (.inr rfl))
  | unlock result =>
    cases h
    refine .calling (.inl ?_)
    cases result <;> rfl
  | done result =>
    cases h with
    | choose hl =>
      obtain rfl := hl
      exact .apart mem.atomic id rfl rfl rfl nofun
  | lock | wait | waitFor =>
    cases h
    exact .calling (.inr (.inr rfl))

theorem run_does {pc : RunPc} (h : (run pc).Leads n mem l' mem') : Does mem (.run pc) l' mem' := by
  cases pc with
  | isTerminate =>
    cases h
    simp only [Logged.val_bind, Logged.state_bind, Logged.val_ite, Logged.state_ite, Logged.val_pure,
      Logged.state_pure, ite_self]
    split <;> exact .apart mem.atomic (fun _ => rfl) rfl rfl rfl nofun
  | empty | terminate =>
    cases h
    simp only [Logged.val_bind, Logged.state_bind, Logged.val_pure, Logged.state_pure]
    split <;> exact .apart mem.atomic (fun _ => rfl) rfl rfl rfl nofun
  | test | testDone =>
    cases h
    simp only [Logged.val_bind, Logged.state_bind, Logged.val_pure, Logged.state_pure]
    split <;> exact .apart mem.atomic (fun _ => rfl) rfl rfl rfl nofun
  | front =>
    cases h
    simp only [Logged.val_bind, Logged.state_bind, Logged.val_get, Logged.state_get]
    cases htasks : mem.tasks with
    | nil => exact .apart mem.atomic (fun _ => rfl) rfl rfl rfl nofun
    | cons task rest =>
      refine .quiet mem.atomic id rfl (fun task' heq => ?_) nofun nofun
      cases heq
      rw [htasks]
      rfl
  | pop task =>
    cases h
    exact .pop task rfl rfl
  | expire task =>
    cases h with
    | choose hl =>
      obtain ⟨now,rfl⟩ := hl
      split <;> exact .apart mem.atomic (fun _ => rfl) rfl rfl rfl nofun
  | skip task | func task =>
    cases h
    exact .finish task rfl rfl
  | increment task =>
    cases h
    exact .apart (mem.atomic+1) (fun _ => rfl) rfl rfl rfl nofun
  | decrement =>
    cases h
    exact .apart (mem.atomic-1) (fun _ => rfl) rfl rfl rfl nofun
  | lock | wait | unlockTrue | unlockFalse | lockDone | notifyDone | unlockDone =>
    cases h
    exact .apart mem.atomic (fun _ => rfl) rfl rfl rfl nofun

theorem code_does {i : ℕ} {l : Place} (h : (code i l).Leads n mem l' mem') : Does mem l l' mem' := by
  cases l with
  | idle =>
    cases h with
    | choose hl => obtain ⟨_,rfl⟩ | ⟨_,rfl⟩ | rfl := hl <;> exact .apart mem.atomic id rfl rfl rfl nofun
  | ended => cases h
  | exec expireTime pc => exact exec_does h
  | call millsecond =>
    cases h
    refine .quiet mem.atomic id rfl nofun (fun k hk => ?_) nofun
    exact .inl (Option.some.inj hk).symm
  | waitForAllDone call pc => exact waitForAllDone_does h
  | run pc => exact run_does h

end Does

def ExecPc.owned : ExecPc → Bool
  | .lock => false
  | _ => true

def AllDonePc.owned : AllDonePc → Bool
  | .lock => false
  | .done _ => false
  | _ => true

def RunPc.owned : RunPc → Bool
  | .empty | .test | .wait | .terminate | .front | .pop _ | .unlockTrue _ | .unlockFalse => true
  | .testDone | .notifyDone | .unlockDone => true
  | _ => false

/-- Whether a thread has locked the mutex at a place. -/
def owned : Place → Unit → Bool
  | .exec _ pc,_ => pc.owned
  | .waitForAllDone _ pc,_ => pc.owned
  | .run pc,_ => pc.owned
  | _,_ => false

section Discipline

theorem exec_disciplined (expireTime : ℤ) (pc : ExecPc) :
    (exec expireTime pc).Disciplined owned False (owned (.exec expireTime pc)) := by
  cases pc with
  | lock => exact (update_eq_const_of_subsingleton () true _).symm
  | push => exact fun _ => rfl
  | notify => rfl
  | unlock => exact fun _ => ⟨rfl,(update_eq_const_of_subsingleton () false _).symm⟩

theorem waitForAllDone_disciplined (call : Call) (pc : AllDonePc) :
    (waitForAllDone call pc).Disciplined owned False (owned (.waitForAllDone call pc)) := by
  cases pc with
  | lock => exact (update_eq_const_of_subsingleton () true _).symm
  | empty =>
    intro s
    simp only [Logged.val_bind, Logged.val_ite, Logged.val_pure]
    split
    · rfl
    · split <;> rfl
  | test | testFor =>
    intro s
    simp only [Logged.val_bind, Logged.val_pure]
    split <;> rfl
  | lastFor => exact fun _ => rfl
  | wait | waitFor => exact ⟨rfl,rfl⟩
  | wokenFor => rintro _ (rfl | rfl) <;> rfl
  | unlock result => exact fun _ => ⟨rfl,(update_eq_const_of_subsingleton () false _).symm⟩
  | done result => rintro _ rfl; rfl

theorem run_disciplined (pc : RunPc) : (run pc).Disciplined owned False (owned (.run pc)) := by
  cases pc with
  | lock | lockDone => exact (update_eq_const_of_subsingleton () true _).symm
  | isTerminate =>
    intro s
    simp only [Logged.val_bind, Logged.val_ite, Logged.val_pure]
    split <;> rfl
  | empty | test | terminate | testDone =>
    intro s
    simp only [Logged.val_bind, Logged.val_pure]
    split <;> rfl
  | front =>
    intro s
    simp only [Logged.val_bind]
    split <;> rfl
  | wait => exact ⟨rfl,rfl⟩
  | pop | increment | skip | func | decrement => exact fun _ => rfl
  | expire task =>
    rintro _ ⟨now,rfl⟩
    split <;> rfl
  | notifyDone => rfl
  | unlockTrue | unlockFalse | unlockDone =>
    exact fun _ => ⟨rfl,(update_eq_const_of_subsingleton () false _).symm⟩

theorem code_disciplined : Disciplined code owned fun _ => False := by
  intro i l
  cases l with
  | idle => rintro _ (⟨_,rfl⟩ | ⟨_,rfl⟩ | rfl) <;> rfl
  | ended => rfl
  | exec expireTime pc => exact exec_disciplined expireTime pc
  | call millsecond => exact fun _ => rfl
  | waitForAllDone call pc => exact waitForAllDone_disciplined call pc
  | run pc => exact run_disciplined pc

end Discipline

section Does
variable {mem mem' : Memory} {l l' : Place}

theorem Does.accounted {held : ℕ → Option Task} {i : ℕ} (h : Does mem l l' mem') (hmem : Accounted mem held)
    (hown : held i = l.task) (hfront : ∀ task, l = .run (.pop task) → mem.tasks.head? = some task) :
    Accounted mem' (update held i l'.task) := by
  cases h with
  | quiet a hrun htask =>
    rw [htask, ← hown, update_eq_self]
    exact hmem.atomic a
  | push expireTime hl hl' =>
    have hnone : l'.task = held i := by rw [hown, hl, hl']; rfl
    rw [hnone, update_eq_self]
    exact hmem.push expireTime
  | pop task hl hl' =>
    subst hl hl'
    exact hmem.pop hown (hfront task rfl)
  | finish task hl hl' =>
    subst hl'
    exact hmem.finish (hown.trans hl)

/-- Tasks are only added to those that have been submitted and to those that have been got. -/
theorem Does.mono (h : Does mem l l' mem') (hlength : mem.tasks.length ≤ mem.submitted) :
    mem.submitted ≤ mem'.submitted ∧ mem.popped ≤ mem'.popped := by
  cases h with
  | quiet | finish => exact ⟨le_rfl,le_rfl⟩
  | push expireTime =>
    refine ⟨Nat.le_succ _,?_⟩
    have hnew : (mem.push expireTime).tasks.length = mem.tasks.length+1 := List.length_append
    have hsubmitted : (mem.push expireTime).submitted = mem.submitted+1 := rfl
    unfold Memory.popped
    omega
  | pop =>
    have hle : mem.pop.tasks.length ≤ mem.tasks.length := (List.tail_sublist _).length_le
    exact ⟨le_rfl,Nat.sub_le_sub_left hle _⟩

theorem Does.before (h : Does mem l l' mem') {k : ℕ} (hk : l'.before = some k) :
    k = mem.submitted ∨ l.before = some k := by
  cases h with
  | quiet a hrun htask hpop hbefore => exact hbefore k hk
  | push _ _ hl' | pop _ _ hl' | finish _ _ hl' =>
    subst hl'
    cases hk

theorem Does.promised (h : Does mem l l' mem') {k : ℕ} (hk : l'.promised = some k) :
    l.promised = some k ∨ mem.tasks = [] ∧ l.before = some k := by
  cases h with
  | quiet a hrun htask hpop hbefore hpromised => exact hpromised k hk
  | push _ _ hl' | pop _ _ hl' | finish _ _ hl' =>
    subst hl'
    cases hk

/-- Only a worker is in `run`. -/
theorem Does.run (h : Does mem l l' mem') (hl' : l'.isRun = true) : l.isRun = true := by
  cases h with
  | quiet a hrun => exact hrun hl'
  | push _ hl heq =>
    subst heq
    cases hl'
  | pop _ hl =>
    subst hl
    rfl
  | finish _ hl =>
    cases l with
    | run => rfl
    | idle | ended | exec | call | waitForAllDone => cases hl

/-- The queue is changed under the lock. -/
theorem Does.tasks (h : Does mem l l' mem') : mem'.tasks = mem.tasks ∨ owned l () = true := by
  cases h with
  | quiet | finish => exact .inl rfl
  | push _ hl | pop _ hl =>
    subst hl
    exact .inr rfl

theorem Does.front (h : Does mem l l' mem') {task : Task} (hl' : l' = .run (.pop task)) :
    mem'.tasks.head? = some task := by
  cases h with
  | quiet a hrun htask hpop => exact hpop task hl'
  | push _ _ heq | pop _ _ heq | finish _ _ heq =>
    subst hl'
    cases heq

end Does

/-- What holds at any time in a pool that is not stopped. -/
structure Kept (s : Config Memory Unit Unit Place) : Prop where
  owns : Owns owned s
  resumes : ∀ t ∈ s.threads, t.Resumes code
  accounted : Accounted s.mem (held s)
  front : ∀ i task, s.place i = some (.run (.pop task)) → s.mem.tasks.head? = some task
  before : ∀ i l k, s.place i = some l → l.before = some k → k ≤ s.mem.submitted
  promised : ∀ i l k, s.place i = some l → l.promised = some k → k ≤ s.mem.popped

section Kept
variable {s s' : Config Memory Unit Unit Place} {i : ℕ} {label : Label}

/-- A wait does not come before the `pop`. -/
theorem not_resumes {task : Task} {t : Thread Unit Unit Place} (ht : t.Resumes code)
    (hplace : t.status.place = some (.run (.pop task))) : t.status = .running (.run (.pop task)) := by
  have hnot {next : Place} (hnext : some next = some (.run (.pop task)))
      (hwait : ∃ i l c m, code i l = .wait c m next) : False := by
    obtain ⟨i,l,c,m,hcode⟩ := hwait
    cases hnext
    cases l with
    | idle | ended | call => cases hcode
    | exec _ pc => cases pc <;> cases hcode
    | waitForAllDone _ pc => cases pc <;> cases hcode
    | run pc => cases pc <;> cases hcode
  obtain ⟨status,g⟩ := t
  cases status with
  | running l => exact congrArg Status.running (Option.some.inj hplace)
  | waiting c m next => exact (hnot hplace ht).elim
  | woken m next => exact (hnot hplace ht).elim
  | exited => cases hplace

/-- While a thread is about to pop a task, no other one has locked the mutex. -/
theorem Kept.alone (h : Kept s) {j : ℕ} {l : Place} {g : Unit → Bool} {task : Task}
    (hi : s.threads[i]? = some ⟨.running l,g⟩) (hl : owned l () = true)
    (hj : s.place j = some (.run (.pop task))) : j = i := by
  obtain ⟨t,ht,hplace⟩ := Option.bind_eq_some_iff.mp hj
  have hrun := not_resumes (h.resumes t (List.mem_of_getElem? ht)) hplace
  obtain ⟨status,g'⟩ := t
  obtain rfl : status = _ := hrun
  refine (h.owns.exclusive ()).unique ht hi ?_ ?_
  · rw [h.owns.running ht]
    rfl
  · rw [h.owns.running hi]
    exact hl

theorem code_starts (i : ℕ) (l : Place) : (code i l).starts = none := by
  cases l with
  | idle | ended | call => rfl
  | exec _ pc => cases pc <;> rfl
  | waitForAllDone _ pc => cases pc <;> rfl
  | run pc => cases pc <;> rfl

theorem code_exit {i : ℕ} {l : Place} (h : code i l = .exit) : l = .ended := by
  cases l with
  | idle | call => cases h
  | ended => rfl
  | exec _ pc => cases pc <;> cases h
  | waitForAllDone _ pc => cases pc <;> cases h
  | run pc => cases pc <;> cases h

/-- The places after a thread has gone on. -/
theorem held_goes {l' : Place} (hplace : s'.place i = some l')
    (hothers : ∀ j, j ≠ i → s'.place j = s.place j) : held s' = update (held s) i l'.task := by
  funext j
  unfold held
  obtain rfl | hne := eq_or_ne j i
  · rw [update_self, hplace]
    rfl
  · rw [update_of_ne hne, hothers j hne]

/-- One thread goes on by a statement that does something to the tasks. -/
theorem Kept.goes (h : Kept s) (howns : Owns owned s') (hresumes : ∀ t ∈ s'.threads, t.Resumes code)
    {l l' : Place} {g : Unit → Bool} (hi : s.threads[i]? = some ⟨.running l,g⟩)
    (hdoes : Does s.mem l l' s'.mem) (hplace : s'.place i = some l')
    (hothers : ∀ j, j ≠ i → s'.place j = s.place j) : Kept s' := by
  have hat : s.place i = some l := place_eq hi
  obtain ⟨hsubmitted,hpopped⟩ := hdoes.mono h.accounted.length
  refine ⟨howns,hresumes,?_,fun j task hj => ?_,fun j l₂ k hj hk => ?_,fun j l₂ k hj hk => ?_⟩
  · rw [held_goes hplace hothers]
    refine hdoes.accounted h.accounted (congrArg (·.bind Place.task) hat) fun task hl => ?_
    exact h.front i task (hl ▸ hat)
  · obtain rfl | hne := eq_or_ne j i
    · exact hdoes.front (Option.some.inj (hplace.symm.trans hj))
    · rw [hothers j hne] at hj
      obtain hsame | hlock := hdoes.tasks
      · rw [hsame]
        exact h.front j task hj
      · exact absurd (h.alone hi hlock hj) hne
  · obtain rfl | hne := eq_or_ne j i
    · obtain rfl := Option.some.inj (hplace.symm.trans hj)
      obtain rfl | hbefore := hdoes.before hk
      · exact hsubmitted
      · exact (h.before j l k hat hbefore).trans hsubmitted
    · exact (h.before j l₂ k (hothers j hne ▸ hj) hk).trans hsubmitted
  · obtain rfl | hne := eq_or_ne j i
    · obtain rfl := Option.some.inj (hplace.symm.trans hj)
      refine le_trans ?_ hpopped
      obtain hpromised | ⟨hnil,hbefore⟩ := hdoes.promised hk
      · exact h.promised j l k hat hpromised
      · have hle := h.before j l k hat hbefore
        unfold Memory.popped
        rw [hnil]
        exact hle
    · exact (h.promised j l₂ k (hothers j hne ▸ hj) hk).trans hpopped

theorem Kept.step (h : Kept s) (hstep : Pthreads.Step code s label s') : Kept s' := by
  have hbad : ¬ RunsAt (fun _ => False) s label := by
    cases label with
    | run i => exact fun ⟨_,_,_,hnot⟩ => hnot
    | wake i => exact id
  have howns := h.owns.step code_disciplined hbad hstep
  have hresumes := hstep.resumes h.resumes
  cases hstep.moves with
  | silent hmem hplace =>
    have hsame : s'.place = s.place := funext hplace
    have hheld : held s' = held s := by
      unfold held
      rw [hsame]
    refine ⟨howns,hresumes,?_,?_,?_,?_⟩
    · rw [hmem, hheld]
      exact h.accounted
    · rw [hmem, hsame]
      exact h.front
    · rw [hmem, hsame]
      exact h.before
    · rw [hmem, hsame]
      exact h.promised
  | @goes i l g l' _ hi hleads hplace hothers =>
    refine h.goes howns hresumes hi (code_does hleads) hplace fun j hj => ?_
    obtain hsame | ⟨hnew,hstarts⟩ := hothers j hj
    · exact hsame
    · have hout : s.place j = none := by
        unfold Config.place
        rw [List.getElem?_eq_none hnew.ge]
        rfl
      rw [hstarts, hout]
      exact code_starts i l
  | @exits i l g _ hi hcode hmem hplace hothers =>
    have hat : s.place i = some l := place_eq hi
    have hsub {j : ℕ} {l₂ : Place} (hj : s'.place j = some l₂) : s.place j = some l₂ := by
      obtain rfl | hne := eq_or_ne j i
      · rw [hplace] at hj
        cases hj
      · exact hothers j hne ▸ hj
    have hheld : held s' = held s := by
      funext j
      unfold held
      obtain rfl | hne := eq_or_ne j i
      · rw [hplace, hat, code_exit hcode]
        rfl
      · rw [hothers j hne]
    refine ⟨howns,hresumes,?_,?_,?_,?_⟩
    · rw [hmem, hheld]
      exact h.accounted
    · rw [hmem]
      exact fun j task hj => h.front j task (hsub hj)
    · rw [hmem]
      exact fun j l₂ k hj => h.before j l₂ k (hsub hj)
    · rw [hmem]
      exact fun j l₂ k hj => h.promised j l₂ k (hsub hj)

theorem kept_started (n m : ℕ) : Kept (started n m) := by
  have hthread (t : Thread Unit Unit Place) (ht : t ∈ (started n m).threads) :
      t = ⟨.running (.run .isTerminate),fun _ => false⟩ ∨ t = ⟨.running .idle,fun _ => false⟩ := by
    obtain ht | ht := List.mem_append.mp ht
    · exact .inl (List.eq_of_mem_replicate ht)
    · exact .inr (List.eq_of_mem_replicate ht)
  have hplace {i : ℕ} {l : Place} (hi : (started n m).place i = some l) :
      l = .run .isTerminate ∨ l = .idle := by
    obtain ⟨t,ht,hl⟩ := Option.bind_eq_some_iff.mp hi
    obtain rfl | rfl := hthread t (List.mem_of_getElem? ht)
    · exact .inl (Option.some.inj hl).symm
    · exact .inr (Option.some.inj hl).symm
  have hheld (i : ℕ) (task : Task) (hi : held (started n m) i = some task) : False := by
    obtain ⟨l,hl,htask⟩ := Option.bind_eq_some_iff.mp hi
    obtain rfl | rfl := hplace hl <;> cases htask
  constructor
  · constructor
    · intro t ht
      obtain rfl | rfl := hthread t ht <;> rfl
    · intro mutex
      refine List.countP_eq_zero.mpr fun t ht => ?_
      obtain rfl | rfl := hthread t ht <;> exact Bool.false_ne_true
  · intro t ht
    obtain rfl | rfl := hthread t ht <;> trivial
  · exact ⟨le_rfl,rfl,nofun,fun i task hi => (hheld i task hi).elim,
      fun i _ task _ hi => (hheld i task hi).elim,nofun⟩
  · intro i task hi
    obtain hl | hl := hplace hi <;> cases hl
  · intro i l k hi hk
    obtain rfl | rfl := hplace hi <;> cases hk
  · intro i l k hi hk
    obtain rfl | rfl := hplace hi <;> cases hk

end Kept

/-- In this step a call of `waitForAllDone` returns true; when it was made, `before` tasks had been
submitted. -/
def ReturnsTrue (before : ℕ) (s : Config Memory Unit Unit Place) : Label → Prop
  | .run i => ∃ millsecond g,
      s.threads[i]? = some ⟨.running (.waitForAllDone ⟨millsecond,before⟩ (.done true)),g⟩
  | .wake _ => False

/-- The execution of the first tasks is over. -/
def AllFinished (before : ℕ) (s : Config Memory Unit Unit Place) : Prop :=
  ∀ k < before, k ∈ s.mem.finished

/-- A worker is in `run` between its return from `get` and the end of the execution of one of the first
tasks. -/
def InRun (before : ℕ) (s : Config Memory Unit Unit Place) : Prop :=
  ∃ i pc task, s.place i = some (.run pc) ∧ pc.task = some task ∧ task.serial < before

section Runs
variable {s : Config Memory Unit Unit Place} {before : ℕ} {label : Label}

/-- At a return of true, the only tasks that are not finished are with the workers. -/
theorem Kept.returns (h : Kept s) (hreturns : ReturnsTrue before s label) :
    (∀ task ∈ s.mem.tasks, before ≤ task.serial) ∧ (AllFinished before s ↔ ¬ InRun before s) := by
  have hpopped : before ≤ s.mem.popped := by
    cases label with
    | run i =>
      obtain ⟨millsecond,g,hi⟩ := hreturns
      exact h.promised i _ before (place_eq hi) rfl
    | wake => exact hreturns.elim
  refine ⟨fun task htask => ?_,?_,?_⟩
  · have hserial := List.mem_map_of_mem (f := (·.serial)) htask
    rw [h.accounted.queue] at hserial
    exact hpopped.trans (List.left_le_of_mem_range' hserial)
  · rintro hfinished ⟨i,pc,task,hi,htask,hlt⟩
    have hheld : held s i = some task := (congrArg (·.bind Place.task) hi).trans htask
    exact (h.accounted.got i task hheld).2 (hfinished _ hlt)
  · intro hnot k hk
    obtain hin | ⟨i,task,hi,rfl⟩ := h.accounted.all k (hk.trans_le hpopped)
    · exact hin
    · obtain ⟨l,hl,htask⟩ := Option.bind_eq_some_iff.mp hi
      cases l with
      | run pc => exact absurd ⟨i,pc,task,hl,htask,hk⟩ hnot
      | idle | ended | exec | call | waitForAllDone => cases htask

/-- A pool without workers. -/
theorem not_run_step {s' : Config Memory Unit Unit Place}
    (h : ∀ i l, s.place i = some l → l.isRun = false) (hstep : Pthreads.Step code s label s') :
    ∀ i l, s'.place i = some l → l.isRun = false := by
  intro j l₂ hj
  cases hstep.moves with
  | silent hmem hplace => exact h j l₂ (hplace j ▸ hj)
  | @goes i l g l' _ hi hleads hplace hothers =>
    obtain rfl | hne := eq_or_ne j i
    · obtain rfl := Option.some.inj (hplace.symm.trans hj)
      have hl := h j l (place_eq hi)
      exact Bool.eq_false_iff.mpr fun hl' => Bool.false_ne_true (hl.symm.trans ((code_does hleads).run hl'))
    · obtain hsame | ⟨-,hstarts⟩ := hothers j hne
      · exact h j l₂ (hsame ▸ hj)
      · rw [hstarts, code_starts] at hj
        cases hj
  | @exits i l g _ hi hcode hmem hplace hothers =>
    obtain rfl | hne := eq_or_ne j i
    · rw [hplace] at hj
      cases hj
    · exact h j l₂ (hothers j hne ▸ hj)

end Runs

section Early

/-- The first worker and the first thread outside, among the other threads of the pool. -/
def between (n m : ℕ) (x y : Thread Unit Unit Place) : List (Thread Unit Unit Place) :=
  x :: (List.replicate n ⟨.running (.run .isTerminate),fun _ => false⟩ ++
    y :: List.replicate m ⟨.running .idle,fun _ => false⟩)

/-- Some run leads to the memory and to these two threads, while the other ones have done nothing. -/
def Reached (n m : ℕ) (mem : Memory) (locked : Unit → Bool) (x y : Thread Unit Unit Place) : Prop :=
  ∃ steps, Trace (Pthreads.Step code) (started (n+1) (m+1)) steps ⟨mem,locked,between n m x y⟩

variable {n m : ℕ} {mem mem' : Memory} {locked locked' : Unit → Bool} {x x' y y' : Thread Unit Unit Place}

theorem between_get : (between n m x y)[n+1]? = some y := by
  unfold between
  rw [List.getElem?_cons_succ, List.getElem?_append_right List.length_replicate.le, List.length_replicate,
    Nat.sub_self]
  rfl

theorem between_set : (between n m x y).set (n+1) y' = between n m x y' := by
  unfold between
  rw [List.set_cons_succ, List.set_append_right _ _ List.length_replicate.le, List.length_replicate,
    Nat.sub_self]
  rfl

theorem Reached.worker (h : Reached n m mem locked x y)
    (hstep : Pthreads.Step code ⟨mem,locked,between n m x y⟩ (.run 0)
      ⟨mem',locked',(between n m x y).set 0 x'⟩) : Reached n m mem' locked' x' y := by
  obtain ⟨steps,h⟩ := h
  exact ⟨_,h.snoc hstep⟩

theorem Reached.outside (h : Reached n m mem locked x y)
    (hstep : Pthreads.Step code ⟨mem,locked,between n m x y⟩ (.run (n+1))
      ⟨mem',locked',(between n m x y).set (n+1) y'⟩) : Reached n m mem' locked' x y' := by
  obtain ⟨steps,h⟩ := h
  rw [between_set] at hstep
  exact ⟨_,h.snoc hstep⟩

/-- A signal that comes when no thread waits. -/
theorem signal_between (hx : x.wake () = none) (hy : y.wake () = none) :
    Signal (Thread.wake ()) (between n m x y) (between n m x y) := by
  refine .lost fun t ht => ?_
  obtain rfl | ht := List.mem_cons.mp ht
  · exact hx
  · obtain ht | ht := List.mem_append.mp ht
    · rw [List.eq_of_mem_replicate ht]
      rfl
    · obtain rfl | ht := List.mem_cons.mp ht
      · exact hy
      · rw [List.eq_of_mem_replicate ht]
        rfl

variable (n m)

/-- A task is submitted, and the first worker gets it. -/
theorem reached_got : ∃ locked g g', Reached n m ⟨[],false,0,1,[]⟩ locked
    ⟨.running (.run (.increment ⟨0,0⟩)),g⟩ ⟨.running .idle,g'⟩ ∧ locked () = false := by
  have hstart : Reached n m _ _ _ _ := ⟨[],.nil⟩
  have hcall := hstart.outside (.choose between_get rfl (.inl ⟨0,rfl⟩))
  have hlock := hcall.outside (.lock between_get rfl rfl)
  have hpush := hlock.outside (.act between_get rfl)
  have hnotify := hpush.outside (.signal between_get rfl (by
    rw [between_set]
    exact signal_between rfl rfl))
  have hunlock := hnotify.outside (.unlock between_get rfl)
  have htest := hunlock.worker (.act rfl rfl)
  have hget := htest.worker (.lock rfl rfl rfl)
  have hempty := (hget.worker (.act rfl rfl)).worker (.act rfl rfl)
  have hpop := (hempty.worker (.act rfl rfl)).worker (.act rfl rfl)
  exact ⟨_,_,_,hpop.worker (.unlock rfl rfl),rfl⟩

/-- The task is finished. -/
theorem reached_finished : ∃ locked g g', Reached n m ⟨[],false,1,1,[0]⟩ locked
    ⟨.running (.run .decrement),g⟩ ⟨.running .idle,g'⟩ ∧ locked () = false := by
  obtain ⟨locked,g,g',hgot,hfree⟩ := reached_got n m
  have hexpire := (hgot.worker (.act rfl rfl)).worker (.choose rfl rfl ⟨0,rfl⟩)
  have hfunc := hexpire.worker (.act rfl rfl)
  exact ⟨_,_,_,hfunc,hfree⟩

variable {n m} {atomic : ℤ} {submitted : ℕ} {finished : List ℕ} {g : Unit → Bool}

/-- A call of `waitForAllDone` that finds the queue empty. -/
theorem Reached.returns (h : Reached n m ⟨[],false,atomic,submitted,finished⟩ locked x ⟨.running .idle,g⟩)
    (hfree : locked () = false) : ∃ steps s, Trace (Pthreads.Step code) (started (n+1) (m+1)) steps s ∧
      ∃ z ∈ steps, ReturnsTrue submitted z.1 z.2 ∧ z.1.mem = ⟨[],false,atomic,submitted,finished⟩ ∧
        ∃ y, z.1.threads = between n m x y ∧
          y.status.place = some (.waitForAllDone ⟨-1,submitted⟩ (.done true)) := by
  have hcall := h.outside (.choose between_get rfl (.inr (.inl ⟨-1,rfl⟩)))
  have hlock := (hcall.outside (.act between_get rfl)).outside (.lock between_get rfl hfree)
  have hempty := (hlock.outside (.act between_get rfl)).outside (.unlock between_get rfl)
  obtain ⟨steps,htrace⟩ := hempty
  have hdone := htrace.snoc (.choose (i := n+1) between_get rfl rfl)
  exact ⟨_,_,hdone,_,List.mem_append_right _ (.head _),⟨_,_,between_get⟩,rfl,_,rfl,rfl⟩

end Early

section Results
variable (n m : ℕ)

/-- In every run, the tasks submitted before a call of `waitForAllDone` have been executed when it returns
true exactly if no worker is in `run` with one of them; none of them is in the queue. With at least one
thread that submits tasks and waits for them, and even if no task is submitted during the call, all of them
have been executed whenever it returns true exactly if there is no worker. -/
theorem allDone_iff :
    (∀ steps s, Trace (Pthreads.Step code) (started n m) steps s → ∀ x ∈ steps, ∀ before,
      ReturnsTrue before x.1 x.2 → (∀ task ∈ x.1.mem.tasks, before ≤ task.serial) ∧
        (AllFinished before x.1 ↔ ¬ InRun before x.1)) ∧
    (0 < m → ((∀ steps s, Trace (Pthreads.Step code) (started n m) steps s → ∀ x ∈ steps, ∀ before,
      ReturnsTrue before x.1 x.2 → x.1.mem.submitted = before → AllFinished before x.1) ↔ n = 0)) := by
  have hkept {steps s} (h : Trace (Pthreads.Step code) (started n m) steps s) : ∀ x ∈ steps, Kept x.1 :=
    (h.invariant (kept_started n m) fun _ _ _ hs => hs.step).1
  refine ⟨fun steps s h x hx before hreturns => (hkept h x hx).returns hreturns,fun hm => ⟨?_,?_⟩⟩
  · intro hall
    by_contra hn
    obtain ⟨n,rfl⟩ := Nat.exists_eq_succ_of_ne_zero hn
    obtain ⟨m,rfl⟩ := Nat.exists_eq_succ_of_ne_zero hm.ne'
    obtain ⟨locked,g,g',hgot,hfree⟩ := reached_got n m
    obtain ⟨steps,s,h,x,hx,hreturns,hmem,-⟩ := hgot.returns hfree
    have hfinished := hall steps s h x hx 1 hreturns (congrArg Memory.submitted hmem) 0 Nat.zero_lt_one
    rw [hmem] at hfinished
    exact List.not_mem_nil hfinished
  · rintro rfl steps s h x hx before hreturns -
    have hnone : ∀ i l, x.1.place i = some l → l.isRun = false := by
      refine (h.invariant (J := fun s => ∀ i l, s.place i = some l → l.isRun = false) ?_ ?_).1 x hx
      · intro i l hi
        obtain ⟨t,ht,hl⟩ := Option.bind_eq_some_iff.mp hi
        have hmem : t ∈ List.replicate m _ := List.mem_of_getElem? ht
        rw [List.eq_of_mem_replicate hmem] at hl
        obtain rfl := Option.some.inj hl
        rfl
      · exact fun s label s' hs hstep => not_run_step hs hstep
    refine ((hkept h x hx).returns hreturns).2.mpr ?_
    rintro ⟨i,pc,task,hi,-⟩
    cases hnone i _ hi

/-- One task is executed before the call. -/
theorem allDone_executed : ∃ steps s, Trace (Pthreads.Step code) (started 1 1) steps s ∧
    ∃ x ∈ steps, ReturnsTrue 1 x.1 x.2 ∧ AllFinished 1 x.1 := by
  obtain ⟨locked,g,g',hfinished,hfree⟩ := reached_finished 0 0
  obtain ⟨steps,s,h,x,hx,hreturns,hmem,y,hthreads,hy⟩ := hfinished.returns hfree
  refine ⟨steps,s,h,x,hx,hreturns,(((allDone_iff 1 1).1 steps s h x hx 1 hreturns).2).mpr ?_⟩
  rintro ⟨i,pc,task,hi,htask,-⟩
  unfold Config.place at hi
  rw [hthreads] at hi
  match i with
  | 0 =>
    cases hi
    cases htask
  | 1 => cases hy.symm.trans hi
  | i+2 => cases hi

/-- One task is with the worker when the call returns true. -/
theorem allDone_early : ∃ steps s, Trace (Pthreads.Step code) (started 1 1) steps s ∧
    ∃ x ∈ steps, ReturnsTrue 1 x.1 x.2 ∧ x.1.mem.submitted = 1 ∧ ¬ AllFinished 1 x.1 := by
  obtain ⟨locked,g,g',hgot,hfree⟩ := reached_got 0 0
  obtain ⟨steps,s,h,x,hx,hreturns,hmem,-⟩ := hgot.returns hfree
  refine ⟨steps,s,h,x,hx,hreturns,congrArg Memory.submitted hmem,fun hfinished => ?_⟩
  have hin := hfinished 0 Nat.zero_lt_one
  rw [hmem] at hin
  exact List.not_mem_nil hin

end Results
end ServerKit.Threads.ZeroPool
