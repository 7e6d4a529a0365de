import ServerKit.Threads.Lifecycle

/-! Which workers a pool of `zero_threadpool/threadpool.cpp` has while it is started and stopped, and where they
can be when `_bTerminate` is set. -/
namespace ServerKit.Threads.ZeroPool

/-- A worker is here only if it has seen under the lock that the pool goes on. -/
def Place.committed : Place → Bool
  | .run .wait | .run .front | .run (.pop _) => true
  | _ => false

theorem owned_of_committed {l : Place} (h : l.committed = true) : owned l () = true := by
  cases l with
  | run pc => cases pc <;> first | rfl | cases h
  | idle | ended | exec | call | waitForAllDone => cases h

open ServerKit.Lib ServerKit.Lib.Pthreads

section Code
variable {mem mem' : Memory} {i n : ℕ} {l l' : Place}

theorem run_committed {pc : RunPc} (h : (run pc).Leads n mem l' mem') (hl' : l'.committed = true) :
    (Place.run pc).committed = true ∨ mem.bTerminate = false := by
  cases pc with
  | wait | front | pop => exact .inl rfl
  | test | terminate =>
    right
    cases h
    by_contra hstop
    simp only [Logged.val_bind, Logged.val_pure, Logged.val_get, Logged.state_get, Bool.not_eq_false] at hl' hstop
    simp only [hstop, Bool.true_or, if_true] at hl'
    cases hl'
  | isTerminate =>
    cases h
    simp only [Logged.val_bind, Logged.val_ite, Logged.val_pure] at hl'
    split at hl' <;> cases hl'
  | empty | testDone =>
    cases h
    simp only [Logged.val_bind, Logged.val_pure] at hl'
    split at hl' <;> cases hl'
  | expire task =>
    cases h with
    | choose hl =>
      obtain ⟨now,rfl⟩ := hl
      split at hl' <;> cases hl'
  | lock | unlockTrue | unlockFalse | increment | skip | func | decrement | lockDone | notifyDone
  | unlockDone =>
    cases h
    cases hl'

theorem code_committed (h : (code i l).Leads n mem l' mem') (hl' : l'.committed = true) :
    l.committed = true ∨ mem.bTerminate = false := by
  cases l with
  | run pc => exact run_committed h hl'
  | idle | ended | exec | call | waitForAllDone =>
    have hrun : l'.isRun = true := by
      cases l' with
      | run => rfl
      | idle | ended | exec | call | waitForAllDone => cases hl'
    cases (code_does h).run hrun

/-- Only `stop` writes to `_bTerminate`. -/
theorem Does.bTerminate (h : Does mem l l' mem') : mem'.bTerminate = mem.bTerminate := by
  cases h <;> rfl

/-- A wait is not in front of a place that a worker reaches under the lock. -/
theorem code_wait {c m : Unit} (h : code i l = .wait c m l') :
    l'.committed = false ∧ (l'.isRun = true → l.committed = true) := by
  cases l with
  | idle | ended | call => cases h
  | exec _ pc => cases pc <;> cases h
  | waitForAllDone _ pc =>
    cases pc with
    | wait | waitFor =>
      cases h
      exact ⟨rfl,nofun⟩
    | lock | empty | test | testFor | wokenFor | lastFor | unlock | done => cases h
  | run pc =>
    cases pc with
    | wait =>
      cases h
      exact ⟨rfl,fun _ => rfl⟩
    | isTerminate | lock | empty | test | terminate | front | pop | unlockTrue | unlockFalse | increment
    | expire | skip | func | decrement | lockDone | testDone | notifyDone | unlockDone => cases h

end Code

namespace Lifecycle

/-- The first `i` entries of `threads` are NULL, and no other. -/
def JoinedTo (threads : List (Option ℕ)) (i : ℕ) : Prop := ∀ j, threads[j]? = some none ↔ j < i

/-- What the owner knows of the pool at a place. -/
def OwnerPc.Holds (s : Pool) : OwnerPc → Prop
  | .stop .notify | .stop .unlock => s.memory.bTerminate = true ∧ none ∉ s.threads
  | .stop (.loop i) => s.memory.bTerminate = true ∧ JoinedTo s.threads i
  | .stop (.join i) => s.memory.bTerminate = true ∧ JoinedTo s.threads i ∧ i < s.threads.length
  | .stop (.delete i) => s.memory.bTerminate = true ∧ JoinedTo s.threads i ∧
      ∃ n ∈ s.returned, s.threads[i]? = some (some n)
  | .stop .lockAgain | .stop .clear => s.memory.bTerminate = true ∧ ∀ x ∈ s.threads, x = none
  | .stop .unlockAgain => s.memory.bTerminate = true ∧ s.threads = []
  | .crashed => False
  | _ => none ∉ s.threads

section Owner
variable {s s' : Pool} {n i : ℕ} {pc : OwnerPc} {l' : Place}

/-- The other threads do nothing that the owner would have to know. -/
theorem OwnerPc.Holds.congr (h : pc.Holds s) (hterminate : s'.memory.bTerminate = s.memory.bTerminate)
    (hthreads : s'.threads = s.threads) (hreturned : s.returned ⊆ s'.returned) : pc.Holds s' := by
  have hdelete {i : ℕ} (h : ∃ n ∈ s.returned, s.threads[i]? = some (some n)) :
      ∃ n ∈ s'.returned, s'.threads[i]? = some (some n) := by
    obtain ⟨n,hn,hi⟩ := h
    exact ⟨n,hreturned hn,hthreads ▸ hi⟩
  cases pc with
  | idle | init | start =>
    unfold Holds at h ⊢
    rw [hthreads]
    exact h
  | stop pc =>
    cases pc with
    | delete i => exact ⟨hterminate.trans h.1,hthreads ▸ h.2.1,hdelete h.2.2⟩
    | lock | terminate =>
      unfold Holds at h ⊢
      rw [hthreads]
      exact h
    | notify | unlock | loop | join | lockAgain | clear | unlockAgain =>
      unfold Holds at h ⊢
      rw [hterminate, hthreads]
      exact h
  | crashed => exact h

theorem joinedTo_zero {threads : List (Option ℕ)} (h : none ∉ threads) : JoinedTo threads 0 := by
  intro j
  refine iff_of_false (fun hj => ?_) (Nat.not_lt_zero j)
  exact h (List.mem_of_getElem? hj)

theorem JoinedTo.all {threads : List (Option ℕ)} (h : JoinedTo threads i) (hi : ¬ i < threads.length) :
    ∀ x ∈ threads, x = none := by
  intro x hx
  obtain ⟨j,hj⟩ := List.mem_iff_getElem?.mp hx
  have hlt := (List.getElem?_eq_some_iff.mp hj).1
  have hnull := (h j).mpr (by omega)
  exact Option.some.inj (hj.symm.trans hnull)

/-- An entry that is looked at for the first time is not NULL. -/
theorem JoinedTo.exists_some {threads : List (Option ℕ)} (h : JoinedTo threads i)
    (hi : i < threads.length) : ∃ n, threads[i]? = some (some n) := by
  have hsome := List.getElem?_eq_getElem hi
  cases hx : threads[i] with
  | none =>
    rw [hx] at hsome
    exact absurd ((h i).mp hsome) (Nat.lt_irrefl i)
  | some n => exact ⟨n,hx ▸ hsome⟩

theorem JoinedTo.set {threads : List (Option ℕ)} (h : JoinedTo threads i) (hi : i < threads.length) :
    JoinedTo (threads.set i none) (i+1) := by
  intro j
  obtain rfl | hne := eq_or_ne j i
  · rw [List.getElem?_set_self hi]
    exact iff_of_true rfl (Nat.lt_succ_self j)
  · rw [List.getElem?_set_ne (Ne.symm hne), h j]
    omega

/-- What a statement of the owner does; `n` is the number of the next thread. -/
structure OwnerMoves (n : ℕ) (s : Pool) (pc : OwnerPc) (l' : Place) (s' : Pool) (pc' : OwnerPc) :
    Prop where
  place : l' = .owner pc'
  holds : pc'.Holds s'
  returned : s'.returned = s.returned
  memory : s'.memory = s.memory ∨ pc = .stop .terminate ∧ pc' = .stop .notify ∧
    s'.memory = { s.memory with bTerminate := true }
  threads : ∀ i, some i ∈ s.threads → some i ∈ s'.threads ∨ i ∈ s.returned
  created : (owner pc).starts ≠ none → some n ∈ s'.threads

theorem OwnerMoves.quiet {pc' : OwnerPc} (hpc' : pc'.Holds s) (hcreate : (owner pc).starts = none) :
    OwnerMoves n s pc (.owner pc') s pc' :=
  ⟨rfl,hpc',rfl,.inl rfl,fun _ => .inl,fun h => absurd hcreate h⟩

theorem init_moves {num : ℕ} {pc : InitPc} (h : (init num pc).Leads n s l' s') (hs : none ∉ s.threads) :
    ∃ pc', OwnerMoves n s (.init num pc) l' s' pc' := by
  cases pc with
  | lock | unlock =>
    cases h
    exact ⟨_,.quiet hs rfl⟩
  | empty =>
    cases h
    simp only [Logged.val_bind, Logged.val_pure]
    split <;> exact ⟨_,.quiet hs rfl⟩
  | store =>
    cases h
    exact ⟨.init num (.unlock true),rfl,hs,rfl,.inl rfl,fun _ => .inl,fun h => absurd rfl h⟩

theorem start_moves {pc : StartPc} (h : (start pc).Leads n s l' s') (hs : none ∉ s.threads) :
    ∃ pc', OwnerMoves n s (.start pc) l' s' pc' := by
  cases pc with
  | lock | unlock =>
    cases h
    exact ⟨_,.quiet hs rfl⟩
  | empty | loop =>
    cases h
    simp only [Logged.val_bind, Logged.val_pure]
    split <;> exact ⟨_,.quiet hs rfl⟩
  | create i =>
    cases h
    refine ⟨.start (.loop (i+1)),rfl,?_,rfl,.inl rfl,fun j hj => ?_,fun _ => ?_⟩
    · change none ∉ s.threads ++ [some n]
      simp [hs]
    · exact .inl (List.mem_append_left _ hj)
    · exact List.mem_append_right _ (List.mem_singleton_self _)

theorem stop_moves {pc : StopPc} (h : (stop pc).Leads n s l' s') (hs : (OwnerPc.stop pc).Holds s) :
    ∃ pc', OwnerMoves n s (.stop pc) l' s' pc' := by
  cases pc with
  | lock =>
    cases h
    exact ⟨.stop .terminate,.quiet hs rfl⟩
  | terminate =>
    cases h
    refine ⟨.stop .notify,rfl,⟨rfl,hs⟩,rfl,.inr ⟨rfl,rfl,rfl⟩,fun _ => .inl,fun h => absurd rfl h⟩
  | notify =>
    cases h
    exact ⟨.stop .unlock,.quiet hs rfl⟩
  | unlock =>
    cases h
    exact ⟨.stop (.loop 0),.quiet ⟨hs.1,joinedTo_zero hs.2⟩ rfl⟩
  | loop i =>
    cases h
    change ∃ pc', OwnerMoves n s _
      (.owner (.stop (if i < s.threads.length then .join i else .lockAgain))) s pc'
    by_cases hi : i < s.threads.length
    · rw [if_pos hi]
      exact ⟨.stop (.join i),.quiet ⟨hs.1,hs.2,hi⟩ rfl⟩
    · rw [if_neg hi]
      exact ⟨.stop .lockAgain,.quiet ⟨hs.1,hs.2.all hi⟩ rfl⟩
  | join i =>
    obtain ⟨hstop,hjoined,hi⟩ := hs
    obtain ⟨t,ht⟩ := hjoined.exists_some hi
    cases h
    by_cases hmem : t ∈ s.returned
    · simp only [Logged.val_bind, Logged.state_bind, Logged.val_get, Logged.state_get, ht,
        Logged.val_pure, Logged.state_pure, hmem, if_true]
      exact ⟨.stop (.delete i),.quiet ⟨hstop,hjoined,t,hmem,ht⟩ rfl⟩
    · simp only [Logged.val_bind, Logged.state_bind, Logged.val_get, Logged.state_get, ht,
        Logged.val_pure, Logged.state_pure, hmem, if_false]
      exact ⟨.stop (.join i),.quiet ⟨hstop,hjoined,hi⟩ rfl⟩
  | delete i =>
    obtain ⟨hstop,hjoined,t,hmem,ht⟩ := hs
    have hi := (List.getElem?_eq_some_iff.mp ht).1
    cases h
    refine ⟨.stop (.loop (i+1)),rfl,⟨hstop,hjoined.set hi⟩,rfl,.inl rfl,fun j hj => ?_,
      fun h => absurd rfl h⟩
    obtain ⟨k,hk⟩ := List.mem_iff_getElem?.mp hj
    obtain rfl | hne := eq_or_ne k i
    · cases ht.symm.trans hk
      exact .inr hmem
    · left
      apply List.mem_of_getElem? (i := k)
      exact (List.getElem?_set_ne (Ne.symm hne)).trans hk
  | lockAgain =>
    cases h
    exact ⟨.stop .clear,.quiet hs rfl⟩
  | clear =>
    cases h
    refine ⟨.stop .unlockAgain,rfl,⟨hs.1,rfl⟩,rfl,.inl rfl,fun j hj => ?_,fun h => absurd rfl h⟩
    cases hs.2 _ hj
  | unlockAgain =>
    cases h
    refine ⟨.idle,.quiet ?_ rfl⟩
    change none ∉ s.threads
    rw [hs.2]
    exact List.not_mem_nil

theorem owner_moves (h : (owner pc).Leads n s l' s') (hs : pc.Holds s) :
    ∃ pc', OwnerMoves n s pc l' s' pc' := by
  cases pc with
  | idle =>
    cases h with
    | choose hl => obtain ⟨_,rfl⟩ | rfl | rfl := hl <;> exact ⟨_,.quiet hs rfl⟩
  | init num pc => exact init_moves h hs
  | start pc => exact start_moves h hs
  | stop pc => exact stop_moves h hs
  | crashed => exact hs.elim

end Owner

section Code
variable {i n : ℕ} {l l' : Place} {mem mem' : Pool}

theorem inPool_leads {instr : PoolInstr} (h : (inPool instr).Leads n mem l' mem') :
    ∃ l₀ m₀, l' = .pool l₀ ∧ mem' = { mem with memory := m₀ } ∧ instr.Leads n mem.memory l₀ m₀ := by
  cases instr with
  | act p =>
    cases h
    exact ⟨_,_,rfl,rfl,.act⟩
  | choose next =>
    cases h with
    | choose hl =>
      obtain ⟨l₀,hl₀,rfl⟩ := hl
      exact ⟨l₀,_,rfl,rfl,.choose hl₀⟩
  | lock =>
    cases h
    exact ⟨_,_,rfl,rfl,.lock⟩
  | unlock =>
    cases h
    exact ⟨_,_,rfl,rfl,.unlock⟩
  | wait =>
    cases h
    exact ⟨_,_,rfl,rfl,.wait⟩
  | signal =>
    cases h
    exact ⟨_,_,rfl,rfl,.signal⟩
  | broadcast =>
    cases h
    exact ⟨_,_,rfl,rfl,.broadcast⟩
  | spawn =>
    cases h
    exact ⟨_,_,rfl,rfl,.spawn⟩
  | exit => cases h

/-- What a statement does that is not the owner's. -/
inductive PoolMoves (i n : ℕ) (mem mem' : Pool) (l : ZeroPool.Place) : Place → Prop
  | within {next : ZeroPool.Place} (h : (ZeroPool.code i l).Leads n mem.memory next mem'.memory)
      (hthreads : mem'.threads = mem.threads) (hreturned : mem'.returned = mem.returned) :
      PoolMoves i n mem mem' l (.pool next)
  | returns (hl : l = .ended) (hmemory : mem'.memory = mem.memory) (hthreads : mem'.threads = mem.threads)
      (hreturned : mem'.returned = i :: mem.returned) : PoolMoves i n mem mem' l .gone

theorem pool_moves {l : ZeroPool.Place} (h : (code i (.pool l)).Leads n mem l' mem') :
    PoolMoves i n mem mem' l l' := by
  by_cases hl : l = .ended
  · subst hl
    cases h
    exact .returns rfl rfl rfl rfl
  · rw [code_pool hl] at h
    obtain ⟨l₀,m₀,rfl,rfl,hleads⟩ := inPool_leads h
    exact .within hleads rfl rfl

theorem code_exit (h : code i l = .exit) : l = .gone := by
  cases l with
  | pool l =>
    by_cases hl : l = .ended
    · subst hl
      cases h
    · rw [code_pool hl] at h
      cases hcode : ZeroPool.code i l with
      | exit => exact absurd (ZeroPool.code_exit hcode) hl
      | act | choose | lock | unlock | wait | signal | broadcast | spawn =>
        rw [hcode] at h
        cases h
  | owner pc =>
    cases pc with
    | idle | crashed => cases h
    | init _ pc => cases pc <;> cases h
    | start pc => cases pc <;> cases h
    | stop pc => cases pc <;> cases h
  | gone => rfl

/-- Only the owner creates threads, and these are workers. -/
theorem code_starts {start : Place} (h : (code i l).starts = some start) :
    start = .pool (.run .isTerminate) ∧ ∃ pc, l = .owner pc := by
  cases l with
  | pool l =>
    by_cases hl : l = .ended
    · subst hl
      cases h
    · rw [code_pool hl] at h
      have hnone := ZeroPool.code_starts i l
      cases hcode : ZeroPool.code i l with
      | spawn =>
        rw [hcode] at hnone
        cases hnone
      | exit | act | choose | lock | unlock | wait | signal | broadcast =>
        rw [hcode] at h
        cases h
  | owner pc =>
    refine ⟨?_,pc,rfl⟩
    cases pc with
    | idle | crashed => cases h
    | init _ pc => cases pc <;> cases h
    | start pc =>
      cases pc with
      | create =>
        cases h
        rfl
      | lock | empty | loop | unlock => cases h
    | stop pc => cases pc <;> cases h
  | gone => cases h

theorem code_waits {c m : Unit} (h : code i l = .wait c m l') :
    ∃ l₀ l₀', l = .pool l₀ ∧ l' = .pool l₀' ∧ ZeroPool.code i l₀ = .wait c m l₀' := by
  cases l with
  | pool l =>
    by_cases hl : l = .ended
    · subst hl
      cases h
    · rw [code_pool hl] at h
      cases hcode : ZeroPool.code i l with
      | wait c' m' next =>
        rw [hcode] at h
        cases h
        exact ⟨l,next,rfl,rfl,hcode⟩
      | exit | act | choose | lock | unlock | signal | broadcast | spawn =>
        rw [hcode] at h
        cases h
  | owner pc =>
    cases pc with
    | idle | crashed => cases h
    | init _ pc => cases pc <;> cases h
    | start pc => cases pc <;> cases h
    | stop pc => cases pc <;> cases h
  | gone => cases h

end Code

abbrev State := Config Pool Unit Unit Place

/-- A worker that sleeps until it is notified. -/
def Asleep (t : Thread Unit Unit Place) : Prop := ∃ pc, t.status = .waiting () () (.pool (.run pc))

/-- What holds at any time: the workers are in `threads` until they have returned, and once `_bTerminate`
is set no worker gets a task or goes to sleep. -/
structure Managed (s : State) : Prop where
  owns : Owns owned s
  resumes : ∀ t ∈ s.threads, t.Resumes code
  first : ∃ pc, s.place 0 = some (.owner pc) ∧ pc.Holds s.mem
  single : ∀ i pc, s.place i = some (.owner pc) → i = 0
  workers : ∀ i pc, s.place i = some (.pool (.run pc)) → some i ∈ s.mem.threads
  returned : ∀ i ∈ s.mem.returned, i < s.threads.length ∧ ∀ l, s.place i = some l → l = .gone
  halted : s.mem.memory.bTerminate = true → ∀ i l, s.place i = some (.pool l) → l.committed = false
  awake : s.mem.memory.bTerminate = true → s.place 0 ≠ some (.owner (.stop .notify)) →
    ∀ t ∈ s.threads, ¬ Asleep t

section Managed
variable {s s' : State} {i : ℕ} {label : Label}

/-- A thread that is about to get a task or to sleep runs. -/
theorem Managed.running (h : Managed s) {l : ZeroPool.Place} (hi : s.place i = some (.pool l))
    (hl : l.committed = true) : ∃ g, s.threads[i]? = some ⟨.running (.pool l),g⟩ := by
  obtain ⟨t,ht,hplace⟩ := Option.bind_eq_some_iff.mp hi
  have hresumes := h.resumes t (List.mem_of_getElem? ht)
  have hnot {next : Place} (hnext : some next = some (.pool l))
      (hwait : ∃ i l c m, code i l = .wait c m next) : False := by
    obtain ⟨i,l₁,c,m,hcode⟩ := hwait
    obtain ⟨l₀,l₀',-,rfl,hcode₀⟩ := code_waits hcode
    cases hnext
    exact Bool.false_ne_true ((code_wait hcode₀).1.symm.trans hl)
  obtain ⟨status,g⟩ := t
  cases status with
  | running l₁ =>
    cases hplace
    exact ⟨g,ht⟩
  | waiting c m next => exact (hnot hplace hresumes).elim
  | woken m next => exact (hnot hplace hresumes).elim
  | exited => cases hplace

/-- When the owner has the mutex, no worker is about to get a task or to sleep. -/
theorem Managed.alone (h : Managed s) {pc : OwnerPc} {g : Unit → Bool} {j : ℕ} {l : ZeroPool.Place}
    (hi : s.threads[i]? = some ⟨.running (.owner pc),g⟩) (hpc : owned (.owner pc) () = true)
    (hj : s.place j = some (.pool l)) : l.committed = false := by
  by_contra hl
  rw [Bool.not_eq_false] at hl
  obtain ⟨g',hj'⟩ := h.running hj hl
  have hsame : j = i := by
    refine (h.owns.exclusive ()).unique hj' hi ?_ ?_
    · rw [h.owns.running hj']
      exact owned_of_committed hl
    · rw [h.owns.running hi]
      exact hpc
  subst hsame
  cases hi.symm.trans hj'

theorem place_ne (hi : s.place i ≠ none) : i ≠ s.threads.length := by
  rintro rfl
  apply hi
  unfold Config.place
  rw [List.getElem?_eq_none le_rfl]
  rfl

/-- A worker goes to sleep only while the pool goes on, and the owner wakes up those that sleep. -/
theorem Managed.awake_step (h : Managed s) (hstep : Pthreads.Step code s label s')
    (hset : s'.mem.memory.bTerminate = true →
      s.mem.memory.bTerminate = true ∨ s'.place 0 = some (.owner (.stop .notify)))
    (hstop : s'.mem.memory.bTerminate = true) (hnot : s'.place 0 ≠ some (.owner (.stop .notify))) :
    ∀ t ∈ s'.threads, ¬ Asleep t := by
  rintro t ht ⟨pc,hasleep⟩
  have hbefore : s.mem.memory.bTerminate = true := (hset hstop).resolve_right hnot
  obtain ⟨⟨u,hu,hasleep'⟩,hquiet⟩ | ⟨i,l,hi,hcode⟩ := hstep.waits ht hasleep
  · by_cases hnotify : s.place 0 = some (.owner (.stop .notify))
    · apply hquiet
      cases hstep.moves with
      | silent hmem hplace => exact absurd ((hplace 0).trans hnotify) hnot
      | @goes i l g l' _ hi hleads hplace hothers =>
        obtain rfl | hne := eq_or_ne i 0
        · cases (place_eq hi).symm.trans hnotify
          exact ⟨0,_,g,_,rfl,hi,rfl⟩
        · obtain hsame | ⟨hnew,-⟩ := hothers 0 (Ne.symm hne)
          · exact absurd (hsame.trans hnotify) hnot
          · exact absurd hnew (place_ne (hnotify ▸ nofun))
      | @exits i l g _ hi hcode hmem hplace hothers =>
        obtain rfl | hne := eq_or_ne i 0
        · cases (place_eq hi).symm.trans hnotify
          cases code_exit hcode
        · exact absurd ((hothers 0 (Ne.symm hne)).trans hnotify) hnot
    · exact h.awake hbefore hnotify u hu ⟨pc,hasleep'⟩
  · obtain ⟨l₀,l₀',rfl,heq,hcode₀⟩ := code_waits hcode
    cases heq
    have hcommitted := (code_wait hcode₀).2 rfl
    rw [h.halted hbefore i l₀ hi] at hcommitted
    cases hcommitted

theorem Managed.owner_goes (h : Managed s) {pc pc' : OwnerPc} {g : Unit → Bool} {l' : Place}
    (hi : s.threads[0]? = some ⟨.running (.owner pc),g⟩)
    (hmoves : OwnerMoves s.threads.length s.mem pc l' s'.mem pc') (hplace : s'.place 0 = some l')
    (hothers : ∀ j, j ≠ 0 → s'.place j = s.place j ∨
      j = s.threads.length ∧ s'.place j = (code 0 (.owner pc)).starts)
    (hstep : Pthreads.Step code s label s') (howns : Owns owned s') : Managed s' := by
  have hfirst : s.place 0 = some (.owner pc) := place_eq hi
  rw [hmoves.place] at hplace
  have hset : s'.mem.memory.bTerminate = true →
      s.mem.memory.bTerminate = true ∨ s'.place 0 = some (.owner (.stop .notify)) := by
    obtain hmem | ⟨-,rfl,-⟩ := hmoves.memory
    · rw [hmem]
      exact .inl
    · exact fun _ => .inr hplace
  refine ⟨howns,hstep.resumes h.resumes,⟨pc',hplace,hmoves.holds⟩,?_,?_,?_,?_,h.awake_step hstep hset⟩
  · intro j pc₁ hj
    obtain rfl | hne := eq_or_ne j 0
    · rfl
    · obtain hsame | ⟨-,hnew⟩ := hothers j hne
      · exact h.single j pc₁ (hsame ▸ hj)
      · cases (code_starts (hnew.symm.trans hj)).1
  · intro j pc₁ hj
    obtain rfl | hne := eq_or_ne j 0
    · cases hplace.symm.trans hj
    · obtain hsame | ⟨rfl,hnew⟩ := hothers j hne
      · have hat : s.place j = _ := hsame.symm.trans hj
        obtain hin | hreturned := hmoves.threads j (h.workers j pc₁ hat)
        · exact hin
        · cases (h.returned j hreturned).2 _ hat
      · apply hmoves.created
        exact fun hnone => nomatch (hnew.symm.trans hj).symm.trans hnone
  · rw [hmoves.returned]
    intro j hj
    obtain ⟨hlt,hgone⟩ := h.returned j hj
    refine ⟨hlt.trans_le hstep.length_le,fun l hl => ?_⟩
    obtain rfl | hne := eq_or_ne j 0
    · cases hgone _ hfirst
    · obtain hsame | ⟨hnew,-⟩ := hothers j hne
      · exact hgone l (hsame ▸ hl)
      · exact absurd hnew hlt.ne
  · intro hstop j l hj
    obtain rfl | hne := eq_or_ne j 0
    · cases hplace.symm.trans hj
    · obtain hsame | ⟨-,hnew⟩ := hothers j hne
      · rw [hsame] at hj
        obtain hmem | ⟨rfl,-,-⟩ := hmoves.memory
        · exact h.halted (hmem ▸ hstop) j l hj
        · exact h.alone hi rfl hj
      · cases (code_starts (hnew.symm.trans hj)).1
        rfl

theorem Managed.pool_goes (h : Managed s) {l : ZeroPool.Place} {g : Unit → Bool} {l' : Place}
    (hi : s.threads[i]? = some ⟨.running (.pool l),g⟩)
    (hmoves : PoolMoves i s.threads.length s.mem s'.mem l l') (hplace : s'.place i = some l')
    (hothers : ∀ j, j ≠ i → s'.place j = s.place j)
    (hstep : Pthreads.Step code s label s') (howns : Owns owned s') : Managed s' := by
  have hat : s.place i = some (.pool l) := place_eq hi
  obtain ⟨pc,hfirst,hpc⟩ := h.first
  have hi0 : 0 ≠ i := by
    rintro rfl
    cases hat.symm.trans hfirst
  have hthreads : s'.mem.threads = s.mem.threads := by cases hmoves <;> assumption
  have hterminate : s'.mem.memory.bTerminate = s.mem.memory.bTerminate := by
    cases hmoves with
    | within hleads => exact (code_does hleads).bTerminate
    | returns hl hmemory => exact congrArg Memory.bTerminate hmemory
  have hback : ∀ j ∈ s'.mem.returned, j ∈ s.mem.returned ∨ j = i ∧ l' = .gone := by
    intro j hj
    cases hmoves with
    | within hleads hthreads hreturned => exact .inl (hreturned ▸ hj)
    | returns hl hmemory hthreads hreturned =>
      rw [hreturned] at hj
      obtain rfl | hj := List.mem_cons.mp hj
      · exact .inr ⟨rfl,rfl⟩
      · exact .inl hj
  have hholds : pc.Holds s'.mem := by
    apply hpc.congr hterminate hthreads
    cases hmoves with
    | within hleads hthreads hreturned =>
      rw [hreturned]
      exact fun _ => id
    | returns hl hmemory hthreads hreturned =>
      rw [hreturned]
      exact List.subset_cons_self ..
  have howner : s'.place 0 = some (.owner pc) := (hothers 0 hi0).trans hfirst
  refine ⟨howns,hstep.resumes h.resumes,⟨pc,howner,hholds⟩,?_,?_,?_,?_,
    h.awake_step hstep fun hstop => .inl (hterminate ▸ hstop)⟩
  · intro j pc₁ hj
    obtain rfl | hne := eq_or_ne j i
    · cases hmoves with
      | within | returns => cases hplace.symm.trans hj
    · exact h.single j pc₁ (hothers j hne ▸ hj)
  · rw [hthreads]
    intro j pc₁ hj
    obtain rfl | hne := eq_or_ne j i
    · cases hmoves with
      | within hleads =>
        cases hplace.symm.trans hj
        have hrun : l.isRun = true := (code_does hleads).run rfl
        cases l with
        | run pc₀ => exact h.workers j pc₀ hat
        | idle | ended | exec | call | waitForAllDone => cases hrun
      | returns => cases hplace.symm.trans hj
    · exact h.workers j pc₁ (hothers j hne ▸ hj)
  · intro j hj
    obtain hj | ⟨rfl,rfl⟩ := hback j hj
    · obtain ⟨hlt,hgone⟩ := h.returned j hj
      refine ⟨hlt.trans_le hstep.length_le,fun l₁ hl₁ => ?_⟩
      obtain rfl | hne := eq_or_ne j i
      · cases hgone _ hat
      · exact hgone l₁ (hothers j hne ▸ hl₁)
    · refine ⟨(List.getElem?_eq_some_iff.mp hi).1.trans_le hstep.length_le,fun l₁ hl₁ => ?_⟩
      exact (Option.some.inj (hplace.symm.trans hl₁)).symm
  · rw [hterminate]
    intro hstop j l₁ hj
    obtain rfl | hne := eq_or_ne j i
    · cases hmoves with
      | within hleads =>
        cases hplace.symm.trans hj
        by_contra hcommitted
        rw [Bool.not_eq_false] at hcommitted
        obtain hl | hgoes := code_committed hleads hcommitted
        · rw [h.halted hstop j l hat] at hl
          cases hl
        · rw [hstop] at hgoes
          cases hgoes
      | returns => cases hplace.symm.trans hj
    · exact h.halted hstop j l₁ (hothers j hne ▸ hj)

theorem Managed.step (h : Managed s) (hstep : Pthreads.Step code s label s') : Managed s' := by
  have hbad : ¬ RunsAt (fun _ => False) s label := by
    cases label with
    | run i => exact fun ⟨_,_,_,hnot⟩ => hnot
    | wake i => exact id
  have howns := h.owns.step code_disciplined hbad hstep
  cases hstep.moves with
  | silent hmem hplace =>
    have hsame : s'.place = s.place := funext hplace
    refine ⟨howns,hstep.resumes h.resumes,?_,?_,?_,?_,?_,h.awake_step hstep ?_⟩
    · rw [hmem, hsame]
      exact h.first
    · rw [hsame]
      exact h.single
    · rw [hmem, hsame]
      exact h.workers
    · rw [hmem, hsame]
      exact fun j hj => ⟨(h.returned j hj).1.trans_le hstep.length_le,(h.returned j hj).2⟩
    · rw [hmem, hsame]
      exact h.halted
    · rw [hmem]
      exact .inl
  | @goes i l g l' _ hi hleads hplace hothers =>
    cases l with
    | pool l =>
      refine h.pool_goes hi (pool_moves hleads) hplace (fun j hj => ?_) hstep howns
      obtain hsame | ⟨hnew,hstarts⟩ := hothers j hj
      · exact hsame
      · have hnone : (code i (.pool l)).starts = none := by
          by_contra hsome
          obtain ⟨start,hstart⟩ := Option.ne_none_iff_exists'.mp hsome
          obtain ⟨-,pc,heq⟩ := code_starts hstart
          cases heq
        have hout : s.place j = none := by
          by_contra hin
          exact place_ne hin hnew
        rw [hstarts, hnone, hout]
    | owner pc =>
      obtain rfl := h.single i pc (place_eq hi)
      obtain ⟨pc₀,hfirst,hpc⟩ := h.first
      cases (place_eq hi).symm.trans hfirst
      obtain ⟨pc',hmoves⟩ := owner_moves hleads hpc
      exact h.owner_goes hi hmoves hplace hothers hstep howns
    | gone => cases hleads
  | @exits i l g _ hi hcode hmem hplace hothers =>
    have hat : s.place i = some .gone := (place_eq hi).trans (congrArg some (code_exit hcode))
    have hsub {j : ℕ} {l₁ : Place} (hj : s'.place j = some l₁) : s.place j = some l₁ := by
      obtain rfl | hne := eq_or_ne j i
      · cases hplace.symm.trans hj
      · exact hothers j hne ▸ hj
    refine ⟨howns,hstep.resumes h.resumes,?_,fun j pc hj => h.single j pc (hsub hj),?_,?_,?_,
      h.awake_step hstep ?_⟩
    · obtain ⟨pc,hfirst,hpc⟩ := h.first
      have hne : 0 ≠ i := by
        rintro rfl
        cases hat.symm.trans hfirst
      exact ⟨pc,(hothers 0 hne).trans hfirst,hmem ▸ hpc⟩
    · rw [hmem]
      exact fun j pc hj => h.workers j pc (hsub hj)
    · rw [hmem]
      exact fun j hj => ⟨(h.returned j hj).1.trans_le hstep.length_le,
        fun l₁ hl₁ => (h.returned j hj).2 l₁ (hsub hl₁)⟩
    · rw [hmem]
      exact fun hstop j l₁ hj => h.halted hstop j l₁ (hsub hj)
    · rw [hmem]
      exact .inl

theorem managed_created (m : ℕ) : Managed (created m) := by
  have hthread (t : Thread Unit Unit Place) (ht : t ∈ (created m).threads) :
      t = ⟨.running (.owner .idle),fun _ => false⟩ ∨ t = ⟨.running (.pool .idle),fun _ => false⟩ := by
    obtain rfl | ht := List.mem_cons.mp ht
    · exact .inl rfl
    · exact .inr (List.eq_of_mem_replicate ht)
  have hplace {j : ℕ} {l : Place} (hj : (created m).place j = some l) :
      j = 0 ∧ l = .owner .idle ∨ l = .pool .idle := by
    obtain ⟨t,ht,hl⟩ := Option.bind_eq_some_iff.mp hj
    obtain _ | j := j
    · cases ht
      exact .inl ⟨rfl,(Option.some.inj hl).symm⟩
    · have hmem : t ∈ List.replicate m _ := List.mem_of_getElem? ht
      rw [List.eq_of_mem_replicate hmem] at hl
      exact .inr (Option.some.inj hl).symm
  refine ⟨⟨?_,?_⟩,?_,⟨.idle,rfl,List.not_mem_nil⟩,?_,?_,nofun,nofun,nofun⟩
  · intro t ht
    obtain rfl | rfl := hthread t ht <;> rfl
  · intro mutex
    refine List.countP_eq_zero.mpr fun t ht => ?_
    obtain rfl | rfl := hthread t ht <;> exact Bool.false_ne_true
  · intro t ht
    obtain rfl | rfl := hthread t ht <;> trivial
  · intro j pc hj
    obtain ⟨rfl,-⟩ | hl := hplace hj
    · rfl
    · cases hl
  · intro j pc hj
    obtain ⟨-,hl⟩ | hl := hplace hj <;> cases hl

end Managed

end Lifecycle
end ServerKit.Threads.ZeroPool
