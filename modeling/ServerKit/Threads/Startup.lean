import ServerKit.Threads.Statements

/-! What the threads that `threadpool_create` of `src2/pthreadpool.cpp` starts find initialised while it is
still running. -/
namespace ServerKit.Threads.Statements
open Function ServerKit.Lib ServerKit.Lib.Pthreads

/-- The items that a statement reads, locks or waits for are among `Q`. -/
def UsesOnly (Q : Item → Prop) (mem : Memory) : PoolInstr → Prop
  | .act p => p.Clean Q mem
  | .lock .pthreadpool _ => Q .mutex
  | .wait c _ _ => Q (.cond c) ∧ Q .mutex
  | _ => True

/-- A step uses nothing that is not initialised. -/
def UsesReady (v : Version) (s : Config Memory Mutex Cond Place) : Label → Prop
  | .run i => ∀ l g, s.threads[i]? = some ⟨.running l,g⟩ →
      UsesOnly (fun item => s.mem.ready item = true) s.mem (code v i l)
  | .wake _ => True

/-- A call of `threadpool_create` in a memory with any contents. -/
def starting (args : CreateArgs) (pool : Threadpool) : Config Memory Mutex Cond Place where
  mem := ⟨pool,fun _ => false⟩
  locked := fun _ => false
  threads := [⟨.running (.create args 0 0),fun _ => false⟩]

def Item.stmt : Item → CreateStmt
  | .task => .task
  | .taskCapicity => .taskCapicity
  | .taskNow => .taskNow
  | .queueFront => .queueFront
  | .mutex => .mutexPthreadpool
  | .cond .notFull => .notFull
  | .cond .notEmpty => .notEmpty

/-- The number of a statement of `threadpool_create`. -/
def CreateStmt.pos (stmt : CreateStmt) : ℕ := (createStmts .src2).idxOf stmt

/-- The first thread is still before the statement, or at it. -/
def NotBehind (stmt : CreateStmt) (s : Config Memory Mutex Cond Place) : Prop :=
  ∃ args k i, k ≤ stmt.pos ∧
    (s.place 0 = some (.create args k i) ∨ s.place 0 = some (.createWorker args k i))

/-- A thread locks the mutex before it has been initialised, or waits for `not_empty` before this has. -/
def Rushes (s : Config Memory Mutex Cond Place) : Label → Prop
  | .run i => ∃ l g, s.threads[i]? = some ⟨.running l,g⟩ ∧
      ((l = .worker .lock ∨ l = .manager .lock) ∧ NotBehind .mutexPthreadpool s ∨
        l = .worker .wait ∧ NotBehind .notEmpty s)
  | .wake _ => False

/-- The places up to the first lock. -/
def AtLock (l : Place) : Prop :=
  l = .worker .lock ∨ l = .manager .test ∨ l = .manager .sleep ∨ l = .manager .lock

/-- The places that come after it. -/
def Behind : Place → Prop
  | .worker pc => pc ≠ .lock
  | .manager pc => pc ≠ .test ∧ pc ≠ .sleep ∧ pc ≠ .lock ∧ pc ≠ .done
  | _ => False

section Places
variable {Q : Item → Prop} {mem mem' : Memory} {n : ℕ} {l' : Place}

@[simp] theorem clean_look {α : Type} (f : Threadpool → α) : (Prog.look f).Clean Q mem :=
  Logged.clean_get _

@[simp] theorem clean_write (f : Threadpool → Threadpool) : (Prog.write f).Clean Q mem :=
  Logged.clean_modify _

theorem clean_item {α : Type} (item : Item) (f : Threadpool → α) : (Prog.read item f).Clean Q mem ↔ Q item :=
  Logged.clean_read ..

theorem assign_ready (args : CreateArgs) (stmt : CreateStmt) (mem : Memory) (item : Item) :
    ((assign args stmt).state mem).ready item = (mem.ready item || decide (item.stmt = stmt)) := by
  cases stmt <;> rcases item with _ | _ | _ | _ | _ | _ | _ <;>
    simp [assign,Prog.write,Prog.initialise,Item.stmt]

/-- A worker uses no condition variable but where it waits. -/
theorem worker_uses {tid : ThreadId} {pc : WorkerPc} (hpc : pc ≠ .wait)
    (hQ : ∀ item, (∀ c, item ≠ .cond c) → Q item) : UsesOnly Q mem (worker tid pc) := by
  have htask := hQ .task nofun
  have hcapicity := hQ .taskCapicity nofun
  have hnow := hQ .taskNow nofun
  have hfront := hQ .queueFront nofun
  cases pc with
  | wait => exact absurd rfl hpc
  | lock => exact hQ .mutex nofun
  | leave | close | signal | unlock | busyLock | busyUnlock | freeLock | freeUnlock | pthreadExit => trivial
  | test => simp [UsesOnly,worker,Prog.taskNow,clean_item,hnow]
  | threadExit => simp [UsesOnly,worker]
  | _ => simp [UsesOnly,worker,Prog.taskNow,Prog.task,Prog.queueFront,Prog.taskCapicity,clean_item,htask,
      hcapicity,hnow,hfront]

theorem manager_uses {v : Version} (pc : ManagerPc) (hQ : ∀ item, (∀ c, item ≠ .cond c) → Q item) :
    UsesOnly Q mem (manager v pc) := by
  cases pc with
  | lock | growLock | shrinkLock => exact hQ .mutex nofun
  | unlock | growUnlock | shrinkUnlock | growCreate | shrinkSignal | done => trivial
  | now => simp [UsesOnly,manager,Prog.taskNow,clean_item,hQ .taskNow nofun]
  | _ => simp [UsesOnly,manager]

theorem worker_leads {tid : ThreadId} {pc : WorkerPc} (h : (worker tid pc).Leads n mem l' mem') :
    mem'.ready = mem.ready ∧ mem'.pool.shutdown = mem.pool.shutdown ∧ (l' = .worker .lock ∨ Behind l') := by
  cases pc with
  | freeUnlock =>
    cases h
    exact ⟨rfl,rfl,.inl rfl⟩
  | pthreadExit => cases h
  | test =>
    cases h
    simp only [Logged.val_bind, Logged.state_bind, Logged.val_ite, Logged.state_ite, Logged.val_pure]
    split
    · refine ⟨rfl,rfl,.inr ?_⟩
      split <;> nofun
    · exact ⟨rfl,rfl,.inr nofun⟩
  | woken | compare | shutdown =>
    cases h
    simp only [Logged.val_bind, Logged.val_pure]
    refine ⟨rfl,rfl,.inr ?_⟩
    split <;> nofun
  | threadExit i =>
    cases h
    simp only [Logged.val_bind, Logged.state_bind, Logged.val_ite, Logged.state_ite, Logged.val_pure]
    split
    · split <;> exact ⟨rfl,rfl,.inr nofun⟩
    · exact ⟨rfl,rfl,.inr nofun⟩
  | _ =>
    cases h
    exact ⟨rfl,rfl,.inr nofun⟩

theorem manager_leads {v : Version} {pc : ManagerPc} (hshutdown : mem.pool.shutdown = false)
    (hpc : pc ≠ .done) (h : (manager v pc).Leads n mem l' mem') : mem'.ready = mem.ready ∧
      mem'.pool.shutdown = mem.pool.shutdown ∧ (AtLock l' ∨ pc ≠ .test ∧ pc ≠ .sleep ∧ Behind l') := by
  cases pc with
  | done => exact absurd rfl hpc
  | test =>
    cases h
    simp only [Logged.val_bind, Logged.val_pure]
    refine ⟨rfl,rfl,.inl (.inr (.inr (.inl ?_)))⟩
    exact congrArg Place.manager (if_neg (Bool.eq_false_iff.mp hshutdown))
  | sleep =>
    cases h
    exact ⟨rfl,rfl,.inl (.inr (.inr (.inr rfl)))⟩
  | shrink l =>
    cases h
    simp only [Logged.val_pure]
    split
    · exact ⟨rfl,rfl,.inr ⟨nofun,nofun,nofun,nofun,nofun,nofun⟩⟩
    · exact ⟨rfl,rfl,.inl (.inr (.inl rfl))⟩
  | shrinkTest i =>
    cases h
    simp only [Logged.val_pure]
    split
    · exact ⟨rfl,rfl,.inr ⟨nofun,nofun,nofun,nofun,nofun,nofun⟩⟩
    · exact ⟨rfl,rfl,.inl (.inr (.inl rfl))⟩
  | grow | growTest | growSlot =>
    cases h
    simp only [Logged.val_bind, Logged.val_pure]
    refine ⟨rfl,rfl,.inr ⟨nofun,nofun,?_⟩⟩
    split <;> exact ⟨nofun,nofun,nofun,nofun⟩
  | _ =>
    cases h
    exact ⟨rfl,rfl,.inr ⟨nofun,nofun,nofun,nofun,nofun,nofun⟩⟩

/-- All threads are started at one of these places. -/
theorem starts_atLock {v : Version} {l : Place} (h : (code v n l).starts = some l') : AtLock l' := by
  cases l with
  | idle | ended => cases h
  | add task pc => cases pc <;> cases h
  | alive pc => cases pc <;> cases h
  | worker pc => cases pc <;> cases h
  | manager pc =>
    cases pc with
    | growCreate =>
      cases h
      exact .inl rfl
    | _ => cases h
  | create args k i =>
    change (threadpoolCreate v args k i).starts = some l' at h
    unfold threadpoolCreate at h
    split at h
    · cases h
    · cases h
      exact .inr (.inl rfl)
    · cases h
    · cases h
  | createWorker =>
    cases h
    exact .inl rfl

end Places

section Creator
variable {k n : ℕ} {stmt : CreateStmt} {mem mem' : Memory} {args : CreateArgs} {i : ℕ} {l l' : Place}

theorem pos_eq (h : (createStmts .src2)[k]? = some stmt) : stmt.pos = k := by
  obtain ⟨hlt,rfl⟩ := List.getElem?_eq_some_iff.mp h
  exact List.Nodup.idxOf_getElem (by decide) k hlt

theorem pos_lt (h : (createStmts .src2)[k]? = some stmt) : k < 18 :=
  (List.getElem?_eq_some_iff.mp h).1

theorem getElem?_pos (stmt : CreateStmt) : (createStmts .src2)[stmt.pos]? = some stmt := by
  cases stmt <;> rfl

/-- What has been done before the statement `k`: some items are initialised, and `shutdown` is reset. -/
structure ReadyAt (k : ℕ) (mem : Memory) : Prop where
  ready : ∀ item, mem.ready item = decide (item.stmt.pos < k)
  shutdown : CreateStmt.shutdown.pos < k → mem.pool.shutdown = false

/-- A place in `threadpool_create`, at the statement `k` or in front of the end. -/
def CreatorAt (k : ℕ) (l : Place) : Prop :=
  ∃ args i, l = .create args k i ∧ k ≤ 18 ∨ l = .createWorker args k i ∧ k = CreateStmt.workers.pos

theorem ReadyAt.congr (h : ReadyAt k mem) (hready : mem'.ready = mem.ready)
    (hshutdown : mem'.pool.shutdown = mem.pool.shutdown) : ReadyAt k mem' where
  ready item := by rw [hready, h.ready]
  shutdown hk := by rw [hshutdown, h.shutdown hk]

theorem ReadyAt.succ (h : ReadyAt k mem) (hstmt : (createStmts .src2)[k]? = some stmt)
    (hready : ∀ item, mem'.ready item = (mem.ready item || decide (item.stmt = stmt)))
    (hshutdown : mem'.pool.shutdown = if stmt = .shutdown then false else mem.pool.shutdown) :
    ReadyAt (k+1) mem' where
  ready item := by
    have hsame : item.stmt = stmt ↔ item.stmt.pos = k := by
      rw [← pos_eq hstmt]
      constructor
      · rintro heq
        rw [heq]
      · intro hpos
        have hget := getElem?_pos item.stmt
        rw [hpos, getElem?_pos] at hget
        exact (Option.some.inj hget).symm
    rw [hready, h.ready, ← Bool.decide_or, decide_eq_decide, hsame]
    omega
  shutdown hk := by
    rw [hshutdown]
    split
    · rfl
    · next hne =>
      refine h.shutdown (Nat.lt_of_le_of_ne (Nat.le_of_lt_succ hk) fun heq => hne ?_)
      have hget := getElem?_pos .shutdown
      rw [heq, hstmt] at hget
      exact Option.some.inj hget

theorem assign_shutdown (args : CreateArgs) (stmt : CreateStmt) (mem : Memory) :
    ((assign args stmt).state mem).pool.shutdown =
      if stmt = .shutdown then false else mem.pool.shutdown := by
  cases stmt <;> rfl

/-- One statement of `threadpool_create` after the other. -/
theorem create_leads (hready : ReadyAt k mem)
    (h : (threadpoolCreate .src2 args k i).Leads n mem l' mem') :
    ∃ k', k ≤ k' ∧ CreatorAt k' l' ∧ ReadyAt k' mem' ∧
      ((threadpoolCreate .src2 args k i).starts ≠ none → CreateStmt.manager.pos < k') := by
  unfold threadpoolCreate at h ⊢
  split at h
  · cases h
  · next hstmt =>
    cases h
    refine ⟨k+1,k.le_succ,⟨args,0,.inl ⟨rfl,pos_lt hstmt⟩⟩,hready.succ hstmt (fun item => ?_) rfl,
      fun _ => Nat.lt_succ_of_le (pos_eq hstmt).le⟩
    have hne : item.stmt ≠ .manager := by rcases item with _ | _ | _ | _ | _ | _ | _ <;> nofun
    rw [decide_eq_false hne, Bool.or_false]
    rfl
  · next hstmt =>
    cases h
    simp only [Logged.val_bind, Logged.state_bind, Logged.val_ite, Logged.state_ite, Logged.val_pure]
    split
    · exact ⟨k,le_rfl,⟨args,i,.inr ⟨rfl,(pos_eq hstmt).symm⟩⟩,hready,fun hne => absurd rfl hne⟩
    · refine ⟨k+1,k.le_succ,⟨args,0,.inl ⟨rfl,pos_lt hstmt⟩⟩,hready.succ hstmt (fun item => ?_) rfl,
        fun hne => absurd rfl hne⟩
      have hne : item.stmt ≠ .workers := by rcases item with _ | _ | _ | _ | _ | _ | _ <;> nofun
      rw [decide_eq_false hne, Bool.or_false]
      rfl
  · next stmt _ _ hstmt =>
    cases h
    exact ⟨k+1,k.le_succ,⟨args,0,.inl ⟨rfl,pos_lt hstmt⟩⟩,hready.succ hstmt
      (assign_ready args stmt mem) (assign_shutdown args stmt mem),fun hne => absurd rfl hne⟩

theorem createWorker_leads (hready : ReadyAt k mem) (hk : k = CreateStmt.workers.pos)
    (h : (createWorker args k i).Leads n mem l' mem') : CreatorAt k l' ∧ ReadyAt k mem' := by
  cases h
  exact ⟨⟨args,i+1,.inl ⟨rfl,hk ▸ by decide⟩⟩,hready.congr rfl rfl⟩

/-- The first thread uses nothing that the others rely on. -/
theorem create_uses {Q : Item → Prop} (args : CreateArgs) (k i : ℕ) :
    UsesOnly Q mem (threadpoolCreate .src2 args k i) := by
  unfold threadpoolCreate
  split
  · trivial
  · trivial
  · simp [UsesOnly]
  · next stmt _ _ _ => cases stmt <;> simp [UsesOnly,assign,Prog.initialise]

theorem create_exit (h : threadpoolCreate .src2 args k i = .exit) : 18 ≤ k := by
  unfold threadpoolCreate at h
  split at h
  · next hnone => exact List.getElem?_eq_none_iff.mp hnone
  · cases h
  · cases h
  · cases h

end Creator

/-- The first thread has come to the statement `k`, and the threads that it has started are behind their
first lock only if the mutex is initialised. -/
structure StartedAt (k : ℕ) (s : Config Memory Mutex Cond Place) : Prop where
  creator : ∀ l, s.place 0 = some l → CreatorAt k l
  done : s.place 0 = none → k = 18
  ready : ReadyAt k s.mem
  others : ∀ i l, i ≠ 0 → s.place i = some l → CreateStmt.manager.pos < k ∧
    (AtLock l ∨ Behind l ∧ CreateStmt.mutexPthreadpool.pos < k)

section Started
variable {s s' : Config Memory Mutex Cond Place} {k : ℕ} {label : Label}

/-- A step of the first thread. -/
theorem StartedAt.creator_goes (h : StartedAt k s) {l l' : Place} (hplace : s.place 0 = some l)
    (hleads : (code .src2 0 l).Leads s.threads.length s.mem l' s'.mem) :
    ∃ k', k ≤ k' ∧ CreatorAt k' l' ∧ ReadyAt k' s'.mem ∧
      ((code .src2 0 l).starts ≠ none → CreateStmt.manager.pos < k') := by
  obtain ⟨args,i,⟨rfl,-⟩ | ⟨rfl,hk⟩⟩ := h.creator l hplace
  · exact create_leads h.ready hleads
  · obtain ⟨hat,hready⟩ := createWorker_leads h.ready hk hleads
    exact ⟨k,le_rfl,hat,hready,fun _ => hk ▸ by decide⟩

/-- A step of a thread that has been started. -/
theorem StartedAt.other_goes (h : StartedAt k s) {i : ℕ} (hi : i ≠ 0) {l l' : Place}
    (hplace : s.place i = some l) (hrush : ¬ (l = .worker .lock ∨ l = .manager .lock) ∨
      CreateStmt.mutexPthreadpool.pos < k)
    (hleads : (code .src2 i l).Leads s.threads.length s.mem l' s'.mem) :
    ReadyAt k s'.mem ∧ (AtLock l' ∨ Behind l' ∧ CreateStmt.mutexPthreadpool.pos < k) := by
  obtain ⟨hk,hplaces⟩ := h.others i l hi hplace
  have hshutdown : s.mem.pool.shutdown = false := h.ready.shutdown (Nat.lt_trans (by decide) hk)
  -- what is left of the two functions when the place is known
  have hworker (pc : WorkerPc) (hl : l = .worker pc) (hin : CreateStmt.mutexPthreadpool.pos < k) :
      ReadyAt k s'.mem ∧ (AtLock l' ∨ Behind l' ∧ CreateStmt.mutexPthreadpool.pos < k) := by
    subst hl
    obtain ⟨hready,hsame,hnext⟩ := worker_leads hleads
    exact ⟨h.ready.congr hready hsame,hnext.imp Or.inl fun hnext => ⟨hnext,hin⟩⟩
  have hmanager (pc : ManagerPc) (hl : l = .manager pc) (hpc : pc ≠ .done)
      (hin : pc ≠ .test ∧ pc ≠ .sleep → CreateStmt.mutexPthreadpool.pos < k) :
      ReadyAt k s'.mem ∧ (AtLock l' ∨ Behind l' ∧ CreateStmt.mutexPthreadpool.pos < k) := by
    subst hl
    obtain ⟨hready,hsame,hnext⟩ := manager_leads hshutdown hpc hleads
    exact ⟨h.ready.congr hready hsame,hnext.imp_right fun hnext => ⟨hnext.2.2,hin ⟨hnext.1,hnext.2.1⟩⟩⟩
  obtain hat | ⟨hbehind,hin⟩ := hplaces
  · obtain rfl | rfl | rfl | rfl := hat
    · exact hworker .lock rfl (hrush.resolve_left fun hnot => hnot (.inl rfl))
    · exact hmanager .test rfl nofun fun hne => absurd rfl hne.1
    · exact hmanager .sleep rfl nofun fun hne => absurd rfl hne.2
    · exact hmanager .lock rfl nofun fun _ => hrush.resolve_left fun hnot => hnot (.inr rfl)
  · match l with
    | .worker pc => exact hworker pc rfl hin
    | .manager pc => exact hmanager pc rfl hbehind.2.2.2 fun _ => hin

/-- The first thread is behind a statement, or it is not. -/
theorem StartedAt.notBehind_iff (h : StartedAt k s) (stmt : CreateStmt) :
    NotBehind stmt s ↔ k ≤ stmt.pos := by
  constructor
  · rintro ⟨args,k',i,hk',hplace | hplace⟩
    · obtain ⟨_,_,⟨hl,-⟩ | ⟨hl,-⟩⟩ := h.creator _ hplace
      · cases hl
        exact hk'
      · cases hl
    · obtain ⟨_,_,⟨hl,-⟩ | ⟨hl,-⟩⟩ := h.creator _ hplace
      · cases hl
      · cases hl
        exact hk'
  · intro hle
    cases hplace : s.place 0 with
    | none =>
      have hlt : stmt.pos < 18 := pos_lt (getElem?_pos stmt)
      have hend := h.done hplace
      omega
    | some l =>
      obtain ⟨args,i,⟨rfl,-⟩ | ⟨rfl,-⟩⟩ := h.creator l hplace
      · exact ⟨args,k,i,hle,.inl hplace⟩
      · exact ⟨args,k,i,hle,.inr hplace⟩

/-- A thread that does not rush is behind its first lock only if the mutex is initialised. -/
theorem StartedAt.lock_ready (h : StartedAt k s) {i : ℕ} {l : Place} {g : Mutex → Bool}
    (hi : s.threads[i]? = some ⟨.running l,g⟩) (hrush : ¬ Rushes s (.run i)) :
    ¬ (l = .worker .lock ∨ l = .manager .lock) ∨ CreateStmt.mutexPthreadpool.pos < k := by
  by_contra hnot
  obtain ⟨hat,hle⟩ := not_or.mp hnot
  exact hrush ⟨l,g,hi,.inl ⟨not_not.mp hat,(h.notBehind_iff _).mpr (Nat.not_lt.mp hle)⟩⟩

theorem StartedAt.step (h : StartedAt k s) (hrush : ¬ Rushes s label)
    (hstep : Pthreads.Step (code .src2) s label s') : ∃ k', StartedAt k' s' := by
  cases hstep.moves with
  | silent hmem hplace =>
    refine ⟨k,?_,?_,hmem ▸ h.ready,?_⟩
    · rw [hplace]
      exact h.creator
    · rw [hplace]
      exact h.done
    · intro i l hi
      rw [hplace]
      exact h.others i l hi
  | @goes i l g l' _ hi hleads hplace hothers =>
    have hat : s.place i = some l := place_eq hi
    obtain rfl | hne := eq_or_ne i 0
    · obtain ⟨k',hle,hcreator,hready,hstarts⟩ := h.creator_goes hat hleads
      refine ⟨k',?_,?_,hready,fun j l₂ hj hl₂ => ?_⟩
      · rw [hplace]
        rintro _ ⟨⟩
        exact hcreator
      · rw [hplace]
        nofun
      · obtain hsame | ⟨-,hnew⟩ := hothers j hj
        · obtain ⟨hk,hl⟩ := h.others j l₂ hj (hsame ▸ hl₂)
          exact ⟨hk.trans_le hle,hl.imp_right fun hin => ⟨hin.1,hin.2.trans_le hle⟩⟩
        · have hsome := hnew.symm.trans hl₂
          exact ⟨hstarts (by rw [hsome]; nofun),.inl (starts_atLock hsome)⟩
    · obtain ⟨hready,hl'⟩ := h.other_goes hne hat (h.lock_ready hi hrush) hleads
      have hk := (h.others i l hne hat).1
      have hzero : s'.place 0 = s.place 0 := by
        obtain hsame | ⟨hnew,-⟩ := hothers 0 hne.symm
        · exact hsame
        · have hlt := (List.getElem?_eq_some_iff.mp hi).1
          omega
      refine ⟨k,?_,?_,hready,fun j l₂ hj hl₂ => ?_⟩
      · rw [hzero]
        exact h.creator
      · rw [hzero]
        exact h.done
      · obtain rfl | hji := eq_or_ne j i
        · obtain rfl := Option.some.inj (hplace.symm.trans hl₂)
          exact ⟨hk,hl'⟩
        · obtain hsame | ⟨-,hnew⟩ := hothers j hji
          · exact h.others j l₂ hj (hsame ▸ hl₂)
          · exact ⟨hk,.inl (starts_atLock (hnew.symm.trans hl₂))⟩
  | @exits i l g _ hi hcode hmem hplace hothers =>
    have hat : s.place i = some l := place_eq hi
    have hend : i = 0 → k = 18 := by
      rintro rfl
      obtain ⟨args,j,⟨rfl,hle⟩ | ⟨rfl,-⟩⟩ := h.creator l hat
      · exact le_antisymm hle (create_exit hcode)
      · cases hcode
    refine ⟨k,fun l' hl' => ?_,fun hnone => ?_,hmem ▸ h.ready,fun j l' hj hl' => ?_⟩
    · obtain rfl | hne := eq_or_ne i 0
      · rw [hplace] at hl'
        cases hl'
      · exact h.creator l' (hothers 0 hne.symm ▸ hl')
    · obtain rfl | hne := eq_or_ne i 0
      · exact hend rfl
      · exact h.done (hothers 0 hne.symm ▸ hnone)
    · obtain rfl | hne := eq_or_ne j i
      · rw [hplace] at hl'
        cases hl'
      · exact h.others j l' hj (hothers j hne ▸ hl')

/-- A step uses something that is not initialised exactly if it rushes. -/
theorem StartedAt.uses_iff (h : StartedAt k s) : UsesReady .src2 s label ↔ ¬ Rushes s label := by
  cases label with
  | wake => exact iff_of_true trivial not_false
  | run i =>
    constructor
    · rintro hready ⟨l,g,hi,⟨hl,hearly⟩ | ⟨rfl,hearly⟩⟩
      · have hlock : s.mem.ready .mutex = true := by
          have huses := hready l g hi
          obtain rfl | rfl := hl <;> exact huses
        rw [h.ready.ready, decide_eq_true_eq] at hlock
        exact Nat.not_lt.mpr ((h.notBehind_iff _).mp hearly) hlock
      · have hwait : s.mem.ready (.cond .notEmpty) = true := (hready _ g hi).1
        rw [h.ready.ready, decide_eq_true_eq] at hwait
        exact Nat.not_lt.mpr ((h.notBehind_iff _).mp hearly) hwait
    · intro hrush l g hi
      have hat : s.place i = some l := place_eq hi
      obtain rfl | hne := eq_or_ne i 0
      · obtain ⟨args,j,⟨rfl,-⟩ | ⟨rfl,-⟩⟩ := h.creator l hat
        · exact create_uses args k j
        · trivial
      · have hlock := h.lock_ready hi hrush
        have hmost (hin : CreateStmt.mutexPthreadpool.pos < k) (item : Item) (hitem : ∀ c, item ≠ .cond c) :
            s.mem.ready item = true := by
          rw [h.ready.ready, decide_eq_true_eq]
          have hle : item.stmt.pos ≤ CreateStmt.mutexPthreadpool.pos := by
            rcases item with _ | _ | _ | _ | _ | c
            all_goals first | decide | exact absurd rfl (hitem c)
          exact hle.trans_lt hin
        obtain ⟨-,(rfl | rfl | rfl | rfl) | ⟨hbehind,hin⟩⟩ := h.others i l hne hat
        · exact hmost (hlock.resolve_left fun hnot => hnot (.inl rfl)) .mutex nofun
        · simp [UsesOnly,code,manager]
        · simp [UsesOnly,code,manager]
        · exact hmost (hlock.resolve_left fun hnot => hnot (.inr rfl)) .mutex nofun
        · match l with
          | .worker pc =>
            by_cases hwait : pc = .wait
            · subst hwait
              refine ⟨?_,hmost hin .mutex nofun⟩
              refine (h.ready.ready _).trans (decide_eq_true ?_)
              by_contra hle
              exact hrush ⟨_,g,hi,.inr ⟨rfl,(h.notBehind_iff .notEmpty).mpr (Nat.not_lt.mp hle)⟩⟩
            · exact worker_uses hwait (hmost hin)
          | .manager pc => exact manager_uses pc (hmost hin)

theorem startedAt_starting (args : CreateArgs) (pool : Threadpool) : StartedAt 0 (starting args pool) where
  creator l hl := by
    cases hl
    exact ⟨args,0,.inl ⟨rfl,Nat.zero_le _⟩⟩
  done h := by cases h
  ready := ⟨fun item => (decide_eq_false (Nat.not_lt_zero _)).symm,fun h => absurd h (Nat.not_lt_zero _)⟩
  others i l hi hl := by
    have hnone : (starting args pool).place i = none := by
      obtain ⟨n,rfl⟩ := Nat.exists_eq_succ_of_ne_zero hi
      rfl
    rw [hnone] at hl
    cases hl

end Started

section Runs
variable (args : CreateArgs) (pool : Threadpool)

/-- The manager comes to its lock before the first thread goes on with the statement `task`. -/
theorem manager_first : ∃ steps s g, Trace (Pthreads.Step (code .src2)) (starting args pool) steps s ∧
    s.place 0 = some (.create args 8 0) ∧ s.threads[1]? = some ⟨.running (.manager .lock),g⟩ ∧
    s.locked .pthreadpool = false ∧ s.mem.ready .mutex = false := by
  have hstart : Trace (Pthreads.Step (code .src2)) (starting args pool) [] _ := .nil
  have h₁ := hstart.snoc (.act (i := 0) rfl rfl)
  have h₂ := (h₁.snoc (.act (i := 0) rfl rfl)).snoc (.act (i := 0) rfl rfl)
  have h₃ := (h₂.snoc (.act (i := 0) rfl rfl)).snoc (.act (i := 0) rfl rfl)
  have h₄ := (h₃.snoc (.act (i := 0) rfl rfl)).snoc (.act (i := 0) rfl rfl)
  have hmanager := h₄.snoc (.spawn (i := 0) rfl rfl)
  have hlock := (hmanager.snoc (.act (i := 1) rfl rfl)).snoc (.act (i := 1) rfl rfl)
  exact ⟨_,_,_,hlock,rfl,rfl,rfl,rfl⟩

/-- Whatever the arguments are, the manager rushes in some run: nothing makes it wait for the first
thread. -/
theorem starting_rushes : ∃ steps s, Trace (Pthreads.Step (code .src2)) (starting args pool) steps s ∧
    ∃ x ∈ steps, Rushes x.1 x.2 ∧ ¬ UsesReady .src2 x.1 x.2 := by
  obtain ⟨steps,s,g,h,hcreate,hmanager,hfree,hready⟩ := manager_first args pool
  refine ⟨_,_,h.snoc (.lock hmanager rfl hfree),_,List.mem_append_right _ (.head _),?_,fun huses => ?_⟩
  · exact ⟨_,g,hmanager,.inl ⟨.inr rfl,args,8,0,by decide,.inl hcreate⟩⟩
  · exact Bool.false_ne_true (hready.symm.trans (huses _ g hmanager))

/-- The steps of a run use nothing that `threadpool_create` has not initialised yet exactly if no thread
rushes, and for no arguments is this so in every run. -/
theorem startup_uses :
    (∀ steps s, Trace (Pthreads.Step (code .src2)) (starting args pool) steps s →
      ((∀ x ∈ steps, UsesReady .src2 x.1 x.2) ↔ ∀ x ∈ steps, ¬ Rushes x.1 x.2)) ∧
    ∃ steps s, Trace (Pthreads.Step (code .src2)) (starting args pool) steps s ∧
      ∃ x ∈ steps, Rushes x.1 x.2 := by
  refine ⟨fun steps s h => ?_,?_⟩
  · refine (h.steps_iff (J := fun s => ∃ k, StartedAt k s) ⟨0,startedAt_starting args pool⟩ ?_ ?_).1
    · rintro s label s' ⟨k,hk⟩ -
      exact hk.uses_iff
    · rintro s label s' ⟨k,hk⟩ hrush hstep
      exact hk.step hrush hstep
  · obtain ⟨steps,s,h,x,hx,hrush,-⟩ := starting_rushes args pool
    exact ⟨steps,s,h,x,hx,hrush⟩

/-- A call of `threadpool_create(1, 2, 3)`. -/
def startingThree : Config Memory Mutex Cond Place :=
  starting ⟨1,2,3,fun _ => ⟨0,0⟩⟩ ⟨fun _ => ⟨0,0⟩,0,0,0,0,0,0,0,0,0,true,0,fun _ => 0⟩

/-- A trace of the call in which no thread has rushed. -/
def Patient (steps : List (Config Memory Mutex Cond Place × Label))
    (s : Config Memory Mutex Cond Place) : Prop :=
  Trace (Pthreads.Step (code .src2)) startingThree steps s ∧ ∀ x ∈ steps, ¬ Rushes x.1 x.2

section Patient
variable {steps : List (Config Memory Mutex Cond Place × Label)} {s s' : Config Memory Mutex Cond Place}
  {label : Label}

theorem Patient.snoc (h : Patient steps s) (hstep : Pthreads.Step (code .src2) s label s')
    (hcalm : ¬ Rushes s label) : Patient (steps ++ [(s,label)]) s' := by
  refine ⟨h.1.snoc hstep,fun x hx => ?_⟩
  obtain hx | hx := List.mem_append.mp hx
  · exact h.2 x hx
  · obtain rfl := List.mem_singleton.mp hx
    exact hcalm

/-- A step of the first thread. -/
theorem Patient.create {args : CreateArgs} {k i : ℕ} (h : Patient steps s)
    (hplace : s.place 0 = some (.create args k i) ∨ s.place 0 = some (.createWorker args k i))
    (hstep : Pthreads.Step (code .src2) s (.run 0) s') : Patient (steps ++ [(s,.run 0)]) s' := by
  refine h.snoc hstep ?_
  rintro ⟨l,g,hi,hl⟩
  have hl0 : s.place 0 = some l := place_eq hi
  rw [hl0] at hplace
  obtain ⟨rfl | rfl,-⟩ | ⟨rfl,-⟩ := hl <;> obtain hplace | hplace := hplace <;> cases hplace

/-- A step after the return of `threadpool_create`. -/
theorem Patient.later (h : Patient steps s) (hreturn : s.place 0 = none)
    (hstep : Pthreads.Step (code .src2) s label s') : Patient (steps ++ [(s,label)]) s' := by
  have hbehind : ∀ stmt, ¬ NotBehind stmt s := by
    rintro stmt ⟨args,k,i,-,hplace | hplace⟩
    all_goals
      rw [hreturn] at hplace
      cases hplace
  refine h.snoc hstep ?_
  cases label with
  | run i =>
    rintro ⟨l,g,-,⟨-,hnot⟩ | ⟨-,hnot⟩⟩
    · exact hbehind _ hnot
    · exact hbehind _ hnot
  | wake i => exact not_false

end Patient

/-- The first thread has returned from `threadpool_create`, and the two others have not moved. -/
def createdThree (ready : Item → Bool) : Config Memory Mutex Cond Place where
  mem := ⟨⟨fun _ => ⟨0,0⟩,3,0,0,0,2,1,0,1,0,false,2,update (fun _ => 0) 0 3⟩,ready⟩
  locked := fun _ => false
  threads := [⟨.exited,fun _ => false⟩,⟨.running (.manager .test),fun _ => false⟩,
    ⟨.running (.worker .lock),fun _ => false⟩]

theorem exists_created : ∃ steps ready, Patient steps (createdThree ready) := by
  have h₀ : Patient [] startingThree := ⟨.nil,List.forall_mem_nil _⟩
  have h₁ := h₀.create (.inl rfl) (.act rfl rfl)
  have h₃ := (h₁.create (.inl rfl) (.act rfl rfl)).create (.inl rfl) (.act rfl rfl)
  have h₅ := (h₃.create (.inl rfl) (.act rfl rfl)).create (.inl rfl) (.act rfl rfl)
  have h₇ := (h₅.create (.inl rfl) (.act rfl rfl)).create (.inl rfl) (.act rfl rfl)
  -- the manager, and the loop over the one worker
  have hmanager := h₇.create (.inl rfl) (.spawn rfl rfl)
  have hworker := (hmanager.create (.inl rfl) (.act rfl rfl)).create (.inr rfl) (.spawn rfl rfl)
  have h₉ := hworker.create (.inl rfl) (.act rfl rfl)
  have h₁₁ := (h₉.create (.inl rfl) (.act rfl rfl)).create (.inl rfl) (.act rfl rfl)
  have h₁₃ := (h₁₁.create (.inl rfl) (.act rfl rfl)).create (.inl rfl) (.act rfl rfl)
  have h₁₅ := (h₁₃.create (.inl rfl) (.act rfl rfl)).create (.inl rfl) (.act rfl rfl)
  have h₁₇ := (h₁₅.create (.inl rfl) (.act rfl rfl)).create (.inl rfl) (.act rfl rfl)
  exact ⟨_,_,(h₁₇.create (.inl rfl) (.act rfl rfl)).create (.inl rfl) (.exit rfl rfl)⟩

/-- The worker waits for a task, and the manager has locked the mutex. -/
theorem exists_patient : ∃ steps s, Patient steps s ∧
    (∃ g, s.threads[1]? = some ⟨.running (.manager .busy),g⟩) ∧
    ∃ g, s.threads[2]? = some ⟨.waiting .notEmpty .pthreadpool (.worker .woken),g⟩ := by
  obtain ⟨steps,ready,hreturn⟩ := exists_created
  have hlocked := hreturn.later rfl (.lock (i := 2) rfl rfl rfl)
  have hwaits := (hlocked.later rfl (.act (i := 2) rfl rfl)).later rfl (.wait (i := 2) rfl rfl)
  have hsleeps := (hwaits.later rfl (.act (i := 1) rfl rfl)).later rfl (.act (i := 1) rfl rfl)
  exact ⟨_,_,hsleeps.later rfl (.lock (i := 1) rfl rfl rfl),⟨_,rfl⟩,_,rfl⟩

theorem startup_uses_patient : ∃ steps s, Trace (Pthreads.Step (code .src2)) startingThree steps s ∧
    (∃ g, s.threads[1]? = some ⟨.running (.manager .busy),g⟩) ∧
    (∃ g, s.threads[2]? = some ⟨.waiting .notEmpty .pthreadpool (.worker .woken),g⟩) ∧
    ∀ x ∈ steps, UsesReady .src2 x.1 x.2 := by
  obtain ⟨steps,s,⟨h,hcalm⟩,hmanager,hworker⟩ := exists_patient
  exact ⟨steps,s,h,hmanager,hworker,((startup_uses _ _).1 steps s h).mpr hcalm⟩

/-- The manager locks a mutex that is not there yet. -/
theorem startup_not_uses : ∃ steps s, Trace (Pthreads.Step (code .src2)) startingThree steps s ∧
    ∃ x ∈ steps, ¬ UsesReady .src2 x.1 x.2 := by
  obtain ⟨steps,s,h,x,hx,-,huses⟩ := starting_rushes _ _
  exact ⟨steps,s,h,x,hx,huses⟩

end Runs
end ServerKit.Threads.Statements
