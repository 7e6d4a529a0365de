import ServerKit.Threads.Earlier
import ServerKit.Lib.Transition
import Mathlib.Order.Nat
import Mathlib.Tactic.Common

/-! The counters of a pool and its array of thread numbers, as long as the pool is not destroyed: they
agree with the places where the workers are. -/
namespace ServerKit.Threads
open Function ServerKit.Lib

namespace WorkerPc

def isLive : WorkerPc → Bool
  | exiting | exited => false
  | _ => true

def isRunning : WorkerPc → Bool
  | running _ => true
  | _ => false

end WorkerPc

/-- The loops that start threads write the numbers from `tid` on into `n` empty entries. -/
inductive Started : List ThreadId → ThreadId → ℕ → List ThreadId → Prop
  | stop (ids tid) : Started ids tid 0 ids
  | skip {ids tid n ids'} (id) (tail : Started ids tid n ids') : Started (id :: ids) tid n (id :: ids')
  | fill {ids tid n ids'} (tail : Started ids (tid+1) n ids') :
      Started (0 :: ids) tid (n+1) (tid :: ids')

theorem startThreads_started (maxNum : ℤ) (tid : ThreadId) (counter : ℕ) (liveNum : ℤ)
    (ids : List ThreadId) : ∃ (n : ℕ) (ids' : List ThreadId), Started ids tid n ids' ∧
      startThreads maxNum tid counter liveNum ids = (ids',liveNum+n,counter+n) := by
  induction ids generalizing tid counter liveNum with
  | nil => exact ⟨0,[],.stop [] tid,by simp [startThreads]⟩
  | cons id ids ih =>
    rw [startThreads]
    by_cases hgo : counter < NUMBER ∧ liveNum < maxNum
    · by_cases hid : id = 0
      · obtain ⟨n,ids',htail,heq⟩ := ih (tid+1) (counter+1) (liveNum+1)
        refine ⟨n+1,tid :: ids',hid ▸ .fill htail,?_⟩
        rw [if_pos hgo, if_pos hid, heq]
        simp only [Prod.mk.injEq, true_and]
        omega
      · obtain ⟨n,ids',htail,heq⟩ := ih tid counter liveNum
        exact ⟨n,id :: ids',.skip id htail,by rw [if_pos hgo, if_neg hid, heq]⟩
    · exact ⟨0,id :: ids,.stop _ tid,by simp [if_neg hgo]⟩

theorem Earlier.startThreadsStale_started (maxNum threadAlive : ℤ) (tid : ThreadId) (count : ℕ)
    (liveNum : ℤ) (ids : List ThreadId) : ∃ (n : ℕ) (ids' : List ThreadId), Started ids tid n ids' ∧
      startThreadsStale maxNum threadAlive tid count liveNum ids = (ids',liveNum+n,count+n) := by
  induction ids generalizing tid count liveNum with
  | nil => exact ⟨0,[],.stop [] tid,by simp [startThreadsStale]⟩
  | cons id ids ih =>
    rw [startThreadsStale]
    by_cases hgo : count < NUMBER ∧ threadAlive < maxNum
    · by_cases hid : id = 0
      · obtain ⟨n,ids',htail,heq⟩ := ih (tid+1) (count+1) (liveNum+1)
        refine ⟨n+1,tid :: ids',hid ▸ .fill htail,?_⟩
        rw [if_pos hgo, if_pos hid, heq]
        simp only [Prod.mk.injEq, true_and]
        omega
      · obtain ⟨n,ids',htail,heq⟩ := ih tid count liveNum
        exact ⟨n,id :: ids',.skip id htail,by rw [if_pos hgo, if_neg hid, heq]⟩
    · exact ⟨0,id :: ids,.stop _ tid,by simp [if_neg hgo]⟩

section Grown
variable {pool : ThreadPool} {tid : ThreadId} {queueSize liveNum : ℤ}

/-- What the manager does to the pool when it adds threads: it starts `n` of them, perhaps none. -/
def GrownTo (pool : ThreadPool) (tid : ThreadId) (r : ThreadPool × ℕ) : Prop :=
  ∃ ids', Started pool.threadIDs tid r.2 ids' ∧
    r.1 = { pool with threadIDs := ids', liveNum := pool.liveNum+r.2 }

theorem managerGrow_grownTo : GrownTo pool tid (managerGrow pool tid queueSize liveNum) := by
  rw [managerGrow]
  split
  · obtain ⟨n,ids',hids,heq⟩ := startThreads_started pool.maxNum tid 0 pool.liveNum pool.threadIDs
    rw [heq]
    exact ⟨ids',by simpa using hids,by simp⟩
  · exact ⟨pool.threadIDs,.stop _ tid,by simp⟩

theorem Earlier.grow_grownTo (v : Version) : GrownTo pool tid (v.grow pool tid queueSize liveNum) := by
  cases v with
  | src =>
    rw [Version.grow, managerGrowStale]
    split
    · obtain ⟨n,ids',hids,heq⟩ :=
        startThreadsStale_started pool.maxNum liveNum tid 0 pool.liveNum pool.threadIDs
      rw [heq]
      exact ⟨ids',by simpa using hids,by simp⟩
    · exact ⟨pool.threadIDs,.stop _ tid,by simp⟩
  | src2 => exact managerGrow_grownTo

end Grown

namespace Started
variable {ids ids' : List ThreadId} {tid n : ℕ}

theorem length_eq (h : Started ids tid n ids') : ids'.length = ids.length := by
  induction h with
  | stop => rfl
  | skip id tail ih => simp [ih]
  | fill tail ih => simp [ih]

theorem countP_eq (h : Started ids tid n ids') (htid : tid ≠ 0) :
    ids'.countP (· ≠ 0) = ids.countP (· ≠ 0)+n := by
  induction h with
  | stop => rfl
  | skip id tail ih =>
    rw [List.countP_cons, List.countP_cons, ih htid]
    omega
  | fill tail ih =>
    rw [List.countP_cons_of_pos (by simpa using htid), List.countP_cons_of_neg (by simp),
      ih (Nat.succ_ne_zero _)]
    omega

theorem mem_old (h : Started ids tid n ids') {id : ThreadId} (hid : id ∈ ids) (h0 : id ≠ 0) :
    id ∈ ids' := by
  induction h with
  | stop => exact hid
  | skip id' tail ih =>
    obtain rfl | hid := List.mem_cons.mp hid
    · exact List.mem_cons_self
    · exact List.mem_cons_of_mem _ (ih hid)
  | fill tail ih =>
    obtain rfl | hid := List.mem_cons.mp hid
    · exact absurd rfl h0
    · exact List.mem_cons_of_mem _ (ih hid)

theorem mem_new (h : Started ids tid n ids') {j : ℕ} (hj : j < n) : tid+j ∈ ids' := by
  induction h generalizing j with
  | stop => exact absurd hj (Nat.not_lt_zero j)
  | skip id tail ih => exact List.mem_cons_of_mem _ (ih hj)
  | @fill ids tid n ids' tail ih =>
    cases j with
    | zero => exact List.mem_cons_self
    | succ j =>
      have hmem := ih (Nat.lt_of_succ_lt_succ hj)
      rw [Nat.add_right_comm, Nat.add_assoc] at hmem
      exact List.mem_cons_of_mem _ hmem

end Started

section ClearSlot
variable {tid : ThreadId} {ids : List ThreadId}

theorem length_clearSlot (tid : ThreadId) (ids : List ThreadId) :
    (clearSlot tid ids).length = ids.length := by
  induction ids with
  | nil => rfl
  | cons id ids ih =>
    rw [clearSlot]
    split
    · rfl
    · simp [ih]

theorem countP_clearSlot (hmem : tid ∈ ids) (htid : tid ≠ 0) :
    (clearSlot tid ids).countP (· ≠ 0)+1 = ids.countP (· ≠ 0) := by
  induction ids with
  | nil => cases hmem
  | cons id ids ih =>
    rw [clearSlot]
    by_cases hid : id = tid
    · rw [if_pos hid, List.countP_cons_of_neg (by simp), List.countP_cons_of_pos (by simpa [hid] using htid)]
    · have htail := ih ((List.mem_cons.mp hmem).resolve_left (Ne.symm hid))
      rw [if_neg hid, List.countP_cons, List.countP_cons]
      omega

theorem mem_clearSlot {id : ThreadId} (hid : id ∈ ids) (hne : id ≠ tid) : id ∈ clearSlot tid ids := by
  induction ids with
  | nil => cases hid
  | cons id' ids ih =>
    rw [clearSlot]
    obtain rfl | hid := List.mem_cons.mp hid
    · rw [if_neg hne]
      exact List.mem_cons_self
    · split
      · exact List.mem_cons_of_mem _ hid
      · exact List.mem_cons_of_mem _ (ih hid)

end ClearSlot

/-- The counters and the entries agree with the places of the workers. -/
structure Counted (min max : ℤ) (pool : ThreadPool) (workers : List WorkerPc) : Prop where
  running : pool.shutdown = false
  minNum : pool.minNum = min
  maxNum : pool.maxNum = max
  min_le : min ≤ pool.liveNum
  live : pool.liveNum = workers.countP WorkerPc.isLive
  busy : pool.busyNum = workers.countP WorkerPc.isRunning
  length : (pool.threadIDs.length : ℤ) = max
  slots : pool.threadIDs.countP (· ≠ 0) = workers.countP (· ≠ .exited)
  /-- A thread that has not gone has an entry. -/
  mem : ∀ w pc, workers[w]? = some pc → pc ≠ .exited → w+1 ∈ pool.threadIDs

namespace Counted
variable {min max : ℤ} {pool pool' : ThreadPool} {workers : List WorkerPc} {w : ℕ} {pc pc' : WorkerPc}

/-- A worker goes to another place in the pool, and the counters follow. -/
theorem set (h : Counted min max pool workers) (hw : workers[w]? = some pc) (hpc : pc ≠ .exited)
    (hpc' : pc' ≠ .exited) (hrun : pool'.shutdown = pool.shutdown) (hmin : pool'.minNum = pool.minNum)
    (hmax : pool'.maxNum = pool.maxNum) (hids : pool'.threadIDs = pool.threadIDs)
    (hle : min ≤ pool'.liveNum)
    (hlive : pool'.liveNum + (pc.isLive.toNat : ℤ) = pool.liveNum + (pc'.isLive.toNat : ℤ))
    (hbusy : pool'.busyNum + (pc.isRunning.toNat : ℤ) = pool.busyNum + (pc'.isRunning.toNat : ℤ)) :
    Counted min max pool' (workers.set w pc') where
  running := hrun.trans h.running
  minNum := hmin.trans h.minNum
  maxNum := hmax.trans h.maxNum
  min_le := hle
  live := by
    have hcount := countP_set_getElem? (p := WorkerPc.isLive) (b := pc') hw
    have hold := h.live
    omega
  busy := by
    have hcount := countP_set_getElem? (p := WorkerPc.isRunning) (b := pc') hw
    have hold := h.busy
    omega
  length := by rw [hids, h.length]
  slots := by
    have hcount := countP_set_getElem? (p := fun x => decide (x ≠ WorkerPc.exited)) (b := pc') hw
    have hold := h.slots
    simp only [decide_eq_true hpc, decide_eq_true hpc', Bool.toNat_true] at hcount
    rw [hids]
    omega
  mem := by
    intro v x hv hx
    rw [hids]
    by_cases hvw : v = w
    · subst hvw
      exact h.mem v pc hw hpc
    · rw [List.getElem?_set_ne (Ne.symm hvw)] at hv
      exact h.mem v x hv hx

theorem test (h : Counted min max pool workers) (hw : workers[w]? = some pc) (hpc : pc.isLive = true)
    (hrunning : pc.isRunning = false) (e : ℤ) :
    Counted min max (workerTest { pool with exitNum := e }).pool
      (workers.set w (workerTest { pool with exitNum := e }).pc) := by
  have hne : pc ≠ .exited := by
    rintro rfl
    cases hpc
  obtain ⟨-,-,hend⟩ | ⟨hdown,-⟩ | ⟨-,-,hend⟩ := workerTest_cases { pool with exitNum := e }
  · rw [hend]
    exact h.set hw hne (by simp [WorkerEnd.pc]) rfl rfl rfl rfl h.min_le
      (by rw [hpc]; rfl) (by rw [hrunning]; rfl)
  · exact absurd (h.running.symm.trans hdown) Bool.false_ne_true
  · rw [hend]
    exact h.set hw hne (by simp [WorkerEnd.pc]) rfl rfl rfl rfl h.min_le
      (by rw [hpc]; rfl) (by rw [hrunning]; rfl)

/-- A step of a worker. -/
theorem move {task : Option Task} (h : Counted min max pool workers) (hw : workers[w]? = some pc)
    (hmove : WorkerMove pool (w+1) pc pool' pc' task) : Counted min max pool' (workers.set w pc') := by
  cases hmove with
  | lock => exact h.test hw rfl rfl pool.exitNum
  | relock =>
    obtain ⟨-,hlive,hend⟩ | ⟨-,e,hend⟩ := workerWoken_cases pool
    · have hmin := h.minNum
      rw [hend]
      refine h.set hw (by simp) (by simp [WorkerEnd.pc]) rfl rfl rfl rfl ?_ ?_ rfl
      · change min ≤ pool.liveNum-1
        omega
      · change pool.liveNum-1+1 = pool.liveNum+0
        omega
    · rw [hend]
      exact h.test hw rfl rfl e
  | spurious => exact h.set hw (by simp) (by simp) rfl rfl rfl rfl h.min_le rfl rfl
  | busy =>
    refine h.set hw (by simp) (by simp) rfl rfl rfl rfl h.min_le rfl ?_
    change pool.busyNum+1+0 = pool.busyNum+1
    omega
  | unbusy =>
    refine h.set hw (by simp) (by simp) rfl rfl rfl rfl h.min_le rfl ?_
    change pool.busyNum-1+1 = pool.busyNum+0
    omega
  | threadExit =>
    have hmem : w+1 ∈ pool.threadIDs := h.mem w _ hw (by simp)
    refine ⟨h.running,h.minNum,h.maxNum,h.min_le,?_,?_,?_,?_,?_⟩
    · have hcount := countP_set_getElem? (p := WorkerPc.isLive) (b := .exited) hw
      exact h.live.trans (congrArg _ hcount.symm)
    · have hcount := countP_set_getElem? (p := WorkerPc.isRunning) (b := .exited) hw
      exact h.busy.trans (congrArg _ hcount.symm)
    · change ((clearSlot (w+1) pool.threadIDs).length : ℤ) = max
      rw [length_clearSlot, h.length]
    · have hcount := countP_set_getElem? (p := fun x => decide (x ≠ WorkerPc.exited)) (b := .exited) hw
      have hclear := countP_clearSlot hmem w.succ_ne_zero
      have hold := h.slots
      simp only [ne_eq, reduceCtorEq, not_false_eq_true, decide_true, not_true_eq_false, decide_false,
        Bool.toNat_true, Bool.toNat_false] at hcount hold hclear
      simp only [threadExit, ne_eq]
      omega
    · intro v x hv hx
      by_cases hvw : v = w
      · subst hvw
        obtain ⟨hlt,-⟩ := List.getElem?_eq_some_iff.mp hw
        rw [List.getElem?_set_self hlt] at hv
        exact absurd (Option.some.inj hv).symm hx
      · rw [List.getElem?_set_ne (Ne.symm hvw)] at hv
        exact mem_clearSlot (h.mem v x hv hx) fun heq => hvw (Nat.succ.inj heq)

/-- The queue and `exitNum` are not counted. -/
theorem uncounted (h : Counted min max pool workers) (taskQ : ℤ → Task) (rear size e : ℤ) :
    Counted min max
      { pool with taskQ := taskQ, queueRear := rear, queueSize := size, exitNum := e } workers :=
  ⟨h.running,h.minNum,h.maxNum,h.min_le,h.live,h.busy,h.length,h.slots,h.mem⟩

theorem signal {workers' : List WorkerPc} (h : Counted min max pool workers)
    (hsignal : Signal WorkerPc.wake workers workers') : Counted min max pool workers' := by
  cases hsignal with
  | @woken i x y hi hx =>
    cases x <;> simp [WorkerPc.wake] at hx
    subst hx
    exact h.set hi (by simp) (by simp) rfl rfl rfl rfl h.min_le rfl rfl
  | lost => exact h

/-- The manager has started threads. -/
theorem grow {r : ThreadPool × ℕ} (h : Counted min max pool workers)
    (hr : GrownTo pool (workers.length+1) r) :
    Counted min max r.1 (workers ++ List.replicate r.2 .ready) := by
  obtain ⟨ids',hids,heq⟩ := hr
  rw [heq]
  refine ⟨h.running,h.minNum,h.maxNum,?_,?_,?_,?_,?_,?_⟩
  · have hle := h.min_le
    dsimp only
    omega
  · simp [List.countP_append,List.countP_replicate,WorkerPc.isLive,h.live]
  · simp [List.countP_append,List.countP_replicate,WorkerPc.isRunning,h.busy]
  · dsimp only
    rw [hids.length_eq, h.length]
  · dsimp only
    rw [hids.countP_eq workers.length.succ_ne_zero, h.slots]
    simp [List.countP_append,List.countP_replicate]
  · intro v x hv hx
    by_cases hlt : v < workers.length
    · rw [List.getElem?_append_left hlt] at hv
      exact hids.mem_old (h.mem v x hv hx) v.succ_ne_zero
    · obtain ⟨j,rfl⟩ := Nat.exists_eq_add_of_le (Nat.le_of_not_lt hlt)
      rw [List.getElem?_append_right (Nat.le_add_right _ _), Nat.add_sub_cancel_left] at hv
      obtain ⟨hj,-⟩ := List.getElem?_eq_some_iff.mp hv
      rw [List.length_replicate] at hj
      have hnew := hids.mem_new hj
      rwa [Nat.add_right_comm] at hnew

/-- After the create function. -/
theorem start (taskQ : ℤ → Task) (queueSize : ℤ) (h0 : 0 ≤ min) (hle : min ≤ max) :
    Counted min max (threadPoolCreate taskQ min max queueSize) (List.replicate min.toNat .ready) := by
  have hids : (threadPoolCreate taskQ min max queueSize).threadIDs =
      List.range' 1 min.toNat ++ List.replicate (max-min).toNat 0 := by
    have hsplit : List.replicate max.toNat 0 =
        [] ++ List.replicate min.toNat (0 : ThreadId) ++ List.replicate (max-min).toNat 0 := by
      rw [List.nil_append, List.replicate_append_replicate]
      congr 1
      omega
    have hfill := forUp_fill (· + 1) [] (List.replicate min.toNat (0 : ThreadId))
      (List.replicate (max-min).toNat 0) 0 0 rfl
    simp only [List.length_replicate, Nat.zero_add, List.nil_append] at hfill
    rw [threadPoolCreate, hsplit, List.nil_append, hfill, ← List.range'_succ_left]
  refine ⟨rfl,rfl,rfl,Int.le_refl min,?_,?_,?_,?_,?_⟩
  · simp [List.countP_replicate,WorkerPc.isLive,threadPoolCreate]
    omega
  · simp [List.countP_replicate,WorkerPc.isRunning,threadPoolCreate]
  · rw [hids]
    simp
    omega
  · have hnew : (List.range' 1 min.toNat).countP (· ≠ 0) = min.toNat := by
      have hall : ∀ a ∈ List.range' 1 min.toNat, decide (a ≠ 0) = true := by
        intro a ha
        have hle := List.mem_range'_1.mp ha
        simp
        omega
      rw [List.countP_eq_length.mpr hall, List.length_range']
    rw [hids, List.countP_append, hnew]
    simp [List.countP_replicate]
  · intro v x hv hx
    obtain ⟨hlt,-⟩ := List.getElem?_eq_some_iff.mp hv
    rw [List.length_replicate] at hlt
    rw [hids]
    exact List.mem_append_left _ (List.mem_range'_1.mpr (by omega))

end Counted

section Moves
variable {s s' : State} {a : Action} {w : ℕ} {e : WorkerEnd}

theorem WorkerLeaves.pool_eq (h : WorkerLeaves s w e s') :
    s'.pool = e.pool ∧ s'.workers = s.workers.set w e.pc ∧ s'.destroyer = s.destroyer := by
  cases h <;> exact ⟨rfl,rfl,rfl⟩

theorem ProducerLeaves.destroyer_eq {p : ℕ} {task : Task} {e : AddEnd}
    (h : ProducerLeaves s p task e s') : s'.destroyer = s.destroyer := by
  cases h <;> rfl

theorem WorkerStep.move (h : WorkerStep s a s') : ∃ w pc pc' task, s.workers[w]? = some pc ∧
    WorkerMove s.pool (w+1) pc s'.pool pc' task ∧ s'.workers = s.workers.set w pc' ∧
      s'.destroyer = s.destroyer := by
  cases h with
  | lock hw leaves =>
    obtain ⟨hpool,hrest⟩ := leaves.pool_eq
    exact ⟨_,_,_,_,hw,by rw [hpool]; exact .lock,hrest⟩
  | relock hw leaves =>
    obtain ⟨hpool,hrest⟩ := leaves.pool_eq
    exact ⟨_,_,_,_,hw,by rw [hpool]; exact .relock,hrest⟩
  | spurious hw => exact ⟨_,_,_,_,hw,.spurious,rfl,rfl⟩
  | busy hw => exact ⟨_,_,_,_,hw,.busy,rfl,rfl⟩
  | unbusy hw => exact ⟨_,_,_,_,hw,.unbusy,rfl,rfl⟩
  | threadExit hw => exact ⟨_,_,_,_,hw,.threadExit,rfl,rfl⟩

theorem ProducerStep.destroyer_eq (h : ProducerStep s a s') : s'.destroyer = s.destroyer := by
  cases h with
  | add hp leaves => exact leaves.destroyer_eq
  | call | spurious => rfl

theorem ManagerStep.destroyer_eq (h : ManagerStep s a s') : s'.destroyer = s.destroyer := by
  cases h <;> rfl

end Moves

section Steps
variable {min max : ℤ} {s s' : State} {a : Action}

theorem ProducerStep.counted (hs : Counted min max s.pool s.workers) (h : ProducerStep s a s') :
    Counted min max s'.pool s'.workers := by
  cases h with
  | call hp => exact hs
  | @add p task s' hp leaves =>
    obtain ⟨-,-,hend⟩ | ⟨-,hend⟩ | ⟨-,-,hend⟩ := threadPoolAdd_cases s.pool task
    · rw [hend] at leaves
      cases leaves
      exact hs
    · rw [hend] at leaves
      cases leaves
      exact hs
    · rw [hend] at leaves
      cases leaves with
      | added signal => exact (hs.signal signal).uncounted _ _ _ _
  | spurious hp => exact hs

theorem ManagerStep.counted (hs : Counted min max s.pool s.workers) (h : ManagerStep s a s') :
    Counted min max s'.pool s'.workers := by
  cases h with
  | grow hm => exact hs.grow managerGrow_grownTo
  | shrink hm h => exact hs.uncounted _ _ _ _
  | signal hm hi signal => exact hs.signal signal
  | test | count | busy | keep | loop => exact hs

/-- Up to the call of the destroy function every step keeps the counters right. -/
theorem Step.counted (h : Step s a s') (hidle : s'.destroyer = .idle)
    (hs : s.destroyer = .idle → Counted min max s.pool s.workers) :
    Counted min max s'.pool s'.workers := by
  cases h with
  | worker hpool h =>
    obtain ⟨w,pc,pc',task,hw,hmove,hworkers,hsame⟩ := h.move
    rw [hworkers]
    exact (hs (hsame.symm.trans hidle)).move hw hmove
  | producer hpool h => exact h.counted (hs (h.destroyer_eq.symm.trans hidle))
  | manager hpool h => exact h.counted (hs (h.destroyer_eq.symm.trans hidle))
  | destroyer h => cases h <;> cases hidle

end Steps

namespace Earlier
section Steps
variable {min max : ℤ} {v : Version} {s s' : State} {a : Action}

theorem addTask_cases (pool : ThreadPool) (task : Task) :
    (pool.shutdown = true ∧ addTask pool task = .closed) ∨
      (pool.shutdown = false ∧ addTask pool task = .added { pool with
        taskQ := update pool.taskQ pool.queueRear task
        queueRear := (pool.queueRear+1).tmod pool.queueCapacity
        queueSize := pool.queueSize+1 }) := by
  rw [addTask]
  cases pool.shutdown <;> simp

theorem Version.addWoken_eq (v : Version) : v.addWoken = addTask := by
  cases v <;> rfl

theorem Version.add_eq (v : Version) : v.add = addOnce := by
  cases v <;> rfl

/-- A producer leaves the lock as after a wait, or it waits because the queue is full. -/
theorem add_cases (pool : ThreadPool) (task : Task) :
    (pool.queueSize = pool.queueCapacity ∧ pool.shutdown = false ∧ v.add pool task = .wait) ∨
      (¬ (pool.queueSize = pool.queueCapacity ∧ pool.shutdown = false) ∧
        v.add pool task = addTask pool task) := by
  rw [v.add_eq, addOnce]
  by_cases hfull : pool.queueSize = pool.queueCapacity <;> cases pool.shutdown <;> simp [hfull]

theorem ProducerLeaves.counted {p : ℕ} {task : Task} (hs : Counted min max s.pool s.workers)
    (h : ProducerLeaves s p task (addTask s.pool task) s') : Counted min max s'.pool s'.workers := by
  obtain ⟨-,hend⟩ | ⟨-,hend⟩ := addTask_cases s.pool task
  · rw [hend] at h
    cases h
    exact hs
  · rw [hend] at h
    cases h with
    | added signal => exact (hs.signal signal).uncounted _ _ _ _

theorem ProducerLeaves.destroyer_eq {p : ℕ} {task : Task} {e : AddEnd}
    (h : ProducerLeaves s p task e s') : s'.destroyer = s.destroyer := by
  cases h <;> rfl

theorem ProducerStep.destroyer_eq (h : ProducerStep v s a s') : s'.destroyer = s.destroyer := by
  cases h with
  | add hp leaves | readd hp leaves => exact leaves.destroyer_eq
  | call | spurious => rfl

theorem ManagerStep.destroyer_eq (h : ManagerStep s v s') : s'.destroyer = s.destroyer := by
  cases h <;> rfl

theorem ProducerStep.counted (hs : Counted min max s.pool s.workers) (h : ProducerStep v s a s') :
    Counted min max s'.pool s'.workers := by
  cases h with
  | call hp => exact hs
  | @add p task s' hp leaves =>
    obtain ⟨-,-,hend⟩ | ⟨-,hend⟩ := add_cases (v := v) s.pool task
    · rw [hend] at leaves
      cases leaves
      exact hs
    · exact ProducerLeaves.counted hs (hend ▸ leaves)
  | readd hp leaves =>
    rw [v.addWoken_eq] at leaves
    exact leaves.counted hs
  | spurious hp => exact hs

theorem ManagerStep.counted (hs : Counted min max s.pool s.workers) (h : ManagerStep s v s') :
    Counted min max s'.pool s'.workers := by
  cases h with
  | grow hm => exact hs.grow (grow_grownTo v)
  | shrinkSrc hm | shrink hm h => exact hs.uncounted _ _ _ _
  | signal hm hi signal => exact hs.signal signal
  | test | sample | readBusy | readLive | readMin | keep | loop => exact hs

theorem Step.counted (h : Step v s a s') (hidle : s'.destroyer = .idle)
    (hs : s.destroyer = .idle → Counted min max s.pool s.workers) :
    Counted min max s'.pool s'.workers := by
  cases h with
  | worker hpool h =>
    cases h with
    | quiet hw move | take hw move signal => exact (hs hidle).move hw move
  | producer hpool h => exact h.counted (hs (h.destroyer_eq.symm.trans hidle))
  | manager hpool h => exact h.counted (hs (h.destroyer_eq.symm.trans hidle))
  | destroyer h => cases h <;> cases hidle

end Steps
end Earlier

/-- The bounds of the counters, and the number of entries in use: one for each live thread, and one
for each thread that is on its way out. -/
structure Counts (min max : ℤ) (pool : ThreadPool) (workers : List WorkerPc) : Prop where
  minNum : pool.minNum = min
  maxNum : pool.maxNum = max
  min_le : pool.minNum ≤ pool.liveNum
  le_max : pool.liveNum ≤ pool.maxNum
  busy_nonneg : 0 ≤ pool.busyNum
  busy_le : pool.busyNum ≤ pool.liveNum
  slots : (pool.threadIDs.countP (· ≠ 0) : ℤ) = pool.liveNum + workers.countP (· = .exiting)

theorem countP_ne_exited (workers : List WorkerPc) : workers.countP (· ≠ .exited) =
    workers.countP WorkerPc.isLive + workers.countP (· = .exiting) := by
  induction workers with
  | nil => rfl
  | cons pc workers ih =>
    rw [List.countP_cons, List.countP_cons, List.countP_cons, ih]
    cases pc <;> simp [WorkerPc.isLive] <;> omega

theorem Counted.counts {min max : ℤ} {pool : ThreadPool} {workers : List WorkerPc}
    (h : Counted min max pool workers) : Counts min max pool workers := by
  have hslots := h.slots
  have hlive := h.live
  have hbusy := h.busy
  have hsplit := countP_ne_exited workers
  have hlength : pool.threadIDs.countP (· ≠ 0) ≤ pool.threadIDs.length := List.countP_le_length
  have hmax := h.length
  have hrunning : workers.countP WorkerPc.isRunning ≤ workers.countP WorkerPc.isLive :=
    List.countP_mono_left fun pc _ hpc => by cases pc <;> simp_all [WorkerPc.isRunning,WorkerPc.isLive]
  refine ⟨h.minNum,h.maxNum,h.minNum ▸ h.min_le,?_,?_,?_,?_⟩
  · rw [h.maxNum]
    omega
  · omega
  · omega
  · omega

section Runs
variable (taskQ : ℤ → Task) {min max : ℤ} (queueSize : ℤ) (n : ℕ)

theorem run_counted (h0 : 0 ≤ min) (hle : min ≤ max) {actions : List Action} {s : State}
    (h : Run Step (start taskQ min max queueSize n) actions s) (hidle : s.destroyer = .idle) :
    Counted min max s.pool s.workers := by
  refine h.invariant (P := fun s => s.destroyer = .idle → Counted min max s.pool s.workers) ?_ ?_ hidle
  · exact fun _ => .start taskQ queueSize h0 hle
  · exact fun s a s' hs hstep hidle => hstep.counted hidle hs

theorem run_counted_earlier (h0 : 0 ≤ min) (hle : min ≤ max) {actions : List Earlier.Action}
    {s : Earlier.State} (h : Run (Earlier.Step .src) (Earlier.start taskQ min max queueSize n) actions s)
    (hidle : s.destroyer = .idle) : Counted min max s.pool s.workers := by
  refine h.invariant (P := fun s => s.destroyer = .idle → Counted min max s.pool s.workers) ?_ ?_ hidle
  · exact fun _ => .start taskQ queueSize h0 hle
  · exact fun s a s' hs hstep hidle => hstep.counted hidle hs

end Runs

/-- In the two pools that count their threads in `liveNum`, the counters and the entries agree in
every state before the pool is destroyed. -/
theorem run_counts (taskQ : ℤ → Task) {min max : ℤ} (queueSize : ℤ) (n : ℕ) (h0 : 0 ≤ min)
    (hle : min ≤ max) :
    (∀ actions s, Run Step (start taskQ min max queueSize n) actions s → s.destroyer = .idle →
      Counts min max s.pool s.workers) ∧
    ∀ actions s, Run (Earlier.Step .src) (Earlier.start taskQ min max queueSize n) actions s →
      s.destroyer = .idle → Counts min max s.pool s.workers := by
  constructor
  · intro actions s h hidle
    exact (run_counted taskQ queueSize n h0 hle h hidle).counts
  · intro actions s h hidle
    exact (run_counted_earlier taskQ queueSize n h0 hle h hidle).counts

/-- The manager has started two threads: the first worker runs its task, the second one is before `busyNum++`
and the third one has been told to exit and has not cleared its entry. -/
theorem exists_shrinking : ∃ actions s, Run Step (start (fun _ => ⟨0,0⟩) 1 3 2 1) actions s ∧
    s.workers = [.running ⟨1,10⟩,.taken ⟨2,20⟩,.exiting] ∧ s.destroyer = .idle ∧
    s.pool.liveNum = 2 ∧ s.pool.busyNum = 1 ∧ s.pool.threadIDs = [1,2,3] := by
  have h₀ : Run Step (start (fun _ => ⟨0,0⟩) 1 3 2 1) [] _ := .nil
  have h₁ := h₀.snoc (l := .call 0 ⟨1,10⟩) (.producer (by decide) (.call rfl))
  have h₂ := h₁.snoc (l := .add 0) (.producer (by decide) (.add rfl (.added (.lost (by decide)))))
  have h₃ := h₂.snoc (l := .call 0 ⟨2,20⟩) (.producer (by decide) (.call rfl))
  have h₄ := h₃.snoc (l := .add 0) (.producer (by decide) (.add rfl (.added (.lost (by decide)))))
  -- more tasks wait than there are threads
  have h₅ := h₄.snoc (l := .managerTest) (.manager (by decide) (.test rfl))
  have h₆ := h₅.snoc (l := .managerCount) (.manager (by decide) (.count rfl))
  have h₇ := h₆.snoc (l := .managerBusy) (.manager (by decide) (.busy rfl))
  have h₈ := h₇.snoc (l := .managerGrow) (.manager (by decide) (.grow rfl))
  have h₉ := h₈.snoc (l := .managerShrink) (.manager (by decide) (.keep rfl (by decide)))
  have h₁₀ := h₉.snoc (l := .lock 0) (.worker (by decide) (.lock rfl (.take (.lost (by decide)))))
  have h₁₁ := h₁₀.snoc (l := .busy 0) (.worker (by decide) (.busy rfl))
  have h₁₂ := h₁₁.snoc (l := .lock 1) (.worker (by decide) (.lock rfl (.take (.lost (by decide)))))
  have h₁₃ := h₁₂.snoc (l := .lock 2) (.worker (by decide) (.lock rfl .wait))
  -- three threads live and one is busy
  have h₁₄ := h₁₃.snoc (l := .managerTest) (.manager (by decide) (.test rfl))
  have h₁₅ := h₁₄.snoc (l := .managerCount) (.manager (by decide) (.count rfl))
  have h₁₆ := h₁₅.snoc (l := .managerBusy) (.manager (by decide) (.busy rfl))
  have h₁₇ := h₁₆.snoc (l := .managerGrow) (.manager (by decide) (.grow rfl))
  have h₁₈ := h₁₇.snoc (l := .managerShrink) (.manager (by decide) (.shrink rfl (by decide)))
  have h₁₉ := h₁₈.snoc (l := .managerSignal)
    (.manager (by decide) (.signal rfl (by decide) (.woken (i := 2) rfl rfl)))
  have h₂₀ := h₁₉.snoc (l := .relock 2) (.worker (by decide) (.relock rfl .exit))
  exact ⟨_,_,h₂₀,rfl,rfl,rfl,rfl,rfl⟩

/-- The same in the pool of `src`. -/
theorem Earlier.exists_shrinking : ∃ actions s,
    Run (Earlier.Step .src) (Earlier.start (fun _ => ⟨0,0⟩) 1 3 2 1) actions s ∧
    s.workers = [.running ⟨1,10⟩,.taken ⟨2,20⟩,.exiting] ∧ s.destroyer = .idle ∧
    s.pool.liveNum = 2 ∧ s.pool.busyNum = 1 ∧ s.pool.threadIDs = [1,2,3] := by
  have h₀ : Run (Earlier.Step .src) (Earlier.start (fun _ => ⟨0,0⟩) 1 3 2 1) [] _ := .nil
  have h₁ := h₀.snoc (l := .call 0 ⟨1,10⟩) (.producer (by decide) (.call rfl))
  have h₂ := h₁.snoc (l := .add 0) (.producer (by decide) (.add rfl (.added (.lost (by decide)))))
  have h₃ := h₂.snoc (l := .call 0 ⟨2,20⟩) (.producer (by decide) (.call rfl))
  have h₄ := h₃.snoc (l := .add 0) (.producer (by decide) (.add rfl (.added (.lost (by decide)))))
  have h₅ := h₄.snoc (l := .manager) (.manager (by decide) (.test rfl))
  have h₆ := h₅.snoc (l := .manager) (.manager (by decide) (.sample rfl))
  have h₇ := h₆.snoc (l := .manager) (.manager (by decide) (.grow rfl))
  have h₈ := h₇.snoc (l := .worker 0) (.worker (by decide) (.take rfl .lock (.lost (by decide))))
  have h₉ := h₈.snoc (l := .worker 0) (.worker (by decide) (.quiet rfl .busy))
  have h₁₀ := h₉.snoc (l := .worker 1) (.worker (by decide) (.take rfl .lock (.lost (by decide))))
  have h₁₁ := h₁₀.snoc (l := .worker 2) (.worker (by decide) (.quiet rfl .lock))
  have h₁₂ := h₁₁.snoc (l := .manager) (.manager (by decide) (.readBusy rfl))
  have h₁₃ := h₁₂.snoc (l := .manager) (.manager (by decide) (.readLive rfl))
  have h₁₄ := h₁₃.snoc (l := .manager) (.manager (by decide) (.readMin rfl))
  have h₁₅ := h₁₄.snoc (l := .manager) (.manager (by decide) (.shrinkSrc rfl))
  have h₁₆ := h₁₅.snoc (l := .manager)
    (.manager (by decide) (.signal rfl (by decide) (.woken (i := 2) rfl rfl)))
  have h₁₇ := h₁₆.snoc (l := .worker 2) (.worker (by decide) (.quiet rfl .relock))
  exact ⟨_,_,h₁₇,rfl,rfl,rfl,rfl,rfl⟩

theorem run_counts_shrinking :
    (∃ actions s, Run Step (start (fun _ => ⟨0,0⟩) 1 3 2 1) actions s ∧
      s.workers = [.running ⟨1,10⟩,.taken ⟨2,20⟩,.exiting] ∧ s.pool.liveNum = 2 ∧
      s.pool.threadIDs = [1,2,3] ∧ Counts 1 3 s.pool s.workers) ∧
    ∃ actions s, Run (Earlier.Step .src) (Earlier.start (fun _ => ⟨0,0⟩) 1 3 2 1) actions s ∧
      s.workers = [.running ⟨1,10⟩,.taken ⟨2,20⟩,.exiting] ∧ s.pool.liveNum = 2 ∧
      s.pool.threadIDs = [1,2,3] ∧ Counts 1 3 s.pool s.workers := by
  obtain ⟨hnew,hearlier⟩ := run_counts (fun _ => ⟨0,0⟩) 2 1 (show (0 : ℤ) ≤ 1 by decide)
    (show (1 : ℤ) ≤ 3 by decide)
  obtain ⟨actions,s,h,hworkers,hidle,hlive,-,hids⟩ := exists_shrinking
  obtain ⟨actions',s',h',hworkers',hidle',hlive',-,hids'⟩ := Earlier.exists_shrinking
  exact ⟨⟨actions,s,h,hworkers,hlive,hids,hnew _ _ h hidle⟩,
    ⟨actions',s',h',hworkers',hlive',hids',hearlier _ _ h' hidle'⟩⟩

end ServerKit.Threads
