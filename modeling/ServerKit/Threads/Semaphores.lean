import Mathlib.Logic.Function.Basic
import ServerKit.Lib.Links
import ServerKit.Lib.Monitor
import ServerKit.Lib.Transition

/-! The producers and consumers of `thread/main.cpp`: a linked list between two counting semaphores.
A stretch of code under the mutex is one step. -/
namespace ServerKit.Threads.Semaphores
open Function ServerKit.Lib

/-- An address; `0` is NULL. -/
abbrev Ptr := ℕ

structure Node where
  num : ℤ
  next : Ptr

/-- Where a thread is in its loop: before its `sem_wait`, with the lock to come, or before its
`sem_post`. -/
inductive Pc
  | wait
  | lock
  | post
  deriving DecidableEq, Repr

/-- The list, the heap it lies in, the semaphores and the threads. For every allocated node `serial`
has the number of its push; `popped` are the numbers of the nodes that were taken out. -/
structure State where
  head : Ptr
  node : Ptr → Node
  live : Ptr → Bool
  psem : ℕ
  csem : ℕ
  producers : List Pc
  consumers : List Pc
  serial : Ptr → ℕ
  pushed : ℕ
  popped : List ℕ

/-- `main` with `n` producers and `m` consumers. -/
def start (node : Ptr → Node) (live : Ptr → Bool) (n m : ℕ) : State where
  head := 0
  node := node
  live := live
  psem := 5
  csem := 0
  producers := List.replicate n .wait
  consumers := List.replicate m .wait
  serial := fun _ => 0
  pushed := 0
  popped := []

/-- What `produce` does under the lock; `malloc` has returned `pnew`. -/
def produce (s : State) (pnew : Ptr) (num : ℤ) : State :=
  { s with
    node := update s.node pnew ⟨num,s.head⟩
    live := update s.live pnew true
    head := pnew
    serial := update s.serial pnew s.pushed
    pushed := s.pushed+1 }

/-- What `consume` does under the lock. A NULL head is dereferenced. -/
def consume (s : State) : Option State :=
  let pnew := s.head
  if pnew = 0 then none
  else some { s with
    head := (s.node pnew).next
    live := update s.live pnew false
    popped := s.serial pnew :: s.popped }

inductive Action
  | producer (i : ℕ)
  | consumer (j : ℕ)

inductive Step (s : State) : Action → State → Prop
  | produceWait {i} (hi : s.producers[i]? = some .wait) (hsem : 0 < s.psem) :
      Step s (.producer i) { s with psem := s.psem-1, producers := s.producers.set i .lock }
  | produceLock {i} (pnew num) (hi : s.producers[i]? = some .lock) (hnew : pnew ≠ 0)
      (hfree : s.live pnew = false) :
      Step s (.producer i) { produce s pnew num with producers := s.producers.set i .post }
  | producePost {i} (hi : s.producers[i]? = some .post) :
      Step s (.producer i) { s with csem := s.csem+1, producers := s.producers.set i .wait }
  | consumeWait {j} (hj : s.consumers[j]? = some .wait) (hsem : 0 < s.csem) :
      Step s (.consumer j) { s with csem := s.csem-1, consumers := s.consumers.set j .lock }
  | consumeLock {j s'} (hj : s.consumers[j]? = some .lock) (h : consume s = some s') :
      Step s (.consumer j) { s' with consumers := s.consumers.set j .post }
  | consumePost {j} (hj : s.consumers[j]? = some .post) :
      Step s (.consumer j) { s with psem := s.psem+1, consumers := s.consumers.set j .wait }

/-- The threads at one place of their loop. -/
def countAt (pc : Pc) (threads : List Pc) : ℕ := threads.countP (· = pc)

/-- The list has the nodes `l`. A place of the list that is not free is a unit that `psem` lacks, and a
node is a unit that `csem` has or lacks, but for the threads between a semaphore and the list. -/
structure Balanced (s : State) (l : List Ptr) : Prop where
  links : Links (fun p => (s.node p).next) s.head l 0
  live : ∀ p ∈ l, s.live p = true
  places : s.psem + countAt .lock s.producers + l.length + countAt .post s.consumers = 5
  items : s.csem + countAt .post s.producers + countAt .lock s.consumers = l.length
  serials : (l.map s.serial ++ s.popped).Nodup
  old : ∀ k ∈ l.map s.serial ++ s.popped, k < s.pushed

theorem countAt_set {threads : List Pc} {i : ℕ} {a : Pc} (b pc : Pc) (h : threads[i]? = some a) :
    countAt pc (threads.set i b) + (decide (a = pc)).toNat =
      countAt pc threads + (decide (b = pc)).toNat :=
  countP_set_getElem? h

variable {s s' : State} {l : List Ptr} {i j : ℕ}

theorem balanced_start (node : Ptr → Node) (live : Ptr → Bool) (n m : ℕ) :
    Balanced (start node live n m) [] where
  links := .nil 0
  live := by simp
  places := by simp [start,countAt,List.countP_replicate]
  items := by simp [start,countAt,List.countP_replicate]
  serials := List.nodup_nil
  old := by simp [start]

/-- A thread that has taken a unit of `csem` finds a node. -/
theorem Balanced.head_ne_null (h : Balanced s l) (hj : s.consumers[j]? = some .lock) : s.head ≠ 0 := by
  refine h.links.head_ne_null fun hnil => ?_
  have hpos : 0 < countAt .lock s.consumers :=
    List.countP_pos_iff.mpr ⟨.lock,List.mem_of_getElem? hj,by decide⟩
  have hitems := h.items
  rw [hnil, List.length_nil] at hitems
  omega

theorem Balanced.produce {pnew : Ptr} {num : ℤ} (h : Balanced s l) (hi : s.producers[i]? = some .lock)
    (hnew : pnew ≠ 0) (hfree : s.live pnew = false) :
    Balanced { produce s pnew num with producers := s.producers.set i .post } (pnew :: l) := by
  have hout : ∀ p ∈ l, p ≠ pnew := by
    rintro p hp rfl
    exact absurd (h.live p hp) (by simp [hfree])
  have hserial : l.map (update s.serial pnew s.pushed) = l.map s.serial :=
    List.map_congr_left fun p hp => update_of_ne (hout p hp) ..
  have hold := h.old
  constructor
  · refine .cons hnew ?_
    have hnext : (update s.node pnew ⟨num,s.head⟩ pnew).next = s.head := by rw [update_self]
    change Links _ (update s.node pnew ⟨num,s.head⟩ pnew).next l 0
    rw [hnext]
    refine h.links.congr fun p hp => ?_
    change (update s.node pnew ⟨num,s.head⟩ p).next = _
    rw [update_of_ne (hout p hp)]
  · intro p hp
    obtain rfl | hp := List.mem_cons.mp hp
    · exact update_self ..
    · exact (update_of_ne (hout p hp) ..).trans (h.live p hp)
  · have hlock := countAt_set .post .lock hi
    have hplaces := h.places
    simp only [Semaphores.produce, List.length_cons] at hlock ⊢
    simp at hlock
    omega
  · have hpost := countAt_set .post .post hi
    have hitems := h.items
    simp only [Semaphores.produce, List.length_cons] at hpost ⊢
    simp at hpost
    omega
  · change (List.map (update s.serial pnew s.pushed) (pnew :: l) ++ s.popped).Nodup
    rw [List.map_cons, update_self, hserial, List.cons_append, List.nodup_cons]
    exact ⟨fun hmem => lt_irrefl _ (hold _ hmem),h.serials⟩
  · change ∀ k ∈ List.map (update s.serial pnew s.pushed) (pnew :: l) ++ s.popped, k < s.pushed+1
    rw [List.map_cons, update_self, hserial, List.cons_append]
    intro k hk
    obtain rfl | hk := List.mem_cons.mp hk
    · exact Nat.lt_succ_self _
    · exact Nat.lt_succ_of_lt (hold k hk)

theorem Balanced.consume (h : Balanced s l) (hj : s.consumers[j]? = some .lock)
    (hret : consume s = some s') :
    ∃ l', Balanced { s' with consumers := s.consumers.set j .post } l' := by
  have hhead : s.head ≠ 0 := h.head_ne_null hj
  obtain rfl : { s with
      head := (s.node s.head).next
      live := update s.live s.head false
      popped := s.serial s.head :: s.popped } = s' := by
    rw [Semaphores.consume, if_neg hhead] at hret
    exact Option.some.inj hret
  obtain _ | ⟨p,l⟩ := l
  · exact absurd h.links.eq_of_nil hhead
  obtain ⟨hp,-,tail⟩ := h.links.of_cons
  subst hp
  have hserials := h.serials
  have hold := h.old
  -- the node that goes is not met again
  have hout : ∀ q ∈ l, q ≠ s.head := by
    rintro q hq rfl
    rw [List.map_cons, List.cons_append, List.nodup_cons] at hserials
    exact hserials.1 (List.mem_append_left _ (List.mem_map_of_mem hq))
  have hperm : (List.map s.serial (s.head :: l) ++ s.popped).Perm
      (List.map s.serial l ++ s.serial s.head :: s.popped) := List.perm_middle.symm
  refine ⟨l,tail,fun q hq => ?_,?_,?_,hperm.nodup_iff.mp hserials,fun k hk => ?_⟩
  · exact (update_of_ne (hout q hq) ..).trans (h.live q (List.mem_cons_of_mem _ hq))
  · have hpost := countAt_set .post .post hj
    have hplaces := h.places
    simp only [List.length_cons] at hplaces
    simp at hpost ⊢
    omega
  · have hlock := countAt_set .post .lock hj
    have hitems := h.items
    simp only [List.length_cons] at hitems
    simp at hlock ⊢
    omega
  · exact hold k (hperm.mem_iff.mpr hk)

theorem Balanced.step {a : Action} (h : Balanced s l) (hstep : Step s a s') : ∃ l', Balanced s' l' := by
  have hplaces := h.places
  have hitems := h.items
  cases hstep with
  | @produceWait i hi hsem =>
    have hlock := countAt_set .lock .lock hi
    have hpost := countAt_set .lock .post hi
    simp at hlock hpost
    exact ⟨l,{ h with places := by simp only; omega, items := by simp only; omega }⟩
  | produceLock pnew num hi hnew hfree => exact ⟨_,h.produce hi hnew hfree⟩
  | @producePost i hi =>
    have hlock := countAt_set .wait .lock hi
    have hpost := countAt_set .wait .post hi
    simp at hlock hpost
    exact ⟨l,{ h with places := by simp only; omega, items := by simp only; omega }⟩
  | @consumeWait j hj hsem =>
    have hlock := countAt_set .lock .lock hj
    have hpost := countAt_set .lock .post hj
    simp at hlock hpost
    exact ⟨l,{ h with places := by simp only; omega, items := by simp only; omega }⟩
  | consumeLock hj hret => exact h.consume hj hret
  | @consumePost j hj =>
    have hlock := countAt_set .wait .lock hj
    have hpost := countAt_set .wait .post hj
    simp at hlock hpost
    exact ⟨l,{ h with places := by simp only; omega, items := by simp only; omega }⟩

/-- The list never has more than five nodes, a consumer under the lock finds one, and no node is taken
out twice. -/
theorem run_bounded (node : Ptr → Node) (live : Ptr → Bool) (n m : ℕ) {as : List Action}
    (h : Run Step (start node live n m) as s) :
    (∃ l, Links (fun p => (s.node p).next) s.head l 0 ∧ l.length ≤ 5) ∧
      (∀ j : ℕ, s.consumers[j]? = some .lock → s.head ≠ 0) ∧
      s.popped.Nodup ∧ ∀ k ∈ s.popped, k < s.pushed := by
  have hstart : ∃ l, Balanced (start node live n m) l := ⟨[],balanced_start node live n m⟩
  obtain ⟨l,hl⟩ := h.invariant (P := fun s => ∃ l, Balanced s l) hstart
    fun _ _ _ ⟨l,hl⟩ hstep => hl.step hstep
  have hplaces := hl.places
  refine ⟨⟨l,hl.links,by omega⟩,fun j hj => hl.head_ne_null hj,?_,fun k hk => ?_⟩
  · exact (List.nodup_append.mp hl.serials).2.1
  · exact hl.old k (List.mem_append_right _ hk)

theorem run_bounded_one : ∃ s, Run Step (start (fun _ => ⟨0,0⟩) (fun _ => false) 1 1)
    [.producer 0,.producer 0,.producer 0,.consumer 0,.consumer 0] s ∧ s.popped = [0] ∧
      (∃ l, Links (fun p => (s.node p).next) s.head l 0 ∧ l.length ≤ 5) ∧ s.popped.Nodup := by
  have hwait := Run.nil.snoc (Step.produceWait (s := start (fun _ => ⟨0,0⟩) (fun _ => false) 1 1)
    (i := 0) rfl (by decide))
  have hpush := hwait.snoc (.produceLock (i := 0) 1 7 rfl Nat.one_ne_zero rfl)
  have hpost := hpush.snoc (.producePost (i := 0) rfl)
  have htake := hpost.snoc (.consumeWait (j := 0) rfl (by decide))
  have hpop := htake.snoc (.consumeLock (j := 0) rfl rfl)
  obtain ⟨hlist,-,hnodup,-⟩ := run_bounded _ _ _ _ hpop
  exact ⟨_,hpop,rfl,hlist,hnodup⟩

end ServerKit.Threads.Semaphores
