import Mathlib.Data.Finset.Range
import Mathlib.Data.List.Range
import Mathlib.Data.Set.Finite.Basic
import ServerKit.Threads.Semaphores

/-! Nothing is lost between the producers and the consumers of `thread/main.cpp`, and they do not come to a
standstill. -/
namespace ServerKit.Threads.Semaphores
open Function ServerKit.Lib

variable {s s' s'' : State} {l : List Ptr} {i j n m : ℕ} {node : Ptr → Node} {live : Ptr → Bool}

/-- What was pushed and not taken out is in the list, which has all the memory that was allocated since
the start. -/
structure Tallied (live : Ptr → Bool) (s : State) (l : List Ptr) : Prop where
  balanced : Balanced s l
  pushed : l.length+s.popped.length = s.pushed
  owned : ∀ p, s.live p = true ↔ live p = true ∨ p ∈ l
  fresh : ∀ p ∈ l, live p = false

/-- The only thing that can go wrong under the lock is a NULL head. -/
theorem consume_cases (h : consume s = some s') : s.head ≠ 0 ∧ s' = { s with
    head := (s.node s.head).next
    live := update s.live s.head false
    popped := s.serial s.head :: s.popped } := by
  by_cases hhead : s.head = 0
  · rw [Semaphores.consume, if_pos hhead] at h
    cases h
  · rw [Semaphores.consume, if_neg hhead] at h
    exact ⟨hhead,(Option.some.inj h).symm⟩

theorem tallied_start (node : Ptr → Node) (live : Ptr → Bool) (n m : ℕ) :
    Tallied live (start node live n m) [] where
  balanced := balanced_start node live n m
  pushed := rfl
  owned p := by simp [start]
  fresh := nofun

/-- A step that leaves the list and the heap alone. -/
theorem Tallied.idle (h : Tallied live s l) (hs : ∃ l', Balanced s' l') (hhead : s'.head = s.head)
    (hnode : s'.node = s.node) (hlive : s'.live = s.live) (hpushed : s'.pushed = s.pushed)
    (hpopped : s'.popped = s.popped) : Tallied live s' l := by
  obtain ⟨l',hl'⟩ := hs
  have hlinks := hl'.links
  rw [hhead, hnode] at hlinks
  have hsame : l' = l := hlinks.unique h.balanced.links
  subst hsame
  refine ⟨hl',?_,?_,h.fresh⟩
  · rw [hpushed, hpopped]
    exact h.pushed
  · rw [hlive]
    exact h.owned

theorem Tallied.produce {pnew : Ptr} {num : ℤ} (h : Tallied live s l)
    (hi : s.producers[i]? = some .lock) (hnew : pnew ≠ 0) (hfree : s.live pnew = false) :
    Tallied live { produce s pnew num with producers := s.producers.set i .post } (pnew :: l) where
  balanced := h.balanced.produce hi hnew hfree
  pushed := by
    have hpushed := h.pushed
    change (pnew :: l).length+s.popped.length = s.pushed+1
    rw [List.length_cons]
    omega
  owned p := by
    change update s.live pnew true p = true ↔ _
    obtain rfl | hp := eq_or_ne p pnew
    · simp
    · rw [update_of_ne hp, h.owned p, List.mem_cons]
      simp [hp]
  fresh p hp := by
    obtain rfl | hp := List.mem_cons.mp hp
    · by_contra hlive
      rw [(h.owned p).mpr (.inl (Bool.not_eq_false _ ▸ hlive))] at hfree
      cases hfree
    · exact h.fresh p hp

theorem Tallied.consume (h : Tallied live s l) (hj : s.consumers[j]? = some .lock)
    (hret : consume s = some s') :
    ∃ l', Tallied live { s' with consumers := s.consumers.set j .post } l' ∧
      s'.popped = s.serial s.head :: s.popped := by
  obtain ⟨l₂,hl₂⟩ := h.balanced.consume hj hret
  obtain ⟨hhead,rfl⟩ := consume_cases hret
  obtain _ | ⟨p,l⟩ := l
  · exact absurd h.balanced.links.eq_of_nil hhead
  obtain ⟨hp,-,tail⟩ := h.balanced.links.of_cons
  subst hp
  have hsame : l₂ = l := hl₂.links.unique tail
  subst hsame
  have hout : s.head ∉ l₂ := by
    have hserials := h.balanced.serials
    rw [List.map_cons, List.cons_append, List.nodup_cons] at hserials
    exact fun hmem => hserials.1 (List.mem_append_left _ (List.mem_map_of_mem hmem))
  refine ⟨l₂,⟨hl₂,?_,fun p => ?_,fun p hp => ?_⟩,rfl⟩
  · have hpushed := h.pushed
    simp only [List.length_cons] at hpushed ⊢
    omega
  · change update s.live s.head false p = true ↔ _
    obtain rfl | hp := eq_or_ne p s.head
    · simp [hout, h.fresh s.head List.mem_cons_self]
    · rw [update_of_ne hp, h.owned p, List.mem_cons]
      simp [hp]
  · exact h.fresh p (List.mem_cons_of_mem _ hp)

theorem Tallied.step {a : Action} (h : Tallied live s l) (hstep : Step s a s') :
    ∃ l', Tallied live s' l' := by
  have hbalanced := h.balanced.step hstep
  cases hstep with
  | produceWait hi hsem => exact ⟨l,h.idle hbalanced rfl rfl rfl rfl rfl⟩
  | produceLock pnew num hi hnew hfree => exact ⟨_,h.produce hi hnew hfree⟩
  | producePost hi => exact ⟨l,h.idle hbalanced rfl rfl rfl rfl rfl⟩
  | consumeWait hj hsem => exact ⟨l,h.idle hbalanced rfl rfl rfl rfl rfl⟩
  | consumeLock hj hret =>
    obtain ⟨l',hl',-⟩ := h.consume hj hret
    exact ⟨l',hl'⟩
  | consumePost hj => exact ⟨l,h.idle hbalanced rfl rfl rfl rfl rfl⟩

/-- Numbers below a bound, each at most once and as many as there are, are all of them. -/
theorem perm_range {ks : List ℕ} {n : ℕ} (hnodup : ks.Nodup) (hlt : ∀ k ∈ ks, k < n)
    (hlength : ks.length = n) : ks.Perm (List.range n) := by
  have hsub : ks ⊆ List.range n := fun k hk => List.mem_range.mpr (hlt k hk)
  apply (List.subperm_of_subset hnodup hsub).perm_of_length_le
  rw [List.length_range, hlength]

/-- Every number that was pushed is in the list or has been taken out, and once; what has been allocated
since the start and not freed is the list. -/
theorem run_conserves (node : Ptr → Node) (live : Ptr → Bool) (n m : ℕ) {as : List Action}
    (h : Run Step (start node live n m) as s) :
    ∃ l, Links (fun p => (s.node p).next) s.head l 0 ∧
      (l.map s.serial ++ s.popped).Perm (List.range s.pushed) ∧
      ∀ p, s.live p = true ↔ live p = true ∨ p ∈ l := by
  obtain ⟨l,hl⟩ := h.invariant (P := fun s => ∃ l, Tallied live s l)
    ⟨[],tallied_start node live n m⟩ fun _ _ _ ⟨l,hl⟩ hstep => hl.step hstep
  refine ⟨l,hl.balanced.links,?_,hl.owned⟩
  apply perm_range hl.balanced.serials hl.balanced.old
  rw [List.length_append, List.length_map, hl.pushed]

/-- Two nodes are produced, and the second one is consumed. -/
theorem run_conserves_two : ∃ s, Run Step (start (fun _ => ⟨0,0⟩) (fun _ => false) 1 1)
    [.producer 0,.producer 0,.producer 0,.producer 0,.producer 0,.producer 0,.consumer 0,.consumer 0] s ∧
      s.pushed = 2 ∧ s.popped = [1] ∧ s.head = 1 ∧ s.live 2 = false ∧
      ∃ l, Links (fun p => (s.node p).next) s.head l 0 ∧
        (l.map s.serial ++ s.popped).Perm (List.range s.pushed) ∧
        ∀ p, s.live p = true ↔ false = true ∨ p ∈ l := by
  have hwait := Run.nil.snoc (Step.produceWait (s := start (fun _ => ⟨0,0⟩) (fun _ => false) 1 1)
    (i := 0) rfl (by decide))
  have hpush := hwait.snoc (.produceLock (i := 0) 1 7 rfl Nat.one_ne_zero rfl)
  have hpost := hpush.snoc (.producePost (i := 0) rfl)
  have hwait' := hpost.snoc (.produceWait (i := 0) rfl (by decide))
  have hpush' := hwait'.snoc (.produceLock (i := 0) 2 8 rfl (by decide) rfl)
  have hpost' := hpush'.snoc (.producePost (i := 0) rfl)
  have htake := hpost'.snoc (.consumeWait (j := 0) rfl (by decide))
  have hpop := htake.snoc (.consumeLock (j := 0) rfl rfl)
  exact ⟨_,hpop,rfl,rfl,rfl,rfl,run_conserves _ _ _ _ hpop⟩

/-- Some thread of each kind is there, and `malloc` finds memory. -/
structure Ready (s : State) (l : List Ptr) : Prop where
  balanced : Balanced s l
  produces : 0 < s.producers.length
  consumes : 0 < s.consumers.length
  room : {p | s.live p = false}.Infinite

theorem Ready.step {a : Action} (h : Ready s l) (hstep : Step s a s') : ∃ l', Ready s' l' := by
  obtain ⟨l',hl'⟩ := h.balanced.step hstep
  refine ⟨l',hl',?_,?_,?_⟩
  · cases hstep with
    | produceWait | produceLock | producePost =>
      rw [List.length_set]
      exact h.produces
    | consumeWait | consumePost => exact h.produces
    | consumeLock hj hret =>
      obtain ⟨-,rfl⟩ := consume_cases hret
      exact h.produces
  · cases hstep with
    | consumeWait | consumeLock | consumePost =>
      rw [List.length_set]
      exact h.consumes
    | produceWait | produceLock | producePost => exact h.consumes
  · cases hstep with
    | produceWait | producePost | consumeWait | consumePost => exact h.room
    | produceLock pnew num hi hnew hfree =>
      -- one address less
      refine (h.room.sdiff (Set.finite_singleton pnew)).mono fun p hp => ?_
      change update s.live pnew true p = false
      rw [update_of_ne hp.2]
      exact hp.1
    | consumeLock hj hret =>
      obtain ⟨-,rfl⟩ := consume_cases hret
      refine h.room.mono fun p hp => ?_
      change update s.live s.head false p = false
      obtain rfl | hne := eq_or_ne p s.head
      · exact update_self ..
      · rw [update_of_ne hne]
        exact hp

/-- Some run takes out one more node. -/
def Goes (s : State) : Prop := ∃ as s', Run Step s as s' ∧ ∃ k, s'.popped = k :: s.popped

theorem Goes.cons {a : Action} (h : Goes s') (hstep : Step s a s') (hpopped : s'.popped = s.popped) :
    Goes s := by
  obtain ⟨as,s₂,hrun,k,hk⟩ := h
  exact ⟨a :: as,s₂,.cons hstep hrun,k,hpopped ▸ hk⟩

theorem exists_at {pc : Pc} {threads : List Pc} (h : 0 < countAt pc threads) :
    ∃ i : ℕ, threads[i]? = some pc := by
  obtain ⟨pc',hmem,heq⟩ := List.countP_pos_iff.mp h
  obtain rfl := of_decide_eq_true heq
  exact List.mem_iff_getElem?.mp hmem

theorem getElem?_set_eq {threads : List Pc} {a : Pc} (b : Pc) (h : threads[i]? = some a) :
    (threads.set i b)[i]? = some b :=
  List.getElem?_set_self (List.getElem?_eq_some_iff.mp h).1

/-- The consumer that has the lock to come takes out a node. -/
theorem Ready.goes_lock (h : Ready s l) (hj : s.consumers[j]? = some .lock) : Goes s := by
  have hhead := h.balanced.head_ne_null hj
  have hret : consume s = some { s with
      head := (s.node s.head).next
      live := update s.live s.head false
      popped := s.serial s.head :: s.popped } := if_neg hhead
  exact ⟨_,_,Run.nil.snoc (.consumeLock hj hret),s.serial s.head,rfl⟩

theorem Ready.goes_wait (h : Ready s l) (hj : s.consumers[j]? = some .wait) (hsem : 0 < s.csem) :
    Goes s := by
  have hstep := Step.consumeWait hj hsem
  obtain ⟨l',hl'⟩ := h.step hstep
  apply (hl'.goes_lock (j := j) ?_).cons hstep rfl
  exact getElem?_set_eq .lock hj

/-- There is a unit of `csem` for whichever consumer asks for it. -/
theorem Ready.goes_csem (h : Ready s l) (hsem : 0 < s.csem) : Goes s := by
  obtain ⟨pc,hfirst⟩ : ∃ pc, s.consumers[0]? = some pc := ⟨_,List.getElem?_eq_getElem h.consumes⟩
  cases pc with
  | wait => exact h.goes_wait hfirst hsem
  | lock => exact h.goes_lock hfirst
  | post =>
    have hstep := Step.consumePost hfirst
    obtain ⟨l',hl'⟩ := h.step hstep
    apply (hl'.goes_wait (j := 0) ?_ hsem).cons hstep rfl
    exact getElem?_set_eq .wait hfirst

theorem Ready.goes_post (h : Ready s l) (hi : s.producers[i]? = some .post) : Goes s := by
  have hstep := Step.producePost hi
  obtain ⟨l',hl'⟩ := h.step hstep
  exact (hl'.goes_csem (Nat.succ_pos _)).cons hstep rfl

theorem Ready.goes_produce (h : Ready s l) (hi : s.producers[i]? = some .lock) : Goes s := by
  obtain ⟨pnew,hfree,hnew⟩ := h.room.exists_notMem_finset {0}
  have hstep := Step.produceLock pnew 0 hi (by simpa using hnew) hfree
  obtain ⟨l',hl'⟩ := h.step hstep
  apply (hl'.goes_post (i := i) ?_).cons hstep rfl
  exact getElem?_set_eq .post hi

theorem Ready.goes_psem (h : Ready s l) (hsem : 0 < s.psem) : Goes s := by
  obtain ⟨pc,hfirst⟩ : ∃ pc, s.producers[0]? = some pc := ⟨_,List.getElem?_eq_getElem h.produces⟩
  cases pc with
  | wait =>
    have hstep := Step.produceWait hfirst hsem
    obtain ⟨l',hl'⟩ := h.step hstep
    apply (hl'.goes_produce (i := 0) ?_).cons hstep rfl
    exact getElem?_set_eq .lock hfirst
  | lock => exact h.goes_produce hfirst
  | post => exact h.goes_post hfirst

/-- The five units are with the semaphores, in the list, or with a thread that can go on. -/
theorem Ready.goes (h : Ready s l) : Goes s := by
  have hplaces := h.balanced.places
  have hitems := h.balanced.items
  by_cases hcsem : 0 < s.csem
  · exact h.goes_csem hcsem
  by_cases hpost : 0 < countAt .post s.producers
  · obtain ⟨i,hi⟩ := exists_at hpost
    exact h.goes_post hi
  by_cases hlock : 0 < countAt .lock s.consumers
  · obtain ⟨j,hj⟩ := exists_at hlock
    exact h.goes_lock hj
  by_cases hpsem : 0 < s.psem
  · exact h.goes_psem hpsem
  by_cases hlock' : 0 < countAt .lock s.producers
  · obtain ⟨i,hi⟩ := exists_at hlock'
    exact h.goes_produce hi
  -- the list is empty, and so the units are with the consumers
  have hback : 0 < countAt .post s.consumers := by omega
  obtain ⟨j,hj⟩ := exists_at hback
  have hstep := Step.consumePost hj
  obtain ⟨l',hl'⟩ := h.step hstep
  exact (hl'.goes_psem (Nat.succ_pos _)).cons hstep rfl

/-- With a producer and a consumer, and memory for `malloc`, every state that a run reaches can be
continued until one more node is taken out. -/
theorem run_goes_on (node : Ptr → Node) (live : Ptr → Bool) {n m : ℕ} (hn : 0 < n) (hm : 0 < m)
    (hroom : {p | live p = false}.Infinite) {as : List Action}
    (h : Run Step (start node live n m) as s) :
    ∃ as' s', Run Step s as' s' ∧ ∃ k, s'.popped = k :: s.popped := by
  have hstart : Ready (start node live n m) [] := by
    refine ⟨balanced_start node live n m,?_,?_,hroom⟩
    · exact (List.length_replicate (n := n)).symm ▸ hn
    · exact (List.length_replicate (n := m)).symm ▸ hm
  obtain ⟨l,hl⟩ := h.invariant (P := fun s => ∃ l, Ready s l) ⟨[],hstart⟩
    fun _ _ _ ⟨l,hl⟩ hstep => hl.step hstep
  exact hl.goes

theorem run_goes_on_one : ∃ s, Run Step (start (fun _ => ⟨0,0⟩) (fun _ => false) 1 1) [.producer 0] s ∧
    ∃ as' s', Run Step s as' s' ∧ ∃ k, s'.popped = k :: s.popped := by
  have hwait := Run.nil.snoc (Step.produceWait (s := start (fun _ => ⟨0,0⟩) (fun _ => false) 1 1)
    (i := 0) rfl (by decide))
  have hroom : {p : Ptr | false = false}.Infinite := by simpa using Set.infinite_univ
  exact ⟨_,hwait,run_goes_on _ _ Nat.one_pos Nat.one_pos hroom hwait⟩

end ServerKit.Threads.Semaphores
