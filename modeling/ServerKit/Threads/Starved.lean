import ServerKit.Threads.Spoken

/-! When the pool of the chat server grows. The manager starts threads for a queue that is longer than the
number of the live threads, and not because all of them are busy with their clients. -/
namespace ServerKit.Threads
open ServerKit.Lib

/-- There are as many threads as at the start, and the manager has seen no reason for more. -/
structure Still (min : ℤ) (s : State) : Prop where
  length : (s.workers.length : ℤ) = min
  counted : ∀ queueSize liveNum, s.manager = .counted queueSize liveNum → queueSize ≤ liveNum
  sampled : ∀ queueSize liveNum busyNum, s.manager = .sampled queueSize liveNum busyNum → queueSize ≤ liveNum

section Still
variable {min max : ℤ} {s s' : State} {a : Action}

theorem Still.same (hs : Still min s) (hlength : s'.workers.length = s.workers.length)
    (hmanager : s'.manager = s.manager) : Still min s' where
  length := by rw [hlength, hs.length]
  counted queueSize liveNum h := hs.counted queueSize liveNum (hmanager ▸ h)
  sampled queueSize liveNum busyNum h := hs.sampled queueSize liveNum busyNum (hmanager ▸ h)

/-- The manager goes on to a place where it has no sizes. -/
theorem Still.leave (hs : Still min s) (hlength : s'.workers.length = s.workers.length)
    (hcounted : ∀ queueSize liveNum, s'.manager ≠ .counted queueSize liveNum)
    (hsampled : ∀ queueSize liveNum busyNum, s'.manager ≠ .sampled queueSize liveNum busyNum) :
    Still min s' where
  length := by rw [hlength, hs.length]
  counted queueSize liveNum h := absurd h (hcounted queueSize liveNum)
  sampled queueSize liveNum busyNum h := absurd h (hsampled queueSize liveNum busyNum)

theorem WorkerLeaves.still {w : ℕ} {e : WorkerEnd} (h : WorkerLeaves s w e s') :
    s'.workers.length = s.workers.length ∧ s'.manager = s.manager := by
  cases h with
  | wait | exit | take => exact ⟨List.length_set ..,rfl⟩

theorem ProducerLeaves.still {p : ℕ} {task : Task} {e : AddEnd} (h : ProducerLeaves s p task e s') :
    s'.workers.length = s.workers.length ∧ s'.manager = s.manager := by
  cases h with
  | wait | closed => exact ⟨rfl,rfl⟩
  | added signal => exact ⟨signal.length_eq,rfl⟩

theorem WorkerStep.still (h : WorkerStep s a s') :
    s'.workers.length = s.workers.length ∧ s'.manager = s.manager := by
  cases h with
  | lock hw leaves | relock hw leaves => exact leaves.still
  | spurious | busy | unbusy | threadExit => exact ⟨List.length_set ..,rfl⟩

theorem ProducerStep.still (h : ProducerStep s a s') :
    s'.workers.length = s.workers.length ∧ s'.manager = s.manager := by
  cases h with
  | add hp leaves => exact leaves.still
  | call | spurious => exact ⟨rfl,rfl⟩

theorem DestroyStep.still (h : DestroyStep s a s') :
    s'.workers.length = s.workers.length ∧ s'.manager = s.manager := by
  cases h with
  | signal hd hi signal => exact ⟨signal.length_eq,rfl⟩
  | shutdown | join | free => exact ⟨rfl,rfl⟩

/-- With a short queue the manager keeps the threads that it has. -/
theorem ManagerStep.still (hs : Still min s) (hcounted : Counted min max s.pool s.workers)
    (hshort : s.pool.queueSize ≤ min) (h : ManagerStep s a s') : Still min s' := by
  cases h with
  | test hm =>
    have hnot (pc : ManagerPc) (h₁ : pc ≠ .done) (h₂ : pc ≠ .sleeping) :
        (if s.pool.shutdown then ManagerPc.done else .sleeping) ≠ pc := by
      split
      · exact h₁.symm
      · exact h₂.symm
    exact hs.leave rfl (fun _ _ => hnot _ ManagerPc.noConfusion ManagerPc.noConfusion)
      fun _ _ _ => hnot _ ManagerPc.noConfusion ManagerPc.noConfusion
  | count hm =>
    refine ⟨hs.length,?_,fun _ _ _ h => ManagerPc.noConfusion h⟩
    rintro _ _ ⟨⟩
    exact hshort.trans hcounted.min_le
  | busy hm =>
    refine ⟨hs.length,fun _ _ h => ManagerPc.noConfusion h,?_⟩
    rintro _ _ _ ⟨⟩
    exact hs.counted _ _ hm
  | @grow queueSize liveNum busyNum hm =>
    have hle := hs.sampled _ _ _ hm
    have hsame : (s.grow queueSize liveNum).workers = s.workers := by
      have hnot : ¬ (queueSize > liveNum ∧ liveNum < s.pool.maxNum) := fun h => not_lt.mpr hle h.1
      unfold State.grow managerGrow
      rw [if_neg hnot]
      exact List.append_nil _
    exact hs.leave (congrArg List.length hsame) (fun _ _ => ManagerPc.noConfusion)
      fun _ _ _ => ManagerPc.noConfusion
  | shrink hm h | keep hm h | loop hm hi =>
    exact hs.leave rfl (fun _ _ => ManagerPc.noConfusion) fun _ _ _ => ManagerPc.noConfusion
  | signal hm hi signal =>
    exact hs.leave signal.length_eq (fun _ _ => ManagerPc.noConfusion) fun _ _ _ => ManagerPc.noConfusion

theorem Step.still (hs : Still min s) (hcounted : Counted min max s.pool s.workers)
    (hshort : s.pool.queueSize ≤ min) (h : Step s a s') : Still min s' := by
  cases h with
  | worker hpool h =>
    obtain ⟨hlength,hmanager⟩ := h.still
    exact hs.same hlength hmanager
  | producer hpool h =>
    obtain ⟨hlength,hmanager⟩ := h.still
    exact hs.same hlength hmanager
  | manager hpool h => exact h.still hs hcounted hshort
  | destroyer h =>
    obtain ⟨hlength,hmanager⟩ := h.still
    exact hs.same hlength hmanager

end Still

namespace Chat

/-- A worker is with a client. -/
def serving : WorkerPc → Bool
  | .running task => task.function = working
  | _ => false

theorem trace_still {taskQ : ℤ → Task} {min max queueSize : ℤ} {info_pp : Addr} {cfd : Addr → Fd}
    {steps : List (State × Label)} {s : State} (h0 : 0 ≤ min) (hle : min ≤ max) (hcap : 1 ≤ queueSize)
    (h : Trace Step (start taskQ min max queueSize info_pp cfd) steps s)
    (hshort : ∀ x ∈ steps, x.1.pool.pool.queueSize ≤ min) : Pooled min max s ∧ Still min s.pool := by
  induction h with
  | nil =>
    have hlength : (List.replicate min.toNat WorkerPc.ready).length = min.toNat := List.length_replicate
    have hstill : Still min (Threads.start taskQ min max queueSize 2) := by
      refine ⟨?_,fun _ _ h => ManagerPc.noConfusion h,fun _ _ _ h => ManagerPc.noConfusion h⟩
      change ((List.replicate min.toNat WorkerPc.ready).length : ℤ) = min
      rw [hlength, Int.toNat_of_nonneg h0]
    exact ⟨start_pooled taskQ info_pp cfd h0 hle hcap,hstill⟩
  | snoc _ last ih =>
    obtain ⟨hpool,hstill⟩ := ih fun x hx => hshort x (List.mem_append_left _ hx)
    have hlast := hshort _ (List.mem_append_right _ List.mem_cons_self)
    refine ⟨last.pooled hpool,?_⟩
    obtain hsame | ⟨a,hstep,-⟩ := last.pool_step
    · rw [hsame]
      exact hstill
    · exact hstep.still hstill hpool.counted hlast

/-- As long as no more than `min` tasks wait in the queue, the server has no more threads than at the start. One
of them accepts the clients, so less than `min` clients are served at a time, and the others wait, however
large `max` is. -/
theorem run_starved (taskQ : ℤ → Task) {min max queueSize : ℤ} (info_pp : Addr) (cfd : Addr → Fd)
    (h0 : 0 ≤ min) (hle : min ≤ max) (hcap : 1 ≤ queueSize) (steps : List (State × Label)) (s : State)
    (h : Trace Step (start taskQ min max queueSize info_pp cfd) steps s)
    (hshort : ∀ x ∈ steps, x.1.pool.pool.queueSize ≤ min) :
    (s.pool.workers.length : ℤ) = min ∧ ∀ w arg body, In s w ⟨connect,arg⟩ body →
      (s.pool.workers.countP serving : ℤ) < min := by
  obtain ⟨-,hstill⟩ := trace_still h0 hle hcap h hshort
  refine ⟨hstill.length,fun w arg body hw => ?_⟩
  -- the thread that accepts is not with a client
  have hlt : s.pool.workers.countP serving < s.pool.workers.length := by
    refine lt_of_le_of_ne List.countP_le_length fun heq => ?_
    have hall := List.countP_eq_length.mp heq _ (List.mem_of_getElem? hw.running)
    cases hall
  have hlength := hstill.length
  omega

theorem run_starved_one : ∃ steps s, Trace Step (start (fun _ => ⟨0,0⟩) 3 8 100 10 fun _ => 0) steps s ∧
    (s.pool.workers.length : ℤ) = 3 ∧ (s.pool.workers.countP serving : ℤ) < 3 := by
  obtain ⟨steps,s,h,⟨hin,-,-⟩,-,-,hshort⟩ := first_client
  obtain ⟨hlength,hserving⟩ := run_starved _ 10 _ (by decide) (show (3 : ℤ) ≤ 8 by decide) (by decide) steps s h
    hshort
  exact ⟨steps,s,h,hlength,hserving 0 10 _ hin⟩

end Chat
end ServerKit.Threads
