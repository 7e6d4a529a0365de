import ServerKit.Threads.Custody

/-! In which order the chat server takes up its clients. -/
namespace ServerKit.Threads.Chat
open Function ServerKit.Lib

/-- A task of `connect`. -/
def listening (task : Task) : List Unit := if task.function = connect then [()] else []

/-- The record of a client that is accepted, before it is handed to `threadPoolAdd`. -/
def between (body : Body) (task : Task) : List Addr :=
  match body with
  | .accepted info_p => if task.function = connect then [info_p] else []
  | _ => []

/-- The client whom a thread hands over in `threadPoolAdd`. -/
def handed (pc : ProducerPc) : List Addr := pc.pending.flatMap client

namespace State
variable (s : State)

def listeners : List Unit :=
  s.pool.shared listening (fun _ => listening) ++ (if s.started then [] else [()])

/-- The records of the clients that are accepted and not yet in the queue. -/
def passing : List Addr :=
  carried (fun _ => handed) s.pool.producers ++
    carried (WorkerPc.holds (fun _ => []) fun w => between (s.body w)) s.pool.workers

end State

/-- One thread at most is in `connect`. A client that waits for the lock of the queue was brought by it, and it
is not back yet. -/
structure Turn (s : State) : Prop where
  single : s.listeners.count () ≤ 1
  adding : ∀ i pc, s.pool.producers[i]? = some pc → handed pc ≠ [] →
    i = 1 ∧ ∃ w arg, In s w ⟨connect,arg⟩ .adding
  order : s.records = s.pool.accepted.flatMap client ++ s.passing

section Passing
variable {s s' : State}

/-- Two workers in `connect` are one. -/
theorem Turn.unique (hs : Turn s) {v w : ℕ} {arg arg' : Addr}
    (hv : s.pool.workers[v]? = some (.running ⟨connect,arg⟩))
    (hw : s.pool.workers[w]? = some (.running ⟨connect,arg'⟩)) : v = w := by
  have hle := hs.single
  unfold State.listeners Threads.State.shared at hle
  simp only [List.count_append] at hle
  refine carried_alone (H := WorkerPc.holds listening fun _ => listening) (b := ()) hv ?_ hw ?_ (by omega)
  · exact List.mem_cons_self
  · exact List.mem_cons_self

theorem mem_between {body : Body} {task : Task} {p : Addr} (h : p ∈ between body task) :
    body = .accepted p ∧ task.function = connect := by
  unfold between at h
  split at h
  · split at h
    · next hconnect =>
      obtain rfl := List.mem_singleton.mp h
      exact ⟨rfl,hconnect⟩
    · cases h
  · cases h

theorem mem_holds_between {w : ℕ} {pc : WorkerPc} {p : Addr} (hw : s.pool.workers[w]? = some pc)
    (h : p ∈ pc.holds (fun _ => []) (fun w => between (s.body w)) w) :
    ∃ arg, In s w ⟨connect,arg⟩ (.accepted p) := by
  cases pc with
  | running task =>
    obtain ⟨function,arg⟩ := task
    obtain ⟨hbody,hfunction⟩ := mem_between h
    obtain rfl : function = connect := hfunction
    exact ⟨arg,hw,hbody⟩
  | ready | blocked | woken | taken | exiting | exited => cases h

theorem handed_le (pc : ProducerPc) : (handed pc).length ≤ 1 := by
  cases pc with
  | idle => exact Nat.zero_le _
  | ready task | blocked task =>
    unfold handed ProducerPc.pending client
    simp only [List.flatMap_cons, List.flatMap_nil, List.append_nil]
    split <;> simp

theorem holds_between_le (w : ℕ) (pc : WorkerPc) :
    (pc.holds (fun _ => []) (fun w => between (s.body w)) w).length ≤ 1 := by
  cases pc with
  | running task =>
    unfold WorkerPc.holds between
    dsimp only
    split
    · split <;> simp
    · exact Nat.zero_le _
  | ready | blocked | woken | taken | exiting | exited => exact Nat.zero_le _

/-- The workers have no client on its way, or one of them has one. -/
theorem Turn.between_cases (hs : Turn s) :
    carried (WorkerPc.holds (fun _ => []) fun w => between (s.body w)) s.pool.workers = [] ∨
      (∃ w arg p, In s w ⟨connect,arg⟩ (.accepted p)) ∧
        (carried (WorkerPc.holds (fun _ => []) fun w => between (s.body w)) s.pool.workers).length ≤ 1 := by
  rw [or_iff_not_imp_left]
  intro hne
  obtain ⟨p,hp⟩ := List.exists_mem_of_ne_nil _ hne
  obtain ⟨w,pc,hw,hp⟩ := exists_of_mem_carried hp
  obtain ⟨arg,hin⟩ := mem_holds_between hw hp
  refine ⟨⟨w,arg,p,hin⟩,?_⟩
  have hsingle : carried (WorkerPc.holds (fun _ => []) fun w => between (s.body w)) s.pool.workers =
      s.pool.workers[w]?.elim [] (WorkerPc.holds (fun _ => []) (fun w => between (s.body w)) w) := by
    refine carried_single fun v pc' hv hvw => List.eq_nil_iff_forall_not_mem.mpr fun q hq => ?_
    obtain ⟨arg',hin'⟩ := mem_holds_between hv hq
    exact hvw (hs.unique hin'.running hin.running)
  rw [hsingle, hw]
  exact holds_between_le w pc

/-- No more than one client is on its way to the queue. -/
theorem Turn.passing_le (hs : Turn s) : s.passing.length ≤ 1 := by
  have hproducers : carried (fun _ => handed) s.pool.producers = s.pool.producers[1]?.elim [] handed := by
    refine carried_single (H := fun _ => handed) fun i pc hi hne => ?_
    by_contra hhanded
    exact hne (hs.adding i pc hi hhanded).1
  have hle : (s.pool.producers[1]?.elim [] handed).length ≤ 1 := by
    cases s.pool.producers[1]? with
    | none => exact Nat.zero_le _
    | some pc => exact handed_le pc
  unfold State.passing
  rw [hproducers, List.length_append]
  obtain hnone | ⟨⟨w,arg,p,hw⟩,hone⟩ := hs.between_cases
  · rw [hnone]
    exact hle
  · -- then `connect` is not in `threadPoolAdd`
    have hempty : s.pool.producers[1]?.elim [] handed = [] := by
      cases hproducer : s.pool.producers[1]? with
      | none => rfl
      | some pc =>
        by_contra hhanded
        obtain ⟨-,v,arg',hv⟩ := hs.adding 1 pc hproducer hhanded
        obtain rfl := hs.unique hv.running hw.running
        cases hv.body.symm.trans hw.body
    rw [hempty]
    simpa using hone

/-- The clients on their way are the same ones. -/
theorem Turn.passing_eq (hs : Turn s) {l : List Addr} (h : ∀ p, l.count p = s.passing.count p) :
    l = s.passing := by
  have hperm : l.Perm s.passing := List.perm_iff_count.mpr h
  have hle := hs.passing_le
  match hpassing : s.passing with
  | [] =>
    rw [hpassing] at hperm
    exact hperm.eq_nil
  | [p] =>
    rw [hpassing] at hperm
    exact List.perm_singleton.mp hperm
  | _ :: _ :: _ =>
    rw [hpassing] at hle
    simp at hle

end Passing

section Own
variable {pool pool' : Threads.State} {a : Threads.Action} {w : ℕ} {β : Type} {g : ℕ → Task → List β}

/-- What the pool by itself does with the tasks that are handed over. -/
inductive Hands (pool pool' : Threads.State) : Prop
  | same (hpending : pool'.producers.map ProducerPc.pending = pool.producers.map ProducerPc.pending)
      (haccepted : pool'.accepted = pool.accepted)
  | added {p task} (hp : pool.producers[p]? = some (.ready task))
      (hproducers : pool'.producers = pool.producers.set p .idle)
      (haccepted : pool'.accepted = pool.accepted ++ [task])

theorem map_pending_set {p : ℕ} {pc pc' : ProducerPc} (hp : pool.producers[p]? = some pc)
    (hsame : pc'.pending = pc.pending) :
    (pool.producers.set p pc').map ProducerPc.pending = pool.producers.map ProducerPc.pending := by
  have hmap : (pool.producers.map ProducerPc.pending)[p]? = some pc.pending := by
    rw [List.getElem?_map, hp]
    rfl
  obtain ⟨hlt,hget⟩ := List.getElem?_eq_some_iff.mp hmap
  rw [List.map_set, hsame, ← hget, List.set_getElem_self hlt]

theorem leaves_hands {e : WorkerEnd} (h : WorkerLeaves pool w e pool') : Hands pool pool' := by
  cases h with
  | wait | exit => exact .same rfl rfl
  | take signal => exact .same (signal.map_eq fun x y hwake => ProducerPc.pending_wake hwake) rfl

theorem step_hands (hown : Own a) (hopen : pool.pool.shutdown = false) (h : Threads.Step pool a pool') :
    Hands pool pool' := by
  cases h with
  | worker hpool h =>
    cases h with
    | lock hw leaves => exact leaves_hands leaves
    | relock hw leaves => exact leaves_hands leaves
    | spurious | busy | unbusy | threadExit => exact .same rfl rfl
  | producer hpool h =>
    cases h with
    | call => exact hown.elim
    | @add p task _ hp leaves =>
      obtain ⟨-,-,hend⟩ | ⟨hclosed,-⟩ | ⟨hfull,-,hend⟩ := threadPoolAdd_cases pool.pool task
      · rw [hend] at leaves
        cases leaves
        exact .same (map_pending_set hp rfl) rfl
      · rw [hopen] at hclosed
        cases hclosed
      · rw [hend] at leaves
        cases leaves
        exact .added hp rfl rfl
    | spurious hp => exact .same (map_pending_set hp rfl) rfl
  | manager hpool h => cases h <;> exact .same rfl rfl
  | destroyer h => cases h <;> exact hown.elim

theorem leaves_holds {e : WorkerEnd} {pc : WorkerPc} (hw : pool.workers[w]? = some pc)
    (hpc : pc.holds (fun _ => []) g w = []) (h : WorkerLeaves pool w e pool') :
    carried (WorkerPc.holds (fun _ => []) g) pool'.workers =
      carried (WorkerPc.holds (fun _ => []) g) pool.workers := by
  cases h with
  | wait => exact holds_set hw hpc rfl
  | exit => exact holds_set hw hpc rfl
  | take signal => exact holds_set hw hpc rfl

/-- The workers in their tasks stay there. -/
theorem step_holds (hown : Own a) (h : Threads.Step pool a pool') :
    carried (WorkerPc.holds (fun _ => []) g) pool'.workers =
      carried (WorkerPc.holds (fun _ => []) g) pool.workers := by
  cases h with
  | worker hpool h =>
    cases h with
    | lock hw leaves => exact leaves_holds hw rfl leaves
    | relock hw leaves => exact leaves_holds hw rfl leaves
    | spurious hw => exact holds_set hw rfl rfl
    | threadExit hw => exact holds_set hw rfl rfl
    | busy | unbusy => exact hown.elim
  | producer hpool h =>
    cases h with
    | call | spurious => rfl
    | @add p task _ hp leaves =>
      generalize threadPoolAdd pool.pool task = e at leaves
      cases leaves with
      | wait | closed => rfl
      | added signal => exact signal.carried fun i x y hwake => x.holds_wake hwake i
  | manager hpool h =>
    cases h with
    | grow hm =>
      refine carried_append fun i x hx => ?_
      rw [List.eq_of_mem_replicate hx]
      rfl
    | signal hm hi signal => exact signal.carried fun i x y hwake => x.holds_wake hwake i
    | test | count | busy | shrink | keep | loop => rfl
  | destroyer h => cases h <;> exact hown.elim

/-- A worker is in its task if that is where it is counted. -/
theorem running_iff (task : Task) : pool.workers[w]? = some (.running task) ↔
    (w,task) ∈ carried (WorkerPc.holds (fun _ => []) fun v task => [(v,task)]) pool.workers := by
  constructor
  · exact fun hw => mem_carried hw List.mem_cons_self
  · intro hmem
    obtain ⟨v,pc,hv,hmem⟩ := exists_of_mem_carried hmem
    cases pc with
    | running task' =>
      cases List.mem_singleton.mp hmem
      exact hv
    | ready | blocked | woken | taken | exiting | exited => cases hmem

theorem step_running (hown : Own a) (h : Threads.Step pool a pool') (w : ℕ) (task : Task) :
    pool'.workers[w]? = some (.running task) ↔ pool.workers[w]? = some (.running task) := by
  have hsame : carried (WorkerPc.holds (fun _ => []) fun v task => [(v,task)]) pool'.workers =
    carried (WorkerPc.holds (fun _ => []) fun v task => [(v,task)]) pool.workers := step_holds hown h
  rw [running_iff, running_iff, hsame]

end Own

section Steps
variable {s s' : State} {w : ℕ}

theorem call_eq {p : ℕ} {task : Task} {pool : Threads.State} (hcall : Threads.Step s.pool (.call p task) pool) :
    s.pool.producers[p]? = some .idle ∧
      pool = { s.pool with producers := s.pool.producers.set p (.ready task) } := by
  cases hcall with
  | producer hpool h =>
    cases h with
    | call hp => exact ⟨hp,rfl⟩
  | worker hpool h | manager hpool h | destroyer h => cases h

/-- The other workers are where they were. -/
theorem holds_others (s : State) (w : ℕ) (body : Body) (v : ℕ) (hv : v ≠ w) :
    WorkerPc.holds (fun _ => []) (fun v => between (update s.body w body v)) v =
      WorkerPc.holds (fun _ => []) (fun v => between (s.body v)) v := by
  funext pc
  cases pc <;> simp only [WorkerPc.holds, update_of_ne hv]

theorem count_listeners (hs : Turn s) : (s.pool.shared listening fun _ => listening).count ()+
    (if s.started then [] else [()]).count () ≤ 1 := by
  have hle := hs.single
  unfold State.listeners at hle
  rwa [List.count_append] at hle

/-- The pool moves a client into its queue, or it moves nothing. -/
theorem Turn.pool (hs : Turn s) {min max : ℤ} (hpool : Pooled min max s) {a : Threads.Action}
    {pool : Threads.State} (hown : Own a) (hstep : Threads.Step s.pool a pool) :
    Turn { s with pool := pool } := by
  have hin {w arg} (hw : In s w ⟨connect,arg⟩ .adding) : In { s with pool := pool } w ⟨connect,arg⟩ .adding :=
    ⟨(step_running hown hstep w _).mpr hw.running,hw.body⟩
  have hbetween : carried (WorkerPc.holds (fun _ => []) fun w => between (s.body w)) pool.workers =
    carried (WorkerPc.holds (fun _ => []) fun w => between (s.body w)) s.pool.workers := step_holds hown hstep
  constructor
  · have hle := count_listeners hs
    have hcount := hstep.count_shared (f := listening) (g := fun _ => listening) hpool.queue
      hpool.counted.running hown ()
    unfold State.listeners
    rw [List.count_append, hcount]
    exact hle
  · intro i pc hi hhanded
    cases step_hands hown hpool.counted.running hstep with
    | same hpending haccepted =>
      have hmap := congrArg (·[i]?) hpending
      simp only [List.getElem?_map] at hmap
      change pool.producers[i]? = some pc at hi
      rw [hi] at hmap
      obtain ⟨pc',hi',hsame⟩ := Option.map_eq_some_iff.mp hmap.symm
      unfold handed at hhanded
      rw [← hsame] at hhanded
      obtain ⟨hone,w,arg,hw⟩ := hs.adding i pc' hi' hhanded
      exact ⟨hone,w,arg,hin hw⟩
    | added hp hproducers haccepted =>
      change pool.producers[i]? = some pc at hi
      rw [hproducers, List.getElem?_set] at hi
      split at hi
      · split at hi
        · obtain rfl := Option.some.inj hi
          exact absurd rfl hhanded
        · cases hi
      · obtain ⟨hone,w,arg,hw⟩ := hs.adding i pc hi hhanded
        exact ⟨hone,w,arg,hin hw⟩
  · have horder := hs.order
    unfold State.passing at *
    dsimp only
    cases step_hands hown hpool.counted.running hstep with
    | same hpending haccepted =>
      have hhanded : carried (fun _ => handed) pool.producers = carried (fun _ => handed) s.pool.producers :=
        carried_of_map hpending fun tasks => tasks.flatMap client
      rw [hbetween, haccepted, hhanded]
      exact horder
    | @added p task hp hproducers haccepted =>
      have hpassing : client task ++ (carried (fun _ => handed) pool.producers ++
          carried (WorkerPc.holds (fun _ => []) fun w => between (s.body w)) s.pool.workers) = s.passing := by
        refine hs.passing_eq fun q => ?_
        have hset := count_carried_set (H := fun _ => handed) (y := .idle) q hp fun _ _ => rfl
        unfold State.passing
        rw [hproducers]
        simp only [List.count_append, handed, ProducerPc.pending, List.flatMap_cons, List.flatMap_nil,
          List.append_nil, List.count_nil] at hset ⊢
        omega
      rw [hbetween, haccepted, List.flatMap_append, List.append_assoc, List.flatMap_cons, List.flatMap_nil,
        List.append_nil, hpassing]
      exact horder

theorem In.elsewhere {task : Task} {body body' : Body} {v : ℕ} {arg : Addr} (hw : In s w task body)
    (hadding : body ≠ .adding) (hv : In s v ⟨connect,arg⟩ .adding) :
    v ≠ w ∧ update s.body w body' v = .adding := by
  have hne : v ≠ w := by
    rintro rfl
    exact hadding (hw.body.symm.trans hv.body)
  refine ⟨hne,?_⟩
  rw [update_of_ne hne]
  exact hv.body

/-- A worker goes on in its task, which is not `threadPoolAdd`. -/
theorem Turn.goes (hs : Turn s) {task : Task} {body body' : Body} (hw : In s w task body)
    (hadding : body ≠ .adding) (hbetween : between body' task = between body task) (hpool : s'.pool = s.pool)
    (hstarted : s'.started = s.started) (hrecords : s'.records = s.records)
    (hbody : s'.body = update s.body w body') : Turn s' := by
  constructor
  · unfold State.listeners
    rw [hpool, hstarted]
    exact hs.single
  · intro i pc hi hhanded
    rw [hpool] at hi
    obtain ⟨hone,v,arg,hv⟩ := hs.adding i pc hi hhanded
    refine ⟨hone,v,arg,?_,?_⟩
    · rw [hpool]
      exact hv.running
    · rw [hbody]
      exact (hw.elsewhere hadding hv).2
  · have hsame : carried (WorkerPc.holds (fun _ => []) fun w => between (s'.body w)) s.pool.workers =
        carried (WorkerPc.holds (fun _ => []) fun w => between (s.body w)) s.pool.workers := by
      rw [hbody]
      refine carried_update hw.running (holds_others s w _) ?_
      unfold WorkerPc.holds
      dsimp only
      rw [update_self, hw.body, hbetween]
    unfold State.passing
    rw [hrecords, hpool, hsame]
    exact hs.order

/-- Nobody is on the way when `connect` is not. -/
theorem Turn.passing_nil (hs : Turn s) {arg : Addr} {body : Body} (hw : In s w ⟨connect,arg⟩ body)
    (hadding : body ≠ .adding) (hbetween : between body ⟨connect,arg⟩ = []) : s.passing = [] := by
  refine List.eq_nil_iff_forall_not_mem.mpr fun p hp => ?_
  obtain hp | hp := List.mem_append.mp hp
  · obtain ⟨i,pc,hi,hp⟩ := exists_of_mem_carried hp
    obtain ⟨-,v,arg',hv⟩ := hs.adding i pc hi (List.ne_nil_of_mem hp)
    obtain rfl := hs.unique hv.running hw.running
    exact hadding (hw.body.symm.trans hv.body)
  · obtain ⟨v,pc,hv,hp⟩ := exists_of_mem_carried hp
    obtain ⟨arg',hin⟩ := mem_holds_between hv hp
    obtain rfl := hs.unique hin.running hw.running
    obtain rfl : .accepted p = body := hin.body.symm.trans hw.body
    have hnil : [p] = [] := hbetween
    cases hnil

theorem Turn.accept (hs : Turn s) {arg info_p : Addr} (hw : In s w ⟨connect,arg⟩ (.accepting info_p))
    (cfd : Addr → Fd) (conns : Fd → Option Stream) : Turn
      { s with
        cfd := cfd, conns := conns, body := update s.body w (.accepted info_p)
        records := s.records ++ [info_p] } := by
  have hnone := hs.passing_nil hw Body.noConfusion rfl
  constructor
  · exact hs.single
  · intro i pc hi hhanded
    obtain ⟨hone,v,arg',hv⟩ := hs.adding i pc hi hhanded
    exact ⟨hone,v,arg',hv.running,(hw.elsewhere Body.noConfusion hv).2⟩
  · have hpassing : carried (fun _ => handed) s.pool.producers ++
        carried (WorkerPc.holds (fun _ => []) fun v => between (update s.body w (.accepted info_p) v))
          s.pool.workers = [info_p] := by
      refine List.perm_singleton.mp (List.perm_iff_count.mpr fun q => ?_)
      have hcount := count_carried_update (H := WorkerPc.holds (fun _ => []) fun v => between (s.body v))
        (K := WorkerPc.holds (fun _ => []) fun v => between (update s.body w (.accepted info_p) v)) q
        hw.running (holds_others s w _)
      have hzero := congrArg (List.count q) hnone
      unfold State.passing at hzero
      simp only [WorkerPc.holds, update_self, hw.body, between, List.count_append, List.count_nil,
        if_true] at hcount hzero ⊢
      omega
    have horder := hs.order
    rw [hnone, List.append_nil] at horder
    unfold State.passing
    dsimp only
    rw [hpassing, horder]

/-- The client goes on to `threadPoolAdd`. -/
theorem Turn.call (hs : Turn s) {arg info_p : Addr} {pool : Threads.State}
    (hw : In s w ⟨connect,arg⟩ (.accepted info_p))
    (hcall : Threads.Step s.pool (.call 1 ⟨working,info_p⟩) pool) :
    Turn { s with pool := pool, body := update s.body w .adding } := by
  obtain ⟨hidle,rfl⟩ := call_eq hcall
  constructor
  · have hcount := hcall.count_call (f := listening) (g := fun _ => listening) ()
    have hle := count_listeners hs
    have hnone : (listening ⟨working,info_p⟩).count () = 0 := rfl
    unfold State.listeners
    rw [List.count_append, hcount, hnone]
    exact hle
  · intro i pc hi hhanded
    dsimp only at hi
    rw [List.getElem?_set] at hi
    split at hi
    · next heq =>
      refine ⟨heq.symm,w,arg,hw.running,?_⟩
      exact update_self ..
    · obtain ⟨hone,-⟩ := hs.adding i pc hi hhanded
      next hne => exact absurd hone.symm hne
  · have hpassing : carried (fun _ => handed) (s.pool.producers.set 1 (.ready ⟨working,info_p⟩)) ++
        carried (WorkerPc.holds (fun _ => []) fun v => between (update s.body w .adding v))
          s.pool.workers = s.passing := by
      refine hs.passing_eq fun q => ?_
      have hcount := count_carried_update (H := WorkerPc.holds (fun _ => []) fun v => between (s.body v))
        (K := WorkerPc.holds (fun _ => []) fun v => between (update s.body w .adding v)) q
        hw.running (holds_others s w _)
      have hset := count_carried_set (H := fun _ => handed) (y := .ready ⟨working,info_p⟩) q hidle
        fun _ _ => rfl
      have hnew : handed (.ready ⟨working,info_p⟩) = [info_p] := rfl
      have hold : handed .idle = [] := rfl
      unfold State.passing
      simp only [WorkerPc.holds, update_self, hw.body, between, List.count_append, List.count_nil,
        if_true, hnew, hold] at hcount hset ⊢
      omega
    have horder := hs.order
    rw [← hpassing] at horder
    exact horder

theorem Turn.main (hs : Turn s) {pool : Threads.State} (hmain : s.started = false)
    (hcall : Threads.Step s.pool (.call 0 ⟨connect,s.info_pp⟩) pool) :
    Turn { s with pool := pool, started := true } := by
  obtain ⟨hidle,rfl⟩ := call_eq hcall
  constructor
  · have hcount := hcall.count_call (f := listening) (g := fun _ => listening) ()
    have hle := count_listeners hs
    rw [hmain] at hle
    unfold State.listeners
    rw [List.count_append, hcount]
    exact hle
  · intro i pc hi hhanded
    dsimp only at hi
    rw [List.getElem?_set] at hi
    split at hi
    · split at hi
      · obtain rfl := Option.some.inj hi
        exact absurd rfl hhanded
      · cases hi
    · obtain ⟨hone,v,arg,hv⟩ := hs.adding i pc hi hhanded
      exact ⟨hone,v,arg,hv.running,hv.body⟩
  · have hsame : handed (.ready ⟨connect,s.info_pp⟩) = handed .idle := rfl
    have hset : carried (fun _ => handed) (s.pool.producers.set 0 (.ready ⟨connect,s.info_pp⟩)) =
      carried (fun _ => handed) s.pool.producers := carried_set hidle hsame
    have horder := hs.order
    unfold State.passing at *
    rw [← hset] at horder
    exact horder

theorem between_entry (task : Task) : between (entry task.function) task = [] := by
  unfold entry
  split
  · rfl
  · rfl

theorem busy_eq {task : Task} {pool : Threads.State} (hw : s.pool.workers[w]? = some (.taken task))
    (hstep : Threads.Step s.pool (.busy w) pool) : pool.producers = s.pool.producers ∧
      pool.accepted = s.pool.accepted ∧ pool.workers = s.pool.workers.set w (.running task) := by
  cases hstep with
  | worker hpool h =>
    cases h with
    | busy hw' =>
      cases hw.symm.trans hw'
      exact ⟨rfl,rfl,rfl⟩
  | producer hpool h | manager hpool h | destroyer h => cases h

theorem unbusy_eq {pool : Threads.State} (hstep : Threads.Step s.pool (.unbusy w) pool) :
    pool.producers = s.pool.producers ∧ pool.accepted = s.pool.accepted ∧
      pool.workers = s.pool.workers.set w .ready := by
  cases hstep with
  | worker hpool h =>
    cases h with
    | unbusy hw' => exact ⟨rfl,rfl,rfl⟩
  | producer hpool h | manager hpool h | destroyer h => cases h

theorem Turn.busy (hs : Turn s) {task : Task} {pool : Threads.State}
    (hw : s.pool.workers[w]? = some (.taken task)) (hstep : Threads.Step s.pool (.busy w) pool) :
    Turn { s with pool := pool, body := update s.body w (entry task.function) } := by
  obtain ⟨hproducers,haccepted,hworkers⟩ := busy_eq hw hstep
  constructor
  · have hsame (v : ℕ) (_ : v ≠ w) : (fun _ => listening : ℕ → Task → List Unit) v = listening := rfl
    have hcount := hstep.count_busy (f := listening) (g := fun _ => listening) hw hsame ()
    have hle := count_listeners hs
    unfold State.listeners
    rw [List.count_append, Nat.add_right_cancel hcount]
    exact hle
  · intro i pc hi hhanded
    dsimp only at hi
    rw [hproducers] at hi
    obtain ⟨hone,v,arg,hv⟩ := hs.adding i pc hi hhanded
    have hne : w ≠ v := by
      rintro rfl
      cases hw.symm.trans hv.running
    refine ⟨hone,v,arg,?_,?_⟩
    · dsimp only
      rw [hworkers, List.getElem?_set_ne hne]
      exact hv.running
    · exact (update_of_ne hne.symm ..).trans hv.body
  · have hmove : carried (WorkerPc.holds (fun _ => []) fun v => between (update s.body w (entry task.function) v))
        (s.pool.workers.set w (.running task)) =
          carried (WorkerPc.holds (fun _ => []) fun v => between (s.body v)) s.pool.workers := by
      refine carried_move hw (holds_others s w _) ?_
      unfold WorkerPc.holds
      dsimp only
      rw [update_self, between_entry]
    unfold State.passing
    dsimp only
    rw [hproducers, haccepted, hworkers, hmove]
    exact hs.order

theorem Turn.unbusy (hs : Turn s) {task : Task} {pool : Threads.State} (hw : In s w task .freed)
    (hstep : Threads.Step s.pool (.unbusy w) pool) : Turn { s with pool := pool } := by
  obtain ⟨hproducers,haccepted,hworkers⟩ := unbusy_eq hstep
  constructor
  · have hcount := hstep.count_unbusy (f := listening) (g := fun _ => listening) hw.running ()
    have hle := count_listeners hs
    unfold State.listeners
    rw [List.count_append]
    dsimp only
    omega
  · intro i pc hi hhanded
    dsimp only at hi
    rw [hproducers] at hi
    obtain ⟨hone,v,arg,hv⟩ := hs.adding i pc hi hhanded
    have hne : w ≠ v := by
      rintro rfl
      cases hw.body.symm.trans hv.body
    refine ⟨hone,v,arg,?_,hv.body⟩
    dsimp only
    rw [hworkers, List.getElem?_set_ne hne]
    exact hv.running
  · have hset : carried (WorkerPc.holds (fun _ => []) fun v => between (s.body v)) (s.pool.workers.set w .ready) =
        carried (WorkerPc.holds (fun _ => []) fun v => between (s.body v)) s.pool.workers := by
      refine carried_set hw.running ?_
      unfold WorkerPc.holds
      dsimp only
      rw [hw.body]
      rfl
    unfold State.passing
    dsimp only
    rw [hproducers, haccepted, hworkers, hset]
    exact hs.order

/-- The task is in the queue, and nobody else hands over a client. -/
theorem Turn.back (hs : Turn s) {arg : Addr} (hw : In s w ⟨connect,arg⟩ .adding)
    (hidle : s.pool.producers[1]? = some .idle) : Turn { s with body := update s.body w .loop } := by
  constructor
  · exact hs.single
  · intro i pc hi hhanded
    obtain ⟨rfl,-⟩ := hs.adding i pc hi hhanded
    obtain rfl := Option.some.inj (hidle.symm.trans hi)
    exact absurd rfl hhanded
  · have hsame : carried (WorkerPc.holds (fun _ => []) fun v => between (update s.body w .loop v)) s.pool.workers =
        carried (WorkerPc.holds (fun _ => []) fun v => between (s.body v)) s.pool.workers := by
      refine carried_update hw.running (holds_others s w _) ?_
      unfold WorkerPc.holds
      dsimp only
      rw [update_self, hw.body]
      rfl
    unfold State.passing
    dsimp only
    rw [hsame]
    exact hs.order

theorem Step.turn {min max : ℤ} {l : Label} (hpool : Pooled min max s) (hs : Turn s) (h : Step s l s') :
    Turn s' := by
  cases h with
  | main hmain hcall => exact hs.main hmain hcall
  | pool hown hstep => exact hs.pool hpool hown hstep
  | busy hw hstep => exact hs.busy hw hstep
  | unbusy hw hstep => exact hs.unbusy hw hstep
  | malloc hw hnew => exact hs.goes hw Body.noConfusion (by rfl) rfl rfl rfl rfl
  | accept hw hfd => exact hs.accept hw _ _
  | refuse hw => exact hs.goes hw Body.noConfusion (by rfl) rfl rfl rfl rfl
  | call hw hcall => exact hs.call hw hcall
  | back hw hidle => exact hs.back hw hidle
  | closeListener hw => exact hs.goes hw Body.noConfusion (by rfl) rfl rfl rfl rfl
  | @read w arg s' hw hread =>
    unfold State.read at hread
    split at hread
    · rw [← Option.some.inj hread]
      exact hs.goes hw Body.noConfusion (by rfl) rfl rfl rfl rfl
    · split at hread
      · rw [← Option.some.inj hread]
        exact hs.goes hw Body.noConfusion (by rfl) rfl rfl rfl rfl
      · cases hread
      · rw [← Option.some.inj hread]
        exact hs.goes hw Body.noConfusion (by rfl) rfl rfl rfl rfl
      · rw [← Option.some.inj hread]
        exact hs.goes hw Body.noConfusion (by rfl) rfl rfl rfl rfl
  | write hw hlen => exact hs.goes hw Body.noConfusion (by rfl) rfl rfl rfl rfl
  | close hw => exact hs.goes hw Body.noConfusion (by rfl) rfl rfl rfl rfl
  | free hw => exact hs.goes hw Body.noConfusion (by rfl) rfl rfl rfl rfl
  | arrive hfd a =>
    refine ⟨hs.single,fun i pc hi hhanded => ?_,hs.order⟩
    obtain ⟨hone,v,arg,hv⟩ := hs.adding i pc hi hhanded
    exact ⟨hone,v,arg,hv.running,hv.body⟩

end Steps

theorem start_turn (taskQ : ℤ → Task) (min max queueSize : ℤ) (info_pp : Addr) (cfd : Addr → Fd) :
    Turn (start taskQ min max queueSize info_pp cfd) := by
  have hworkers {β : Type} (f : Task → List β) (g : ℕ → Task → List β) :
      carried (WorkerPc.holds f g) (List.replicate min.toNat .ready) = [] := by
    refine carried_append (l := []) fun i x hx => ?_
    rw [List.eq_of_mem_replicate hx]
    rfl
  constructor
  · unfold State.listeners
    change List.count () (carried (WorkerPc.holds _ _) (List.replicate min.toNat .ready) ++ [()]) ≤ 1
    rw [hworkers]
    exact le_rfl
  · intro i pc hi hhanded
    have hidle : pc = .idle := List.eq_of_mem_replicate (List.mem_of_getElem? hi)
    rw [hidle] at hhanded
    exact absurd rfl hhanded
  · change [] = carried (WorkerPc.holds _ _) (List.replicate min.toNat .ready)
    rw [hworkers]

/-- The clients are taken up in the order in which they were accepted, none twice, and none is passed over. One
at most is on its way to the queue. -/
theorem run_turns (taskQ : ℤ → Task) {min max queueSize : ℤ} (info_pp : Addr) (cfd : Addr → Fd) (h0 : 0 ≤ min)
    (hle : min ≤ max) (hcap : 1 ≤ queueSize) (ls : List Label) (s : State)
    (h : Run Step (start taskQ min max queueSize info_pp cfd) ls s) :
    s.records = s.pool.taken.flatMap client ++ s.pool.queue.tasks.flatMap client ++ s.passing ∧
      s.passing.length ≤ 1 := by
  have hturn : Pooled min max s ∧ Turn s := by
    refine h.invariant (P := fun s => Pooled min max s ∧ Turn s)
      ⟨start_pooled taskQ info_pp cfd h0 hle hcap,start_turn taskQ min max queueSize info_pp cfd⟩ ?_
    rintro s l s' ⟨hpool,hs⟩ hstep
    exact ⟨hstep.pooled hpool,hstep.turn hpool hs⟩
  refine ⟨?_,hturn.2.passing_le⟩
  have hfifo : s.pool.accepted = s.pool.taken ++ s.pool.queue.tasks := hturn.1.queue.fifo
  rw [hturn.2.order, hfifo, List.flatMap_append]

theorem run_turns_one : ∃ ls s, Run Step (start (fun _ => ⟨0,0⟩) 3 8 100 10 fun _ => 0) ls s ∧
    s.records = [11] ∧
      s.records = s.pool.taken.flatMap client ++ s.pool.queue.tasks.flatMap client ++ s.passing ∧
      s.passing.length ≤ 1 := by
  obtain ⟨steps,s,h,⟨-,-,hrecords⟩,-⟩ := first_client
  exact ⟨_,s,h.run,hrecords,
    run_turns _ 10 _ (by decide) (show (3 : ℤ) ≤ 8 by decide) (by decide) _ s h.run⟩

end ServerKit.Threads.Chat
