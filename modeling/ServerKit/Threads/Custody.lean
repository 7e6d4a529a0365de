import ServerKit.Threads.Tally

/-! Who has the memory and the connections of the chat server. Every block and every open descriptor is
with one thread or with one task of the queue. -/
namespace ServerKit.Threads.Chat
open Function ServerKit.Lib

/-- The memory that a worker has in its task. -/
def owns (body : Body) (task : Task) : List Addr :=
  match body with
  | .freed => []
  | .accepting info_p | .accepted info_p => [task.arg,info_p]
  | _ => [task.arg]

/-- The record of the client that comes with a task. -/
def client (task : Task) : List Addr := if task.function = working then [task.arg] else []

/-- The record whose descriptor a worker has open. -/
def serves (body : Body) (task : Task) : List Addr :=
  match body with
  | .returned | .freed => []
  | .accepted info_p => if task.function = working then [task.arg] else [info_p]
  | _ => client task

def State.tally {β : Type} (s : State) (f : Task → List β) (g : Body → Task → List β) : List β :=
  s.pool.shared f fun w => g (s.body w)

namespace State
variable (s : State)

/-- All memory that somebody has; that of a lost record nobody frees. -/
def memory : List Addr :=
  s.tally (fun task => [task.arg]) owns ++ s.lost ++ (if s.started then [] else [s.info_pp])

/-- The records of the open connections. -/
def clients : List Addr := s.tally client serves

end State

/-- Each block is with one owner, and each open descriptor too. -/
structure Kept (s : State) : Prop where
  memory : ∀ p, s.memory.count p = (s.live p).toNat
  clients : ∀ fd, (s.clients.map s.cfd).count fd = (s.conns fd).isSome.toNat

section Tally
variable {β : Type} {f : Task → List β} {g : Body → Task → List β} {s : State} {w : ℕ} {task : Task}
  {body : Body}

theorem others (s : State) (w : ℕ) (body : Body) (g : Body → Task → List β) :
    ∀ v, v ≠ w → g (update s.body w body v) = g (s.body v) :=
  fun v hv => by rw [update_of_ne hv]

variable [DecidableEq β]

/-- A worker goes on in its task. -/
theorem In.count_tally (hw : In s w task body) (body' : Body) (b : β) :
    (s.pool.shared f fun v => g (update s.body w body' v)).count b+(g body task).count b =
      (s.tally f g).count b+(g body' task).count b := by
  have hcount := count_shared_update (f := f) hw.running (others s w body' g) b
  rwa [update_self, hw.body] at hcount

/-- It goes on and holds the same. -/
theorem In.same_tally (hw : In s w task body) (body' : Body) (hsame : g body' task = g body task) (b : β) :
    (s.pool.shared f fun v => g (update s.body w body' v)).count b = (s.tally f g).count b := by
  have hcount := hw.count_tally (f := f) (g := g) body' b
  rw [hsame] at hcount
  omega

end Tally

section Lists
variable {α β : Type} [DecidableEq α] [DecidableEq β] {l l' : List α} {x : α}

theorem count_map_eq (h : ∀ b, l'.count b = l.count b) (f : α → β) (c : β) :
    (l'.map f).count c = (l.map f).count c :=
  ((List.perm_iff_count.mpr h).map f).count_eq c

theorem count_map_cons (h : ∀ b, l'.count b = l.count b+[x].count b) (f : α → β) (c : β) :
    (l'.map f).count c = (l.map f).count c+[f x].count c := by
  have hperm : l'.Perm (l ++ [x]) := List.perm_iff_count.mpr fun b => by rw [h, List.count_append]
  rw [(hperm.map f).count_eq c, List.map_append, List.count_append]
  rfl

end Lists

/-- An open connection has its record, so its record is held. -/
theorem clients_le_memory (s : State) (p : Addr) : s.clients.count p ≤ s.memory.count p := by
  have hclient (task : Task) : (client task).count p ≤ [task.arg].count p := by
    unfold client
    split
    · exact le_rfl
    · exact Nat.zero_le _
  have hle := count_shared_le (s := s.pool) (f := client) (F := fun task => [task.arg])
    (g := fun w => serves (s.body w)) (G := fun w => owns (s.body w)) p hclient fun w task => by
      cases s.body w with
      | returned | freed => exact Nat.zero_le _
      | accepting info_p => exact (hclient task).trans (List.Sublist.count_le p (by simp [owns]))
      | accepted info_p =>
        unfold serves owns
        dsimp only
        split <;> simp [List.count_cons]
      | loop | adding | broken | reading | writing | leaving => exact hclient task
  unfold State.clients State.memory
  simp only [List.count_append]
  unfold State.tally
  omega

section Steps
variable {s s' : State}

theorem Kept.same (hs : Kept s) (hmemory : ∀ p, s'.memory.count p = s.memory.count p)
    (hclients : ∀ p, s'.clients.count p = s.clients.count p) (hlive : s'.live = s.live)
    (hcfd : s'.cfd = s.cfd) (hconns : ∀ fd, (s'.conns fd).isSome = (s.conns fd).isSome) : Kept s' where
  memory p := by rw [hmemory, hlive, hs.memory]
  clients fd := by rw [hcfd, count_map_eq hclients, hconns, hs.clients]

/-- A worker that goes on and holds the same. -/
theorem Kept.goes (hs : Kept s) {w : ℕ} {task : Task} {body body' : Body} (hw : In s w task body)
    (howns : owns body' task = owns body task) (hserves : serves body' task = serves body task)
    {conns : Fd → Option Stream} (hconns : ∀ fd, (conns fd).isSome = (s.conns fd).isSome) :
    Kept { s with conns := conns, body := update s.body w body' } := by
  refine hs.same (fun p => ?_) (fun p => ?_) rfl rfl hconns
  · have hcount := hw.same_tally (f := fun task => [task.arg]) body' howns p
    unfold State.memory State.tally
    simp only [List.count_append]
    unfold State.tally at hcount
    omega
  · exact hw.same_tally body' hserves p

/-- A new record. -/
theorem Kept.malloc (hs : Kept s) {w : ℕ} {arg info_p : Addr} (hw : In s w ⟨connect,arg⟩ .loop)
    (hnew : s.live info_p = false) :
    Kept { s with live := update s.live info_p true, body := update s.body w (.accepting info_p) } where
  memory p := by
    have hcount := hw.count_tally (f := fun task => [task.arg]) (g := owns) (.accepting info_p) p
    have hmemory := hs.memory p
    unfold State.memory State.tally at hmemory ⊢
    unfold State.tally at hcount
    simp only [List.count_append, owns] at hmemory hcount ⊢
    obtain rfl | hne := eq_or_ne p info_p
    · rw [update_self]
      rw [hnew] at hmemory
      simp only [List.count_cons, List.count_nil, beq_self_eq_true, if_true, Bool.toNat_false,
        Bool.toNat_true] at hmemory hcount ⊢
      omega
    · rw [update_of_ne hne]
      simp only [List.count_cons, List.count_nil, beq_eq_false_iff_ne.mpr (Ne.symm hne),
        Bool.false_eq_true, if_false] at hmemory hcount ⊢
      omega
  clients fd := by
    have hsame (p : Addr) : (s.pool.shared client fun v =>
        serves (update s.body w (.accepting info_p) v)).count p = s.clients.count p :=
      hw.same_tally (f := client) (g := serves) (.accepting info_p) rfl p
    rw [← hs.clients fd]
    exact count_map_eq hsame _ _

/-- A record gets its descriptor, which it did not have before. -/
theorem Kept.accept (hs : Kept s) {w : ℕ} {arg info_p : Addr} {fd : Fd}
    (hw : In s w ⟨connect,arg⟩ (.accepting info_p)) (hfd : s.conns fd = none) (stream : Stream)
    (records : List Addr) : Kept
      { s with
        cfd := update s.cfd info_p fd, conns := update s.conns fd (some stream)
        body := update s.body w (.accepted info_p), records := records } := by
  have hmemory (p : Addr) := hw.same_tally (f := fun task => [task.arg]) (g := owns)
    (.accepted info_p) rfl p
  have hclients (p : Addr) : (s.pool.shared client fun v =>
      serves (update s.body w (.accepted info_p) v)).count p = s.clients.count p+[info_p].count p :=
    hw.count_tally (f := client) (g := serves) (.accepted info_p) p
  constructor
  · intro p
    rw [← hs.memory p]
    unfold State.memory State.tally
    unfold State.tally at hmemory
    simp only [List.count_append, hmemory]
  · intro fd'
    have hout : info_p ∉ s.clients := by
      intro hmem
      have hpos := List.count_pos_iff.mpr hmem
      have hle := clients_le_memory { s with body := update s.body w (.accepted info_p) } info_p
      have hlive := hs.memory info_p
      have hone := Bool.toNat_le (s.live info_p)
      have hclients := hclients info_p
      have hmemory := hmemory info_p
      unfold State.memory State.clients State.tally at *
      simp only [List.count_append, List.count_singleton_self] at *
      omega
    have hsame : s.clients.map (update s.cfd info_p fd) = s.clients.map s.cfd := by
      refine List.map_congr_left fun p hp => update_of_ne ?_ ..
      rintro rfl
      exact hout hp
    have hmap := count_map_cons hclients (update s.cfd info_p fd) fd'
    rw [hsame, hs.clients, update_self] at hmap
    refine hmap.trans ?_
    dsimp only
    obtain rfl | hne := eq_or_ne fd' fd
    · rw [update_self, hfd, List.count_singleton_self]
      rfl
    · rw [update_of_ne hne, List.count_singleton, beq_eq_false_iff_ne.mpr (Ne.symm hne)]
      rfl

/-- A connection is closed, which is no other record's. -/
theorem Kept.close (hs : Kept s) {w : ℕ} {arg : Addr} (hw : In s w ⟨working,arg⟩ .leaving) :
    Kept { s with conns := update s.conns (s.cfd arg) none, body := update s.body w .returned } := by
  have hclients (p : Addr) : s.clients.count p = (s.pool.shared client fun v =>
      serves (update s.body w .returned v)).count p+[arg].count p :=
    (hw.count_tally (f := client) (g := serves) .returned p).symm
  constructor
  · intro p
    have hmemory := hw.same_tally (f := fun task => [task.arg]) (g := owns) .returned rfl p
    rw [← hs.memory p]
    unfold State.memory State.tally
    unfold State.tally at hmemory
    simp only [List.count_append, hmemory]
  · intro fd
    have hmap := count_map_cons hclients s.cfd fd
    rw [hs.clients] at hmap
    have hone := Bool.toNat_le (s.conns fd).isSome
    unfold State.clients State.tally
    dsimp only
    obtain rfl | hne := eq_or_ne fd (s.cfd arg)
    · rw [List.count_singleton_self] at hmap
      rw [update_self]
      change _ = 0
      omega
    · rw [List.count_singleton, beq_eq_false_iff_ne.mpr (Ne.symm hne)] at hmap
      rw [update_of_ne hne]
      exact hmap.symm

/-- What a task came with is freed. -/
theorem Kept.free (hs : Kept s) {w : ℕ} {task : Task} (hw : In s w task .returned) :
    Kept { s with live := update s.live task.arg false, body := update s.body w .freed } := by
  constructor
  · intro p
    have hcount := hw.count_tally (f := fun task => [task.arg]) (g := owns) .freed p
    have hmemory := hs.memory p
    have hone := Bool.toNat_le (s.live p)
    unfold State.memory State.tally at *
    simp only [List.count_append, owns, List.count_nil] at hmemory hcount ⊢
    obtain rfl | hne := eq_or_ne p task.arg
    · rw [update_self]
      rw [List.count_singleton_self] at hcount
      simp only [Bool.toNat_false]
      omega
    · rw [update_of_ne hne]
      rw [List.count_singleton, beq_eq_false_iff_ne.mpr (Ne.symm hne)] at hcount
      simp only [Bool.false_eq_true, if_false] at hcount
      omega
  · intro fd
    have hsame (p : Addr) : (s.pool.shared client fun v =>
        serves (update s.body w .freed v)).count p = s.clients.count p :=
      hw.same_tally (f := client) (g := serves) .freed rfl p
    rw [← hs.clients fd]
    exact count_map_eq hsame _ _

/-- What the pool does by itself. -/
theorem Kept.pool (hs : Kept s) {min max : ℤ} (hpool : Pooled min max s) {a : Threads.Action}
    {pool : Threads.State} (hown : Own a) (hstep : Threads.Step s.pool a pool) :
    Kept { s with pool := pool } := by
  refine hs.same (fun p => ?_) (fun p => ?_) rfl rfl fun _ => rfl
  · have hcount := hstep.count_shared (f := fun task => [task.arg]) (g := fun w => owns (s.body w))
      hpool.queue hpool.counted.running hown p
    unfold State.memory State.tally
    simp only [List.count_append, hcount]
  · exact hstep.count_shared hpool.queue hpool.counted.running hown p

/-- A task that somebody adds brings its memory, and a client if it is one. -/
theorem Kept.add (hs : Kept s) {p : ℕ} {task : Task} {pool : Threads.State} {body : ℕ → Body}
    (hcall : Threads.Step s.pool (.call p task) pool) (lost : List Addr) (started : Bool)
    (records : List Addr)
    (hmemory : ∀ x, (s.pool.shared (fun task => [task.arg]) fun w => owns (body w)).count x+
      (lost ++ if started then [] else [s.info_pp]).count x+[task.arg].count x = s.memory.count x)
    (hclients : ∀ x, (s.pool.shared client fun w => serves (body w)).count x+(client task).count x =
      s.clients.count x) :
    Kept { s with pool := pool, body := body, lost := lost, started := started, records := records } := by
  refine hs.same (fun x => ?_) (fun x => ?_) rfl rfl fun _ => rfl
  · have hcount := hcall.count_call (f := fun task => [task.arg]) (g := fun w => owns (body w)) x
    have hmemory := hmemory x
    unfold State.memory State.tally at *
    simp only [List.count_append] at *
    omega
  · have hcount := hcall.count_call (f := client) (g := fun w => serves (body w)) x
    exact hcount.trans (hclients x)

theorem serves_entry (task : Task) : serves (entry task.function) task = client task := by
  unfold entry
  split
  · rfl
  · rfl

theorem owns_entry (task : Task) : owns (entry task.function) task = [task.arg] := by
  unfold entry
  split
  · rfl
  · rfl

theorem Step.kept {min max : ℤ} {l : Label} (hpool : Pooled min max s) (hs : Kept s) (h : Step s l s') :
    Kept s' := by
  cases h with
  | @main pool hmain hcall =>
    refine hs.add hcall s.lost true s.records (fun x => ?_) fun x => ?_
    · unfold State.memory State.tally
      rw [hmain, if_pos rfl]
      simp only [List.count_append, List.count_nil, Bool.false_eq_true, if_false]
      omega
    · exact Nat.add_zero _
  | pool hown hstep => exact hs.pool hpool hown hstep
  | @busy w task pool hw hstep =>
    have hcount {f : Task → List Addr} {g : Body → Task → List Addr}
        (hentry : g (entry task.function) task = f task) (x : Addr) :
        (pool.shared f fun v => g (update s.body w (entry task.function) v)).count x =
          (s.tally f g).count x := by
      have hbusy := hstep.count_busy (f := f) hw (others s w (entry task.function) g) x
      rw [update_self, hentry] at hbusy
      exact Nat.add_right_cancel hbusy
    refine hs.same (fun x => ?_) (hcount (serves_entry task)) rfl rfl fun _ => rfl
    have hmemory := hcount (f := fun task => [task.arg]) (owns_entry task) x
    unfold State.memory State.tally at *
    simp only [List.count_append, hmemory]
  | @unbusy w task pool hw hstep =>
    have hcount {f : Task → List Addr} {g : Body → Task → List Addr} (hfreed : g .freed task = [])
        (x : Addr) : (pool.shared f fun v => g (s.body v)).count x = (s.tally f g).count x := by
      have hunbusy := hstep.count_unbusy (f := f) (g := fun v => g (s.body v)) hw.running x
      rwa [hw.body, hfreed] at hunbusy
    refine hs.same (fun x => ?_) (hcount rfl) rfl rfl fun _ => rfl
    have hmemory := hcount (f := fun task => [task.arg]) (g := owns) rfl x
    unfold State.memory State.tally at *
    simp only [List.count_append, hmemory]
  | malloc hw hnew => exact hs.malloc hw hnew
  | accept hw hfd => exact hs.accept hw hfd _ _
  | @refuse w arg info_p hw =>
    refine hs.same (fun x => ?_) (hw.same_tally .broken rfl) rfl rfl fun _ => rfl
    have hcount := hw.count_tally (f := fun task => [task.arg]) (g := owns) .broken x
    unfold State.memory State.tally at *
    simp only [List.count_append, List.count_cons, List.count_nil, owns] at hcount ⊢
    omega
  | @call w arg info_p pool hw hcall =>
    refine hs.add hcall s.lost s.started s.records (fun x => ?_) fun x => ?_
    · have hcount := hw.count_tally (f := fun task => [task.arg]) (g := owns) .adding x
      unfold State.memory State.tally at *
      simp only [List.count_append, List.count_cons, List.count_nil, owns] at hcount ⊢
      omega
    · exact hw.count_tally (f := client) (g := serves) .adding x
  | back hw hidle => exact hs.goes hw (by rfl) (by rfl) fun _ => rfl
  | closeListener hw => exact hs.goes hw (by rfl) (by rfl) fun _ => rfl
  | @read w arg s' hw hread =>
    have hsome {stream stream' : Stream} (hfd : s.conns (s.cfd arg) = some stream) (fd : Fd) :
        (update s.conns (s.cfd arg) (some stream') fd).isSome = (s.conns fd).isSome := by
      obtain rfl | hne := eq_or_ne fd (s.cfd arg)
      · rw [update_self, hfd]
        rfl
      · rw [update_of_ne hne]
    unfold State.read at hread
    split at hread
    · rw [← Option.some.inj hread]
      exact hs.goes hw (by rfl) (by rfl) fun _ => rfl
    · next hfd =>
      split at hread
      · rw [← Option.some.inj hread]
        exact hs.goes hw (by rfl) (by rfl) (hsome hfd)
      · cases hread
      · rw [← Option.some.inj hread]
        exact hs.goes hw (by rfl) (by rfl) (hsome hfd)
      · rw [← Option.some.inj hread]
        exact hs.goes hw (by rfl) (by rfl) (hsome hfd)
  | @write w arg buf len hw hlen =>
    unfold State.write
    refine hs.goes hw (by rfl) (by rfl) fun fd => ?_
    obtain rfl | hne := eq_or_ne fd (s.cfd arg)
    · rw [update_self, Option.isSome_map]
    · rw [update_of_ne hne]
  | close hw => exact hs.close hw
  | free hw => exact hs.free hw
  | @arrive fd stream hfd a =>
    refine hs.same (fun _ => rfl) (fun _ => rfl) rfl rfl fun fd' => ?_
    dsimp only
    obtain rfl | hne := eq_or_ne fd' fd
    · rw [update_self, hfd]
      rfl
    · rw [update_of_ne hne]

end Steps

theorem start_kept (taskQ : ℤ → Task) (min max queueSize : ℤ) (info_pp : Addr) (cfd : Addr → Fd) :
    Kept (start taskQ min max queueSize info_pp cfd) := by
  have hnone (f : Task → List Addr) (g : ℕ → Task → List Addr) :
      (Threads.start taskQ min max queueSize 2).shared f g = [] := by
    have hworkers : carried (WorkerPc.holds f g) (List.replicate min.toNat .ready) = [] := by
      refine carried_append (l := []) fun i x hx => ?_
      rw [List.eq_of_mem_replicate hx]
      rfl
    exact hworkers
  constructor
  · intro p
    unfold State.memory State.tally
    change List.count p ((Threads.start taskQ min max queueSize 2).shared _ _ ++ [] ++ [info_pp]) = _
    rw [hnone, List.nil_append, List.nil_append, List.count_singleton]
    obtain rfl | hne := eq_or_ne p info_pp
    · simp [start]
    · simp [start,hne,Ne.symm hne]
  · intro fd
    unfold State.clients State.tally
    change List.count fd (((Threads.start taskQ min max queueSize 2).shared _ _).map cfd) = _
    rw [hnone]
    rfl

/-- No two owners have the same block, and the blocks that somebody has are those that are allocated; and the
same for the descriptors. -/
structure Owned (s : State) : Prop where
  memory : s.memory.Nodup
  live : ∀ p, s.live p = true ↔ p ∈ s.memory
  clients : (s.clients.map s.cfd).Nodup
  conns : ∀ fd, (s.conns fd).isSome = true ↔ ∃ p ∈ s.clients, s.cfd p = fd

/-- What this means for the code that runs. -/
structure Sound (s : State) : Prop where
  /-- A worker reads and frees no memory that is freed. -/
  task : ∀ w task body, In s w task body → body ≠ .freed → s.live task.arg = true
  alone : ∀ v w task task' body body', In s v task body → In s w task' body' → body ≠ .freed →
    body' ≠ .freed → task.arg = task'.arg → v = w
  /-- A client that is served is connected, and nobody else is served over its descriptor. -/
  served : ∀ w p body, In s w ⟨working,p⟩ body → body ≠ .returned → body ≠ .freed →
    (s.conns (s.cfd p)).isSome = true
  apart : ∀ v w p q body body', In s v ⟨working,p⟩ body → In s w ⟨working,q⟩ body' → body ≠ .returned →
    body ≠ .freed → body' ≠ .returned → body' ≠ .freed → s.cfd p = s.cfd q → v = w

section Owned
variable {s : State}

theorem Kept.owned (hs : Kept s) : Owned s where
  memory := List.nodup_iff_count_le_one.mpr fun p => (hs.memory p).trans_le (Bool.toNat_le _)
  live p := by
    rw [← List.count_pos_iff, hs.memory]
    cases s.live p <;> decide
  clients := List.nodup_iff_count_le_one.mpr fun fd => (hs.clients fd).trans_le (Bool.toNat_le _)
  conns fd := by
    rw [← List.mem_map, ← List.count_pos_iff, hs.clients]
    cases (s.conns fd).isSome <;> decide

theorem In.mem_carried {β : Type} {w : ℕ} {task : Task} {body : Body} (hw : In s w task body)
    (f : Task → List β) {g : Body → Task → List β} {b : β} (hb : b ∈ g body task) :
    s.pool.workers[w]? = some (.running task) ∧
      b ∈ (WorkerPc.running task).holds f (fun w => g (s.body w)) w := by
  refine ⟨hw.running,?_⟩
  rw [← hw.body] at hb
  exact hb

/-- Two workers that have the same are one worker. -/
theorem In.alone {f : Task → List Addr} {g : Body → Task → List Addr} {v w : ℕ} {task task' : Task}
    {body body' : Body} {b : Addr} (hv : In s v task body) (hw : In s w task' body') (hb : b ∈ g body task)
    (hb' : b ∈ g body' task') (hle : (s.tally f g).count b ≤ 1) : v = w := by
  obtain ⟨hv,hb⟩ := hv.mem_carried f hb
  obtain ⟨hw,hb'⟩ := hw.mem_carried f hb'
  refine carried_alone hv hb hw hb' (le_trans ?_ hle)
  unfold State.tally Threads.State.shared
  simp only [List.count_append]
  omega

theorem mem_owns {body : Body} {task : Task} (hbody : body ≠ .freed) : task.arg ∈ owns body task := by
  cases body with
  | freed => exact absurd rfl hbody
  | loop | accepting | accepted | adding | broken | reading | writing | leaving | returned =>
    exact List.mem_cons_self

theorem mem_serves {body : Body} {p : Addr} (hreturned : body ≠ .returned) (hfreed : body ≠ .freed) :
    p ∈ serves body ⟨working,p⟩ := by
  cases body with
  | returned => exact absurd rfl hreturned
  | freed => exact absurd rfl hfreed
  | loop | accepting | accepted | adding | broken | reading | writing | leaving => exact List.mem_cons_self

theorem In.mem_tally {β : Type} {w : ℕ} {task : Task} {body : Body} (hw : In s w task body)
    {f : Task → List β} {g : Body → Task → List β} {b : β} (hb : b ∈ g body task) : b ∈ s.tally f g := by
  obtain ⟨hw,hb⟩ := hw.mem_carried f hb
  exact List.mem_append_right _ (Lib.mem_carried hw hb)

theorem Kept.sound (hs : Kept s) : Sound s where
  task w task body hw hbody :=
    (hs.owned.live _).mpr (List.mem_append_left _ (List.mem_append_left _ (hw.mem_tally (mem_owns hbody))))
  alone v w task task' body body' hv hw hbody hbody' harg := by
    refine hv.alone (f := fun task => [task.arg]) hw (mem_owns hbody) (harg ▸ mem_owns hbody') ?_
    have hle := List.nodup_iff_count_le_one.mp hs.owned.memory task.arg
    unfold State.memory at hle
    simp only [List.count_append] at hle
    omega
  served w p body hw hreturned hfreed :=
    (hs.owned.conns _).mpr ⟨p,hw.mem_tally (mem_serves hreturned hfreed),rfl⟩
  apart v w p q body body' hv hw hreturned hfreed hreturned' hfreed' hsame := by
    -- one descriptor is that of one record, which one worker has
    have hp : p ∈ s.clients := hv.mem_tally (mem_serves hreturned hfreed)
    have hq : q ∈ s.clients := hw.mem_tally (mem_serves hreturned' hfreed')
    obtain rfl : p = q := List.inj_on_of_nodup_map hs.owned.clients hp hq hsame
    exact hv.alone hw (mem_serves hreturned hfreed) (mem_serves hreturned' hfreed')
      (List.nodup_iff_count_le_one.mp hs.owned.clients.of_map p)

end Owned

/-- Whatever the threads of the chat server do, each block of memory and each connection has one owner. -/
theorem run_owned (taskQ : ℤ → Task) {min max queueSize : ℤ} (info_pp : Addr) (cfd : Addr → Fd) (h0 : 0 ≤ min)
    (hle : min ≤ max) (hcap : 1 ≤ queueSize) (ls : List Label) (s : State)
    (h : Run Step (start taskQ min max queueSize info_pp cfd) ls s) : Owned s ∧ Sound s := by
  have hkept : Pooled min max s ∧ Kept s := by
    refine h.invariant (P := fun s => Pooled min max s ∧ Kept s)
      ⟨start_pooled taskQ info_pp cfd h0 hle hcap,start_kept taskQ min max queueSize info_pp cfd⟩ ?_
    rintro s l s' ⟨hpool,hs⟩ hstep
    exact ⟨hstep.pooled hpool,hstep.kept hpool hs⟩
  exact ⟨hkept.2.owned,hkept.2.sound⟩

theorem run_owned_one : ∃ ls s, Run Step (start (fun _ => ⟨0,0⟩) 3 8 100 10 fun _ => 0) ls s ∧
    In s 1 ⟨working,11⟩ .reading ∧ Owned s ∧ Sound s := by
  obtain ⟨steps,s,h,⟨-,hin,-⟩,-⟩ := first_client
  exact ⟨_,s,h.run,hin,run_owned _ 10 _ (by decide) (show (3 : ℤ) ≤ 8 by decide) (by decide) _ s h.run⟩

end ServerKit.Threads.Chat
