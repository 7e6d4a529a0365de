import ServerKit.Lib.Carried
import ServerKit.Lib.Sockets
import ServerKit.Threads.Counts
import ServerKit.Threads.Queue

/-! The server of `threadpool/src3/server2.cpp`. One task of the pool accepts the clients, and every client
is a task of the same pool. -/
namespace ServerKit.Threads.Chat
open Function ServerKit.Lib

abbrev Fd := ℕ

/-- The addresses of the two functions. -/
def connect : Addr := 1
def working : Addr := 2

def BUFFER : ℕ := 1024

/-- Where a worker is in its task. -/
inductive Body
  /-- at the head of the loop of `connect` -/
  | loop
  /-- with a new record, before or in `accept` -/
  | accepting (info_p : Addr)
  /-- before `threadPoolAdd` -/
  | accepted (info_p : Addr)
  /-- in `threadPoolAdd` -/
  | adding
  /-- behind the loop of `connect`, before `close` -/
  | broken
  /-- before or in `read` -/
  | reading
  /-- before or in `write` -/
  | writing (buf : List UInt8)
  /-- behind the loop of `working`, before `close` -/
  | leaving
  /-- behind the function, before `free(task.arg)` -/
  | returned
  | freed
  deriving DecidableEq

/-- Where a function starts. -/
def entry (function : Addr) : Body := if function = working then .reading else .loop

/-- `body w` is where the worker `w` is in the task that it runs. `live` is the memory that the server
has from `malloc`, and `cfd` a field of its records. The last two fields are the records of the clients in the
order of their acceptance, and the records that `connect` has lost. -/
structure State where
  pool : Threads.State
  started : Bool
  body : ℕ → Body
  live : Addr → Bool
  info_pp : Addr
  cfd : Addr → Fd
  conns : Fd → Option Stream
  records : List Addr
  lost : List Addr

/-- Before `main` adds its task. The producers of the pool are `main` and `connect`. -/
def start (taskQ : ℤ → Task) (min max queueSize : ℤ) (info_pp : Addr) (cfd : Addr → Fd) : State where
  pool := Threads.start taskQ min max queueSize 2
  started := false
  body _ := .freed
  live := update (fun _ => false) info_pp true
  info_pp := info_pp
  cfd := cfd
  conns _ := none
  records := []
  lost := []

/-- The steps that the pool makes by itself. Nobody calls `threadPoolDestroy`. -/
def Own : Threads.Action → Prop
  | .call .. | .busy _ | .unbusy _ | .shutdown | .join | .destroySignal | .free => False
  | _ => True

namespace State

/-- `read(info_p->cfd,buf,sizeof(buf))`, unless it has to wait. -/
def read (s : State) (w : ℕ) (info_p : Addr) : Option State :=
  match s.conns (s.cfd info_p) with
  | none => some { s with body := update s.body w .leaving }
  | some stream => match stream.recv BUFFER with
    | (.data bytes,stream) => some { s with
        conns := update s.conns (s.cfd info_p) (some stream), body := update s.body w (.writing bytes) }
    | (.again,_) => none
    | (.closed,stream) | (.failed,stream) => some { s with
        conns := update s.conns (s.cfd info_p) (some stream), body := update s.body w .leaving }

/-- `write(info_p->cfd,buf,len)`, which takes the first `len` bytes. -/
def write (s : State) (w : ℕ) (info_p : Addr) (buf : List UInt8) (len : ℕ) : State :=
  { s with
    conns := update s.conns (s.cfd info_p)
      ((s.conns (s.cfd info_p)).map fun stream => { stream with sent := stream.sent ++ buf.take len })
    body := update s.body w .reading }

end State

inductive Label
  | main
  | pool (a : Threads.Action)
  | busy (w : ℕ)
  | unbusy (w : ℕ)
  | malloc (w : ℕ)
  | accept (w : ℕ)
  | refuse (w : ℕ)
  | call (w : ℕ)
  | back (w : ℕ)
  | closeListener (w : ℕ)
  | read (w : ℕ)
  | write (w len : ℕ)
  | close (w : ℕ)
  | free (w : ℕ)
  | arrive (fd : Fd)

/-- The worker `w` is there in a task. -/
structure In (s : State) (w : ℕ) (task : Task) (body : Body) : Prop where
  running : s.pool.workers[w]? = some (.running task)
  body : s.body w = body

/-- One step of one of the threads, or something that comes from a client. A signal that ends the process ends
the run. -/
inductive Step (s : State) : Label → State → Prop
  | main {pool} (hmain : s.started = false)
      (hcall : Threads.Step s.pool (.call 0 ⟨connect,s.info_pp⟩) pool) :
      Step s .main { s with pool := pool, started := true }
  | pool {a pool} (hown : Own a) (hstep : Threads.Step s.pool a pool) : Step s (.pool a) { s with pool := pool }
  | busy {w task pool} (hw : s.pool.workers[w]? = some (.taken task))
      (hstep : Threads.Step s.pool (.busy w) pool) :
      Step s (.busy w) { s with pool := pool, body := update s.body w (entry task.function) }
  | unbusy {w task pool} (hw : In s w task .freed) (hstep : Threads.Step s.pool (.unbusy w) pool) :
      Step s (.unbusy w) { s with pool := pool }
  | malloc {w arg info_p} (hw : In s w ⟨connect,arg⟩ .loop) (hnew : s.live info_p = false) :
      Step s (.malloc w)
        { s with live := update s.live info_p true, body := update s.body w (.accepting info_p) }
  | accept {w arg info_p fd} (hw : In s w ⟨connect,arg⟩ (.accepting info_p)) (hfd : s.conns fd = none) :
      Step s (.accept w)
        { s with
          cfd := update s.cfd info_p fd, conns := update s.conns fd (some Stream.fresh)
          body := update s.body w (.accepted info_p), records := s.records ++ [info_p] }
  | refuse {w arg info_p} (hw : In s w ⟨connect,arg⟩ (.accepting info_p)) :
      Step s (.refuse w) { s with body := update s.body w .broken, lost := info_p :: s.lost }
  | call {w arg info_p pool} (hw : In s w ⟨connect,arg⟩ (.accepted info_p))
      (hcall : Threads.Step s.pool (.call 1 ⟨working,info_p⟩) pool) :
      Step s (.call w) { s with pool := pool, body := update s.body w .adding }
  | back {w arg} (hw : In s w ⟨connect,arg⟩ .adding) (hidle : s.pool.producers[1]? = some .idle) :
      Step s (.back w) { s with body := update s.body w .loop }
  | closeListener {w arg} (hw : In s w ⟨connect,arg⟩ .broken) :
      Step s (.closeListener w) { s with body := update s.body w .returned }
  | read {w arg s'} (hw : In s w ⟨working,arg⟩ .reading) (hread : s.read w arg = some s') : Step s (.read w) s'
  | write {w arg buf len} (hw : In s w ⟨working,arg⟩ (.writing buf)) (hlen : len ≤ buf.length) :
      Step s (.write w len) (s.write w arg buf len)
  | close {w arg} (hw : In s w ⟨working,arg⟩ .leaving) :
      Step s (.close w)
        { s with conns := update s.conns (s.cfd arg) none, body := update s.body w .returned }
  | free {w task} (hw : In s w task .returned) :
      Step s (.free w) { s with live := update s.live task.arg false, body := update s.body w .freed }
  | arrive {fd stream} (hfd : s.conns fd = some stream) (a : Arrival) :
      Step s (.arrive fd) { s with conns := update s.conns fd (some (stream.receive a)) }

/-- Nobody but the destroy function moves it. -/
theorem destroyer_eq {p p' : Threads.State} {a : Threads.Action} (h : Threads.Step p a p')
    (ha : ¬ DestroyStep p a p') : p'.destroyer = p.destroyer := by
  cases h with
  | worker hpool h =>
    obtain ⟨-,-,-,-,-,-,-,hsame⟩ := h.move
    exact hsame
  | producer hpool h => exact h.destroyer_eq
  | manager hpool h => exact h.destroyer_eq
  | destroyer h => exact absurd h ha

/-- Without the server every step is a step of the pool, or none. -/
theorem Step.pool_step {s s' : State} {l : Label} (h : Step s l s') :
    s'.pool = s.pool ∨ ∃ a, Threads.Step s.pool a s'.pool ∧ s'.pool.destroyer = s.pool.destroyer := by
  cases h with
  | main hmain hcall => exact .inr ⟨_,hcall,destroyer_eq hcall fun h => by cases h⟩
  | pool hown hstep => exact .inr ⟨_,hstep,destroyer_eq hstep fun h => by cases h <;> exact hown⟩
  | busy hw hstep => exact .inr ⟨_,hstep,destroyer_eq hstep fun h => by cases h⟩
  | unbusy hw hstep => exact .inr ⟨_,hstep,destroyer_eq hstep fun h => by cases h⟩
  | call hw hcall => exact .inr ⟨_,hcall,destroyer_eq hcall fun h => by cases h⟩
  | malloc | accept | refuse | back | closeListener | write | close | free | arrive => exact .inl rfl
  | @read w arg s' hw hread =>
    left
    unfold State.read at hread
    split at hread
    · rw [← Option.some.inj hread]
    · split at hread
      · rw [← Option.some.inj hread]
      · cases hread
      · rw [← Option.some.inj hread]
      · rw [← Option.some.inj hread]

/-- The pool is in order: its queue, its counters, and nobody destroys it. -/
structure Pooled (min max : ℤ) (s : State) : Prop where
  queue : s.pool.queue.Valid
  counted : Counted min max s.pool.pool s.pool.workers
  idle : s.pool.destroyer = .idle

theorem Step.pooled {min max : ℤ} {s s' : State} {l : Label} (hs : Pooled min max s) (h : Step s l s') :
    Pooled min max s' := by
  obtain hsame | ⟨a,hstep,hsame⟩ := h.pool_step
  · obtain ⟨hqueue,hcounted,hidle⟩ := hs
    rw [← hsame] at hqueue hcounted hidle
    exact ⟨hqueue,hcounted,hidle⟩
  · have hidle := hsame.trans hs.idle
    exact ⟨(hstep.queue.valid hs.queue).1,hstep.counted hidle fun _ => hs.counted,hidle⟩

theorem start_pooled (taskQ : ℤ → Task) {min max queueSize : ℤ} (info_pp : Addr) (cfd : Addr → Fd)
    (h0 : 0 ≤ min) (hle : min ≤ max) (hcap : 1 ≤ queueSize) :
    Pooled min max (start taskQ min max queueSize info_pp cfd) where
  queue := start_valid taskQ min max 2 hcap
  counted := .start taskQ queueSize h0 hle
  idle := rfl

/-- A run in which a client is accepted, sends a byte and gets it back. -/
theorem first_client : ∃ steps s, Trace Step (start (fun _ => ⟨0,0⟩) 3 8 100 10 fun _ => 0) steps s ∧
    (In s 0 ⟨connect,10⟩ .adding ∧ In s 1 ⟨working,11⟩ .reading ∧ s.records = [11]) ∧
    (∃ stream, s.conns 5 = some stream ∧ stream.sent = [72]) ∧
    (∀ x ∈ steps, ∀ w len buf, x.2 = .write w len → x.1.body w = .writing buf → len = buf.length) ∧
    ∀ x ∈ steps, x.1.pool.pool.queueSize ≤ 3 := by
  have h₀ : Trace Step (start (fun _ => ⟨0,0⟩) 3 8 100 10 fun _ => 0) [] _ := .nil
  have h₁ := h₀.snoc (l := .main) (.main rfl (.producer (by decide) (.call rfl)))
  have h₂ := h₁.snoc
    (.pool (a := .add 0) trivial (.producer (by decide) (.add rfl (.added (.lost (by decide))))))
  have h₃ := h₂.snoc
    (.pool (a := .lock 0) trivial (.worker (by decide) (.lock rfl (.take (.lost (by decide))))))
  have h₄ := h₃.snoc (l := .busy 0) (.busy rfl (.worker (by decide) (.busy rfl)))
  have h₅ := h₄.snoc (l := .malloc 0) (.malloc ⟨rfl,rfl⟩ (show State.live _ 11 = false from rfl))
  have h₆ := h₅.snoc (l := .accept 0) (.accept ⟨rfl,rfl⟩ (show State.conns _ 5 = none from rfl))
  have h₇ := h₆.snoc (l := .call 0) (.call ⟨rfl,rfl⟩ (.producer (by decide) (.call rfl)))
  have h₈ := h₇.snoc
    (.pool (a := .add 1) trivial (.producer (by decide) (.add rfl (.added (.lost (by decide))))))
  have h₉ := h₈.snoc
    (.pool (a := .lock 1) trivial (.worker (by decide) (.lock rfl (.take (.lost (by decide))))))
  have h₁₀ := h₉.snoc (l := .busy 1) (.busy rfl (.worker (by decide) (.busy rfl)))
  have h₁₁ := h₁₀.snoc (l := .arrive 5) (.arrive (show State.conns _ 5 = some Stream.fresh from rfl) (.bytes [72]))
  have h₁₂ := h₁₁.snoc (l := .read 1) (.read ⟨rfl,rfl⟩ rfl)
  have h₁₃ := h₁₂.snoc (l := .write 1 1) (.write ⟨rfl,rfl⟩ (by decide))
  refine ⟨_,_,h₁₃,⟨⟨rfl,rfl⟩,⟨rfl,rfl⟩,rfl⟩,⟨_,rfl,rfl⟩,?_,?_⟩
  · simp only [List.forall_mem_append, List.forall_mem_singleton, List.not_mem_nil, false_imp_iff, implies_true,
      reduceCtorEq, true_and]
    rintro w len buf ⟨⟩ ⟨⟩
    rfl
  · simp only [List.forall_mem_append, List.forall_mem_singleton, List.not_mem_nil, false_imp_iff, implies_true,
      true_and]
    decide

end ServerKit.Threads.Chat
