import ServerKit.Threads.Turns

/-! What the clients of the chat server hear. Each connection is with one worker, so the answers do not
mix. -/
namespace ServerKit.Threads.Chat
open Function ServerKit.Lib

/-- The worker `w` answers `buf` to the client of the record `p`. -/
abbrev Writes (s : State) (w : ℕ) (p : Addr) (buf : List UInt8) : Prop := In s w ⟨working,p⟩ (.writing buf)

/-- `R` holds between what was sent and what was received, without the bytes that are being answered. -/
structure Spoken (R : List UInt8 → List UInt8 → Prop) (s : State) : Prop where
  quiet : ∀ fd stream, s.conns fd = some stream → (∀ w p buf, Writes s w p buf → s.cfd p ≠ fd) →
    R stream.sent stream.received
  written : ∀ w p buf stream, Writes s w p buf → s.conns (s.cfd p) = some stream →
    ∃ earlier, stream.received = earlier ++ buf ∧ R stream.sent earlier

section Spoken
variable {R : List UInt8 → List UInt8 → Prop} {s s' : State} {w : ℕ} {task : Task} {body : Body}

/-- Nobody starts or ends to answer. -/
theorem Spoken.same (hs : Spoken R s) (hwrites : ∀ w p buf, Writes s' w p buf ↔ Writes s w p buf)
    (hconns : s'.conns = s.conns) (hcfd : s'.cfd = s.cfd) : Spoken R s' where
  quiet fd stream hfd hnone := by
    rw [hconns] at hfd
    refine hs.quiet fd stream hfd fun w p buf hw => ?_
    rw [← hcfd]
    exact hnone w p buf ((hwrites w p buf).mpr hw)
  written w p buf stream hw hfd := by
    rw [hconns, hcfd] at hfd
    exact hs.written w p buf stream ((hwrites w p buf).mp hw) hfd

/-- A worker goes on and does not answer before or after. -/
theorem In.writes (hw : In s w task body) (hbody : ∀ buf, body ≠ .writing buf) (body' : Body)
    (hbody' : ∀ buf, body' ≠ .writing buf) (hworkers : s'.pool.workers = s.pool.workers)
    (hupdate : s'.body = update s.body w body') (v : ℕ) (p : Addr) (buf : List UInt8) :
    Writes s' v p buf ↔ Writes s v p buf := by
  obtain rfl | hne := eq_or_ne v w
  · constructor
    · rintro ⟨-,hv⟩
      rw [hupdate, update_self] at hv
      exact absurd hv (hbody' buf)
    · rintro ⟨-,hv⟩
      exact absurd (hw.body.symm.trans hv) (hbody buf)
  · have hsame : s'.body v = s.body v := by rw [hupdate, update_of_ne hne]
    constructor
    · rintro ⟨hv,hv'⟩
      exact ⟨hworkers ▸ hv,hsame ▸ hv'⟩
    · rintro ⟨hv,hv'⟩
      exact ⟨hworkers ▸ hv,hsame ▸ hv'⟩

theorem Spoken.goes (hs : Spoken R s) (hw : In s w task body) (hbody : ∀ buf, body ≠ .writing buf)
    (body' : Body) (hbody' : ∀ buf, body' ≠ .writing buf) (hworkers : s'.pool.workers = s.pool.workers)
    (hupdate : s'.body = update s.body w body') (hconns : s'.conns = s.conns) (hcfd : s'.cfd = s.cfd) :
    Spoken R s' :=
  hs.same (hw.writes hbody body' hbody' hworkers hupdate) hconns hcfd

/-- A worker that does not answer has another client than one that does. -/
theorem Sound.other (h : Sound s) {v : ℕ} {p q : Addr} {buf : List UInt8} (hv : Writes s v p buf)
    (hw : In s w ⟨working,q⟩ body) (hbody : ∀ buf, body ≠ .writing buf) (hreturned : body ≠ .returned)
    (hfreed : body ≠ .freed) : s.cfd p ≠ s.cfd q := by
  intro hsame
  obtain rfl := h.apart v w p q _ _ hv hw Body.noConfusion Body.noConfusion hreturned hfreed hsame
  exact hbody buf (hw.body.symm.trans hv.body)

/-- The stream of one client changes, whom nobody answers after it. -/
theorem Spoken.settle (hs : Spoken R s) {arg : Addr} (hw : In s w ⟨working,arg⟩ body)
    (hreturned : body ≠ .returned) (hfreed : body ≠ .freed) (hsound : Sound s)
    {body' : Body} (hbody' : ∀ buf, body' ≠ .writing buf) {c : Option Stream}
    (hc : ∀ stream, c = some stream → R stream.sent stream.received) :
    Spoken R { s with conns := update s.conns (s.cfd arg) c, body := update s.body w body' } where
  quiet fd stream hfd hnone := by
    dsimp only at hfd hnone
    obtain rfl | hne := eq_or_ne fd (s.cfd arg)
    · rw [update_self] at hfd
      exact hc stream hfd
    · rw [update_of_ne hne] at hfd
      refine hs.quiet fd stream hfd fun v p buf hv heq => ?_
      refine hnone v p buf ⟨hv.running,?_⟩ heq
      have hvw : v ≠ w := by
        rintro rfl
        cases hv.running.symm.trans hw.running
        exact hne heq.symm
      exact (update_of_ne hvw ..).trans hv.body
  written v p buf stream hv hfd := by
    have hvw : v ≠ w := by
      rintro rfl
      exact hbody' buf ((update_self ..).symm.trans hv.body)
    have hv' : Writes s v p buf := ⟨hv.running,(update_of_ne hvw ..).symm.trans hv.body⟩
    have hne : s.cfd p ≠ s.cfd arg := by
      intro heq
      exact hvw (hsound.apart v w p arg _ _ hv' hw Body.noConfusion Body.noConfusion hreturned hfreed heq)
    dsimp only at hfd
    rw [update_of_ne hne] at hfd
    exact hs.written v p buf stream hv' hfd

/-- Bytes come in, which the worker answers next. -/
theorem Spoken.data (hs : Spoken R s) {arg : Addr} (hw : In s w ⟨working,arg⟩ .reading) (hsound : Sound s)
    {stream : Stream} (hfd : s.conns (s.cfd arg) = some stream) {bytes : List UInt8} {stream' : Stream}
    (hreceived : stream'.received = stream.received ++ bytes) (hsent : stream'.sent = stream.sent) :
    Spoken R
      { s with
        conns := update s.conns (s.cfd arg) (some stream'), body := update s.body w (.writing bytes) } where
  quiet fd stream₀ hfd₀ hnone := by
    dsimp only at hfd₀ hnone
    have hne : fd ≠ s.cfd arg := by
      rintro rfl
      exact hnone w arg bytes ⟨hw.running,update_self ..⟩ rfl
    rw [update_of_ne hne] at hfd₀
    refine hs.quiet fd stream₀ hfd₀ fun v p buf hv heq => ?_
    refine hnone v p buf ⟨hv.running,?_⟩ heq
    have hvw : v ≠ w := by
      rintro rfl
      cases hw.body.symm.trans hv.body
    exact (update_of_ne hvw ..).trans hv.body
  written v p buf stream₀ hv hfd₀ := by
    dsimp only at hfd₀
    obtain rfl | hvw := eq_or_ne v w
    · cases hw.running.symm.trans hv.running
      cases (update_self ..).symm.trans hv.body
      rw [update_self] at hfd₀
      obtain rfl := Option.some.inj hfd₀
      refine ⟨stream.received,hreceived,?_⟩
      rw [hsent]
      exact hs.quiet _ stream hfd fun v p buf hv => hsound.other hv hw (fun _ => Body.noConfusion)
        Body.noConfusion Body.noConfusion
    · have hv' : Writes s v p buf := ⟨hv.running,(update_of_ne hvw ..).symm.trans hv.body⟩
      have hne := hsound.other hv' hw (fun _ => Body.noConfusion) Body.noConfusion Body.noConfusion
      rw [update_of_ne hne] at hfd₀
      exact hs.written v p buf stream₀ hv' hfd₀

/-- A new client. -/
theorem Spoken.accept (hs : Spoken R s) (hnil : R [] []) {arg info_p : Addr} {fd : Fd} (hkept : Kept s)
    (hw : In s w ⟨connect,arg⟩ (.accepting info_p)) (hfd : s.conns fd = none) (records : List Addr) :
    Spoken R
      { s with
        cfd := update s.cfd info_p fd, conns := update s.conns fd (some Stream.fresh)
        body := update s.body w (.accepted info_p), records := records } := by
  have hother {v p buf} (hv : Writes s v p buf) : p ≠ info_p ∧ s.cfd p ≠ fd := by
    constructor
    · rintro rfl
      have hle := (hkept.memory p).trans_le (Bool.toNat_le _)
      unfold State.memory at hle
      simp only [List.count_append] at hle
      obtain rfl := hv.alone (f := fun task => [task.arg]) (g := owns) (b := p) hw List.mem_cons_self
        (List.mem_cons_of_mem _ List.mem_cons_self) (by omega)
      cases hv.body.symm.trans hw.body
    · rintro rfl
      have hsome := hkept.sound.served v p _ hv Body.noConfusion Body.noConfusion
      rw [hfd] at hsome
      cases hsome
  have hiff (v : ℕ) (p : Addr) (buf : List UInt8) : Writes
      { s with
        cfd := update s.cfd info_p fd, conns := update s.conns fd (some Stream.fresh)
        body := update s.body w (.accepted info_p), records := records } v p buf ↔ Writes s v p buf :=
    hw.writes (fun _ => Body.noConfusion) (.accepted info_p) (fun _ => Body.noConfusion) (by rfl) (by rfl) v p buf
  constructor
  · intro fd' stream hfd' hnone
    dsimp only at hfd' hnone
    obtain rfl | hne := eq_or_ne fd' fd
    · rw [update_self] at hfd'
      obtain rfl := Option.some.inj hfd'
      exact hnil
    · rw [update_of_ne hne] at hfd'
      refine hs.quiet fd' stream hfd' fun v p buf hv heq => ?_
      refine hnone v p buf ((hiff v p buf).mpr hv) ?_
      rw [update_of_ne (hother hv).1]
      exact heq
  · intro v p buf stream hv hfd'
    have hv' := (hiff v p buf).mp hv
    obtain ⟨hp,hcfd⟩ := hother hv'
    dsimp only at hfd'
    rw [update_of_ne hp, update_of_ne hcfd] at hfd'
    exact hs.written v p buf stream hv' hfd'

/-- More comes from a client. -/
theorem Spoken.arrive (hs : Spoken R s) {fd : Fd} {stream : Stream} (hfd : s.conns fd = some stream)
    (a : Arrival) : Spoken R { s with conns := update s.conns fd (some (stream.receive a)) } := by
  have hback {fd' : Fd} {stream' : Stream}
      (hfd' : update s.conns fd (some (stream.receive a)) fd' = some stream') :
      ∃ stream₀, s.conns fd' = some stream₀ ∧ stream'.received = stream₀.received ∧
        stream'.sent = stream₀.sent := by
    obtain rfl | hne := eq_or_ne fd' fd
    · rw [update_self] at hfd'
      obtain rfl := Option.some.inj hfd'
      exact ⟨stream,hfd,Stream.received_receive stream a,Stream.sent_receive stream a⟩
    · rw [update_of_ne hne] at hfd'
      exact ⟨stream',hfd',rfl,rfl⟩
  constructor
  · intro fd' stream' hfd' hnone
    obtain ⟨stream₀,hfd₀,hreceived,hsent⟩ := hback hfd'
    rw [hreceived, hsent]
    exact hs.quiet fd' stream₀ hfd₀ fun v p buf hv => hnone v p buf ⟨hv.running,hv.body⟩
  · intro v p buf stream' hv hfd'
    obtain ⟨stream₀,hfd₀,hreceived,hsent⟩ := hback hfd'
    rw [hreceived, hsent]
    exact hs.written v p buf stream₀ ⟨hv.running,hv.body⟩ hfd₀

theorem Spoken.busy (hs : Spoken R s) {pool : Threads.State} (hw : s.pool.workers[w]? = some (.taken task))
    (hstep : Threads.Step s.pool (.busy w) pool) :
    Spoken R { s with pool := pool, body := update s.body w (entry task.function) } := by
  obtain ⟨-,-,hworkers⟩ := busy_eq hw hstep
  have hentry (buf : List UInt8) : entry task.function ≠ .writing buf := by
    unfold entry
    split <;> exact Body.noConfusion
  refine hs.same (fun v p buf => ?_) rfl rfl
  obtain rfl | hne := eq_or_ne v w
  · constructor
    · rintro ⟨-,hv⟩
      exact absurd ((update_self ..).symm.trans hv) (hentry buf)
    · rintro ⟨hv,-⟩
      cases hw.symm.trans hv
  · have hsame : pool.workers[v]? = s.pool.workers[v]? := by rw [hworkers, List.getElem?_set_ne hne.symm]
    have hbody : update s.body w (entry task.function) v = s.body v := update_of_ne hne ..
    exact ⟨fun hv => ⟨hsame ▸ hv.running,hbody.symm.trans hv.body⟩,
      fun hv => ⟨hsame ▸ hv.running,hbody.trans hv.body⟩⟩

theorem Spoken.unbusy (hs : Spoken R s) {pool : Threads.State} (hw : In s w task .freed)
    (hstep : Threads.Step s.pool (.unbusy w) pool) : Spoken R { s with pool := pool } := by
  obtain ⟨-,-,hworkers⟩ := unbusy_eq hstep
  have hlt := (List.getElem?_eq_some_iff.mp hw.running).1
  refine hs.same (fun v p buf => ?_) rfl rfl
  obtain rfl | hne := eq_or_ne v w
  · constructor
    · rintro ⟨hv,-⟩
      rw [hworkers, List.getElem?_set_self hlt] at hv
      cases hv
    · rintro ⟨-,hv⟩
      cases hw.body.symm.trans hv
  · have hsame : pool.workers[v]? = s.pool.workers[v]? := by rw [hworkers, List.getElem?_set_ne hne.symm]
    exact ⟨fun hv => ⟨hsame ▸ hv.running,hv.body⟩,fun hv => ⟨hsame ▸ hv.running,hv.body⟩⟩

theorem call_workers {p : ℕ} {pool : Threads.State} (hcall : Threads.Step s.pool (.call p task) pool) :
    pool.workers = s.pool.workers := by
  rw [(call_eq hcall).2]

theorem Spoken.read (hs : Spoken R s) {arg : Addr} (hw : In s w ⟨working,arg⟩ .reading) (hsound : Sound s)
    (hread : s.read w arg = some s') : Spoken R s' := by
  unfold State.read at hread
  split at hread
  · rw [← Option.some.inj hread]
    exact hs.goes hw (fun _ => Body.noConfusion) .leaving (fun _ => Body.noConfusion) rfl rfl rfl rfl
  · next stream hfd =>
    have hreceives := stream.receives BUFFER
    have hquiet : R stream.sent stream.received := hs.quiet _ stream hfd fun v p buf hv =>
      hsound.other hv hw (fun _ => Body.noConfusion) Body.noConfusion Body.noConfusion
    generalize stream.recv BUFFER = result at hread hreceives
    cases hreceives with
    | data hunread =>
      rw [← Option.some.inj hread]
      exact hs.data hw hsound hfd rfl rfl
    | again => cases hread
    | closed | failed =>
      rw [← Option.some.inj hread]
      refine hs.settle hw Body.noConfusion Body.noConfusion hsound (fun _ => Body.noConfusion) ?_
      intro stream' hstream'
      obtain rfl := Option.some.inj hstream'
      exact hquiet

/-- What one step does. Only a write needs that `R` goes with the bytes that are sent. -/
theorem Step.spoken {l : Label} (hkept : Kept s) (hnil : R [] [])
    (hwrite : ∀ w len buf, l = .write w len → s.body w = .writing buf →
      ∀ sent earlier, R sent earlier → R (sent ++ buf.take len) (earlier ++ buf))
    (hs : Spoken R s) (h : Step s l s') : Spoken R s' := by
  cases h with
  | main hmain hcall =>
    have hsame := call_workers hcall
    exact hs.same (fun v p buf => ⟨fun hv => ⟨hsame ▸ hv.running,hv.body⟩,
      fun hv => ⟨hsame ▸ hv.running,hv.body⟩⟩) rfl rfl
  | pool hown hstep =>
    exact hs.same (fun v p buf => ⟨fun hv => ⟨(step_running hown hstep v _).mp hv.running,hv.body⟩,
      fun hv => ⟨(step_running hown hstep v _).mpr hv.running,hv.body⟩⟩) rfl rfl
  | busy hw hstep => exact hs.busy hw hstep
  | unbusy hw hstep => exact hs.unbusy hw hstep
  | malloc hw hnew =>
    exact hs.goes hw (fun _ => Body.noConfusion) _ (fun _ => Body.noConfusion) rfl rfl rfl rfl
  | accept hw hfd => exact hs.accept hnil hkept hw hfd _
  | refuse hw =>
    exact hs.goes hw (fun _ => Body.noConfusion) .broken (fun _ => Body.noConfusion) rfl rfl rfl rfl
  | call hw hcall =>
    exact hs.goes hw (fun _ => Body.noConfusion) .adding (fun _ => Body.noConfusion) (call_workers hcall) rfl
      rfl rfl
  | back hw hidle =>
    exact hs.goes hw (fun _ => Body.noConfusion) .loop (fun _ => Body.noConfusion) rfl rfl rfl rfl
  | closeListener hw =>
    exact hs.goes hw (fun _ => Body.noConfusion) .returned (fun _ => Body.noConfusion) rfl rfl rfl rfl
  | read hw hread => exact hs.read hw hkept.sound hread
  | @write w arg buf len hw hlen =>
    refine hs.settle hw Body.noConfusion Body.noConfusion hkept.sound (fun _ => Body.noConfusion) ?_
    intro stream' hstream'
    obtain ⟨stream,hfd,rfl⟩ := Option.map_eq_some_iff.mp hstream'
    obtain ⟨earlier,hreceived,hsent⟩ := hs.written w arg buf stream hw hfd
    dsimp only
    rw [hreceived]
    exact hwrite w len buf rfl hw.body _ _ hsent
  | close hw =>
    refine hs.settle hw Body.noConfusion Body.noConfusion hkept.sound (fun _ => Body.noConfusion) ?_
    intro stream hstream
    cases hstream
  | free hw =>
    exact hs.goes hw (fun _ => Body.noConfusion) .freed (fun _ => Body.noConfusion) rfl rfl rfl rfl
  | arrive hfd a => exact hs.arrive hfd a

end Spoken

section Run
variable {R : List UInt8 → List UInt8 → Prop} {taskQ : ℤ → Task} {min max queueSize : ℤ} {info_pp : Addr}
  {cfd : Addr → Fd} {steps : List (State × Label)} {s : State}

theorem trace_spoken (hnil : R [] []) (h0 : 0 ≤ min) (hle : min ≤ max) (hcap : 1 ≤ queueSize)
    (h : Trace Step (start taskQ min max queueSize info_pp cfd) steps s)
    (hwrite : ∀ x ∈ steps, ∀ w len buf, x.2 = .write w len → x.1.body w = .writing buf →
      ∀ sent earlier, R sent earlier → R (sent ++ buf.take len) (earlier ++ buf)) :
    Pooled min max s ∧ Kept s ∧ Spoken R s := by
  induction h with
  | nil =>
    have hs : Spoken R (start taskQ min max queueSize info_pp cfd) :=
      ⟨fun _ _ hfd => (by cases hfd),fun _ _ _ _ _ hfd => (by cases hfd)⟩
    exact ⟨start_pooled taskQ info_pp cfd h0 hle hcap,start_kept taskQ min max queueSize info_pp cfd,hs⟩
  | snoc _ last ih =>
    obtain ⟨hpool,hkept,hs⟩ := ih fun x hx => hwrite x (List.mem_append_left _ hx)
    have hlast := hwrite _ (List.mem_append_right _ List.mem_cons_self)
    exact ⟨last.pooled hpool,last.kept hpool hkept,last.spoken hkept hnil hlast hs⟩

end Run

/-- A client gets back nothing but what it has sent, in this order. If no write is short then it gets all of
it, up to the bytes that are being answered. -/
theorem run_spoken (taskQ : ℤ → Task) {min max queueSize : ℤ} (info_pp : Addr) (cfd : Addr → Fd) (h0 : 0 ≤ min)
    (hle : min ≤ max) (hcap : 1 ≤ queueSize) (steps : List (State × Label)) (s : State)
    (h : Trace Step (start taskQ min max queueSize info_pp cfd) steps s) :
    (∀ fd stream, s.conns fd = some stream → stream.sent.Sublist stream.received) ∧
      ((∀ x ∈ steps, ∀ w len buf, x.2 = .write w len → x.1.body w = .writing buf → len = buf.length) →
        ∀ fd stream, s.conns fd = some stream → stream.received = stream.sent ∨
          ∃ w p buf, In s w ⟨working,p⟩ (.writing buf) ∧ s.cfd p = fd ∧ stream.received = stream.sent ++ buf) := by
  constructor
  · intro fd stream hfd
    obtain ⟨-,-,hs⟩ := trace_spoken (R := List.Sublist) .slnil h0 hle hcap h
      fun x _ w len buf _ _ sent earlier hsent => hsent.append (List.take_sublist len buf)
    by_cases hnone : ∀ w p buf, Writes s w p buf → s.cfd p ≠ fd
    · exact hs.quiet fd stream hfd hnone
    · simp only [not_forall, not_not] at hnone
      obtain ⟨w,p,buf,hw,rfl⟩ := hnone
      obtain ⟨earlier,hreceived,hsent⟩ := hs.written w p buf stream hw hfd
      rw [hreceived]
      exact hsent.trans (List.sublist_append_left earlier buf)
  · intro hfull fd stream hfd
    obtain ⟨-,-,hs⟩ := trace_spoken (R := Eq) rfl h0 hle hcap h
      fun x hx w len buf hlabel hbody sent earlier hsent => by
        rw [hsent, hfull x hx w len buf hlabel hbody, List.take_length]
    by_cases hnone : ∀ w p buf, Writes s w p buf → s.cfd p ≠ fd
    · exact .inl (hs.quiet fd stream hfd hnone).symm
    · simp only [not_forall, not_not] at hnone
      obtain ⟨w,p,buf,hw,rfl⟩ := hnone
      obtain ⟨earlier,hreceived,hsent⟩ := hs.written w p buf stream hw hfd
      rw [← hsent] at hreceived
      exact .inr ⟨w,p,buf,hw,rfl,hreceived⟩

theorem run_spoken_one : ∃ steps s stream,
    Trace Step (start (fun _ => ⟨0,0⟩) 3 8 100 10 fun _ => 0) steps s ∧ s.conns 5 = some stream ∧
    stream.sent = [72] ∧ stream.sent.Sublist stream.received ∧ (stream.received = stream.sent ∨
      ∃ w p buf, In s w ⟨working,p⟩ (.writing buf) ∧ s.cfd p = 5 ∧ stream.received = stream.sent ++ buf) := by
  obtain ⟨steps,s,h,-,⟨stream,hfd,hsent⟩,hfull,-⟩ := first_client
  obtain ⟨hsublist,hall⟩ := run_spoken _ 10 _ (by decide) (show (3 : ℤ) ≤ 8 by decide) (by decide) steps s h
  exact ⟨steps,s,stream,h,hfd,hsent,hsublist 5 stream hfd,hall hfull 5 stream hfd⟩

end ServerKit.Threads.Chat
