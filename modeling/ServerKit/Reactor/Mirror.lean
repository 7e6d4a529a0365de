import ServerKit.Reactor.Conn

/-! The epoll set is what the events say it is, in every state of every run. -/
namespace ServerKit.Reactor
open Function ServerKit.Lib

variable {X : Type}

section Local
variable {app : App X} {fd : ℕ} {c c' : Conn X} {act : Conn.Act}

theorem Conn.watched_at (ev : NtyEvent X) (callback : Callback) (events : ℕ) (log : List (Event X)) :
    (Conn.mk (watched fd callback events ev) true (some ⟨events,slotOf fd⟩) log).At fd callback events :=
  ⟨rfl,rfl,rfl,rfl,rfl,rfl,rfl⟩

theorem Conn.accepted_at (fd : ℕ) (c : Conn X) : (c.accepted fd).At fd .recvCb EPOLLIN :=
  watched_at ..

theorem Conn.At.heard (app : App X) (h : c.At fd .recvCb EPOLLIN) (bytes : List UInt8) :
    (c.heard app fd bytes).At fd .sendCb EPOLLOUT := by
  unfold Conn.heard
  rw [h.opened]
  exact watched_at ..

theorem Conn.At.answered (h : c.At fd .sendCb EPOLLOUT) (send : Option ℕ) (rest : List ℕ) :
    (c.answered app fd send rest).At fd .recvCb EPOLLIN := by
  unfold Conn.answered
  rw [h.opened]
  exact watched_at ..

theorem Conn.Mirrored.step (h : c.Mirrored fd) (hstep : Conn.Step app fd c act c') : c'.Mirrored fd := by
  cases hstep with
  | leak hnew =>
    cases h with
    | out hinterest hstatus => exact .out hinterest hstatus
    | listens hat hlog => simp [hat.opened] at hnew
    | receives hat hlive => simp [hat.opened] at hnew
    | sends hat hlive => simp [hat.opened] at hnew
  | accept hnew => exact .receives (accepted_at fd c) rfl
  | hear hat hne hle => exact .sends (hat.heard app _) rfl
  | fin hat => exact .out rfl rfl
  | reset hat => exact .out rfl rfl
  | stall hat hne => exact .out rfl rfl
  | answer hat hpos => exact .receives (hat.answered ..) rfl
  | drop hat hnot => exact .out rfl rfl

theorem Conn.Step.size (happ : app.Lawful) (h : Conn.Step app fd c act c')
    (hsize : c.slot.buffer.length = BUFFER_LENGTH) : c'.slot.buffer.length = BUFFER_LENGTH := by
  cases h with
  | leak hnew => exact hsize
  | accept hnew => exact hsize
  | hear hat hne hle => exact (happ.request_size _).trans (size_received happ hle hsize)
  | fin hat => exact hsize
  | reset hat => exact hsize
  | stall hat hne => exact hsize
  | answer hat hpos => exact (happ.response_size _).trans hsize
  | drop hat hnot => exact (happ.response_size _).trans hsize

theorem Conn.Mirrored.of_closed (h : c.Mirrored fd) (hnew : c.opened = false) :
    c.interest = none ∧ c.slot.status = 0 := by
  cases h with
  | out hinterest hstatus => exact ⟨hinterest,hstatus⟩
  | listens hat hlog => exact absurd (hat.opened.symm.trans hnew) (by decide)
  | receives hat hlive => exact absurd (hat.opened.symm.trans hnew) (by decide)
  | sends hat hlive => exact absurd (hat.opened.symm.trans hnew) (by decide)

/-- What is registered is the event, and it asks for one of the two events only. -/
theorem Conn.Mirrored.registered (h : c.Mirrored fd) {i : Interest Ptr} (hi : c.interest = some i) :
    i.data = slotOf fd ∧ c.opened = true ∧
      (c.At fd .acceptCb EPOLLIN ∧ i.events = EPOLLIN ∨ c.At fd .recvCb EPOLLIN ∧ i.events = EPOLLIN ∨
        c.At fd .sendCb EPOLLOUT ∧ i.events = EPOLLOUT) := by
  cases h with
  | out hinterest hstatus => simp [hinterest] at hi
  | listens hat hlog =>
    obtain rfl : _ = i := Option.some.inj (hat.interest.symm.trans hi)
    exact ⟨rfl,hat.opened,.inl ⟨hat,rfl⟩⟩
  | receives hat hlive =>
    obtain rfl : _ = i := Option.some.inj (hat.interest.symm.trans hi)
    exact ⟨rfl,hat.opened,.inr (.inl ⟨hat,rfl⟩)⟩
  | sends hat hlive =>
    obtain rfl : _ = i := Option.some.inj (hat.interest.symm.trans hi)
    exact ⟨rfl,hat.opened,.inr (.inr ⟨hat,rfl⟩)⟩

end Local

variable [Zero X]

/-- The server between two callbacks. -/
structure Steady (s : Server X) : Prop where
  valid : s.reactor.Valid
  failed : s.kernel.failed = []
  mirrored : ∀ fd, (s.conn fd).Mirrored fd

/-- One callback, or none: what happens, and to which descriptor. -/
inductive Move (app : App X) (s s' : Server X) : Option (ℕ × Conn.Act) → Prop
  | idle (h : s' = s) : Move app s s' none
  | act {fd act c} (step : Conn.Step app fd (s.conn fd) act c) (changed : Changed s s' fd c) :
      Move app s s' (some (fd,act))

section Moves
variable {app : App X} {s s' : Server X} {m : Option (ℕ × Conn.Act)} {e : Ready Ptr} {res : Results}

theorem Steady.move (hs : Steady s) (h : Move app s s' m) : Steady s' := by
  cases h with
  | idle h => rwa [h]
  | @act fd act c step changed =>
    refine ⟨changed.valid,changed.failed.trans hs.failed,fun fd' => ?_⟩
    rw [changed.conn]
    by_cases hfd : fd' = fd
    · subst hfd
      rw [update_self]
      exact (hs.mirrored fd').step step
    · rw [update_of_ne hfd]
      exact hs.mirrored fd'

/-- What was reported of another descriptor is still true. -/
theorem Move.reported (h : Move app s s' m) {e : Ready Ptr} (he : s.kernel.Reported e)
    (hne : ∀ x ∈ m, x.1 ≠ e.fd) : s'.kernel.Reported e := by
  cases h with
  | idle h => rwa [h]
  | @act fd act c step changed =>
    have hconn : s'.conn e.fd = s.conn e.fd := by
      rw [changed.conn, update_of_ne (hne (fd,act) rfl).symm]
    exact he.congr (congrArg Conn.interest hconn)

/-- The receive callback runs for `e`, and `recv` fails with an error other than a reset. -/
def Stalls (s : Server X) (e : Ready Ptr) (res : Results) : Prop :=
  hasBit e.events EPOLLIN ∧ hasBit (s.reactor.slot e.data).events EPOLLIN ∧
    (s.reactor.slot e.data).callback = some .recvCb ∧
    ∃ errno, res.recv = .error errno ∧ errno ≠ ECONNRESET

theorem Steady.opened (hs : Steady s) (he : s.kernel.Reported e) : s.kernel.opened e.fd = true := by
  obtain ⟨i,hi,-⟩ := he
  exact ((hs.mirrored e.fd).registered hi).2.1

theorem recv_stalls {recv : Recv} :
    (Conn.Act.recv recv).Stalls ↔ ∃ errno, recv = .error errno ∧ errno ≠ ECONNRESET := by
  cases recv with
  | data bytes => simp [Conn.Act.Stalls]
  | fin => simp [Conn.Act.Stalls]
  | error errno => simp [Conn.Act.Stalls]

/-- What a test of the loop does when it looks at `e`. -/
structure Tested (app : App X) (s s' : Server X) (e : Ready Ptr) (res : Results)
    (m : Option (ℕ × Conn.Act)) : Prop where
  move : Move app s s' m
  fd : ∀ x ∈ m, x.1 = e.fd ∨ s.kernel.opened x.1 = false
  leak : res.fcntl = true → ∀ fd, m ≠ some (fd,.accept false)

/-- What was reported of the other descriptors is still true. -/
theorem Tested.reported (h : Tested app s s' e res m) (hs : Steady s) {e' : Ready Ptr}
    (he' : s.kernel.Reported e') (hne : e.fd ≠ e'.fd) : s'.kernel.Reported e' := by
  refine h.move.reported he' fun x hx heq => ?_
  obtain hfd | hnew := h.fd x hx
  · exact hne (hfd.symm.trans heq)
  · rw [heq, hs.opened he'] at hnew
    cases hnew

theorem Tested.idle (e : Ready Ptr) (res : Results) : Tested app s s e res none :=
  ⟨.idle rfl,nofun,nofun⟩

/-- The event of a reported descriptor. -/
theorem Steady.reported (hs : Steady s) (he : s.kernel.Reported e) : e.data = slotOf e.fd ∧
    ((s.conn e.fd).At e.fd .acceptCb EPOLLIN ∧ ¬ hasBit e.events EPOLLOUT ∨
      (s.conn e.fd).At e.fd .recvCb EPOLLIN ∧ ¬ hasBit e.events EPOLLOUT ∨
      (s.conn e.fd).At e.fd .sendCb EPOLLOUT ∧ ¬ hasBit e.events EPOLLIN) := by
  obtain ⟨i,hi,hdata,hin,hout⟩ := he
  obtain ⟨hslot,-,hcase⟩ := (hs.mirrored e.fd).registered hi
  refine ⟨hdata.trans hslot,?_⟩
  obtain ⟨hat,hevents⟩ | ⟨hat,hevents⟩ | ⟨hat,hevents⟩ := hcase
  · rw [hevents] at hout
    exact .inl ⟨hat,fun h => absurd (hout h) (by decide)⟩
  · rw [hevents] at hout
    exact .inr (.inl ⟨hat,fun h => absurd (hout h) (by decide)⟩)
  · rw [hevents] at hin
    exact .inr (.inr ⟨hat,fun h => absurd (hin h) (by decide)⟩)

theorem testIn_accept (app : App X) (hs : Steady s) (hat : (s.conn e.fd).At e.fd .acceptCb EPOLLIN)
    (hfits : res.Fits s.kernel) :
    ∃ m, Tested app s (call app s (s.conn e.fd).slot res) e res m ∧ ∀ x ∈ m, ¬ x.2.Stalls := by
  rw [hat.call_accept]
  cases haccept : res.accept with
  | none => exact ⟨none,.idle e res,nofun⟩
  | some clientfd =>
    have hnew := hfits.accept clientfd haccept
    obtain ⟨hfree,hstatus⟩ := (hs.mirrored clientfd).of_closed hnew
    obtain ⟨c,hstep,hchanged⟩ :=
      acceptCb_changed app hs.valid hnew hfree hstatus res.fcntl
    refine ⟨_,⟨.act hstep hchanged,?_,?_⟩,?_⟩
    · rintro x ⟨⟩
      exact .inr hnew
    · intro hfcntl fd hleak
      rw [hfcntl] at hleak
      cases hleak
    · rintro x ⟨⟩
      exact id

/-- The first test runs the acceptor of the listening descriptor, or `recv_cb`. -/
theorem testIn_move (happ : app.Lawful) (hs : Steady s) (he : s.kernel.Reported e)
    (hfits : res.Fits s.kernel) : ∃ m, Tested app s (test app EPOLLIN s e res) e res m ∧
      ((∃ x ∈ m, x.2.Stalls) ↔ Stalls s e res) := by
  obtain ⟨hdata,hcase⟩ := hs.reported he
  have hslot : s.reactor.slot e.data = (s.conn e.fd).slot := by
    rw [hdata]
    rfl
  by_cases hfire : hasBit e.events EPOLLIN ∧ hasBit (s.reactor.slot e.data).events EPOLLIN
  · rw [test, if_pos hfire, Stalls, hslot]
    obtain ⟨hat,-⟩ | ⟨hat,-⟩ | ⟨hat,hnot⟩ := hcase
    · obtain ⟨m,htested,hstall⟩ := testIn_accept app hs hat hfits
      refine ⟨m,htested,fun ⟨x,hx,h⟩ => absurd h (hstall x hx),?_⟩
      rintro ⟨-,-,hcallback,-⟩
      rw [hat.callback] at hcallback
      cases hcallback
    · obtain ⟨c,hstep,hchanged⟩ := recvCb_changed happ hs.valid hat hfits.recv
      rw [hat.call_recv]
      refine ⟨_,⟨.act hstep hchanged,?_,?_⟩,?_⟩
      · rintro x ⟨⟩
        exact .inl rfl
      · intro _ fd hleak
        cases hleak
      · have hevents : hasBit (s.conn e.fd).slot.events EPOLLIN := by
          rw [hat.events]
          decide
        rw [← recv_stalls]
        refine ⟨?_,fun h => ⟨_,rfl,h.2.2.2⟩⟩
        rintro ⟨x,⟨⟩,h⟩
        exact ⟨hfire.1,hevents,hat.callback,h⟩
    · exact absurd hfire.1 hnot
  · rw [test, if_neg hfire]
    refine ⟨none,.idle e res,?_,?_⟩
    · rintro ⟨x,⟨⟩,-⟩
    · rintro ⟨hbit,hevents,-⟩
      exact absurd ⟨hbit,hevents⟩ hfire

/-- The second test runs `send_cb`. -/
theorem testOut_move (happ : app.Lawful) (hs : Steady s)
    (he : hasBit e.events EPOLLOUT → s.kernel.Reported e) (res : Results) :
    ∃ m, Tested app s (test app EPOLLOUT s e res) e res m ∧ ∀ x ∈ m, ¬ x.2.Stalls := by
  by_cases hfire : hasBit e.events EPOLLOUT ∧ hasBit (s.reactor.slot e.data).events EPOLLOUT
  · obtain ⟨hdata,hcase⟩ := hs.reported (he hfire.1)
    have hslot : s.reactor.slot e.data = (s.conn e.fd).slot := by
      rw [hdata]
      rfl
    rw [test, if_pos hfire, hslot]
    obtain ⟨-,hnot⟩ | ⟨-,hnot⟩ | ⟨hat,-⟩ := hcase
    · exact absurd hfire.1 hnot
    · exact absurd hfire.1 hnot
    · obtain ⟨c,hstep,hchanged⟩ := sendCb_changed happ hs.valid hat res.send res.rest
      rw [hat.call_send]
      refine ⟨_,⟨.act hstep hchanged,?_,?_⟩,?_⟩
      · rintro x ⟨⟩
        exact .inl rfl
      · intro _ fd h
        cases h
      · rintro x ⟨⟩
        exact id
  · rw [test, if_neg hfire]
    exact ⟨none,.idle e res,nofun⟩

end Moves

/-- What holds between two tests. An event whose first test is done and that asks for the second one
has not been touched. -/
structure Kept (s : State X) : Prop where
  steady : Steady s.server
  nodup : (s.pending.map Ready.fd).Nodup
  pending : ∀ e ∈ s.pending, s.server.kernel.Reported e
  second : ∀ e ∈ s.second, e.fd ∉ s.pending.map Ready.fd ∧
    (hasBit e.events EPOLLOUT → s.server.kernel.Reported e)

section Steps
variable {app : App X} {s s' : State X} {a : Action}

/-- The results of the system calls of a step, if it has any. -/
def Action.results : Action → Option Results
  | .wait _ => none
  | .testIn res => some res
  | .testOut res => some res

/-- The step in which the receive callback fails with an error other than a reset. -/
def StallsAt (s : State X) : Action → Prop
  | .testIn res => ∃ e ∈ s.pending.head?, Stalls s.server e res
  | _ => False

/-- What one step does to the server. -/
structure Moved (app : App X) (s : State X) (a : Action) (s' : State X) (m : Option (ℕ × Conn.Act)) :
    Prop where
  move : Move app s.server s'.server m
  stall : (∃ x ∈ m, x.2.Stalls) ↔ StallsAt s a
  leak : (∀ res ∈ a.results, res.fcntl = true) → ∀ fd, m ≠ some (fd,.accept false)

theorem Kept.step (happ : app.Lawful) (hs : Kept s) (h : Step app s a s') :
    Kept s' ∧ ∃ m, Moved app s a s' m := by
  cases h with
  | @wait batch hpending hsecond hbatch =>
    refine ⟨⟨hs.steady,hbatch.nodup,hbatch.reported,?_⟩,none,.idle rfl,?_,nofun⟩
    · intro e he
      rw [hsecond] at he
      cases he
    · simp [StallsAt]
  | @testIn e pending res hpending hsecond hfits =>
    have he : s.server.kernel.Reported e := hs.pending e (by simp [hpending])
    obtain ⟨m,htested,hstall⟩ := testIn_move happ hs.steady he hfits
    have hnodup := hs.nodup
    rw [hpending, List.map_cons, List.nodup_cons] at hnodup
    refine ⟨⟨hs.steady.move htested.move,hnodup.2,?_,?_⟩,m,htested.move,?_,?_⟩
    · intro e' he'
      refine htested.reported hs.steady (hs.pending e' (by simp [hpending,he'])) ?_
      intro heq
      exact hnodup.1 (heq ▸ List.mem_map_of_mem he')
    · rintro e' ⟨⟩
      refine ⟨hnodup.1,fun hout => ?_⟩
      -- the event asks for EPOLLOUT, so the first test has run no callback
      have hnot : ¬ hasBit e.events EPOLLIN := by
        obtain ⟨-,⟨-,h⟩ | ⟨-,h⟩ | ⟨-,h⟩⟩ := hs.steady.reported he
        · exact absurd hout h
        · exact absurd hout h
        · exact h
      have htest : test app EPOLLIN s.server e res = s.server := if_neg fun h => hnot h.1
      rw [htest]
      exact he
    · simpa [StallsAt,hpending] using hstall
    · intro hfcntl
      exact htested.leak (hfcntl res rfl)
  | @testOut e res hsecond hfits =>
    obtain ⟨hfd,he⟩ := hs.second e hsecond
    obtain ⟨m,htested,hstall⟩ := testOut_move happ hs.steady he res
    refine ⟨⟨hs.steady.move htested.move,hs.nodup,?_,nofun⟩,m,htested.move,?_,?_⟩
    · intro e' he'
      refine htested.reported hs.steady (hs.pending e' he') ?_
      intro heq
      exact hfd (heq ▸ List.mem_map_of_mem he')
    · simpa [StallsAt] using hstall
    · intro hfcntl
      exact htested.leak (hfcntl res rfl)

variable {opened : ℕ → Bool} {listenfd : ℕ}

theorem boot_conn (opened : ℕ → Bool) (fd : ℕ) :
    (boot opened : Server X).conn fd = ⟨zeroEvent,opened fd,none,[]⟩ := by
  have hslot (p : Ptr) : (ntyreactorInit : NtyReactor X).slot p = zeroEvent := by
    unfold NtyReactor.slot ntyreactorInit
    cases p.1 <;> rfl
  rw [Server.conn, boot, hslot]

/-- The listening descriptor is registered, and the other slots are as `memset` left them. -/
theorem start_changed (hopen : opened listenfd = true) :
    Changed (boot opened) (start opened listenfd : State X).server listenfd
      ⟨Conn.watched listenfd .acceptCb EPOLLIN zeroEvent,true,some ⟨EPOLLIN,slotOf listenfd⟩,[]⟩ := by
  have hopen' : (boot opened : Server X).kernel.opened listenfd = true := hopen
  have h := ntyreactorAddlistener_changed (s := (boot opened : Server X)) rfl hopen' rfl
    (by rw [boot_conn]; rfl)
  rw [boot_conn, hopen'] at h
  exact h

theorem start_conn (hopen : opened listenfd = true) (fd : ℕ) :
    (start opened listenfd : State X).server.conn fd = if fd = listenfd then
      ⟨Conn.watched listenfd .acceptCb EPOLLIN zeroEvent,true,some ⟨EPOLLIN,slotOf listenfd⟩,[]⟩
    else ⟨zeroEvent,opened fd,none,[]⟩ := by
  rw [(start_changed hopen).conn, update_apply]
  exact if_congr Iff.rfl rfl (boot_conn opened fd)

theorem start_kept (hopen : opened listenfd = true) : Kept (start opened listenfd : State X) := by
  refine ⟨⟨(start_changed hopen).valid,(start_changed hopen).failed,fun fd => ?_⟩,List.nodup_nil,
    nofun,nofun⟩
  rw [start_conn hopen]
  by_cases hfd : fd = listenfd
  · rw [if_pos hfd, hfd]
    exact .listens (Conn.watched_at ..) rfl
  · rw [if_neg hfd]
    exact .out rfl rfl

theorem run_kept (happ : app.Lawful) (hopen : opened listenfd = true) {actions : List Action}
    (h : Run (Step app) (start opened listenfd) actions s) : Kept s :=
  h.invariant (P := Kept) (start_kept hopen) fun _ _ _ hs hstep => (hs.step happ hstep).1

/-- The registered descriptors are those whose event has the status `1`, and they are registered with
their own event and for what it asks for. No request to the kernel was refused. -/
structure Mirror (s : Server X) : Prop where
  status : ∀ fd, (s.reactor.slot (slotOf fd)).status = 1 ↔ s.kernel.interest fd ≠ none
  fd : ∀ fd i, s.kernel.interest fd = some i → (s.reactor.slot (slotOf fd)).fd = fd
  data : ∀ fd i, s.kernel.interest fd = some i → i.data = slotOf fd
  events : ∀ fd i, s.kernel.interest fd = some i → i.events = (s.reactor.slot (slotOf fd)).events
  failed : s.kernel.failed = []

theorem Steady.mirror {s : Server X} (hs : Steady s) : Mirror s := by
  have hreg (fd : ℕ) (i : Interest Ptr) (hi : s.kernel.interest fd = some i) :
      i.data = slotOf fd ∧ (s.reactor.slot (slotOf fd)).status = 1 ∧
        (s.reactor.slot (slotOf fd)).fd = fd ∧ i.events = (s.reactor.slot (slotOf fd)).events := by
    obtain ⟨hdata,-,⟨hat,hevents⟩ | ⟨hat,hevents⟩ | ⟨hat,hevents⟩⟩ := (hs.mirrored fd).registered hi
    · exact ⟨hdata,hat.status,hat.fd,hevents.trans hat.events.symm⟩
    · exact ⟨hdata,hat.status,hat.fd,hevents.trans hat.events.symm⟩
    · exact ⟨hdata,hat.status,hat.fd,hevents.trans hat.events.symm⟩
  refine ⟨fun fd => ⟨?_,?_⟩,fun fd i hi => (hreg fd i hi).2.2.1,fun fd i hi => (hreg fd i hi).1,
    fun fd i hi => (hreg fd i hi).2.2.2,hs.failed⟩
  · intro hstatus hnone
    have hconn : (s.conn fd).slot.status = 1 := hstatus
    cases hs.mirrored fd with
    | out _ hstatus' => rw [hstatus'] at hconn; cases hconn
    | listens hat _ => exact hat.registered hnone
    | receives hat _ => exact hat.registered hnone
    | sends hat _ => exact hat.registered hnone
  · intro hreg'
    obtain ⟨i,hi⟩ := Option.ne_none_iff_exists'.mp hreg'
    exact (hreg fd i hi).2.1

end Steps
end ServerKit.Reactor
