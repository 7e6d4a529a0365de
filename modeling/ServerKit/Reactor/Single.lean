import ServerKit.Reactor.Mirror

/-! The runs of the loop seen at one descriptor. Each is a run of what belongs to that descriptor, and
each run of that kind is one that the loop can make. -/
namespace ServerKit.Reactor
open Function ServerKit.Lib

variable {X : Type}

theorem Conn.Step.unique {app : App X} {fd : ℕ} {c c₁ c₂ : Conn X} {act : Conn.Act}
    (h₁ : Conn.Step app fd c act c₁) (h₂ : Conn.Step app fd c act c₂) : c₁ = c₂ := by
  cases h₁ with
  | leak => cases h₂; rfl
  | accept => cases h₂; rfl
  | hear => cases h₂; rfl
  | fin => cases h₂; rfl
  | reset h =>
    cases h₂ with
    | reset => rfl
    | stall _ hne => exact absurd rfl hne
  | stall h hne =>
    cases h₂ with
    | reset => exact absurd rfl hne
    | stall => rfl
  | answer h hpos =>
    cases h₂ with
    | answer => rfl
    | drop _ hnot => exact absurd hpos hnot
  | drop h hnot =>
    cases h₂ with
    | answer _ hpos => exact absurd hpos hnot
    | drop => rfl

variable [Zero X] {app : App X} {s s' : State X} {opened : ℕ → Bool} {listenfd : ℕ}

theorem Move.conn {s s' : Server X} {m : Option (ℕ × Conn.Act)} (h : Move app s s' m) (fd : ℕ) :
    s'.conn fd = s.conn fd ∨ ∃ act, Conn.Step app fd (s.conn fd) act (s'.conn fd) := by
  cases h with
  | idle h => exact .inl (by rw [h])
  | @act fd' act c step changed =>
    rw [changed.conn]
    by_cases hfd : fd = fd'
    · subst hfd
      rw [update_self]
      exact .inr ⟨act,step⟩
    · exact .inl (update_of_ne hfd ..)

/-- A run of the loop is a run of each descriptor. -/
theorem run_conn (happ : app.Lawful) (hopen : opened listenfd = true) {actions : List Action}
    (h : Run (Step app) (start opened listenfd) actions s) (fd : ℕ) : ∃ acts,
      Run (Conn.Step app fd) ((start opened listenfd : State X).server.conn fd) acts
        (s.server.conn fd) := by
  have hboth : Kept s ∧ ∃ acts,
      Run (Conn.Step app fd) ((start opened listenfd : State X).server.conn fd) acts
        (s.server.conn fd) := by
    refine h.invariant (P := fun s => Kept s ∧ ∃ acts,
      Run (Conn.Step app fd) ((start opened listenfd : State X).server.conn fd) acts
        (s.server.conn fd)) ⟨start_kept hopen,[],.nil⟩ ?_
    rintro s a s' ⟨hkept,acts,hrun⟩ hstep
    obtain ⟨hkept',m,hmoved⟩ := hkept.step happ hstep
    refine ⟨hkept',?_⟩
    obtain heq | ⟨act,hact⟩ := hmoved.move.conn fd
    · exact ⟨acts,heq ▸ hrun⟩
    · exact ⟨acts ++ [act],hrun.snoc hact⟩
  exact hboth.2

/-- What the steps of a descriptor keep holds after every run of the loop. -/
theorem run_conn_invariant {P : Conn X → Prop} (happ : app.Lawful) (hopen : opened listenfd = true)
    {actions : List Action} (h : Run (Step app) (start opened listenfd) actions s) {fd : ℕ}
    (hstart : P ((start opened listenfd : State X).server.conn fd))
    (hstep : ∀ c act c', c.Mirrored fd → P c → Conn.Step app fd c act c' → P c') :
    P (s.server.conn fd) := by
  obtain ⟨acts,hrun⟩ := run_conn happ hopen h fd
  exact (hrun.invariant (P := fun c => c.Mirrored fd ∧ P c)
    ⟨(start_kept hopen).steady.mirrored fd,hstart⟩
    fun c act c' hc hact => ⟨hc.1.step hact,hstep c act c' hc.1 hc.2 hact⟩).2

/-- The loop is about to wait. -/
structure Idle (listenfd : ℕ) (s : State X) : Prop where
  kept : Kept s
  pending : s.pending = []
  second : s.second = none
  listens : (s.server.conn listenfd).At listenfd .acceptCb EPOLLIN

theorem start_idle (hopen : opened listenfd = true) : Idle listenfd (start opened listenfd : State X) := by
  refine ⟨start_kept hopen,rfl,rfl,?_⟩
  rw [start_conn hopen, if_pos rfl]
  exact Conn.watched_at ..

/-- Results for a test that runs no callback. -/
def noResults : Results := ⟨none,true,.fin,none,[]⟩

theorem noResults_fits (k : Epoll Ptr) : noResults.Fits k := ⟨nofun,nofun⟩

/-- One round of the loop that looks at the event `e` alone. -/
theorem Idle.round (happ : app.Lawful) (hs : Idle listenfd s) {e : Ready Ptr}
    (he : s.server.kernel.Reported e) {res₁ res₂ : Results} (h₁ : res₁.Fits s.server.kernel)
    (h₂ : res₂.Fits (test app EPOLLIN s.server e res₁).kernel) :
    let s' : State X := ⟨test app EPOLLOUT (test app EPOLLIN s.server e res₁) e res₂,[],none⟩
    Run (Step app) s [.wait [e],.testIn res₁,.testOut res₂] s' ∧ Kept s' := by
  intro s'
  have hreports : s.server.kernel.Reports [e] := by
    refine ⟨List.nodup_singleton _,fun e' he' => ?_⟩
    rw [List.mem_singleton.mp he']
    exact he
  have hwait : Step app s (.wait [e]) { s with pending := [e] } := .wait hs.pending hs.second hreports
  have hin : Step app { s with pending := [e] } (.testIn res₁)
      ⟨test app EPOLLIN s.server e res₁,[],some e⟩ := .testIn rfl hs.second h₁
  have hout : Step app ⟨test app EPOLLIN s.server e res₁,[],some e⟩ (.testOut res₂) s' :=
    .testOut rfl h₂
  have hrun : Run (Step app) s [.wait [e],.testIn res₁,.testOut res₂] s' :=
    .cons hwait (.cons hin (.cons hout .nil))
  refine ⟨hrun,hrun.invariant (P := Kept) hs.kept fun _ _ _ hs hstep => (hs.step happ hstep).1⟩

section Tests
variable {s : Server X} {fd events bit : ℕ} {callback : Callback}

theorem Conn.At.reported (h : (s.conn fd).At fd callback events) :
    s.kernel.Reported ⟨fd,events,slotOf fd⟩ := ⟨_,h.interest,rfl,id,id⟩

theorem Conn.At.test_fires (h : (s.conn fd).At fd callback events) (hbit : hasBit events bit)
    (res : Results) :
    test app bit s ⟨fd,events,slotOf fd⟩ res = call app s (s.conn fd).slot res := by
  have hslot : hasBit (s.reactor.slot (slotOf fd)).events bit := by
    change hasBit (s.conn fd).slot.events bit
    rwa [h.events]
  exact if_pos ⟨hbit,hslot⟩

theorem test_quiet (hbit : ¬ hasBit events bit) (data : Ptr) (res : Results) :
    test app bit s ⟨fd,events,data⟩ res = s := if_neg fun h => hbit h.1

end Tests

theorem Idle.changed (hs : Idle listenfd s) {server : Server X} {fd : ℕ} {c : Conn X}
    (hne : fd ≠ listenfd) (hkept : Kept (⟨server,[],none⟩ : State X))
    (hchanged : Changed s.server server fd c) : Idle listenfd (⟨server,[],none⟩ : State X) := by
  refine ⟨hkept,rfl,rfl,?_⟩
  change (server.conn listenfd).At listenfd .acceptCb EPOLLIN
  rw [hchanged.conn, update_of_ne hne.symm]
  exact hs.listens

/-- From `s` the loop can go on so that `c` is what belongs to `fd`, and the rest is as before. -/
def Reaches (app : App X) (listenfd : ℕ) (s : State X) (fd : ℕ) (c : Conn X) : Prop :=
  ∃ actions s', Run (Step app) s actions s' ∧ Idle listenfd s' ∧
    s'.server.conn = update s.server.conn fd c

section Realise
variable {fd : ℕ} {c : Conn X}

theorem Idle.accept (happ : app.Lawful) (hs : Idle listenfd s) (hne : fd ≠ listenfd) {fcntl : Bool}
    (hnew : s.server.kernel.opened fd = false)
    (h : Conn.Step app fd (s.server.conn fd) (.accept fcntl) c) : Reaches app listenfd s fd c := by
  obtain ⟨hfree,hstatus⟩ := (hs.kept.steady.mirrored fd).of_closed hnew
  obtain ⟨c',hstep,hchanged⟩ :=
    acceptCb_changed app hs.kept.steady.valid hnew hfree hstatus fcntl
  obtain rfl : c' = c := hstep.unique h
  have hfits : Results.Fits ⟨some fd,fcntl,.fin,none,[]⟩ s.server.kernel :=
    ⟨by rintro _ ⟨⟩; exact hnew,nofun⟩
  obtain ⟨hrun,hkept⟩ := hs.round happ hs.listens.reported hfits (noResults_fits _)
  rw [test_quiet (by decide), hs.listens.test_fires (by decide), hs.listens.call_accept]
    at hrun hkept
  exact ⟨_,_,hrun,hs.changed hne hkept hchanged,hchanged.conn⟩

theorem Idle.recv (happ : app.Lawful) (hs : Idle listenfd s) (hne : fd ≠ listenfd) {recv : Recv}
    (hat : (s.server.conn fd).At fd .recvCb EPOLLIN)
    (hbytes : ∀ bytes, recv = .data bytes → bytes ≠ [] ∧ bytes.length ≤ BUFFER_LENGTH)
    (h : Conn.Step app fd (s.server.conn fd) (.recv recv) c) : Reaches app listenfd s fd c := by
  obtain ⟨c',hstep,hchanged⟩ := recvCb_changed happ hs.kept.steady.valid hat hbytes
  obtain rfl : c' = c := hstep.unique h
  have hfits : Results.Fits ⟨none,true,recv,none,[]⟩ s.server.kernel := ⟨nofun,hbytes⟩
  obtain ⟨hrun,hkept⟩ := hs.round happ hat.reported hfits (noResults_fits _)
  rw [test_quiet (by decide), hat.test_fires (by decide), hat.call_recv] at hrun hkept
  exact ⟨_,_,hrun,hs.changed hne hkept hchanged,hchanged.conn⟩

theorem Idle.send (happ : app.Lawful) (hs : Idle listenfd s) (hne : fd ≠ listenfd)
    {send : Option ℕ} {rest : List ℕ} (hat : (s.server.conn fd).At fd .sendCb EPOLLOUT)
    (h : Conn.Step app fd (s.server.conn fd) (.send send rest) c) : Reaches app listenfd s fd c := by
  obtain ⟨c',hstep,hchanged⟩ := sendCb_changed happ hs.kept.steady.valid hat send rest
  obtain rfl : c' = c := hstep.unique h
  have hfits (k : Epoll Ptr) : Results.Fits ⟨none,true,.fin,send,rest⟩ k := ⟨nofun,nofun⟩
  obtain ⟨hrun,hkept⟩ := hs.round happ hat.reported (noResults_fits _) (hfits _)
  rw [test_quiet (s := s.server) (by decide), hat.test_fires (by decide), hat.call_send]
    at hrun hkept
  exact ⟨_,_,hrun,hs.changed hne hkept hchanged,hchanged.conn⟩

/-- Whatever can happen to a descriptor can be made to happen by one round of the loop. -/
theorem Idle.step (happ : app.Lawful) (hs : Idle listenfd s) (hne : fd ≠ listenfd) {act : Conn.Act}
    (h : Conn.Step app fd (s.server.conn fd) act c) : Reaches app listenfd s fd c := by
  cases h with
  | leak hnew => exact hs.accept happ hne hnew (.leak hnew)
  | accept hnew => exact hs.accept happ hne hnew (.accept hnew)
  | hear hat hbytes hle =>
    refine hs.recv happ hne hat ?_ (.hear hat hbytes hle)
    rintro _ ⟨⟩
    exact ⟨hbytes,hle⟩
  | fin hat => exact hs.recv happ hne hat (by rintro _ ⟨⟩) (.fin hat)
  | reset hat => exact hs.recv happ hne hat (by rintro _ ⟨⟩) (.reset hat)
  | stall hat herrno => exact hs.recv happ hne hat (by rintro _ ⟨⟩) (.stall hat herrno)
  | answer hat hpos => exact hs.send happ hne hat (.answer hat hpos)
  | drop hat hnot => exact hs.send happ hne hat (.drop hat hnot)

/-- Every run of a descriptor other than the listening one is the view of a run of the loop in which nothing
happens to the others. -/
theorem exists_run (happ : app.Lawful) (hopen : opened listenfd = true) (hne : fd ≠ listenfd)
    {acts : List Conn.Act}
    (h : Run (Conn.Step app fd) ⟨zeroEvent,opened fd,none,[]⟩ acts c) :
    ∃ actions s, Run (Step app) (start opened listenfd) actions s ∧ Idle listenfd s ∧
      s.server.conn = update (start opened listenfd : State X).server.conn fd c := by
  induction h with
  | nil =>
    have hconn : (start opened listenfd : State X).server.conn fd = ⟨zeroEvent,opened fd,none,[]⟩ := by
      rw [start_conn hopen, if_neg hne]
    refine ⟨[],_,.nil,start_idle hopen,?_⟩
    rw [← hconn, update_eq_self]
  | @snoc acts act c c' run last ih =>
    obtain ⟨actions,s,hrun,hs,hconn⟩ := ih
    have hlast : Conn.Step app fd (s.server.conn fd) act c' := by
      rwa [hconn, update_self]
    obtain ⟨actions',s',hrun',hs',hconn'⟩ := hs.step happ hne hlast
    refine ⟨actions ++ actions',s',hrun.append hrun',hs',?_⟩
    rw [hconn', hconn, update_idem]

/-- The logs of such a run. -/
theorem exists_run_log (happ : app.Lawful) (hopen : opened listenfd = true) (hne : fd ≠ listenfd)
    {acts : List Conn.Act}
    (h : Run (Conn.Step app fd) ⟨zeroEvent,opened fd,none,[]⟩ acts c) :
    ∃ actions s, Run (Step app) (start opened listenfd) actions s ∧ s.server.conn fd = c ∧
      ∀ fd' ≠ fd, (s.server.conn fd').log = [] := by
  obtain ⟨actions,s,hrun,-,hconn⟩ := exists_run happ hopen hne h
  refine ⟨actions,s,hrun,?_,fun fd' hfd' => ?_⟩
  · rw [hconn, update_self]
  · rw [hconn, update_of_ne hfd', start_conn hopen]
    split
    · rfl
    · rfl

end Realise
end ServerKit.Reactor
