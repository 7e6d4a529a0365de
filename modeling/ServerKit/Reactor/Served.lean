import ServerKit.Reactor.Http
import ServerKit.Reactor.Single
import ServerKit.Reactor.Websocket

/-! Two questions about the epoll set: whether it is what the events say, and whether every connection
that is open is in it. -/
namespace ServerKit.Reactor
open Function ServerKit.Lib

section Orphans
variable {X : Type} {app : App X}

/-- In all system calls of the action `fcntl` succeeds. -/
def Action.FcntlOk (a : Action) : Prop := ∀ res ∈ a.results, res.fcntl = true

def StepOk [Zero X] (app : App X) (s : State X) (a : Action) (s' : State X) : Prop :=
  Step app s a s' ∧ a.FcntlOk

/-- An open connection is registered, to be read or to be answered. -/
def Served [Zero X] (s : Server X) : Prop :=
  ∀ fd, (s.conn fd).connected = true →
    (s.conn fd).At fd .recvCb EPOLLIN ∨ (s.conn fd).At fd .sendCb EPOLLOUT

section Local
variable {fd : ℕ} {c c' : Conn X} {act : Conn.Act}

theorem Conn.Step.served (h : Conn.Step app fd c act c') (hleak : act ≠ .accept false)
    (hstall : ¬ act.Stalls) (hlive : c'.connected = true) :
    c'.At fd .recvCb EPOLLIN ∨ c'.At fd .sendCb EPOLLOUT := by
  cases h with
  | leak hnew => exact absurd rfl hleak
  | accept hnew => exact .inl (accepted_at fd c)
  | hear hat hne hle => exact .inr (hat.heard app _)
  | fin hat => cases hlive
  | reset hat => cases hlive
  | stall hat hne => exact absurd hne hstall
  | answer hat hpos => exact .inl (hat.answered ..)
  | drop hat hnot => cases hlive

/-- A stalled connection is open and not registered. -/
theorem Conn.Step.stalled (h : Conn.Step app fd c act c') (hc : c.Mirrored fd) (hstall : act.Stalls) :
    c'.connected = true ∧ c'.interest = none := by
  cases h with
  | stall hat hne =>
    refine ⟨?_,rfl⟩
    cases hc with
    | out hinterest hstatus => cases hinterest.symm.trans hat.interest
    | listens h hlog => cases h.callback.symm.trans hat.callback
    | receives h hlive => exact hlive
    | sends h hlive => exact hlive
  | reset hat => exact absurd rfl hstall
  | leak => cases hstall
  | accept => cases hstall
  | hear => cases hstall
  | fin => cases hstall
  | answer => cases hstall
  | drop => cases hstall

end Local

variable [Zero X] {s s' : State X} {a : Action} {m : Option (ℕ × Conn.Act)}

theorem Moved.served (h : Moved app s a s' m) (hfcntl : a.FcntlOk) (hs : Served s.server)
    (hnot : ¬ StallsAt s a) : Served s'.server := by
  intro fd
  have hmove := h.move
  cases hmove with
  | idle heq =>
    rw [heq]
    exact hs fd
  | @act fd' act c step changed =>
    rw [changed.conn]
    by_cases hfd : fd = fd'
    · subst hfd
      rw [update_self]
      refine step.served (fun hleak => h.leak hfcntl fd (by rw [hleak])) fun hstall => ?_
      exact hnot (h.stall.mp ⟨_,rfl,hstall⟩)
    · rw [update_of_ne hfd]
      exact hs fd

theorem Moved.orphaned (h : Moved app s a s' m) (hkept : Kept s) (hstall : StallsAt s a) :
    ¬ Served s'.server := by
  intro hs
  obtain ⟨x,hx,hx'⟩ := h.stall.mpr hstall
  have hmove := h.move
  cases hmove with
  | idle heq => cases hx
  | @act fd act c step changed =>
    cases hx
    obtain ⟨hlive,hinterest⟩ := step.stalled (hkept.steady.mirrored fd) hx'
    have hserved := hs fd
    rw [changed.conn, update_self] at hserved
    obtain hat | hat := hserved hlive
    · cases hinterest.symm.trans hat.interest
    · cases hinterest.symm.trans hat.interest

theorem trace_served_iff (happ : app.Lawful) {opened : ℕ → Bool} {listenfd : ℕ}
    (hopen : opened listenfd = true) {steps : List (State X × Action)}
    (h : Trace (StepOk app) (start opened listenfd) steps s) :
    ((∀ x ∈ steps, Served x.1.server) ∧ Served s.server) ↔ ∀ x ∈ steps, ¬ StallsAt x.1 x.2 := by
  refine h.always_iff (I := Kept) (P := fun s => Served s.server) (start_kept hopen) ?_ ?_ ?_ ?_
  · intro fd hlive
    rw [start_conn hopen] at hlive
    split at hlive <;> cases hlive
  · intro s a s' hs hstep
    exact (hs.step happ hstep.1).1
  · intro s a s' hs hserved hnot hstep
    obtain ⟨-,m,hmoved⟩ := hs.step happ hstep.1
    exact hmoved.served hstep.2 hserved hnot
  · intro s a s' hs hstall hstep
    obtain ⟨-,m,hmoved⟩ := hs.step happ hstep.1
    exact hmoved.orphaned hs hstall

end Orphans

section Exchange

/-- A trace of the HTTP server without a file, from its start on the listening descriptor `3`: `fcntl` succeeds
and no `recv` fails. -/
def Smooth (steps : List (State Http.Fields × Action)) (s : State Http.Fields) : Prop :=
  Trace (StepOk (Http.app fun _ => none)) (start (fun fd => fd == 3) 3) steps s ∧
    ∀ x ∈ steps, ¬ StallsAt x.1 x.2

section Smooth
variable {steps : List (State Http.Fields × Action)} {s s' : State Http.Fields} {a : Action}

theorem Smooth.snoc (h : Smooth steps s) (hstep : StepOk (Http.app fun _ => none) s a s')
    (hstall : ¬ StallsAt s a) : Smooth (steps ++ [(s,a)]) s' := by
  refine ⟨h.1.snoc hstep,fun x hx => ?_⟩
  obtain hx | hx := List.mem_append.mp hx
  · exact h.2 x hx
  · obtain rfl := List.mem_singleton.mp hx
    exact hstall

theorem Smooth.wait {events : ℕ} (h : Smooth steps s) (fd : ℕ) (hpending : s.pending = [])
    (hsecond : s.second = none) (hi : s.server.kernel.interest fd = some ⟨events,slotOf fd⟩) :
    Smooth (steps ++ [(s,.wait [⟨fd,events,slotOf fd⟩])]) { s with pending := [⟨fd,events,slotOf fd⟩] } := by
  have hreports : s.server.kernel.Reports [⟨fd,events,slotOf fd⟩] := by
    refine ⟨List.nodup_singleton _,fun e he => ?_⟩
    rw [List.mem_singleton.mp he]
    exact ⟨_,hi,rfl,id,id⟩
  exact h.snoc ⟨.wait hpending hsecond hreports,nofun⟩ not_false

theorem Smooth.testIn {e : Ready Ptr} {r : Results} (h : Smooth steps s) (hpending : s.pending = [e])
    (hsecond : s.second = none) (hfits : r.Fits s.server.kernel) (hfcntl : r.fcntl = true)
    (hrecv : ∀ errno, r.recv ≠ .error errno) :
    Smooth (steps ++ [(s,.testIn r)]) ⟨test (Http.app fun _ => none) EPOLLIN s.server e r,[],some e⟩ := by
  refine h.snoc ⟨.testIn hpending hsecond hfits,?_⟩ ?_
  · rintro _ ⟨⟩
    exact hfcntl
  · rintro ⟨-,-,-,-,-,errno,herror,-⟩
    exact hrecv errno herror

theorem Smooth.testOut {e : Ready Ptr} {r : Results} (h : Smooth steps s) (hsecond : s.second = some e)
    (hfits : r.Fits s.server.kernel) (hfcntl : r.fcntl = true) :
    Smooth (steps ++ [(s,.testOut r)])
      ⟨test (Http.app fun _ => none) EPOLLOUT s.server e r,s.pending,none⟩ := by
  refine h.snoc ⟨.testOut hsecond hfits,?_⟩ not_false
  rintro _ ⟨⟩
  exact hfcntl

end Smooth

set_option maxRecDepth 8000 in
/-- The descriptor `5` is accepted and has sent a request; later it has got the page, and it is closed. -/
theorem exists_exchange :
    (∃ steps s, Smooth steps s ∧ s.server.kernel.interest 5 = some ⟨EPOLLOUT,slotOf 5⟩) ∧
    ∃ steps s, Smooth steps s ∧ ∃ request ext offered,
      s.server.log 5 = [.closed,.reply (some 1024) [0,2] offered,.message request ext,.accepted] := by
  have hstart : Smooth [] (start (fun fd => fd == 3) 3) := ⟨.nil,List.forall_mem_nil _⟩
  have hlisten := hstart.wait 3 rfl rfl rfl
  have haccept := hlisten.testIn (r := ⟨some 5,true,.fin,none,[]⟩) rfl rfl
    ⟨by rintro _ ⟨⟩; rfl,nofun⟩ rfl nofun
  have haccepted := haccept.testOut rfl (noResults_fits _) rfl
  have hbytes := haccepted.wait 5 rfl rfl rfl
  have hrecv := hbytes.testIn (r := ⟨none,true,.data (bytes "GET / HTTP/1.1\r\n\r\n"),none,[]⟩) rfl rfl
    ⟨nofun,by rintro _ ⟨⟩; decide⟩ rfl nofun
  have hheard := hrecv.testOut rfl (noResults_fits _) rfl
  have hwritable := hheard.wait 5 rfl rfl rfl
  have hunread := hwritable.testIn rfl rfl (noResults_fits _) rfl nofun
  have hreply := hunread.testOut (r := ⟨none,true,.fin,some 1024,[0,2]⟩) rfl ⟨nofun,nofun⟩ rfl
  have hended := hreply.wait 5 rfl rfl rfl
  have hclose := hended.testIn (r := ⟨none,true,.fin,none,[]⟩) rfl rfl ⟨nofun,nofun⟩ rfl nofun
  exact ⟨⟨_,_,hheard,rfl⟩,_,_,hclose.testOut rfl (noResults_fits _) rfl,_,_,_,rfl⟩

theorem Smooth.run {steps : List (State Http.Fields × Action)} {s : State Http.Fields} (h : Smooth steps s) :
    Run (Step (Http.app fun _ => none)) (start (fun fd => fd == 3) 3) (steps.map Prod.snd) s :=
  h.1.run.mono fun _ _ _ hstep => hstep.1

end Exchange

section Results
variable {opened : ℕ → Bool} {listenfd : ℕ}

/-- In both servers the epoll set mirrors the events, whatever the system calls return. -/
theorem run_mirror (hopen : opened listenfd = true) :
    (∀ files actions s, Run (Step (Http.app files)) (start opened listenfd) actions s →
      Mirror s.server) ∧
    ∀ sha1 base64 actions s, Run (Step (Websocket.app sha1 base64)) (start opened listenfd) actions s →
      Mirror s.server :=
  ⟨fun files _ _ h => (run_kept (Http.app_lawful files) hopen h).steady.mirror,
    fun sha1 base64 _ _ h => (run_kept (Websocket.app_lawful sha1 base64) hopen h).steady.mirror⟩

theorem run_mirror_exchange :
    (∃ actions s, Run (Step (Http.app fun _ => none)) (start (fun fd => fd == 3) 3) actions s ∧
      s.server.kernel.interest 5 = some ⟨EPOLLOUT,slotOf 5⟩ ∧ Mirror s.server) ∧
    ∃ actions s, Run (Step (Http.app fun _ => none)) (start (fun fd => fd == 3) 3) actions s ∧
      (∃ request ext offered,
        s.server.log 5 = [.closed,.reply (some 1024) [0,2] offered,.message request ext,.accepted]) ∧
      Mirror s.server := by
  obtain ⟨⟨steps,s,h,hinterest⟩,steps',s',h',hlog⟩ := exists_exchange
  have hmirror := (@run_mirror (fun fd => fd == 3) 3 rfl).1 fun _ => none
  exact ⟨⟨_,s,h.run,hinterest,hmirror _ s h.run⟩,_,s',h'.run,hlog,hmirror _ s' h'.run⟩

/-- No connection is left open and unregistered, unless `recv` has failed in the receive callback with an
error other than a reset. -/
theorem served_iff (hopen : opened listenfd = true) :
    (∀ files steps s, Trace (StepOk (Http.app files)) (start opened listenfd) steps s →
      (((∀ x ∈ steps, Served x.1.server) ∧ Served s.server) ↔ ∀ x ∈ steps, ¬ StallsAt x.1 x.2)) ∧
    ∀ sha1 base64 steps s, Trace (StepOk (Websocket.app sha1 base64)) (start opened listenfd) steps s →
      (((∀ x ∈ steps, Served x.1.server) ∧ Served s.server) ↔ ∀ x ∈ steps, ¬ StallsAt x.1 x.2) :=
  ⟨fun files _ _ h => trace_served_iff (Http.app_lawful files) hopen h,
    fun sha1 base64 _ _ h => trace_served_iff (Websocket.app_lawful sha1 base64) hopen h⟩

theorem served_iff_exchange : ∃ steps s, Smooth steps s ∧ (∃ request ext offered,
      s.server.log 5 = [.closed,.reply (some 1024) [0,2] offered,.message request ext,.accepted]) ∧
    (∀ x ∈ steps, Served x.1.server) ∧ Served s.server := by
  obtain ⟨-,steps,s,⟨h,hstall⟩,hlog⟩ := exists_exchange
  exact ⟨steps,s,⟨h,hstall⟩,hlog,((served_iff rfl).1 (fun _ => none) steps s h).mpr hstall⟩

/-- The descriptor `5` is accepted, and `recv` finds nothing to read: the connection stays open and is
in the epoll set no more. -/
theorem orphaned_again : ∃ actions s,
    Run (StepOk (Http.app fun _ => none)) (start (fun fd => fd == 3) 3) actions s ∧
      ¬ Served s.server ∧ s.server.kernel.opened 5 = true ∧ s.server.kernel.interest 5 = none := by
  have hfcntl (res : Results) (h : res.fcntl = true) : (Action.testIn res).FcntlOk := by
    rintro _ ⟨⟩
    exact h
  have hreports {k : Epoll Ptr} {fd : ℕ} (hi : k.interest fd = some ⟨EPOLLIN,(0,fd)⟩) :
      k.Reports [⟨fd,EPOLLIN,(0,fd)⟩] :=
    ⟨List.nodup_singleton _,by simp [Epoll.Reported,hi]⟩
  refine ⟨[.wait [⟨3,EPOLLIN,(0,3)⟩],.testIn ⟨some 5,true,.fin,none,[]⟩,.testOut noResults,
    .wait [⟨5,EPOLLIN,(0,5)⟩],.testIn ⟨none,true,.error EAGAIN,none,[]⟩],_,
    .cons ⟨.wait rfl rfl (hreports ?_),nofun⟩
      (.cons ⟨.testIn rfl rfl ?_,hfcntl _ rfl⟩
        (.cons ⟨.testOut rfl (noResults_fits _),?_⟩
          (.cons ⟨.wait rfl rfl (hreports ?_),nofun⟩
            (.cons ⟨.testIn rfl rfl ⟨nofun,nofun⟩,hfcntl _ rfl⟩ .nil)))),?_,?_,?_⟩
  · rfl
  · exact ⟨by rintro _ ⟨⟩; rfl,nofun⟩
  · rintro _ ⟨⟩
    rfl
  · rfl
  · intro hserved
    obtain hat | hat := hserved 5 rfl
    · cases hat.interest
    · cases hat.interest
  · rfl
  · rfl

end Results
end ServerKit.Reactor
