import ServerKit.ItemReactor.Conn

/-! The `events` of an item tell whether its descriptor is in the epoll set and for what, in every state
of every run and whatever requests the kernel refuses. -/
namespace ServerKit.ItemReactor
open Function ServerKit.Lib

section Events
variable {listenfd fd : ℕ} {s s' : Server} {e : Ready ℕ}

theorem Moved.steady (hs : Steady listenfd s) (h : Moved listenfd s s' fd) : Steady listenfd s' := by
  obtain ⟨c,hchanged⟩ := h.changed
  intro fd'
  by_cases hfd : fd' = fd
  · rw [hfd]
    exact h.settled
  · have hconn : s'.conn fd' = s.conn fd' := by rw [hchanged.conn, update_of_ne hfd]
    rw [hconn]
    exact ⟨(hs fd').mirrored,fun hacc hnone => hchanged.failed ((hs fd').live hacc hnone)⟩

/-- What was reported of another descriptor is still true. -/
theorem Moved.reported (h : Moved listenfd s s' fd) (he : s.kernel.Reported e) (hne : fd ≠ e.fd) :
    s'.kernel.Reported e := by
  obtain ⟨c,hchanged⟩ := h.changed
  have hconn : s'.conn e.fd = s.conn e.fd := by rw [hchanged.conn, update_of_ne hne.symm]
  exact he.congr (congrArg Conn.interest hconn)

theorem Steady.opened (hs : Steady listenfd s) (he : s.kernel.Reported e) :
    s.kernel.opened e.fd = true := by
  obtain ⟨i,hi,-⟩ := he
  refine (hs e.fd).mirrored.opened ?_
  change s.kernel.interest e.fd ≠ none
  rw [hi]
  exact Option.some_ne_none i

/-- What a reported event points to, and which of the two events it can be. -/
theorem Conn.At.reported {event : ℕ} (hat : (s.conn e.fd).At e.fd event) (he : s.kernel.Reported e) :
    (s.items e.data).fd = e.fd ∧ (s.items e.data).pointer event = some (callbackOf event) ∧
      (hasBit e.events EPOLLIN → hasBit (maskOf event) EPOLLIN) ∧
      (hasBit e.events EPOLLOUT → hasBit (maskOf event) EPOLLOUT) := by
  obtain ⟨i,hi,hdata,hin,hout⟩ := he
  obtain rfl : _ = i := Option.some.inj (hat.interest.symm.trans hi)
  rw [hdata]
  exact ⟨hat.fd,hat.pointer,hin,hout⟩

/-- No NULL pointer is called for a reported event, and what is changed belongs to its descriptor, or to
that of a new connection. -/
def Handled (listenfd : ℕ) (s : Server) (e : Ready ℕ) (first : Results) : Prop :=
  ∃ s₁, callIn listenfd s e first = some s₁ ∧
    ∀ second, ∃ s₂, callOut listenfd (s.items e.data).fd s₁ e second = some s₂ ∧
      ∃ fd, Moved listenfd s s₂ fd ∧ (fd = e.fd ∨ s.kernel.opened fd = false)

theorem Conn.At.handled_listens (hat : (s.conn e.fd).At e.fd ACCEPT_CB) (hs : Steady listenfd s)
    (he : s.kernel.Reported e) (hfd : e.fd = listenfd) {first : Results} (hfirst : first.Fits s.kernel) :
    Handled listenfd s e first := by
  obtain ⟨hitem,hcalled,-⟩ := hat.reported he
  have hlisten : (s.items e.data).fd = listenfd := hitem.trans hfd
  have hpointer : (s.items e.data).acceptcb = some .acceptCallback := hcalled
  unfold Handled callIn callOut
  simp only [if_pos hlisten, hpointer, call]
  refine ⟨_,rfl,fun second => ⟨_,rfl,?_⟩⟩
  cases haccept : first.accept with
  | none => exact ⟨e.fd,Moved.refl hs e.fd,.inl rfl⟩
  | some connfd =>
    have hnew := hfirst.fresh connfd haccept
    refine ⟨connfd,acceptCallback_moved hs hnew ?_ first.granted,.inr hnew⟩
    rintro rfl
    rw [← hfd, hs.opened he] at hnew
    cases hnew

theorem Conn.At.handled_reads (hat : (s.conn e.fd).At e.fd READ_CB) (hs : Steady listenfd s)
    (he : s.kernel.Reported e) (hne : e.fd ≠ listenfd) (first : Results) : Handled listenfd s e first := by
  obtain ⟨hitem,hcalled,-,hout⟩ := hat.reported he
  have hlisten : ¬ (s.items e.data).fd = listenfd := hitem.trans_ne hne
  have hnot : ¬ hasBit e.events EPOLLOUT := fun h => absurd (hout h) (by decide)
  have hpointer : (s.items e.data).readcb = some .readCallback := hcalled
  unfold Handled callIn callOut
  simp only [if_neg hlisten, if_neg hnot, hpointer, call]
  by_cases hin : hasBit e.events EPOLLIN
  · rw [if_pos hin, hitem]
    exact ⟨_,rfl,fun second => ⟨_,rfl,e.fd,readCallback_moved hs hat hne _ _,.inl rfl⟩⟩
  · rw [if_neg hin]
    exact ⟨_,rfl,fun second => ⟨_,rfl,e.fd,Moved.refl hs e.fd,.inl rfl⟩⟩

theorem Conn.At.handled_writes (hat : (s.conn e.fd).At e.fd WRITE_CB) (hs : Steady listenfd s)
    (he : s.kernel.Reported e) (hne : e.fd ≠ listenfd) (first : Results) : Handled listenfd s e first := by
  obtain ⟨hitem,hcalled,hin,-⟩ := hat.reported he
  have hlisten : ¬ (s.items e.data).fd = listenfd := hitem.trans_ne hne
  have hnot : ¬ hasBit e.events EPOLLIN := fun h => absurd (hin h) (by decide)
  have hpointer : (s.items e.data).writecb = some .writeCallback := hcalled
  unfold Handled callIn callOut
  simp only [if_neg hlisten, if_neg hnot]
  refine ⟨s,rfl,fun second => ?_⟩
  simp only [hpointer, call]
  by_cases hout : hasBit e.events EPOLLOUT
  · rw [if_pos hout, hitem]
    exact ⟨_,rfl,e.fd,writeCallback_moved hat hne _ _,.inl rfl⟩
  · rw [if_neg hout]
    exact ⟨_,rfl,e.fd,Moved.refl hs e.fd,.inl rfl⟩

theorem Steady.handled (hs : Steady listenfd s) (he : s.kernel.Reported e) {first : Results}
    (hfirst : first.Fits s.kernel) : Handled listenfd s e first := by
  cases (hs e.fd).mirrored with
  | out hinterest hevents =>
    obtain ⟨i,hi,-⟩ := he
    have hnone : s.kernel.interest e.fd = none := hinterest
    rw [hnone] at hi
    cases hi
  | listens hfd hat => exact hat.handled_listens hs he hfd hfirst
  | reads hne hat => exact hat.handled_reads hs he hne first
  | writes hne hat => exact hat.handled_writes hs he hne first

end Events

/-- What holds between two events. -/
structure Kept (listenfd : ℕ) (s : State) : Prop where
  steady : Steady listenfd s.server
  nodup : (s.pending.map Ready.fd).Nodup
  pending : ∀ e ∈ s.pending, s.server.kernel.Reported e

section Runs
variable {listenfd : ℕ} {opened : ℕ → Bool} {granted : Bool} {s s' : State} {a : Action}

theorem Kept.step (hs : Kept listenfd s) (h : Step listenfd s a s') : Kept listenfd s' := by
  cases h with
  | wait hpending hbatch => exact ⟨hs.steady,hbatch.nodup,hbatch.reported⟩
  | @event e pending first second s₁ s₂ hpending hfirst hin hsecond hout =>
    have he : s.server.kernel.Reported e := hs.pending e (by simp [hpending])
    obtain ⟨s₁',hin',hall⟩ := hs.steady.handled he hfirst
    obtain rfl : s₁' = s₁ := Option.some.inj (hin'.symm.trans hin)
    obtain ⟨s₂',hout',fd,hmoved,hfd⟩ := hall second
    obtain rfl : s₂' = s₂ := Option.some.inj (hout'.symm.trans hout)
    have hnodup := hs.nodup
    rw [hpending, List.map_cons, List.nodup_cons] at hnodup
    refine ⟨hmoved.steady hs.steady,hnodup.2,fun e' he' => ?_⟩
    have hreported : s.server.kernel.Reported e' := hs.pending e' (by simp [hpending,he'])
    exact hmoved.reported hreported (Ready.ne_of_pending hnodup.1 he' (hs.steady.opened hreported) hfd).symm

/-- An event that was reported can be handled, whatever the system calls return. -/
theorem Kept.exists_step (hs : Kept listenfd s) {e : Ready ℕ} {pending : List (Ready ℕ)}
    (hpending : s.pending = e :: pending) {first second : Results} (hfirst : first.Fits s.server.kernel)
    (hsecond : ∀ k, second.Fits k) : ∃ s', Step listenfd s (.event first second) s' := by
  have he : s.server.kernel.Reported e := hs.pending e (by simp [hpending])
  obtain ⟨s₁,hin,hall⟩ := hs.steady.handled he hfirst
  obtain ⟨s₂,hout,-⟩ := hall second
  exact ⟨_,.event hpending hfirst hin (hsecond _) hout⟩

theorem start_kept (opened : ℕ → Bool) (listenfd : ℕ) (granted : Bool) :
    Kept listenfd (start opened listenfd granted) := by
  refine ⟨fun fd => ?_,List.nodup_nil,nofun⟩
  have hnone : ((boot opened).conn listenfd).interest = none := rfl
  have hnoset : ((boot opened).conn listenfd).item.events = NOSET_CB := rfl
  obtain ⟨c,hc,hchanged,-⟩ := nreactorSetEvent_changed ACCEPT_CB granted (absurd hnone)
    ⟨fun _ => hnoset,fun _ => hnone⟩
  have hconn : (start opened listenfd granted).server.conn = _ := hchanged.conn
  rw [hconn]
  by_cases hfd : fd = listenfd
  · subst hfd
    rw [update_self]
    obtain rfl | ⟨hopened,rfl⟩ := hc
    · exact ⟨.out rfl rfl,nofun⟩
    · exact ⟨.listens rfl (Conn.registered_at (.inr (.inr rfl)) hopened),nofun⟩
  · rw [update_of_ne hfd]
    exact ⟨.out rfl rfl,nofun⟩

theorem run_kept {actions : List Action}
    (h : Run (Step listenfd) (start opened listenfd granted) actions s) : Kept listenfd s :=
  h.invariant (P := Kept listenfd) (start_kept opened listenfd granted) fun _ _ _ hs hstep => hs.step hstep

/-- The pointer that the loop calls for an event of a registered descriptor. -/
def selected (listenfd : ℕ) (item : Nitem) (events : ℕ) : Option Callback :=
  if item.fd = listenfd then item.acceptcb
  else if hasBit events EPOLLIN then item.readcb
  else item.writecb

/-- What the items tell about the epoll set. -/
structure Registered (listenfd : ℕ) (s : Server) : Prop where
  unset : ∀ fd, (s.items fd).events = NOSET_CB ↔ s.kernel.interest fd = none
  mask : ∀ fd i, s.kernel.interest fd = some i →
    (s.items fd).events = WRITE_CB ∧ i.events = EPOLLOUT ∨
      ((s.items fd).events = READ_CB ∨ (s.items fd).events = ACCEPT_CB) ∧ i.events = EPOLLIN
  fd : ∀ fd i, s.kernel.interest fd = some i → i.data = fd ∧ (s.items fd).fd = fd
  callback : ∀ fd i, s.kernel.interest fd = some i →
    selected listenfd (s.items fd) i.events = some (callbackOf (s.items fd).events)
  accepted : (∀ fd, (.add,fd) ∉ s.kernel.failed) →
    ∀ fd, s.accepted fd = true → s.kernel.interest fd ≠ none

/-- What is registered, and for which event of the item. -/
theorem Steady.registered {s : Server} {fd : ℕ} {i : Interest ℕ} (hs : Steady listenfd s)
    (hi : s.kernel.interest fd = some i) : i = ⟨maskOf (s.items fd).events,fd⟩ ∧
      (s.items fd).fd = fd ∧ IsPhase (s.items fd).events ∧
      selected listenfd (s.items fd) i.events = some (callbackOf (s.items fd).events) := by
  have hat {event : ℕ} (h : IsPhase event) (hat : (s.conn fd).At fd event)
      (hselected : selected listenfd (s.items fd) (maskOf event) = (s.items fd).pointer event) :
      i = ⟨maskOf (s.items fd).events,fd⟩ ∧ (s.items fd).fd = fd ∧ IsPhase (s.items fd).events ∧
        selected listenfd (s.items fd) i.events = some (callbackOf (s.items fd).events) := by
    have hevents : (s.items fd).events = event := hat.events
    obtain rfl : _ = i := Option.some.inj (hat.interest.symm.trans hi)
    rw [hevents]
    exact ⟨rfl,hat.fd,h,hselected.trans hat.pointer⟩
  cases (hs fd).mirrored with
  | out hinterest => cases hinterest.symm.trans hi
  | listens hfd hc => exact hat (.inr (.inr rfl)) hc (if_pos (hc.fd.trans hfd))
  | reads hne hc =>
    refine hat (.inl rfl) hc ((if_neg ?_).trans (if_pos (by decide)))
    exact fun h => hne (hc.fd.symm.trans h)
  | writes hne hc =>
    refine hat (.inr (.inl rfl)) hc ((if_neg ?_).trans (if_neg (by decide)))
    exact fun h => hne (hc.fd.symm.trans h)

theorem run_registered {actions : List Action}
    (h : Run (Step listenfd) (start opened listenfd granted) actions s) :
    Registered listenfd s.server := by
  have hs := (run_kept h).steady
  refine ⟨fun fd => (hs fd).mirrored.unset.symm,fun fd i hi => ?_,fun fd i hi => ?_,
    fun fd i hi => (hs.registered hi).2.2.2,fun hadd fd hacc hnone => ?_⟩
  · obtain ⟨rfl,-,hphase,-⟩ := hs.registered hi
    obtain hevents | hevents | hevents := hphase
    · exact .inr ⟨.inl hevents,congrArg maskOf hevents⟩
    · exact .inl ⟨hevents,congrArg maskOf hevents⟩
    · exact .inr ⟨.inr hevents,congrArg maskOf hevents⟩
  · obtain ⟨rfl,hfd,-⟩ := hs.registered hi
    exact ⟨rfl,hfd⟩
  · exact hadd fd ((hs fd).live hacc hnone)

/-- In every state of a run neither of the two calls for the next event goes through a null pointer, whatever is
reported and whatever the system calls return. -/
theorem run_calls {actions : List Action} (h : Run (Step listenfd) (start opened listenfd granted) actions s)
    {e : Ready ℕ} {pending : List (Ready ℕ)} (hpending : s.pending = e :: pending) {first : Results}
    (hfirst : first.Fits s.server.kernel) : ∃ s₁, callIn listenfd s.server e first = some s₁ ∧
      ∀ second, ∃ s₂, callOut listenfd (s.server.items e.data).fd s₁ e second = some s₂ := by
  have hkept := run_kept h
  have he : s.server.kernel.Reported e := by
    apply hkept.pending
    rw [hpending]
    exact List.mem_cons_self
  obtain ⟨s₁,hin,hall⟩ := hkept.steady.handled he hfirst
  refine ⟨s₁,hin,fun second => ?_⟩
  obtain ⟨s₂,hout,-⟩ := hall second
  exact ⟨s₂,hout⟩

/-- The item of the listening descriptor has no reader and no writer, and its event is handled. -/
theorem run_calls_listening : ∃ actions s, Run (Step 3) (start (fun fd => fd == 3) 3 true) actions s ∧
    s.pending = [⟨3,EPOLLIN,3⟩] ∧ (s.server.items 3).readcb = none ∧ (s.server.items 3).writecb = none ∧
      ∃ s₁, callIn 3 s.server ⟨3,EPOLLIN,3⟩ ⟨true,some 5,none,0⟩ = some s₁ ∧
        ∀ second, ∃ s₂, callOut 3 (s.server.items 3).fd s₁ ⟨3,EPOLLIN,3⟩ second = some s₂ := by
  have hnil : Run (Step 3) (start (fun fd => fd == 3) 3 true) [] _ := .nil
  have hwait := hnil.snoc (l := .wait [⟨3,EPOLLIN,3⟩]) (.wait rfl (Epoll.reports_one rfl rfl))
  have hfits : Results.Fits ⟨true,some 5,none,0⟩ (start (fun fd => fd == 3) 3 true).server.kernel :=
    ⟨by rintro _ ⟨⟩; rfl,by rintro _ ⟨⟩; decide,nofun⟩
  exact ⟨_,_,hwait,rfl,rfl,rfl,run_calls hwait rfl hfits⟩

/-- The first connection gets the descriptor `5`. -/
theorem run_registered_accept : ∃ s, Run (Step 3) (start (fun fd => fd == 3) 3 true)
    [.wait [⟨3,EPOLLIN,3⟩],.event ⟨true,some 5,none,0⟩ ⟨true,none,none,0⟩] s ∧
      Registered 3 s.server := by
  have hkept : Kept 3 (start (fun fd => fd == 3) 3 true) := start_kept ..
  have hreports : (start (fun fd => fd == 3) 3 true).server.kernel.Reports [⟨3,EPOLLIN,3⟩] :=
    Epoll.reports_one rfl rfl
  have hwait : Step 3 (start (fun fd => fd == 3) 3 true) (.wait [⟨3,EPOLLIN,3⟩]) _ := .wait rfl hreports
  have hfits : Results.Fits ⟨true,some 5,none,0⟩ (start (fun fd => fd == 3) 3 true).server.kernel :=
    ⟨by rintro _ ⟨⟩; rfl,by rintro _ ⟨⟩; decide,nofun⟩
  have hsecond (k : Epoll ℕ) : Results.Fits ⟨true,none,none,0⟩ k := ⟨nofun,nofun,nofun⟩
  obtain ⟨s,hevent⟩ := (hkept.step hwait).exists_step rfl hfits hsecond
  have hrun : Run (Step 3) (start (fun fd => fd == 3) 3 true) _ s := (Run.nil.snoc hwait).snoc hevent
  exact ⟨s,hrun,run_registered hrun⟩

end Runs
end ServerKit.ItemReactor
