import ServerKit.Io.Code

/-! What holds while the echo servers run: a connection with something to read is going to be told about,
is among the pending events, or is being read. -/
namespace ServerKit.Io
open Function ServerKit.Lib

/-- The three programs. -/
def programs : List Program := [serverEpoll,server1Epoll2,server1Epoll2Elif]

/-- An edge-triggered connection is read until it is empty, and a blocking one once for each event. -/
structure Program.Sound (p : Program) : Prop where
  reads : hasBit p.events EPOLLIN
  drains : hasBit p.events EPOLLET → p.sent = .again
  once : p.nonblocking = false → p.sent ≠ .again ∧ p.closed ≠ .again
  size : 0 < p.size

theorem programs_sound {p : Program} (hp : p ∈ programs) : p.Sound := by
  simp only [programs, List.mem_cons, List.not_mem_nil, or_false] at hp
  obtain rfl | rfl | rfl := hp
  · exact ⟨by decide,fun h => absurd h (by decide),fun _ => ⟨nofun,nofun⟩,by decide⟩
  · exact ⟨by decide,fun _ => rfl,nofun,by decide⟩
  · exact ⟨by decide,fun _ => rfl,nofun,by decide⟩

section Received
variable {p : Program} {k : Sockets} {cdfd count : ℕ} {took : Option ℕ} {r : Sockets × Flow}

/-- The stream behind a chunk that is sent back. -/
def echoed (s : Stream) (count : ℕ) (took : Option ℕ) : Stream where
  unread := s.unread.drop count
  ending := s.ending
  received := s.received ++ s.unread.take count
  sent := s.sent ++ (s.unread.take count).take (took.getD 0)

/-- What `received` does, by the result of `recv`. -/
inductive Handled (p : Program) (k : Sockets) (cdfd count : ℕ) (took : Option ℕ) : Sockets × Flow → Prop
  | gone (hopened : k.epoll.opened cdfd = false) : Handled p k cdfd count took (k,.exit 0)
  | data (hopened : k.epoll.opened cdfd = true) (hunread : (k.streams cdfd).unread ≠ []) :
      Handled p k cdfd count took (k.setStream cdfd (echoed (k.streams cdfd) count took),p.behindSend took)
  | closed (hopened : k.epoll.opened cdfd = true) (hunread : (k.streams cdfd).unread = [])
      (hending : (k.streams cdfd).ending = .closed) :
      Handled p k cdfd count took ((k.del cdfd).close cdfd,p.closed)
  | again (hopened : k.epoll.opened cdfd = true) (hready : ¬(k.streams cdfd).Ready) :
      Handled p k cdfd count took (k,p.empty)
  | failed (hopened : k.epoll.opened cdfd = true) (hunread : (k.streams cdfd).unread = [])
      (hending : (k.streams cdfd).ending = .broken) :
      Handled p k cdfd count took
        (k.setStream cdfd { k.streams cdfd with ending := .closed },.exit 0)

theorem received_handled (p : Program) (k : Sockets) (cdfd count : ℕ) (took : Option ℕ) :
    Handled p k cdfd count took (received p k cdfd count took) := by
  unfold received
  by_cases hopened : k.epoll.opened cdfd = false
  · rw [if_pos hopened]
    exact .gone hopened
  · rw [if_neg hopened]
    have hopened := eq_true_of_ne_false hopened
    have hreceives := (k.streams cdfd).receives count
    generalize (k.streams cdfd).recv count = result at hreceives
    cases hreceives with
    | data hunread => exact .data hopened hunread
    | again hunread hending =>
      refine .again hopened fun hready => ?_
      exact hready.elim (fun h => h hunread) fun h => h hending
    | closed hunread hending => exact .closed hopened hunread hending
    | failed hunread hending => exact .failed hopened hunread hending

@[simp] theorem went_sockets (s : State) (cdfd : ℕ) (r : Sockets × Flow) :
    (s.went cdfd r).sockets = r.1 := by
  obtain ⟨k,flow⟩ := r
  cases flow <;> rfl

@[simp] theorem went_pending (s : State) (cdfd : ℕ) (r : Sockets × Flow) :
    (s.went cdfd r).pending = s.pending := by
  obtain ⟨k,flow⟩ := r
  cases flow <;> rfl

/-- A process that goes on behind `send` got no SIGPIPE. -/
theorem behindSend_running {s : State} (h : (s.went cdfd (k,p.behindSend took)).exited = none) :
    p.behindSend took = p.sent := by
  cases took with
  | none => cases h
  | some n => rfl

end Received

/-- The process is going to look at `fd`. -/
def State.Noticed (s : State) (fd : ℕ) : Prop := fd ∈ s.pending.map Ready.fd ∨ s.cdfd = some fd

/-- What is said of a connection. An edge is not lost: it is marked in the kernel until `epoll_wait` tells
it, and then the process has it. -/
structure Fine (p : Program) (fd : ℕ) (noticed : Prop) (c : Sockets.Link) : Prop where
  opened : c.interest ≠ none → c.opened = true
  interest : ∀ i, c.interest = some i → i = ⟨p.events,fd⟩
  told : c.interest ≠ none → c.stream.Ready → hasBit p.events EPOLLET → c.marked = true ∨ noticed

/-- What is said of a pending event. -/
structure Awaits (lfd : ℕ) (k : Sockets) (e : Ready ℕ) : Prop where
  data : e.data = e.fd
  registered : (k.link e.fd).interest ≠ none
  ready : k.Ready lfd e.fd

/-- What is said of the connection that is read: it may be closed, but only if `recv` does not wait. -/
structure Reads (p : Program) (lfd : ℕ) (s : State) (cdfd : ℕ) : Prop where
  conn : cdfd ≠ lfd
  apart : cdfd ∉ s.pending.map Ready.fd
  registered : (s.sockets.link cdfd).opened = true → (s.sockets.link cdfd).interest ≠ none
  now : p.nonblocking = false →
    (s.sockets.link cdfd).opened = true ∧ (s.sockets.link cdfd).stream.Ready

structure Kept (p : Program) (lfd : ℕ) (s : State) : Prop where
  listens : (s.sockets.link lfd).interest = some ⟨EPOLLIN,lfd⟩
  opened : (s.sockets.link lfd).opened = true
  fine : ∀ fd, fd ≠ lfd → Fine p fd (s.Noticed fd) (s.sockets.link fd)
  nodup : (s.pending.map Ready.fd).Nodup
  pending : ∀ e ∈ s.pending, Awaits lfd s.sockets e
  reads : ∀ cdfd, s.cdfd = some cdfd → Reads p lfd s cdfd

section Steps
variable {p : Program} {lfd : ℕ} {s s' : State} {c c' : Sockets.Link} {fd : ℕ}

theorem Fine.noticed {noticed noticed' : Prop} (h : Fine p fd noticed c) (himp : noticed → noticed') :
    Fine p fd noticed' c :=
  ⟨h.opened,h.interest,fun hreg hready hedge => (h.told hreg hready hedge).imp_right himp⟩

/-- A connection that is not read any more, or that is read on. -/
theorem Fine.of_told {noticed noticed' : Prop} (h : Fine p fd noticed c) (hopened : c'.opened = c.opened)
    (hinterest : c'.interest = c.interest)
    (htold : c'.interest ≠ none → c'.stream.Ready → hasBit p.events EPOLLET →
      c'.marked = true ∨ noticed') : Fine p fd noticed' c' := by
  refine ⟨?_,?_,htold⟩
  · rw [hinterest, hopened]
    exact h.opened
  · rw [hinterest]
    exact h.interest

theorem Fine.of_none (hinterest : c.interest = none) (noticed : Prop) : Fine p fd noticed c := by
  refine ⟨fun hreg => absurd hinterest hreg,?_,fun hreg => absurd hinterest hreg⟩
  intro i hi
  cases hinterest.symm.trans hi

/-- What waits is open. -/
theorem Kept.pending_opened (h : Kept p lfd s) {e : Ready ℕ} (he : e ∈ s.pending) :
    (s.sockets.link e.fd).opened = true := by
  by_cases hfd : e.fd = lfd
  · rw [hfd]
    exact h.opened
  · exact (h.fine e.fd hfd).opened (h.pending e he).registered

theorem Kept.ne_of_new (h : Kept p lfd s) (hnew : s.sockets.epoll.opened fd = false) : fd ≠ lfd := by
  rintro rfl
  cases hnew.symm.trans h.opened

theorem Kept.free (h : Kept p lfd s) (hnew : s.sockets.epoll.opened fd = false) :
    s.sockets.epoll.interest fd = none := by
  by_contra hreg
  cases hnew.symm.trans ((h.fine fd (h.ne_of_new hnew)).opened hreg)

/-- Something has come that changes neither what is open nor what is registered. -/
theorem Kept.came (h : Kept p lfd s) {k : Sockets}
    (hopened : ∀ fd, (k.link fd).opened = (s.sockets.link fd).opened)
    (hinterest : ∀ fd, (k.link fd).interest = (s.sockets.link fd).interest)
    (hready : ∀ fd, s.sockets.Ready lfd fd → k.Ready lfd fd)
    (htold : ∀ fd, fd ≠ lfd → Fine p fd (s.Noticed fd) (k.link fd)) :
    Kept p lfd { s with sockets := k } := by
  refine ⟨?_,?_,htold,h.nodup,?_,?_⟩
  · exact (hinterest lfd).trans h.listens
  · exact (hopened lfd).trans h.opened
  · intro e he
    have hawaits := h.pending e he
    exact ⟨hawaits.data,(hinterest e.fd).trans_ne hawaits.registered,hready e.fd hawaits.ready⟩
  · intro cdfd hcdfd
    have hreads := h.reads cdfd hcdfd
    refine ⟨hreads.conn,hreads.apart,?_,fun hblocking => ?_⟩
    · rw [hopened, hinterest]
      exact hreads.registered
    · obtain ⟨hopen,hnow⟩ := hreads.now hblocking
      refine ⟨(hopened cdfd).trans hopen,?_⟩
      exact (Sockets.ready_iff hreads.conn).mp
        (hready cdfd ((Sockets.ready_iff hreads.conn).mpr hnow))

theorem Kept.connect (h : Kept p lfd s) : Kept p lfd { s with sockets := s.sockets.connect } :=
  h.came (fun _ => rfl) (fun _ => rfl) (fun _ => Sockets.ready_connect) h.fine

theorem Kept.queued (h : Kept p lfd s) (n : ℕ) (a : Arrival) :
    Kept p lfd { s with sockets := s.sockets.arriveQueued n a } :=
  h.came (fun _ => rfl) (fun _ => rfl) (fun _ hready => Sockets.ready_arriveQueued hready n a) h.fine

/-- New bytes set the mark again. -/
theorem Kept.arrive (h : Kept p lfd s) (fd : ℕ) (a : Arrival) :
    Kept p lfd { s with sockets := s.sockets.arrive fd a } := by
  have hlink := Sockets.link_arrive s.sockets fd a
  have hsame (fd' : ℕ) : ((s.sockets.arrive fd a).link fd').opened = (s.sockets.link fd').opened ∧
      ((s.sockets.arrive fd a).link fd').interest = (s.sockets.link fd').interest := by
    rw [hlink]
    by_cases hfd : fd' = fd
    · subst hfd
      rw [update_self]
      exact ⟨rfl,rfl⟩
    · rw [update_of_ne hfd]
      exact ⟨rfl,rfl⟩
  refine h.came (fun fd' => (hsame fd').1) (fun fd' => (hsame fd').2)
    (fun fd' hready => Sockets.ready_arrive hready fd a) fun fd' hfd' => ?_
  refine (h.fine fd' hfd').of_told (hsame fd').1 (hsame fd').2 ?_
  rw [hlink]
  by_cases hfd : fd' = fd
  · subst hfd
    rw [update_self]
    exact fun _ _ _ => .inl rfl
  · rw [update_of_ne hfd]
    exact (h.fine fd' hfd').told

/-- The marks that `epoll_wait` takes away are in the batch. -/
theorem Kept.wait (h : Kept p lfd s) (hcdfd : s.cdfd = none) (hpending : s.pending = [])
    {batch : List (Ready ℕ)} (hbatch : s.sockets.Reports lfd batch) :
    Kept p lfd { s with sockets := s.sockets.told batch, pending := batch } := by
  refine ⟨h.listens,h.opened,fun fd hfd => ?_,hbatch.reports.nodup,fun e he => ?_,fun cdfd hread => ?_⟩
  · refine (h.fine fd hfd).of_told rfl rfl fun hreg hready hedge => ?_
    rw [Sockets.link_told]
    obtain hmarked | hmem | hread := (h.fine fd hfd).told hreg hready hedge
    · by_cases hin : fd ∈ batch.map Ready.fd
      · exact .inr (.inl hin)
      · left
        dsimp only
        rw [Bool.and_eq_true, Bool.not_eq_true']
        exact ⟨hmarked,by simpa using hin⟩
    · rw [hpending] at hmem
      cases hmem
    · cases hcdfd.symm.trans hread
  · obtain ⟨i,hi,hdata,-⟩ := hbatch.reports.reported e he
    have hreg : (s.sockets.link e.fd).interest ≠ none := by
      rw [show (s.sockets.link e.fd).interest = some i from hi]
      nofun
    refine ⟨?_,hreg,(hbatch.due e he).ready⟩
    rw [hdata]
    by_cases hfd : e.fd = lfd
    · have hlisten := h.listens
      rw [← hfd] at hlisten
      obtain rfl := Option.some.inj (hi.symm.trans hlisten)
      rfl
    · rw [(h.fine e.fd hfd).interest i hi]
  · cases hcdfd.symm.trans hread

/-- The next event is taken up. -/
theorem Kept.event (h : Kept p lfd s) (hcdfd : s.cdfd = none) {e : Ready ℕ} {pending : List (Ready ℕ)}
    (hpending : s.pending = e :: pending) (hlfd : e.data ≠ lfd) :
    Kept p lfd { s with pending := pending, cdfd := some e.data } := by
  have hmem : e ∈ s.pending := hpending ▸ List.mem_cons_self
  have hawaits := h.pending e hmem
  have hnodup := h.nodup
  rw [hpending, List.map_cons, List.nodup_cons] at hnodup
  rw [hawaits.data] at hlfd ⊢
  refine ⟨h.listens,h.opened,fun fd hfd => ?_,hnodup.2,fun e' he' => ?_,fun cdfd hread => ?_⟩
  · refine (h.fine fd hfd).noticed ?_
    unfold State.Noticed
    rw [hpending, hcdfd, List.map_cons, List.mem_cons]
    rintro ((rfl | hin) | hread)
    · exact .inr rfl
    · exact .inl hin
    · cases hread
  · exact h.pending e' (hpending ▸ List.mem_cons_of_mem e he')
  · obtain rfl := Option.some.inj hread
    refine ⟨hlfd,hnodup.1,fun _ => hawaits.registered,fun _ => ?_⟩
    exact ⟨h.pending_opened hmem,(Sockets.ready_iff hlfd).mp hawaits.ready⟩

/-- What `accept` does when `epoll_ctl` grants the request. -/
theorem accepted_granted (hfree : s.sockets.epoll.interest fd = none) :
    accepted p s (some fd) true = { s with sockets := s.sockets.joined fd p.events } := by
  unfold accepted
  dsimp only
  rw [Sockets.add_granted hfree]
  exact congrArg _ (if_neg (show ¬(0 : ℤ) = -1 by decide))

theorem accepted_refused (cfd : Option ℕ) : (accepted p s cfd false).exited = some p.refused := by
  cases cfd with
  | none => rfl
  | some fd => exact if_pos Sockets.add_refused

theorem accepted_running {cfd : Option ℕ} {granted : Bool}
    (h : (accepted p s cfd granted).exited = none) : ∃ fd, cfd = some fd ∧ granted = true := by
  cases granted with
  | false => cases (accepted_refused cfd).symm.trans h
  | true =>
    cases cfd with
    | none => cases h
    | some fd => exact ⟨fd,rfl,rfl⟩

/-- The new connection is marked. The events that are left are of other descriptors. -/
theorem Kept.accept (h : Kept p lfd s) (hcdfd : s.cdfd = none) {e : Ready ℕ}
    {pending : List (Ready ℕ)} (hpending : s.pending = e :: pending) (hlfd : e.data = lfd)
    {cfd : ℕ} (hnew : s.sockets.epoll.opened cfd = false) :
    Kept p lfd { s with pending := pending, sockets := s.sockets.joined cfd p.events } := by
  have hlink := Sockets.link_joined s.sockets cfd p.events
  have hother {fd : ℕ} (hfd : (s.sockets.link fd).opened = true) :
      (s.sockets.joined cfd p.events).link fd = s.sockets.link fd := by
    rw [hlink]
    apply update_of_ne
    rintro rfl
    cases hnew.symm.trans hfd
  have hnodup := h.nodup
  rw [hpending, List.map_cons, List.nodup_cons] at hnodup
  have hfirst := (h.pending e (hpending ▸ List.mem_cons_self)).data.symm.trans hlfd
  refine ⟨?_,?_,fun fd hfd => ?_,hnodup.2,fun e' he' => ?_,fun cdfd hread => ?_⟩
  · dsimp only
    rw [hother h.opened]
    exact h.listens
  · dsimp only
    rw [hother h.opened]
    exact h.opened
  · dsimp only
    rw [hlink]
    by_cases heq : fd = cfd
    · subst heq
      rw [update_self]
      refine ⟨fun _ => rfl,fun i hi => ?_,fun _ _ _ => .inl rfl⟩
      exact (Option.some.inj hi).symm
    · rw [update_of_ne heq]
      refine (h.fine fd hfd).noticed ?_
      unfold State.Noticed
      rw [hpending, hcdfd, List.map_cons, List.mem_cons, hfirst]
      rintro ((rfl | hin) | hread)
      · exact absurd rfl hfd
      · exact .inl hin
      · cases hread
  · have hin : e' ∈ s.pending := hpending ▸ List.mem_cons_of_mem e he'
    have hawaits := h.pending e' hin
    have hconn : e'.fd ≠ lfd := by
      rw [← hfirst]
      intro heq
      exact hnodup.1 (heq ▸ List.mem_map_of_mem he')
    have hsame := hother (h.pending_opened hin)
    refine ⟨hawaits.data,?_,(Sockets.ready_iff hconn).mpr ?_⟩
    · dsimp only
      rw [hsame]
      exact hawaits.registered
    · dsimp only
      rw [hsame]
      exact (Sockets.ready_iff hconn).mp hawaits.ready
  · cases hcdfd.symm.trans hread

/-- Only the connection that is read has changed. -/
theorem Kept.read (h : Kept p lfd s) {cdfd : ℕ} (hcdfd : s.cdfd = some cdfd) {k : Sockets}
    (hlink : k.link = update s.sockets.link cdfd c) (hbacklog : k.backlog = s.sockets.backlog)
    {next : Option ℕ} (hnext : ∀ fd, next = some fd → fd = cdfd)
    (hfine : Fine p cdfd (next = some cdfd) c)
    (hreads : next = some cdfd → (c.opened = true → c.interest ≠ none) ∧ p.nonblocking = true) :
    Kept p lfd { s with sockets := k, cdfd := next } := by
  have hread := h.reads cdfd hcdfd
  have hother {fd : ℕ} (hfd : fd ≠ cdfd) : k.link fd = s.sockets.link fd := by
    rw [hlink, update_of_ne hfd]
  refine ⟨?_,?_,fun fd hfd => ?_,h.nodup,fun e he => ?_,fun fd hfd => ?_⟩
  · exact (congrArg _ (hother hread.conn.symm)).trans h.listens
  · exact (congrArg _ (hother hread.conn.symm)).trans h.opened
  · by_cases heq : fd = cdfd
    · subst heq
      dsimp only
      rw [hlink, update_self]
      exact hfine.noticed .inr
    · dsimp only
      rw [hother heq]
      refine (h.fine fd hfd).noticed ?_
      rintro (hin | hcdfd')
      · exact .inl hin
      · exact absurd (Option.some.inj (hcdfd'.symm.trans hcdfd)) heq
  · have hawaits := h.pending e he
    have hne : e.fd ≠ cdfd := fun heq => hread.apart (heq ▸ List.mem_map_of_mem he)
    refine ⟨hawaits.data,(congrArg _ (hother hne)).trans_ne hawaits.registered,?_⟩
    have hready := hawaits.ready
    unfold Sockets.Ready at hready ⊢
    split at hready
    · next hlfd =>
      rw [if_pos hlfd, hbacklog]
      exact hready
    · next hlfd =>
      rw [if_neg hlfd]
      exact (congrArg (fun c : Sockets.Link => c.stream.Ready) (hother hne)).mpr hready
  · obtain rfl := hnext fd hfd
    obtain ⟨hreg,hnonblocking⟩ := hreads hfd
    refine ⟨hread.conn,hread.apart,?_,fun hblocking => ?_⟩
    · dsimp only
      rw [hlink, update_self]
      exact hreg
    · cases hnonblocking.symm.trans hblocking

/-- The four ways in which the process goes on behind `recv`. -/
theorem Kept.recv (h : Kept p lfd s) (hp : p.Sound) {cdfd count : ℕ} {took : Option ℕ} (hcdfd : s.cdfd = some cdfd)
    (hnow : p.nonblocking = true ∨ s.sockets.epoll.opened cdfd = false ∨
      (s.sockets.streams cdfd).Ready)
    (hrunning : (s.went cdfd (received p s.sockets cdfd count took)).exited = none) :
    Kept p lfd (s.went cdfd (received p s.sockets cdfd count took)) := by
  have hread := h.reads cdfd hcdfd
  have hfine := h.fine cdfd hread.conn
  have hhandled := received_handled p s.sockets cdfd count took
  generalize received p s.sockets cdfd count took = r at hhandled hrunning
  have hblocking (hflow : p.nonblocking = false → False) : p.nonblocking = true :=
    eq_true_of_ne_false hflow
  cases hhandled with
  | gone => cases hrunning
  | failed => cases hrunning
  | data hopened hunread =>
    have hlink := Sockets.link_setStream s.sockets cdfd (echoed (s.sockets.streams cdfd) count took)
    have hsends := behindSend_running hrunning
    rw [hsends] at hrunning ⊢
    cases hsent : p.sent with
    | exit status =>
      rw [hsent] at hrunning
      cases hrunning
    | again =>
      refine h.read hcdfd hlink rfl (fun fd hfd => (Option.some.inj hfd).symm) ?_ fun _ => ?_
      · exact hfine.of_told rfl rfl fun _ _ _ => .inr rfl
      · exact ⟨hread.registered,hblocking fun hblock => (hp.once hblock).1 hsent⟩
    | next =>
      refine h.read hcdfd hlink rfl nofun ?_ nofun
      refine hfine.of_told rfl rfl fun _ _ hedge => ?_
      cases (hp.drains hedge).symm.trans hsent
  | closed hopened hunread hending =>
    rw [Sockets.del_close (hread.registered hopened)] at hrunning ⊢
    have hlink := Sockets.link_close s.sockets cdfd
    cases hclosed : p.closed with
    | exit status =>
      rw [hclosed] at hrunning
      cases hrunning
    | again =>
      refine h.read hcdfd hlink rfl (fun fd hfd => (Option.some.inj hfd).symm) (.of_none rfl _) fun _ => ?_
      exact ⟨nofun,hblocking fun hblock => (hp.once hblock).2 hclosed⟩
    | next => exact h.read hcdfd hlink rfl nofun (.of_none rfl _) nofun
  | again hopened hready =>
    have hlink : s.sockets.link = update s.sockets.link cdfd (s.sockets.link cdfd) :=
      (update_eq_self ..).symm
    cases hempty : p.empty with
    | exit status =>
      rw [hempty] at hrunning
      cases hrunning
    | again =>
      refine h.read hcdfd hlink rfl (fun fd hfd => (Option.some.inj hfd).symm) ?_ fun _ => ?_
      · exact hfine.of_told rfl rfl fun _ hready' => absurd hready' hready
      · refine ⟨hread.registered,hnow.resolve_right ?_⟩
        rintro (hclosed | hready')
        · cases hopened.symm.trans hclosed
        · exact hready hready'
    | next =>
      refine h.read hcdfd hlink rfl nofun ?_ nofun
      exact hfine.of_told rfl rfl fun _ hready' => absurd hready' hready

/-- A step of a process that still runs behind it. -/
theorem Kept.step (h : Kept p lfd s) (hp : p.Sound) {a : Action} (hstep : Step p lfd s a s')
    (hrunning : s'.exited = none) : Kept p lfd s' := by
  cases hstep with
  | connect => exact h.connect
  | queued => exact h.queued _ _
  | arrive => exact h.arrive _ _
  | wait _ hcdfd hpending hbatch => exact h.wait hcdfd hpending hbatch
  | event _ hcdfd hpending hlfd => exact h.event hcdfd hpending hlfd
  | recv _ hcdfd _ _ hnow => exact h.recv hp hcdfd hnow hrunning
  | @accept e pending cfd granted _ hcdfd hpending hlfd _ hnew =>
    obtain ⟨fd,rfl,rfl⟩ := accepted_running hrunning
    rw [accepted_granted (s := { s with pending := pending }) (h.free (hnew fd rfl))]
    exact h.accept hcdfd hpending hlfd (hnew fd rfl)

theorem start_kept (opened : ℕ → Bool) : Kept p lfd (start opened lfd) := by
  refine ⟨update_self lfd _ fun _ => none,?_,fun fd hfd => ?_,List.nodup_nil,nofun,nofun⟩
  · change (decide (lfd = lfd) || opened lfd) = true
    rw [decide_eq_true rfl, Bool.true_or]
  · exact .of_none (update_of_ne hfd _ fun _ => none) _

/-- An exit is the end. -/
theorem Step.running {a : Action} (hstep : Step p lfd s a s') (h : s'.exited = none) :
    s.exited = none := by
  cases hstep with
  | connect => exact h
  | queued => exact h
  | arrive => exact h
  | wait hrunning => exact hrunning
  | accept hrunning => exact hrunning
  | event hrunning => exact hrunning
  | recv hrunning => exact hrunning

theorem run_kept {opened : ℕ → Bool} {as : List Action} (hp : p.Sound)
    (h : Run (Step p lfd) (start opened lfd) as s) (hrunning : s.exited = none) : Kept p lfd s := by
  refine h.invariant (P := fun s => s.exited = none → Kept p lfd s) (fun _ => start_kept opened) ?_ hrunning
  intro s a s' hs hstep hrunning'
  exact (hs (hstep.running hrunning')).step hp hstep hrunning'

end Steps
end ServerKit.Io
