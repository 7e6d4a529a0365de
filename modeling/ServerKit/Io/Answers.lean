import ServerKit.Io.Crowd

/-! The echo servers lose no event: when they wait for good, everything is read. And they send back what they
read exactly as long as `send` takes all of it. -/
namespace ServerKit.Io
open Function ServerKit.Lib

/-- `send` does not take the whole chunk. -/
def Short (s : State) : Action → Prop
  | .recv count took => ∃ cdfd, s.cdfd = some cdfd ∧ s.sockets.epoll.opened cdfd = true ∧
      took.getD 0 < ((s.sockets.streams cdfd).unread.take count).length
  | _ => False

section Waiting
variable {p : Program} {lfd : ℕ} {opened : ℕ → Bool} {as : List Action} {s : State}

/-- A connection that has something is told of, for its edge is marked. -/
theorem Kept.due (h : Kept p lfd s) (hp : p.Sound) (hwaits : s.Waits) {fd : ℕ} (hfd : fd ≠ lfd)
    (hreg : (s.sockets.link fd).interest ≠ none) (hready : (s.sockets.streams fd).Ready) :
    s.sockets.Due lfd fd := by
  obtain ⟨i,hi⟩ := Option.ne_none_iff_exists'.mp hreg
  obtain rfl := (h.fine fd hfd).interest i hi
  refine .intro hi hp.reads (fun hedge => ?_) ((Sockets.ready_iff hfd).mpr hready)
  obtain hmarked | hmem | hread := (h.fine fd hfd).told hreg hready hedge
  · exact hmarked
  · rw [hwaits.pending] at hmem
    cases hmem
  · cases hwaits.cdfd.symm.trans hread

theorem Kept.due_backlog (h : Kept p lfd s) (hbacklog : s.sockets.backlog ≠ []) : s.sockets.Due lfd lfd := by
  refine .intro h.listens (by decide) (fun hedge => absurd hedge (show ¬hasBit EPOLLIN EPOLLET by decide)) ?_
  unfold Sockets.Ready
  rwa [if_pos rfl]

/-- No event is lost: when the process waits and nothing can be told to it, it has accepted every client,
read every byte and closed every connection whose client has gone. -/
theorem idle_answered (hp : p ∈ programs) (h : Run (Step p lfd) (start opened lfd) as s)
    (hidle : s.Idle lfd) :
    s.sockets.backlog = [] ∧
      ∀ fd, fd ≠ lfd → (s.sockets.link fd).interest ≠ none → (s.sockets.streams fd).Answered := by
  have hkept := run_kept (programs_sound hp) h hidle.waits.running
  constructor
  · by_contra hbacklog
    exact hidle.quiet lfd (hkept.due_backlog hbacklog)
  · intro fd hfd hreg
    apply Stream.Answered.of_not_ready
    intro hready
    exact hidle.quiet fd (hkept.due (programs_sound hp) hidle.waits hfd hreg hready)

/-- The connection `4` is all that there is beside the listening socket `3`, and it is answered. -/
theorem idle_of_one (hwaits : s.Waits) (hbacklog : s.sockets.backlog = [])
    (hinside : ∀ fd, fd ≠ 3 → fd ≠ 4 → s.sockets.epoll.interest fd = none)
    (hread : ¬(s.sockets.streams 4).Ready) : s.Idle 3 := by
  refine ⟨hwaits,fun fd hdue => ?_⟩
  obtain ⟨i,hi,-⟩ := hdue.registered
  obtain rfl | hlfd := eq_or_ne fd 3
  · exact hdue.ready hbacklog
  · obtain rfl | hfd := eq_or_ne fd 4
    · exact hread hdue.ready
    · cases hi.symm.trans (hinside fd hlfd hfd)

/-- A client connects and sends two bytes, which are read and sent back. -/
theorem exists_echoed : ∃ steps s, Trace (Step server1Epoll2 3) (start (below 3) 3) steps s ∧ s.Idle 3 ∧
    (s.sockets.streams 4).received = [7,8] ∧ (s.sockets.link 4).interest ≠ none ∧
    .accept (some 4) true ∈ steps.map Prod.snd ∧ ∀ x ∈ steps, ¬Short x.1 x.2 := by
  have h₀ : Trace (Step server1Epoll2 3) (start (below 3) 3) [] _ := .nil
  have hconnect := h₀.snoc (l := .connect) .connect
  have hlisten := hconnect.snoc (l := .wait [⟨3,EPOLLIN,3⟩]) (.wait rfl rfl rfl
    (Sockets.reports_readable rfl (by decide) (by decide) (by exact List.cons_ne_nil _ _)) (by decide))
  have haccept := hlisten.snoc (l := .accept (some 4) true)
    (.accept (e := ⟨3,EPOLLIN,3⟩) rfl rfl rfl rfl (List.cons_ne_nil _ _) (by rintro _ ⟨⟩; rfl))
  have harrive := haccept.snoc (l := .arrive 4 (.bytes [7,8])) (.arrive (by decide) (by decide))
  have htold := harrive.snoc (l := .wait [⟨4,EPOLLIN,4⟩]) (.wait rfl rfl rfl
    (Sockets.reports_readable rfl (by decide) (by decide) (by exact .inl (List.cons_ne_nil _ _))) (by decide))
  have hevent := htold.snoc (l := .event) (.event (e := ⟨4,EPOLLIN,4⟩) rfl rfl rfl (by decide))
  have hread := hevent.snoc (l := .recv 5 (some 2)) (.recv rfl rfl (by decide) (by decide) (.inl rfl) (by decide))
  -- the edge has been told, so the loop goes on until `recv` finds nothing
  have hempty := hread.snoc (l := .recv 5 (some 0)) (.recv rfl rfl (by decide) (by decide) (.inl rfl) (by decide))
  refine ⟨_,_,hempty,idle_of_one ⟨rfl,rfl,rfl⟩ rfl (fun fd hlfd hfd => ?_) (by decide),rfl,by decide,?_,?_⟩
  · change update (update (fun _ : ℕ => none) 3 (some (⟨EPOLLIN,3⟩ : Interest ℕ))) 4
      (some (⟨EPOLLIN ||| EPOLLET,4⟩ : Interest ℕ)) fd = none
    rw [update_of_ne hfd, update_of_ne hlfd]
  · simp
  · simp only [List.mem_append, List.mem_singleton, List.not_mem_nil, false_or]
    rintro x (((((((rfl | rfl) | rfl) | rfl) | rfl) | rfl) | rfl) | rfl) hshort
    all_goals try exact hshort
    · obtain ⟨cdfd,hcdfd,-,hlt⟩ := hshort
      cases hcdfd
      exact absurd hlt (by decide)
    · obtain ⟨cdfd,hcdfd,-,hlt⟩ := hshort
      cases hcdfd
      exact absurd hlt (by decide)

theorem idle_answered_one : ∃ as s, Run (Step server1Epoll2 3) (start (below 3) 3) as s ∧
    (s.sockets.streams 4).received = [7,8] ∧ s.sockets.backlog = [] ∧ (s.sockets.streams 4).Answered := by
  obtain ⟨steps,s,htrace,hidle,hread,hreg,-⟩ := exists_echoed
  obtain ⟨hbacklog,hanswered⟩ := idle_answered (by simp [programs]) htrace.run hidle
  exact ⟨_,s,htrace.run,hread,hbacklog,hanswered 4 (by decide) hreg⟩

/-- The process is about to call `accept`. -/
def State.AtAccept (lfd : ℕ) (s : State) : Prop :=
  s.cdfd = none ∧ ∃ e pending, s.pending = e :: pending ∧ e.data = lfd

/-- An `accept` finds a connection, and a `recv` on a blocking socket finds something to read or the end of the
connection; and in `epoll_wait` the process waits only while nothing has come. So these calls return, however
long a `send` may take. -/
theorem calls_return (hp : p ∈ programs) (h : Run (Step p lfd) (start opened lfd) as s)
    (hrunning : s.exited = none) :
    (s.AtAccept lfd → s.sockets.backlog ≠ []) ∧
      (∀ cdfd, s.cdfd = some cdfd → p.nonblocking = false →
        s.sockets.epoll.opened cdfd = true ∧ (s.sockets.streams cdfd).Ready) ∧
      (s.Waits → s.Idle lfd ∨ ∃ e, s.sockets.Reports lfd [e]) := by
  have hkept := run_kept (programs_sound hp) h hrunning
  refine ⟨?_,fun cdfd hcdfd hblocking => (hkept.reads cdfd hcdfd).now hblocking,fun hwaits => ?_⟩
  · rintro ⟨-,e,pending,hpending,hlfd⟩
    have hawaits := hkept.pending e (hpending ▸ List.mem_cons_self)
    have hready := hawaits.ready
    unfold Sockets.Ready at hready
    rwa [if_pos (hawaits.data.symm.trans hlfd)] at hready
  · by_cases hdue : ∃ fd, s.sockets.Due lfd fd
    · obtain ⟨fd,hfd⟩ := hdue
      obtain ⟨e,-,hreports⟩ := Sockets.reports_one hfd
      exact .inr ⟨e,hreports⟩
    · exact .inl ⟨hwaits,not_exists.mp hdue⟩

/-- A client of the server with blocking sockets connects, and then sends a byte. -/
theorem calls_return_one :
    (∃ as s, Run (Step serverEpoll 3) (start (below 3) 3) as s ∧ s.AtAccept 3 ∧ s.sockets.backlog ≠ []) ∧
    ∃ as s, Run (Step serverEpoll 3) (start (below 3) 3) as s ∧ s.cdfd = some 4 ∧
      s.sockets.epoll.opened 4 = true ∧ (s.sockets.streams 4).Ready := by
  have h₀ : Run (Step serverEpoll 3) (start (below 3) 3) [] _ := .nil
  have hconnect := h₀.snoc (l := .connect) .connect
  have hlisten := hconnect.snoc (l := .wait [⟨3,EPOLLIN,3⟩]) (.wait rfl rfl rfl
    (Sockets.reports_readable rfl (by decide) (by decide) (by exact List.cons_ne_nil _ _)) (by decide))
  have haccept := hlisten.snoc (l := .accept (some 4) true)
    (.accept (e := ⟨3,EPOLLIN,3⟩) rfl rfl rfl rfl (List.cons_ne_nil _ _) (by rintro _ ⟨⟩; rfl))
  have harrive := haccept.snoc (l := .arrive 4 (.bytes [7])) (.arrive (by decide) (by decide))
  have htold := harrive.snoc (l := .wait [⟨4,EPOLLIN,4⟩]) (.wait rfl rfl rfl
    (Sockets.reports_readable rfl (by decide) (by decide) (by exact .inl (List.cons_ne_nil _ _))) (by decide))
  have hevent := htold.snoc (l := .event) (.event (e := ⟨4,EPOLLIN,4⟩) rfl rfl rfl (by decide))
  obtain ⟨hbacklog,-⟩ := calls_return (by simp [programs]) hlisten rfl
  obtain ⟨-,hready,-⟩ := calls_return (by simp [programs]) hevent rfl
  refine ⟨⟨_,_,hlisten,?_,hbacklog ?_⟩,_,_,hevent,rfl,hready 4 rfl rfl⟩
  all_goals exact ⟨rfl,⟨3,EPOLLIN,3⟩,[],rfl,rfl⟩

end Waiting

section Sending
variable {p : Program} {lfd : ℕ} {opened : ℕ → Bool} {s s' : State} {Q : Stream → Prop}

/-- Each stream, also of a connection that waits for `accept`, has the property `Q`. -/
structure EachStream (Q : Stream → Prop) (k : Sockets) : Prop where
  streams : ∀ fd, Q (k.streams fd)
  backlog : ∀ c ∈ k.backlog, Q c

theorem EachStream.setStream {k : Sockets} (h : EachStream Q k) (fd : ℕ) {c : Stream} (hc : Q c) :
    EachStream Q (k.setStream fd c) := by
  refine ⟨fun fd' => ?_,h.backlog⟩
  change Q (update k.streams fd c fd')
  by_cases hfd : fd' = fd
  · subst hfd
    rwa [update_self]
  · rw [update_of_ne hfd]
    exact h.streams fd'

/-- A property that clients keep is kept by a step if it is kept by the chunk that the step sends back. -/
theorem EachStream.step {a : Action} (h : EachStream Q s.sockets) (hstep : Step p lfd s a s')
    (hfresh : Q Stream.fresh) (hreceive : ∀ c a, Q c → Q (c.receive a))
    (hclosed : ∀ c : Stream, Q c → Q { c with ending := .closed })
    (hechoed : ∀ cdfd count took, a = .recv count took → s.cdfd = some cdfd →
      s.sockets.epoll.opened cdfd = true → Q (echoed (s.sockets.streams cdfd) count took)) :
    EachStream Q s'.sockets := by
  have hhead : Q (s.sockets.backlog.headD Stream.fresh) := by
    cases hbacklog : s.sockets.backlog with
    | nil => exact hfresh
    | cons c backlog => exact h.backlog c (hbacklog ▸ List.mem_cons_self)
  cases hstep with
  | connect =>
    refine ⟨h.streams,fun c hc => ?_⟩
    obtain hc | hc := List.mem_append.mp hc
    · exact h.backlog c hc
    · rwa [List.mem_singleton.mp hc]
  | @queued n a =>
    refine ⟨h.streams,fun c hc => ?_⟩
    obtain ⟨i,hi,rfl⟩ := List.mem_iff_getElem.mp hc
    simp only [Sockets.arriveQueued, List.getElem_modify]
    split
    · exact hreceive _ a (h.backlog _ (List.getElem_mem _))
    · exact h.backlog _ (List.getElem_mem _)
  | @arrive fd a =>
    have hset := h.setStream fd (hreceive _ a (h.streams fd))
    exact ⟨hset.streams,hset.backlog⟩
  | wait => exact ⟨h.streams,h.backlog⟩
  | @accept e pending cfd granted =>
    cases cfd with
    | none => exact h
    | some cfd =>
      exact ⟨(h.setStream cfd hhead).streams,fun c hc => h.backlog c (List.mem_of_mem_tail hc)⟩
  | event => exact h
  | @recv cdfd count took _ hcdfd =>
    rw [went_sockets]
    have hhandled := received_handled p s.sockets cdfd count took
    generalize received p s.sockets cdfd count took = r at hhandled
    cases hhandled with
    | gone => exact h
    | data hopened => exact h.setStream cdfd (hechoed cdfd count took rfl hcdfd hopened)
    | closed => exact ⟨h.streams,h.backlog⟩
    | again => exact h
    | failed => exact h.setStream cdfd (hclosed _ (h.streams cdfd))

/-- What was sent is part of what was read, in this order. -/
def State.SendsRead (s : State) : Prop := EachStream (fun c => c.sent.Sublist c.received) s.sockets

theorem State.SendsRead.step {a : Action} (h : s.SendsRead) (hstep : Step p lfd s a s') : s'.SendsRead := by
  refine EachStream.step h hstep (List.Sublist.refl []) (fun c a hc => ?_) (fun c hc => hc) fun cdfd count took _ _ _ => ?_
  · rwa [Stream.sent_receive, Stream.received_receive]
  · exact (h.streams cdfd).append (List.take_sublist _ _)

/-- Every connection was sent what was read from it. -/
def State.Echoes (s : State) : Prop := EachStream (fun c => c.sent = c.received) s.sockets

theorem State.Echoes.step {a : Action} (h : s.Echoes) (hstep : Step p lfd s a s') (hshort : ¬Short s a) :
    s'.Echoes := by
  refine EachStream.step h hstep rfl (fun c a hc => ?_) (fun c hc => hc) fun cdfd count took ha hcdfd hopened => ?_
  · rwa [Stream.sent_receive, Stream.received_receive]
  · subst ha
    have hall : ((s.sockets.streams cdfd).unread.take count).length ≤ took.getD 0 := by
      by_contra hlt
      exact hshort ⟨cdfd,hcdfd,hopened,Nat.lt_of_not_le hlt⟩
    unfold echoed
    rw [List.take_of_length_le hall, h.streams cdfd]

/-- The bytes that were not taken are missing in the answer. -/
theorem Short.not_echoes {a : Action} (hshort : Short s a) (h : s.SendsRead)
    (hstep : Step p lfd s a s') : ¬s'.Echoes := by
  cases hstep with
  | @recv cdfd count took _ hcdfd =>
    obtain ⟨fd,hfd,hopened,htook⟩ := hshort
    obtain rfl := Option.some.inj (hcdfd.symm.trans hfd)
    have hunread : (s.sockets.streams cdfd).unread ≠ [] := by
      intro hnil
      rw [hnil, List.take_nil] at htook
      cases htook
    have hhandled := received_handled p s.sockets cdfd count took
    unfold State.Echoes
    rw [went_sockets]
    generalize received p s.sockets cdfd count took = r at hhandled
    cases hhandled with
    | gone hgone => cases hopened.symm.trans hgone
    | closed _ hnil => exact absurd hnil hunread
    | again _ hready => exact absurd (Or.inl hunread) hready
    | failed _ hnil => exact absurd hnil hunread
    | data =>
      intro hechoes
      have heq := congrArg List.length (hechoes.streams cdfd)
      have hle := (h.streams cdfd).length_le
      change (update s.sockets.streams cdfd _ cdfd).sent.length =
        (update s.sockets.streams cdfd _ cdfd).received.length at heq
      rw [update_self, echoed, List.length_append, List.length_append, List.length_take] at heq
      omega
  | _ => exact hshort.elim

theorem start_eachStream (hfresh : Q Stream.fresh) : EachStream Q (start opened lfd).sockets :=
  ⟨fun _ => hfresh,nofun⟩

/-- What is sent back is always part of what was read, and it is all of it, in every state of a run, exactly
if no `send` of the run took less than it was offered. -/
theorem echoes_iff {steps : List (State × Action)}
    (h : Trace (Step p lfd) (start opened lfd) steps s) :
    (∀ fd, (s.sockets.streams fd).sent.Sublist (s.sockets.streams fd).received) ∧
      (((∀ x ∈ steps, x.1.Echoes) ∧ s.Echoes) ↔ ∀ x ∈ steps, ¬Short x.1 x.2) := by
  have hstart : (start opened lfd).SendsRead := start_eachStream (List.Sublist.refl [])
  have hechoes : (start opened lfd).Echoes := start_eachStream rfl
  constructor
  · exact (h.invariant hstart fun _ _ _ => State.SendsRead.step).2.streams
  · apply h.always_iff hstart hechoes
    · exact fun _ _ _ => State.SendsRead.step
    · exact fun _ _ _ _ hechoes hshort hstep => hechoes.step hstep hshort
    · exact fun _ _ _ hsub hshort hstep => hshort.not_echoes hsub hstep

theorem echoes_iff_one : ∃ steps s, Trace (Step server1Epoll2 3) (start (below 3) 3) steps s ∧
    (s.sockets.streams 4).received = [7,8] ∧ (∀ x ∈ steps, x.1.Echoes) ∧ s.Echoes := by
  obtain ⟨steps,s,htrace,-,hread,-,-,hshort⟩ := exists_echoed
  exact ⟨steps,s,htrace,hread,(echoes_iff htrace).2.mpr hshort⟩

end Sending
end ServerKit.Io
