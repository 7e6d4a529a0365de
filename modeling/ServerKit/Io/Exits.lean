import ServerKit.Io.Answers

/-! When the echo servers end. The missing `break` behind the `close` in `server1_epoll2.c` makes every
disconnect the end of the process. -/
namespace ServerKit.Io
open Function ServerKit.Lib

/-- The results of `recv` that end a program: an error, the end of a connection where `recv` is called again
behind the `close`, and data for which `send` gets SIGPIPE. -/
def Ends (p : Program) (took : Option ℕ) : Recv → Prop
  | .data _ => took = none
  | .closed => p.closed = .again
  | .again => False
  | .failed => True

/-- What ends a program: no descriptor, a failed `epoll_ctl`, and what is received. -/
def Fatal (p : Program) (s : State) : Action → Prop
  | .accept cfd granted => cfd = none ∨ granted = false
  | .recv count took => ∃ cdfd, s.cdfd = some cdfd ∧ Ends p took ((s.sockets.streams cdfd).recv count).1
  | _ => False

/-- The flows of the three programs. -/
structure Program.Calm (p : Program) : Prop where
  sent : ∀ status, p.sent ≠ .exit status
  closed : ∀ status, p.closed ≠ .exit status
  empty : p.nonblocking = true → p.empty = .next

theorem programs_calm {p : Program} (hp : p ∈ programs) : p.Calm := by
  simp only [programs, List.mem_cons, List.not_mem_nil, or_false] at hp
  obtain rfl | rfl | rfl := hp
  · exact ⟨fun _ => Flow.noConfusion,fun _ => Flow.noConfusion,fun h => absurd h (by decide)⟩
  · exact ⟨fun _ => Flow.noConfusion,fun _ => Flow.noConfusion,fun _ => rfl⟩
  · exact ⟨fun _ => Flow.noConfusion,fun _ => Flow.noConfusion,fun _ => rfl⟩

/-- The process runs, and the connection that it reads is open. -/
structure Going (p : Program) (lfd : ℕ) (s : State) : Prop where
  running : s.exited = none
  kept : Kept p lfd s
  reads : ∀ cdfd, s.cdfd = some cdfd → s.sockets.epoll.opened cdfd = true

/-- The process has ended, or calls `recv` next for a descriptor that it has closed. -/
def Doomed (s : State) : Prop :=
  s.exited ≠ none ∨ ∃ cdfd, s.cdfd = some cdfd ∧ s.sockets.epoll.opened cdfd = false

section Steps
variable {p : Program} {lfd : ℕ} {s s' : State} {a : Action}

/-- The result of `recv` that a step has. -/
theorem recv_closed {c : Stream} {count : ℕ} (hunread : c.unread = []) (hending : c.ending = .closed) :
    (c.recv count).1 = .closed := by
  unfold Stream.recv
  rw [hunread, hending]

theorem recv_failed {c : Stream} {count : ℕ} (hunread : c.unread = []) (hending : c.ending = .broken) :
    (c.recv count).1 = .failed := by
  unfold Stream.recv
  rw [hunread, hending]

theorem recv_data {c : Stream} {count : ℕ} (hunread : c.unread ≠ []) :
    (c.recv count).1 = .data (c.unread.take count) := by
  obtain ⟨b,bytes,hcons⟩ := List.exists_cons_of_ne_nil hunread
  unfold Stream.recv
  rw [hcons]

theorem Ends.fatal {cdfd count : ℕ} {took : Option ℕ} {result : Recv} (h : Ends p took result)
    (hcdfd : s.cdfd = some cdfd) (hresult : ((s.sockets.streams cdfd).recv count).1 = result) :
    Fatal p s (.recv count took) := ⟨cdfd,hcdfd,hresult ▸ h⟩

theorem Going.recv_went (h : Going p lfd s) (hp : p.Calm) {cdfd count : ℕ} {took : Option ℕ}
    (hcdfd : s.cdfd = some cdfd) (hnow : p.nonblocking = true ∨ s.sockets.epoll.opened cdfd = false ∨
      (s.sockets.streams cdfd).Ready) (hfatal : ¬Fatal p s (.recv count took)) :
    (s.went cdfd (received p s.sockets cdfd count took)).exited = none ∧
      ∀ fd, (s.went cdfd (received p s.sockets cdfd count took)).cdfd = some fd →
        (s.went cdfd (received p s.sockets cdfd count took)).sockets.epoll.opened fd = true := by
  have hopen := h.reads cdfd hcdfd
  have hhandled := received_handled p s.sockets cdfd count took
  generalize received p s.sockets cdfd count took = r at hhandled
  cases hhandled with
  | gone hgone => cases hopen.symm.trans hgone
  | failed _ hunread hending =>
    have hends : Ends p took .failed := trivial
    exact absurd (hends.fatal hcdfd (recv_failed hunread hending)) hfatal
  | data _ hunread =>
    have htook : took ≠ none := by
      rintro rfl
      have hends : Ends p none (.data ((s.sockets.streams cdfd).unread.take count)) := rfl
      exact hfatal (hends.fatal hcdfd (recv_data hunread))
    obtain ⟨n,rfl⟩ := Option.ne_none_iff_exists'.mp htook
    rw [show p.behindSend (some n) = p.sent from rfl]
    cases hsent : p.sent with
    | exit status => exact absurd hsent (hp.sent status)
    | next => exact ⟨h.running,nofun⟩
    | again =>
      refine ⟨h.running,fun fd hfd => ?_⟩
      rw [← Option.some.inj hfd]
      exact hopen
  | closed _ hunread hending =>
    cases hclosed : p.closed with
    | exit status => exact absurd hclosed (hp.closed status)
    | next => exact ⟨h.running,nofun⟩
    | again =>
      have hends : Ends p took .closed := hclosed
      exact absurd (hends.fatal hcdfd (recv_closed hunread hending)) hfatal
  | again _ hready =>
    have hnonblocking : p.nonblocking = true := by
      refine hnow.resolve_right ?_
      rintro (hgone | hready')
      · cases hopen.symm.trans hgone
      · exact hready hready'
    rw [hp.empty hnonblocking]
    exact ⟨h.running,nofun⟩

theorem Going.step (h : Going p lfd s) (hsound : p.Sound) (hp : p.Calm) (hfatal : ¬Fatal p s a)
    (hstep : Step p lfd s a s') : Going p lfd s' := by
  have hkept := fun hrunning => h.kept.step hsound hstep hrunning
  cases hstep with
  | connect => exact ⟨h.running,hkept h.running,h.reads⟩
  | queued => exact ⟨h.running,hkept h.running,h.reads⟩
  | arrive => exact ⟨h.running,hkept h.running,h.reads⟩
  | wait => exact ⟨h.running,hkept h.running,h.reads⟩
  | @accept e pending cfd granted _ hcdfd _ _ _ hnew =>
    obtain ⟨hsome,hgranted⟩ := not_or.mp hfatal
    obtain ⟨fd,rfl⟩ := Option.ne_none_iff_exists'.mp hsome
    rw [eq_true_of_ne_false hgranted] at hkept ⊢
    rw [accepted_granted (s := { s with pending := pending }) (h.kept.free (hnew fd rfl))] at hkept ⊢
    refine ⟨h.running,hkept h.running,fun cdfd hread => ?_⟩
    cases hcdfd.symm.trans hread
  | @event e pending _ _ hpending =>
    refine ⟨h.running,hkept h.running,fun cdfd hread => ?_⟩
    have hmem : e ∈ s.pending := hpending ▸ List.mem_cons_self
    rw [← Option.some.inj hread, (h.kept.pending e hmem).data]
    exact h.kept.pending_opened hmem
  | recv _ hcdfd _ _ hnow =>
    obtain ⟨hrunning,hreads⟩ := h.recv_went hp hcdfd hnow hfatal
    exact ⟨hrunning,hkept hrunning,hreads⟩

theorem Going.fatal (h : Going p lfd s) (hfatal : Fatal p s a) (hstep : Step p lfd s a s') : Doomed s' := by
  cases hstep with
  | connect => exact hfatal.elim
  | queued => exact hfatal.elim
  | arrive => exact hfatal.elim
  | wait => exact hfatal.elim
  | event => exact hfatal.elim
  | @accept e pending cfd granted =>
    left
    obtain rfl | rfl := hfatal
    · nofun
    · exact (accepted_refused cfd).trans_ne (Option.some_ne_none _)
  | @recv cdfd count took _ hcdfd =>
    obtain ⟨fd,hfd,hresult⟩ := hfatal
    obtain rfl := Option.some.inj (hcdfd.symm.trans hfd)
    have hopen := h.reads cdfd hcdfd
    have hhandled := received_handled p s.sockets cdfd count took
    generalize received p s.sockets cdfd count took = r at hhandled
    cases hhandled with
    | gone => exact .inl nofun
    | failed => exact .inl nofun
    | data _ hunread =>
      rw [recv_data hunread] at hresult
      obtain rfl : took = none := hresult
      exact .inl nofun
    | again _ hready =>
      rw [Stream.recv_again_iff.mpr hready] at hresult
      exact hresult.elim
    | closed _ hunread hending =>
      rw [recv_closed hunread hending] at hresult
      right
      rw [show p.closed = .again from hresult]
      exact ⟨cdfd,rfl,update_self ..⟩

/-- A closed descriptor does not come back before `recv` has failed for it. -/
theorem Doomed.step (h : Doomed s) (hstep : Step p lfd s a s') : Doomed s' := by
  cases hstep with
  | connect => exact h
  | queued => exact h
  | arrive => exact h
  | wait hrunning hcdfd =>
    obtain hexited | ⟨cdfd,hread,-⟩ := h
    · exact absurd hrunning hexited
    · cases hcdfd.symm.trans hread
  | accept hrunning hcdfd =>
    obtain hexited | ⟨cdfd,hread,-⟩ := h
    · exact absurd hrunning hexited
    · cases hcdfd.symm.trans hread
  | event hrunning hcdfd =>
    obtain hexited | ⟨cdfd,hread,-⟩ := h
    · exact absurd hrunning hexited
    · cases hcdfd.symm.trans hread
  | @recv cdfd count took hrunning hcdfd =>
    obtain hexited | ⟨fd,hread,hclosed⟩ := h
    · exact absurd hrunning hexited
    · obtain rfl := Option.some.inj (hcdfd.symm.trans hread)
      left
      unfold received
      rw [if_pos hclosed]
      nofun

end Steps

section Runs
variable {p : Program} {lfd : ℕ} {opened : ℕ → Bool} {s : State} {steps : List (State × Action)}

theorem start_going : Going p lfd (start opened lfd) := ⟨rfl,start_kept opened,nofun⟩

theorem divided (hp : p ∈ programs) (h : Trace (Step p lfd) (start opened lfd) steps s) :
    (∀ x ∈ steps, ¬Fatal p x.1 x.2) ∧ Going p lfd s ∨ (∃ x ∈ steps, Fatal p x.1 x.2) ∧ Doomed s :=
  h.divides start_going
    (fun _ _ _ hgoing hfatal hstep => hgoing.step (programs_sound hp) (programs_calm hp) hfatal hstep)
    (fun _ _ _ hgoing hfatal hstep => hgoing.fatal hfatal hstep) fun _ _ _ hdoomed hstep => hdoomed.step hstep

/-- Outside of the loop around `recv`, a program runs exactly if nothing fatal has happened. A client that closes
its connection is fatal for `server1_epoll2.c` as it is compiled, and for neither of the others. -/
theorem exits_iff (hp : p ∈ programs) (h : Trace (Step p lfd) (start opened lfd) steps s)
    (hcdfd : s.cdfd = none) : s.exited = none ↔ ∀ x ∈ steps, ¬Fatal p x.1 x.2 := by
  obtain ⟨hnone,hgoing⟩ | ⟨⟨x,hx,hfatal⟩,hdoomed⟩ := divided hp h
  · exact iff_of_true hgoing.running hnone
  · refine iff_of_false ?_ fun hnone => hnone x hx hfatal
    obtain hexited | ⟨cdfd,hread,-⟩ := hdoomed
    · exact hexited
    · cases hcdfd.symm.trans hread

/-- A client connects and closes the connection; `recv` is called again behind the `close`. -/
theorem exits_iff_one : ∃ steps s, Trace (Step server1Epoll2 3) (start (below 3) 3) steps s ∧
    s.exited = some 0 ∧ ∃ x ∈ steps, Fatal server1Epoll2 x.1 x.2 := by
  have h₀ : Trace (Step server1Epoll2 3) (start (below 3) 3) [] _ := .nil
  have hconnect := h₀.snoc (l := .connect) .connect
  have hlisten := hconnect.snoc (l := .wait [⟨3,EPOLLIN,3⟩]) (.wait rfl rfl rfl
    (Sockets.reports_readable rfl (by decide) (by decide) (by exact List.cons_ne_nil _ _)) (by decide))
  have haccept := hlisten.snoc (l := .accept (some 4) true)
    (.accept (e := ⟨3,EPOLLIN,3⟩) rfl rfl rfl rfl (List.cons_ne_nil _ _) (by rintro _ ⟨⟩; rfl))
  have harrive := haccept.snoc (l := .arrive 4 .close) (.arrive (by decide) (by decide))
  have htold := harrive.snoc (l := .wait [⟨4,EPOLLIN,4⟩]) (.wait rfl rfl rfl
    (Sockets.reports_readable rfl (by decide) (by decide) (by exact .inr (by decide))) (by decide))
  have hevent := htold.snoc (l := .event) (.event (e := ⟨4,EPOLLIN,4⟩) rfl rfl rfl (by decide))
  have hclose := hevent.snoc (l := .recv 5 (some 0)) (.recv rfl rfl (by decide) (by decide) (.inl rfl) (by decide))
  have hagain := hclose.snoc (l := .recv 5 (some 0)) (.recv rfl rfl (by decide) (by decide) (.inl rfl) (by decide))
  refine ⟨_,_,hagain,rfl,?_⟩
  by_contra hnone
  have hrunning := (exits_iff (by simp [programs]) hagain rfl).mpr fun x hx hfatal => hnone ⟨x,hx,hfatal⟩
  cases hrunning

/-- Where `recv` is called again behind the `close`, no connection ends but with the process. -/
theorem Going.registered {s' : State} {a : Action} (h : Going p lfd s) (hclosed : p.closed = .again)
    (hfatal : ¬Fatal p s a) (hstep : Step p lfd s a s') {fd : ℕ}
    (hreg : s.sockets.epoll.interest fd ≠ none ∨ ∃ granted, a = .accept (some fd) granted) :
    s'.sockets.epoll.interest fd ≠ none := by
  have hold (ha : ∀ cfd granted, a ≠ .accept cfd granted) : s.sockets.epoll.interest fd ≠ none :=
    hreg.resolve_right fun ⟨granted,haccept⟩ => ha _ granted haccept
  cases hstep with
  | connect => exact hold nofun
  | queued => exact hold nofun
  | arrive => exact hold nofun
  | wait => exact hold nofun
  | event => exact hold nofun
  | @accept e pending cfd granted _ _ _ _ _ hnew =>
    obtain ⟨hsome,hgranted⟩ := not_or.mp hfatal
    obtain ⟨fd',rfl⟩ := Option.ne_none_iff_exists'.mp hsome
    rw [eq_true_of_ne_false hgranted,
      accepted_granted (s := { s with pending := pending }) (h.kept.free (hnew fd' rfl))]
    change update s.sockets.epoll.interest fd' (some ⟨p.events,fd'⟩) fd ≠ none
    by_cases hfd : fd = fd'
    · subst hfd
      rw [update_self]
      nofun
    · rw [update_of_ne hfd]
      refine hreg.resolve_right fun ⟨_,haccept⟩ => hfd ?_
      injection haccept with haccept
      exact (Option.some.inj haccept).symm
  | @recv cdfd count took _ hcdfd =>
    have hhandled := received_handled p s.sockets cdfd count took
    rw [went_sockets]
    generalize received p s.sockets cdfd count took = r at hhandled
    cases hhandled with
    | gone => exact hold nofun
    | data => exact hold nofun
    | again => exact hold nofun
    | failed => exact hold nofun
    | closed _ hunread hending =>
      have hends : Ends p took .closed := hclosed
      exact absurd (hends.fatal hcdfd (recv_closed hunread hending)) hfatal

theorem accepted_registered (hp : p ∈ programs) (hclosed : p.closed = .again)
    (h : Trace (Step p lfd) (start opened lfd) steps s) (hnone : ∀ x ∈ steps, ¬Fatal p x.1 x.2)
    {fd : ℕ} (hfd : ∃ x ∈ steps, ∃ granted, x.2 = .accept (some fd) granted) :
    fd ≠ lfd ∧ s.sockets.epoll.interest fd ≠ none := by
  induction h with
  | nil =>
    obtain ⟨x,hx,-⟩ := hfd
    cases hx
  | @snoc steps a s s' trace last ih =>
    have hbefore x (hx : x ∈ steps) : ¬Fatal p x.1 x.2 := hnone x (List.mem_append_left _ hx)
    have hgoing : Going p lfd s := by
      obtain ⟨-,hgoing⟩ | ⟨⟨x,hx,hfatal⟩,-⟩ := divided hp trace
      · exact hgoing
      · exact absurd hfatal (hbefore x hx)
    have hnot : ¬Fatal p s a := hnone (s,a) (List.mem_append_right _ (List.mem_singleton_self _))
    have hlast (hreg : s.sockets.epoll.interest fd ≠ none ∨ ∃ granted, a = .accept (some fd) granted) :
        s'.sockets.epoll.interest fd ≠ none := hgoing.registered hclosed hnot last hreg
    obtain ⟨x,hx,granted,haccept⟩ := hfd
    obtain hx | hx := List.mem_append.mp hx
    · obtain ⟨hconn,hreg⟩ := ih hbefore ⟨x,hx,granted,haccept⟩
      exact ⟨hconn,hlast (.inl hreg)⟩
    · rw [List.mem_singleton.mp hx] at haccept
      obtain rfl : a = _ := haccept
      refine ⟨?_,hlast (.inr ⟨granted,rfl⟩)⟩
      cases last with
      | accept _ _ _ _ _ hnew => exact hgoing.kept.ne_of_new (hnew fd rfl)

/-- `server1_epoll2.c` as it is compiled waits for events only as long as no client has left: each connection
that it ever accepted is open then, with its client, and answered. -/
theorem server1Epoll2_idle (h : Trace (Step server1Epoll2 lfd) (start opened lfd) steps s)
    (hidle : s.Idle lfd) {fd : ℕ} (hfd : ∃ x ∈ steps, ∃ granted, x.2 = .accept (some fd) granted) :
    s.sockets.epoll.interest fd ≠ none ∧ (s.sockets.streams fd).Answered := by
  have hp : server1Epoll2 ∈ programs := by simp [programs]
  have hnone := (exits_iff hp h hidle.waits.cdfd).mp hidle.waits.running
  obtain ⟨hconn,hreg⟩ := accepted_registered hp rfl h hnone hfd
  exact ⟨hreg,(idle_answered hp h.run hidle).2 fd hconn hreg⟩

theorem server1Epoll2_idle_one : ∃ steps s, Trace (Step server1Epoll2 3) (start (below 3) 3) steps s ∧
    (s.sockets.streams 4).received = [7,8] ∧ s.sockets.epoll.interest 4 ≠ none ∧
    (s.sockets.streams 4).Answered := by
  obtain ⟨steps,s,htrace,hidle,hread,-,haccept,-⟩ := exists_echoed
  obtain ⟨x,hx,heq⟩ := List.mem_map.mp haccept
  exact ⟨steps,s,htrace,hread,server1Epoll2_idle htrace hidle ⟨x,hx,true,heq⟩⟩

end Runs
end ServerKit.Io
