import ServerKit.Io.Kept
import Mathlib.Data.Finset.Card
import Mathlib.Order.Interval.Finset.Nat

/-! How many events `epoll_wait` writes into `evs`, when `size` is `sizeof(evs)`. -/
namespace ServerKit.Io
open Function ServerKit.Lib

/-- The process is in `epoll_wait`. -/
structure State.Waits (s : State) : Prop where
  running : s.exited = none
  cdfd : s.cdfd = none
  pending : s.pending = []

/-- There is nothing that `epoll_wait` could tell. -/
structure State.Idle (lfd : ℕ) (s : State) : Prop where
  waits : s.Waits
  quiet : ∀ fd, ¬s.sockets.Due lfd fd

/-- There are not more than `n` connections. -/
def AtMost (lfd n : ℕ) (s : State) : Prop := ∀ fds : List ℕ, fds.Nodup →
  (∀ fd ∈ fds, fd ≠ lfd ∧ (s.sockets.link fd).interest ≠ none) → fds.length ≤ n

/-- The connections have the next `n` descriptors. -/
def Inside (lfd n : ℕ) (s : State) : Prop :=
  ∀ fd, (s.sockets.link fd).interest ≠ none → fd = lfd ∨ lfd < fd ∧ fd ≤ lfd+n

section Bounds
variable {lfd m n : ℕ} {s : State} {batch : List (Ready ℕ)}

/-- Each connection is told of once, and the listening socket once. -/
theorem AtMost.length_le (h : AtMost lfd n s) (hbatch : s.sockets.Reports lfd batch) :
    batch.length ≤ n+1 := by
  have hnodup := hbatch.reports.nodup
  have hle := h ((batch.map Ready.fd).erase lfd) (hnodup.erase lfd) fun fd hfd => ?_
  · rw [List.length_erase, List.length_map] at hle
    split at hle <;> omega
  · obtain ⟨hne,hmem⟩ := hnodup.mem_erase_iff.mp hfd
    obtain ⟨e,he,rfl⟩ := List.mem_map.mp hmem
    obtain ⟨i,hi,-⟩ := hbatch.reports.reported e he
    refine ⟨hne,?_⟩
    rw [show (s.sockets.link e.fd).interest = some i from hi]
    nofun

theorem Inside.atMost (h : Inside lfd m s) (hle : m ≤ n) : AtMost lfd n s := by
  intro fds hnodup hfds
  have hsub : fds.toFinset ⊆ Finset.Ioc lfd (lfd+m) := by
    intro fd hfd
    obtain ⟨hne,hreg⟩ := hfds fd (List.mem_toFinset.mp hfd)
    exact Finset.mem_Ioc.mpr ((h fd hreg).resolve_left hne)
  have hcard := Finset.card_le_card hsub
  rw [List.toFinset_card_of_nodup hnodup, Nat.card_Ioc] at hcard
  omega

theorem Inside.mono (h : Inside lfd m s) (hle : m ≤ n) : Inside lfd n s := by
  intro fd hreg
  have hfd := h fd hreg
  omega

end Bounds

/-- A connection that is registered and marked, from which something has come if it is `loud`. -/
structure Seat (p : Program) (fd : ℕ) (loud : Prop) (c : Sockets.Link) : Prop where
  opened : c.opened = true
  interest : c.interest = some ⟨p.events,fd⟩
  marked : c.marked = true
  alive : c.stream.ending = .alive
  ready : c.stream.Ready ↔ loud

/-- The first `n` descriptors behind `lfd` are connections, and of these the first `m` have been sent something. -/
structure Seated (p : Program) (lfd n m : ℕ) (s : State) : Prop where
  waits : s.Waits
  backlog : s.sockets.backlog = []
  listens : (s.sockets.link lfd).interest = some ⟨EPOLLIN,lfd⟩
  inside : Inside lfd n s
  seat : ∀ fd, lfd < fd → fd ≤ lfd+n → Seat p fd (fd ≤ lfd+m) (s.sockets.link fd)
  free : ∀ fd, lfd+n < fd → (s.sockets.link fd).opened = false

section Seats
variable {p : Program} {lfd n m : ℕ} {s : State} {steps : List (State × Action)}

/-- The descriptors below the listening socket are in use. -/
def below (lfd fd : ℕ) : Bool := fd < lfd

theorem start_seated : Seated p lfd 0 0 (start (below lfd) lfd) := by
  refine ⟨⟨rfl,rfl,rfl⟩,rfl,update_self lfd _ fun _ => none,fun fd hreg => ?_,fun fd hlt hle => ?_,fun fd hlt => ?_⟩
  · left
    by_contra hfd
    exact hreg (update_of_ne hfd _ fun _ => none)
  · omega
  · change (decide (fd = lfd) || decide (fd < lfd)) = false
    rw [Bool.or_eq_false_iff, decide_eq_false_iff_not, decide_eq_false_iff_not]
    omega

/-- One more client connects, which is accepted. -/
theorem Seated.accept (h : Seated p lfd n 0 s) (hsize : 0 < p.size)
    (htrace : Trace (Step p lfd) (start (below lfd) lfd) steps s)
    (hinside : ∀ x ∈ steps, Inside lfd n x.1) :
    ∃ steps s, Trace (Step p lfd) (start (below lfd) lfd) steps s ∧ Seated p lfd (n+1) 0 s ∧
      (∀ x ∈ steps, Inside lfd (n+1) x.1) ∧ .accept (some (lfd+n+1)) true ∈ steps.map Prod.snd := by
  have hconnect := htrace.snoc .connect
  have hdue : s.sockets.connect.Due lfd lfd := by
    refine .intro h.listens (by decide) (fun hedge => absurd hedge (show ¬hasBit EPOLLIN EPOLLET by decide)) ?_
    unfold Sockets.Ready
    rw [if_pos rfl]
    exact List.append_ne_nil_of_right_ne_nil _ (List.cons_ne_nil _ _)
  obtain ⟨e,hfd,hreports⟩ := Sockets.reports_one hdue
  have hdata : e.data = lfd := by
    obtain ⟨i,hi,hdata,-⟩ := hreports.reports.reported e (List.mem_singleton_self e)
    rw [hfd] at hi
    obtain rfl := Option.some.inj (hi.symm.trans h.listens)
    exact hdata
  have hwait := hconnect.snoc (.wait h.waits.running h.waits.cdfd h.waits.pending hreports hsize)
  have hnew : (s.sockets.link (lfd+n+1)).opened = false := h.free _ (Nat.lt_succ_self _)
  have hfree : (s.sockets.link (lfd+n+1)).interest = none := by
    by_contra hreg
    have hin := h.inside _ hreg
    omega
  have hbacklog : s.sockets.connect.backlog = [Stream.fresh] := congrArg (· ++ _) h.backlog
  have hstep : Step p lfd ⟨s.sockets.connect.told [e],[e],s.cdfd,s.exited⟩ (.accept (some (lfd+n+1)) true) _ :=
    .accept h.waits.running h.waits.cdfd rfl hdata (hbacklog.trans_ne (List.cons_ne_nil _ _))
      fun fd hfd => Option.some.inj hfd ▸ hnew
  have haccept := hwait.snoc hstep
  rw [accepted_granted (s := ⟨s.sockets.connect.told [e],[],s.cdfd,s.exited⟩) hfree] at haccept
  have hlink := Sockets.link_joined (s.sockets.connect.told [e]) (lfd+n+1) p.events
  have hhead : (s.sockets.connect.told [e]).backlog = [Stream.fresh] := hbacklog
  have hother {fd : ℕ} (hne : fd ≠ lfd+n+1) :
      ((s.sockets.connect.told [e]).joined (lfd+n+1) p.events).link fd =
        (s.sockets.connect.told [e]).link fd := by
    rw [hlink, update_of_ne hne]
  refine ⟨_,_,haccept,⟨⟨h.waits.running,h.waits.cdfd,rfl⟩,?_,?_,?_,?_,?_⟩,?_,by simp⟩
  · exact congrArg List.tail hhead
  · dsimp only
    rw [hother (by omega)]
    exact h.listens
  · intro fd hreg
    by_cases hne : fd = lfd+n+1
    · omega
    · dsimp only at hreg
      rw [hother hne] at hreg
      exact h.inside.mono (Nat.le_succ n) fd hreg
  · intro fd hlt hle
    dsimp only
    by_cases hne : fd = lfd+n+1
    · rw [hlink, hne, update_self, hhead]
      exact ⟨rfl,rfl,rfl,rfl,iff_of_false (show ¬Stream.fresh.Ready by decide) (by omega)⟩
    · rw [hother hne]
      have hseat := h.seat fd hlt (by omega)
      refine ⟨hseat.opened,hseat.interest,?_,hseat.alive,hseat.ready⟩
      have hmarked : (s.sockets.link fd).marked = true := hseat.marked
      rw [Sockets.link_told, List.map_singleton, hfd]
      dsimp only
      rw [Bool.and_eq_true, Bool.not_eq_true']
      refine ⟨hmarked,?_⟩
      simp only [List.contains_cons, List.contains_nil, Bool.or_false, beq_eq_false_iff_ne]
      omega
  · intro fd hlt
    dsimp only
    rw [hother (by omega)]
    exact h.free fd (by omega)
  · intro x hx
    simp only [List.mem_append, List.mem_singleton] at hx
    obtain ((hx | rfl) | rfl) | rfl := hx
    · exact (hinside x hx).mono (Nat.le_succ n)
    · exact h.inside.mono (Nat.le_succ n)
    · exact h.inside.mono (Nat.le_succ n)
    · exact h.inside.mono (Nat.le_succ n)

theorem exists_seated (hsize : 0 < p.size) (lfd n : ℕ) : ∃ steps s,
    Trace (Step p lfd) (start (below lfd) lfd) steps s ∧ Seated p lfd n 0 s ∧
      ∀ x ∈ steps, Inside lfd n x.1 := by
  induction n with
  | zero => exact ⟨_,_,.nil,start_seated,nofun⟩
  | succ n ih =>
    obtain ⟨steps,s,htrace,hseated,hinside⟩ := ih
    obtain ⟨steps',s',htrace',hseated',hinside',-⟩ := hseated.accept hsize htrace hinside
    exact ⟨steps',s',htrace',hseated',hinside'⟩

/-- While the clients are silent, there is nothing to do. -/
theorem Seated.idle (h : Seated p lfd n 0 s) : s.Idle lfd := by
  refine ⟨h.waits,fun fd hdue => ?_⟩
  by_cases hfd : fd = lfd
  · have hready := hdue.ready
    unfold Sockets.Ready at hready
    rw [if_pos hfd] at hready
    exact hready h.backlog
  · obtain ⟨i,hi,-⟩ := hdue.registered
    have hreg : (s.sockets.link fd).interest ≠ none :=
      (show (s.sockets.link fd).interest = some i from hi).trans_ne (Option.some_ne_none i)
    obtain ⟨hlt,hle⟩ := (h.inside fd hreg).resolve_left hfd
    have hloud := (h.seat fd hlt hle).ready.mp ((Sockets.ready_iff hfd).mp hdue.ready)
    omega

/-- One more of the connections is sent a byte. -/
theorem Seated.arrive (h : Seated p lfd n m s) (hlt : m < n) :
    Seated p lfd n (m+1) { s with sockets := s.sockets.arrive (lfd+m+1) (.bytes [0]) } := by
  have hlink := Sockets.link_arrive s.sockets (lfd+m+1) (.bytes [0])
  have hseat := h.seat (lfd+m+1) (by omega) (by omega)
  have hother {fd : ℕ} (hne : fd ≠ lfd+m+1) :
      (s.sockets.arrive (lfd+m+1) (.bytes [0])).link fd = s.sockets.link fd := by
    rw [hlink, update_of_ne hne]
  refine ⟨⟨h.waits.running,h.waits.cdfd,h.waits.pending⟩,h.backlog,?_,?_,?_,?_⟩
  · dsimp only
    rw [hother (by omega)]
    exact h.listens
  · intro fd hreg
    by_cases hne : fd = lfd+m+1
    · omega
    · dsimp only at hreg
      rw [hother hne] at hreg
      exact h.inside fd hreg
  · intro fd hlt' hle
    dsimp only
    by_cases hne : fd = lfd+m+1
    · rw [hlink, hne, update_self]
      have hreceive : (s.sockets.streams (lfd+m+1)).receive (.bytes [0]) =
          { s.sockets.streams (lfd+m+1) with unread := (s.sockets.streams (lfd+m+1)).unread ++ [0] } :=
        if_pos hseat.alive
      rw [hreceive]
      exact ⟨hseat.opened,hseat.interest,rfl,hseat.alive,
        iff_of_true (.inl (List.append_ne_nil_of_right_ne_nil _ (List.cons_ne_nil _ _))) (by omega)⟩
    · rw [hother hne]
      have hseat' := h.seat fd hlt' hle
      exact ⟨hseat'.opened,hseat'.interest,hseat'.marked,hseat'.alive,hseat'.ready.trans (by omega)⟩
  · intro fd hlt'
    dsimp only
    rw [hother (by omega)]
    exact h.free fd hlt'

theorem exists_loud (hsize : 0 < p.size) (lfd n : ℕ) (hle : m ≤ n) : ∃ steps s,
    Trace (Step p lfd) (start (below lfd) lfd) steps s ∧ Seated p lfd n m s ∧
      ∀ x ∈ steps, Inside lfd n x.1 := by
  induction m with
  | zero => exact exists_seated hsize lfd n
  | succ m ih =>
    obtain ⟨steps,s,htrace,hseated,hinside⟩ := ih (by omega)
    have hreg : s.sockets.epoll.interest (lfd+m+1) ≠ none :=
      (hseated.seat (lfd+m+1) (by omega) (by omega)).interest.trans_ne (Option.some_ne_none _)
    refine ⟨_,_,htrace.snoc (.arrive (by omega) hreg),hseated.arrive (by omega),fun x hx => ?_⟩
    obtain hx | hx := List.mem_append.mp hx
    · exact hinside x hx
    · rw [List.mem_singleton.mp hx]
      exact hseated.inside

/-- What `epoll_wait` tells when everything is loud, and one more client has connected. -/
def allReady (lfd n : ℕ) : List (Ready ℕ) :=
  (List.range (n+1)).map fun i => ⟨lfd+i,EPOLLIN,lfd+i⟩

theorem Seated.reports (h : Seated p lfd n n s) (hevents : hasBit p.events EPOLLIN) :
    s.sockets.connect.Reports lfd (allReady lfd n) := by
  refine ⟨⟨?_,fun e he => ?_⟩,fun e he => ?_⟩
  · unfold allReady
    rw [List.map_map]
    exact List.nodup_range.map (add_right_injective lfd)
  · obtain ⟨i,hi,rfl⟩ := List.mem_map.mp he
    rw [List.mem_range] at hi
    cases i with
    | zero => exact ⟨_,h.listens,rfl,id,id⟩
    | succ i =>
      refine ⟨_,(h.seat (lfd+(i+1)) (by omega) (by omega)).interest,rfl,fun _ => hevents,fun hout => ?_⟩
      exact absurd hout (show ¬hasBit EPOLLIN EPOLLOUT by decide)
  · obtain ⟨i,hi,rfl⟩ := List.mem_map.mp he
    rw [List.mem_range] at hi
    cases i with
    | zero =>
      refine .intro h.listens (by decide) (fun hedge => absurd hedge (show ¬hasBit EPOLLIN EPOLLET by decide)) ?_
      unfold Sockets.Ready
      exact (if_pos rfl).mpr (List.append_ne_nil_of_right_ne_nil _ (List.cons_ne_nil _ _))
    | succ i =>
      have hseat := h.seat (lfd+(i+1)) (by omega) (by omega)
      exact .intro hseat.interest hevents (fun _ => hseat.marked)
        ((Sockets.ready_iff (by dsimp only; omega)).mpr (hseat.ready.mpr (by omega)))

/-- `size` counts bytes, so what `epoll_wait` writes stays within `evs` exactly if there are always fewer than
1024 connections. -/
theorem evs_fits_iff (hp : p = serverEpoll ∨ p = server1Epoll2) (n : ℕ) :
    (∀ opened lfd steps s, Trace (Step p lfd) (start opened lfd) steps s →
      (∀ x ∈ steps, AtMost lfd n x.1) →
        ∀ x ∈ steps, ∀ batch, x.2 = .wait batch → batch.length ≤ EVS_LENGTH) ↔ n < EVS_LENGTH := by
  constructor
  · intro hfits
    by_contra hle
    have hsize : EVS_LENGTH+1 ≤ p.size := by
      obtain rfl | rfl := hp <;> decide
    have hevents : hasBit p.events EPOLLIN := by
      obtain rfl | rfl := hp <;> decide
    obtain ⟨steps,s,htrace,hseated,hinside⟩ :=
      exists_loud (p := p) (by omega) 3 EVS_LENGTH (le_refl EVS_LENGTH)
    have hlength : (allReady 3 EVS_LENGTH).length = EVS_LENGTH+1 := by
      rw [allReady, List.length_map, List.length_range]
    have hwait := (htrace.snoc .connect).snoc (.wait hseated.waits.running hseated.waits.cdfd
      hseated.waits.pending (hseated.reports hevents) (hlength.trans_le hsize))
    have hlast := hfits _ _ _ _ hwait ?_ _ (List.mem_append_right _ (List.mem_singleton_self _)) _ rfl
    · rw [hlength] at hlast
      exact Nat.not_succ_le_self _ hlast
    · intro x hx
      simp only [List.mem_append, List.mem_singleton] at hx
      obtain (hx | rfl) | rfl := hx
      · exact (hinside x hx).atMost (Nat.le_of_not_lt hle)
      · exact hseated.inside.atMost (Nat.le_of_not_lt hle)
      · exact Inside.atMost (s := ⟨s.sockets.connect,s.pending,s.cdfd,s.exited⟩) hseated.inside
          (Nat.le_of_not_lt hle)
  · intro hlt opened lfd steps s htrace hatMost x hx batch hbatch
    obtain ⟨s',hstep⟩ := htrace.step_of_mem hx
    rw [hbatch] at hstep
    cases hstep with
    | wait _ _ _ hreports => exact ((hatMost x hx).length_le hreports).trans hlt

theorem evs_fits_iff_two : ¬∀ opened lfd steps s,
    Trace (Step serverEpoll lfd) (start opened lfd) steps s → (∀ x ∈ steps, AtMost lfd 1024 x.1) →
      ∀ x ∈ steps, ∀ batch, x.2 = .wait batch → batch.length ≤ EVS_LENGTH := by
  rw [evs_fits_iff (.inl rfl) 1024]
  decide

end Seats
end ServerKit.Io
