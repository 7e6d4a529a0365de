import ServerKit.Lib.Transition
import ServerKit.Reactor.Http

/-! What the status of a slot is worth when the kernel may refuse any request: `nty_event_add` sets it
before it asks. -/
namespace ServerKit.Reactor
open Function ServerKit.Lib

/-- A slot and the kernel. -/
structure Slot (X : Type) where
  kernel : Epoll Ptr
  ev : NtyEvent X

/-- A call on the slot; `epoll_ctl` may refuse what `nty_event_add` asks for. -/
inductive Call
  | set (fd : ℕ) (callback : Callback) (arg : Arg)
  | add (events : ℕ) (granted : Bool)
  | del

namespace Slot
variable {X : Type}

/-- The slot is at `p`. -/
def after (p : Ptr) (s : Slot X) : Call → Slot X
  | .set fd callback arg => ⟨s.kernel,ntyEventSet s.ev fd callback arg⟩
  | .add events granted =>
    let r := ntyEventAdd s.kernel granted events s.ev p
    ⟨r.1,r.2.1⟩
  | .del =>
    let r := ntyEventDel s.kernel s.ev p
    ⟨r.1,r.2.1⟩

def Step (p : Ptr) (s : Slot X) (c : Call) (s' : Slot X) : Prop := s' = s.after p c

/-- A fresh slot when nothing is registered. -/
def start [Zero X] (opened : ℕ → Bool) : Slot X := ⟨⟨opened,fun _ => none,[]⟩,zeroEvent⟩

def Registered (s : Slot X) : Prop := s.kernel.interest s.ev.fd ≠ none

instance (s : Slot X) : Decidable s.Registered := inferInstanceAs (Decidable (¬ (_ = none)))

/-- The status says what is registered, and the next `nty_event_add` asks for the right operation. -/
structure Tracked (p : Ptr) (s : Slot X) : Prop where
  status : s.ev.status = 1 ↔ s.Registered
  asks : ∀ granted events,
    ((ntyEventAdd s.kernel granted events s.ev p).1,(ntyEventAdd s.kernel granted events s.ev p).2.2) =
      s.kernel.ctl granted (if s.Registered then .mod else .add) s.ev.fd ⟨events,p⟩

/-- If the call is a `nty_event_add` that fails, then it leaves the status as it was. -/
def KeepsStatus (p : Ptr) (s : Slot X) (c : Call) : Prop :=
  ∀ granted events, c = .add events granted →
    (ntyEventAdd s.kernel granted events s.ev p).2.2 = -1 →
    (ntyEventAdd s.kernel granted events s.ev p).2.1.status = s.ev.status

/-- An operation to add the descriptor is refused, or a registered slot is given another descriptor. -/
def Misled (p : Ptr) (s : Slot X) : Call → Prop
  | .set fd _ _ => s.ev.status = 1 ∧ fd ≠ s.ev.fd
  | .add events granted =>
    s.ev.status ≠ 1 ∧ (s.kernel.ctl granted .add s.ev.fd ⟨events,p⟩).2 = -1
  | .del => False

instance (p : Ptr) (s : Slot X) (c : Call) : Decidable (s.Misled p c) :=
  match c with
  | .set _ _ _ => inferInstanceAs (Decidable (_ ∧ _))
  | .add _ _ => inferInstanceAs (Decidable (_ ∧ _))
  | .del => inferInstanceAs (Decidable False)

/-- What is registered is the descriptor of the slot, when its status is 1. -/
def Faithful (s : Slot X) : Prop := ∀ fd, s.kernel.interest fd ≠ none ↔ s.ev.status = 1 ∧ fd = s.ev.fd

section Add
variable {k : Epoll Ptr} {ev : NtyEvent X} {p : Ptr} {events : ℕ}

theorem ntyEventAdd_eq (k : Epoll Ptr) (granted : Bool) (events : ℕ) (ev : NtyEvent X) (p : Ptr) :
    ntyEventAdd k granted events ev p =
      ((k.ctl granted (if ev.status = 1 then .mod else .add) ev.fd ⟨events,p⟩).1,
        { ev with events := events, status := 1 },
        (k.ctl granted (if ev.status = 1 then .mod else .add) ev.fd ⟨events,p⟩).2) := by
  unfold ntyEventAdd
  by_cases hstatus : ev.status = 1
  · simp only [hstatus, if_true]
  · simp only [hstatus, if_false]

end Add

section Step
variable {s : Slot X} {p : Ptr} {c : Call}

theorem Faithful.registered_iff (h : s.Faithful) : s.Registered ↔ s.ev.status = 1 :=
  (h s.ev.fd).trans (and_iff_left rfl)

theorem Faithful.tracked (h : s.Faithful) (p : Ptr) : s.Tracked p := by
  refine ⟨h.registered_iff.symm,fun granted events => ?_⟩
  rw [ntyEventAdd_eq, if_congr h.registered_iff rfl rfl]

theorem faithful_start [Zero X] (opened : ℕ → Bool) : (start opened : Slot X).Faithful := by
  intro fd
  exact iff_of_false (fun h => h rfl) fun h => absurd h.1 (show ¬ (0 : ℕ) = 1 by decide)

/-- What `epoll_ctl` grants is registered afterwards. -/
theorem interest_set {k : Epoll Ptr} {fd fd' : ℕ} {i : Interest Ptr} :
    (k.set fd (some i)).interest fd' ≠ none ↔ k.interest fd' ≠ none ∨ fd' = fd := by
  by_cases hfd : fd' = fd
  · subst hfd
    simp [Epoll.set]
  · simp [Epoll.set,hfd]

theorem Faithful.after (h : s.Faithful) (hnot : ¬ s.Misled p c) : (s.after p c).Faithful := by
  intro fd'
  cases c with
  | set fd callback arg =>
    change s.kernel.interest fd' ≠ none ↔ s.ev.status = 1 ∧ fd' = fd
    rw [h]
    refine and_congr_right fun hstatus => ?_
    obtain rfl : fd = s.ev.fd := by
      by_contra hne
      exact hnot ⟨hstatus,hne⟩
    rfl
  | add events granted =>
    simp only [Slot.after, ntyEventAdd_eq, true_and]
    by_cases hstatus : s.ev.status = 1
    · -- the slot is registered, and stays so when the operation is refused
      have hreg : s.kernel.interest fd' ≠ none ↔ fd' = s.ev.fd := (h fd').trans (and_iff_right hstatus)
      rw [if_pos hstatus]
      obtain ⟨-,hctl⟩ | hctl := s.kernel.ctl_cases granted .mod s.ev.fd ⟨events,p⟩
      · rw [hctl, Epoll.ctl_mod (h.registered_iff.mpr hstatus), interest_set, hreg, or_self]
      · rw [hctl]
        exact hreg
    · have hfree : ¬ s.kernel.interest fd' ≠ none := fun hreg => hstatus ((h fd').mp hreg).1
      rw [if_neg hstatus]
      obtain ⟨hlegal,hctl⟩ | hctl := s.kernel.ctl_cases granted .add s.ev.fd ⟨events,p⟩
      · have hnone : s.kernel.interest s.ev.fd = none := by
          by_contra hreg
          exact hstatus (h.registered_iff.mp hreg)
        rw [hctl, Epoll.ctl_add (Epoll.legal_add hlegal) hnone, interest_set]
        exact or_iff_right hfree
      · exact absurd ⟨hstatus,by rw [hctl]⟩ hnot
  | del =>
    by_cases hstatus : s.ev.status = 1
    · have hdel := ntyEventDel_registered (p := p) hstatus (h.registered_iff.mpr hstatus)
      simp only [Slot.after, hdel]
      refine iff_of_false ?_ fun h => absurd h.1 (show ¬ (0 : ℕ) = 1 by decide)
      by_cases hfd : fd' = s.ev.fd
      · subst hfd
        simp [Epoll.set]
      · simpa [Epoll.set,hfd] using fun hreg => hfd ((h fd').mp hreg).2
    · have hdel : ntyEventDel s.kernel s.ev p = (s.kernel,s.ev,-1) := if_pos hstatus
      simp only [Slot.after, hdel]
      exact h fd'

/-- A refused operation to add the descriptor leaves a status that is wrong. -/
theorem Faithful.misled (h : s.Faithful) (hmisled : s.Misled p c) : ¬ (s.after p c).Tracked p := by
  rintro ⟨hstatus,-⟩
  cases c with
  | set fd callback arg =>
    obtain ⟨hone,hne⟩ := hmisled
    exact hne ((h fd).mp (hstatus.mp hone)).2
  | add events granted =>
    obtain ⟨hout,hrefused⟩ := hmisled
    simp only [Slot.after, ntyEventAdd_eq, if_neg hout, true_iff, Registered] at hstatus
    have hctl : s.kernel.ctl granted .add s.ev.fd ⟨events,p⟩ =
        ({ s.kernel with failed := (.add,s.ev.fd) :: s.kernel.failed },-1) := by
      obtain ⟨hlegal,hctl⟩ | hctl := s.kernel.ctl_cases granted .add s.ev.fd ⟨events,p⟩
      · have hnone : s.kernel.interest s.ev.fd = none := by
          by_contra hreg
          exact hout (h.registered_iff.mp hreg)
        rw [hctl, Epoll.ctl_add (Epoll.legal_add hlegal) hnone] at hrefused
        cases hrefused
      · exact hctl
    rw [hctl] at hstatus
    exact hout (h.registered_iff.mp hstatus)
  | del => exact hmisled

/-- The only calls that fail and change the status are those to add the descriptor. -/
theorem keepsStatus_of_not_misled (hnot : ¬ s.Misled p c) : s.KeepsStatus p c := by
  rintro granted events rfl hfails
  rw [ntyEventAdd_eq] at hfails ⊢
  by_contra hne
  have hout : s.ev.status ≠ 1 := fun hone => hne hone.symm
  rw [if_neg hout] at hfails
  exact hnot ⟨hout,hfails⟩

end Step

section Runs
variable [Zero X] {p : Ptr} {opened : ℕ → Bool} {steps : List (Slot X × Call)} {s : Slot X}

/-- All along a run the status says what is registered and failed calls keep it if and only if `epoll_ctl`
never refuses to add the descriptor and no registered slot is given another one. -/
theorem tracked_iff (h : Trace (Step p) (start opened) steps s) :
    ((∀ x ∈ steps, x.1.KeepsStatus p x.2) ∧ (∀ x ∈ steps, x.1.Tracked p) ∧ s.Tracked p) ↔
      ∀ x ∈ steps, ¬ x.1.Misled p x.2 := by
  have htracked : ((∀ x ∈ steps, x.1.Tracked p) ∧ s.Tracked p) ↔ ∀ x ∈ steps, ¬ x.1.Misled p x.2 := by
    refine h.until_iff (J := Faithful) (faithful_start opened) (fun s hs => hs.tracked p) ?_ ?_
    · rintro s c s' hs hnot rfl
      exact hs.after hnot
    · rintro s c s' hs hmisled rfl
      exact hs.misled hmisled
  rw [htracked]
  exact and_iff_right_of_imp fun hnone x hx => keepsStatus_of_not_misled (hnone x hx)

/-- The slot `(0,5)` is set up for its descriptor. -/
theorem trace_set : Trace (Step (0,5)) (start (fun fd => fd == 5) : Slot Http.Fields)
    [(start (fun fd => fd == 5),.set 5 .recvCb .reactor)]
    ((start (fun fd => fd == 5)).after (0,5) (.set 5 .recvCb .reactor)) :=
  .snoc .nil rfl

/-- A descriptor is added, its interest is changed in vain, and it is taken out. -/
theorem tracked_iff_changed : ∃ steps s, steps.map Prod.snd =
      [.set 5 .recvCb .reactor,.add EPOLLIN true,.add EPOLLOUT false,.del] ∧
    Trace (Step (0,5)) (start (fun fd => fd == 5) : Slot Http.Fields) steps s ∧
    (∀ x ∈ steps, x.1.KeepsStatus (0,5) x.2) ∧ (∀ x ∈ steps, x.1.Tracked (0,5)) ∧ s.Tracked (0,5) := by
  have htrace := ((trace_set.snoc (l := .add EPOLLIN true) rfl).snoc (l := .add EPOLLOUT false) rfl).snoc
    (l := .del) rfl
  exact ⟨_,_,rfl,htrace,(tracked_iff htrace).mpr (by decide)⟩

/-- The first `nty_event_add` is refused. The slot counts as registered from then on, and is not, and the
next one asks for a change, which fails too. -/
theorem refused_add : ∃ steps s, Trace (Step (0,5)) (start (fun fd => fd == 5) : Slot Http.Fields) steps s ∧
    ¬ (∀ x ∈ steps, x.1.KeepsStatus (0,5) x.2) ∧ ¬ s.Tracked (0,5) ∧ ¬ s.Registered ∧
    s.ev.status = 1 ∧ (ntyEventAdd s.kernel true EPOLLIN s.ev (0,5)).2.2 = -1 := by
  have htrace := trace_set.snoc (l := .add EPOLLIN false) rfl
  refine ⟨_,_,htrace,fun hkeeps => ?_,fun htracked => ?_,by decide,rfl,rfl⟩
  · have hstatus := hkeeps _ (.tail _ (.head _)) false EPOLLIN rfl rfl
    cases hstatus
  · exact absurd (htracked.status.mp rfl) (by decide)

end Runs
end Slot
end ServerKit.Reactor
