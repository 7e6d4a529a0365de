import Mathlib.Data.List.Nodup
import Mathlib.Data.Int.Notation
import Mathlib.Data.Nat.Notation
import Mathlib.Logic.Function.Basic

/-! The part of a kernel that an epoll loop relies on: which descriptors are open, what is registered
for them, and which requests have failed. -/
namespace ServerKit.Lib
open Function

variable {δ : Type*}

def EPOLLIN : ℕ := 0x001
def EPOLLOUT : ℕ := 0x004

inductive EpollOp
  | add
  | mod
  | del

/-- What is registered for a descriptor. -/
structure Interest (δ : Type*) where
  events : ℕ
  data : δ

structure Epoll (δ : Type*) where
  opened : ℕ → Bool
  interest : ℕ → Option (Interest δ)
  /-- The requests that returned an error, the last one first. -/
  failed : List (EpollOp × ℕ)

/-- What `epoll_wait` tells about a descriptor. -/
structure Ready (δ : Type*) where
  fd : ℕ
  events : ℕ
  data : δ

/-- The event mask `a` has a bit in common with `b`. -/
def hasBit (a b : ℕ) : Prop := a &&& b ≠ 0

instance (a b : ℕ) : Decidable (hasBit a b) := inferInstanceAs (Decidable (_ ≠ _))

/-- What is done for an event leaves the descriptors of the other pending events alone. -/
theorem Ready.ne_of_pending {e e' : Ready δ} {pending : List (Ready δ)} {fd : ℕ}
    {opened : ℕ → Bool} (hnodup : e.fd ∉ pending.map Ready.fd) (he' : e' ∈ pending)
    (hopened : opened e'.fd = true) (hfd : fd = e.fd ∨ opened fd = false) : e'.fd ≠ fd := by
  rintro rfl
  obtain heq | hnew := hfd
  · exact hnodup (heq ▸ List.mem_map_of_mem he')
  · rw [hopened] at hnew
    cases hnew

namespace Epoll

/-- Only an open descriptor can be added, and only once; the other requests need it registered. -/
def legal (k : Epoll δ) : EpollOp → ℕ → Bool
  | .add,fd => k.opened fd && (k.interest fd).isNone
  | .mod,fd => (k.interest fd).isSome
  | .del,fd => (k.interest fd).isSome

def set (k : Epoll δ) (fd : ℕ) (i : Option (Interest δ)) : Epoll δ :=
  { k with interest := update k.interest fd i }

/-- This is `epoll_ctl`; the kernel may refuse a legal request, too, when it is not `granted`. -/
def ctl (k : Epoll δ) (granted : Bool) (op : EpollOp) (fd : ℕ) (i : Interest δ) : Epoll δ × ℤ :=
  if k.legal op fd && granted then
    match op with
    | .add => (k.set fd (some i),0)
    | .mod => (k.set fd (some i),0)
    | .del => (k.set fd none,0)
  else ({ k with failed := (op,fd) :: k.failed },-1)

/-- A descriptor that is closed leaves the epoll set. -/
def close (k : Epoll δ) (fd : ℕ) : Epoll δ :=
  { k with opened := update k.opened fd false, interest := update k.interest fd none }

/-- A new connection gets the descriptor `fd`. -/
def accept (k : Epoll δ) (fd : ℕ) : Epoll δ := { k with opened := update k.opened fd true }

/-- An event of a registered descriptor: one it is registered for, or another such as an error. -/
def Reported (k : Epoll δ) (e : Ready δ) : Prop :=
  ∃ i, k.interest e.fd = some i ∧ e.data = i.data ∧
    (hasBit e.events EPOLLIN → hasBit i.events EPOLLIN) ∧
    (hasBit e.events EPOLLOUT → hasBit i.events EPOLLOUT)

/-- What is reported of a descriptor depends on what is registered for it. -/
theorem Reported.congr {k k' : Epoll δ} {e : Ready δ} (h : k.Reported e)
    (hinterest : k'.interest e.fd = k.interest e.fd) : k'.Reported e := by
  obtain ⟨i,hi,hrest⟩ := h
  exact ⟨i,hinterest.trans hi,hrest⟩

/-- A result of `epoll_wait`, which tells of each descriptor once. -/
structure Reports (k : Epoll δ) (batch : List (Ready δ)) : Prop where
  nodup : (batch.map Ready.fd).Nodup
  reported : ∀ e ∈ batch, k.Reported e

/-- A registered descriptor may be reported alone, with all that it waits for. -/
theorem reports_one {k : Epoll ℕ} {e : Ready ℕ} (hi : k.interest e.fd = some ⟨e.events,e.fd⟩)
    (hdata : e.data = e.fd) : k.Reports [e] := by
  refine ⟨List.nodup_singleton _,fun e' hmem => ?_⟩
  rw [List.mem_singleton.mp hmem]
  exact ⟨_,hi,hdata,id,id⟩

section Ctl
variable {k : Epoll δ} {fd : ℕ} {i : Interest δ}

@[simp] theorem set_set (k : Epoll δ) (fd : ℕ) (i j : Option (Interest δ)) :
    (k.set fd i).set fd j = k.set fd j := by
  unfold set
  rw [update_idem]

@[simp] theorem close_set (k : Epoll δ) (fd : ℕ) (i : Option (Interest δ)) :
    (k.set fd i).close fd = k.close fd := by
  unfold set close
  rw [update_idem]

theorem ctl_add (hopen : k.opened fd = true) (hfree : k.interest fd = none) :
    k.ctl true .add fd i = (k.set fd (some i),0) := by
  simp [ctl,legal,hopen,hfree]

theorem ctl_mod (hreg : k.interest fd ≠ none) :
    k.ctl true .mod fd i = (k.set fd (some i),0) := by
  simp [ctl,legal,Option.isSome_iff_ne_none,hreg]

theorem ctl_del (hreg : k.interest fd ≠ none) :
    k.ctl true .del fd i = (k.set fd none,0) := by
  simp [ctl,legal,Option.isSome_iff_ne_none,hreg]

/-- A request is answered as if it was granted, or it is refused. -/
theorem ctl_cases (k : Epoll δ) (granted : Bool) (op : EpollOp) (fd : ℕ) (i : Interest δ) :
    k.legal op fd = true ∧ k.ctl granted op fd i = k.ctl true op fd i ∨
      k.ctl granted op fd i = ({ k with failed := (op,fd) :: k.failed },-1) := by
  cases hlegal : k.legal op fd with
  | false => simp [ctl,hlegal]
  | true =>
    cases granted with
    | true => exact .inl ⟨rfl,rfl⟩
    | false => simp [ctl]

theorem legal_add (h : k.legal .add fd = true) : k.opened fd = true := (Bool.and_eq_true_iff.mp h).1

end Ctl
end Epoll
end ServerKit.Lib
