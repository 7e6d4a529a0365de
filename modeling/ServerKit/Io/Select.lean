import ServerKit.Lib.CString
import ServerKit.Lib.Sockets
import ServerKit.Lib.Transition

/-! The server in `zero_threadpool/io/server_selete.c`, which waits with `select`. It misses no client. -/
namespace ServerKit.Io.Select
open Function ServerKit.Lib

/-- `sizeof(buf)` -/
def BUF_SIZE : ℕ := 1024

/-- The descriptors that a set has room for. -/
def FD_SETSIZE : ℕ := 1024

/-- A chunk and what is written for it. -/
structure Answer where
  fd : ℕ
  chunk : List UInt8
  reply : List UInt8

/-- Where the process is. In `overrun` it has left one of its arrays. -/
inductive Place
  | select
  | test (temp : ℕ → Bool)
  | loop (temp : ℕ → Bool) (i : ℕ)
  | exited (status : ℤ)
  | overrun

/-- The process and its kernel. The buffer keeps its place on the stack, and nobody clears it. -/
structure State where
  opened : ℕ → Bool
  streams : ℕ → Stream
  backlog : List Stream
  rsets : ℕ → Bool
  maxn : ℕ
  buf : List UInt8
  answers : List Answer
  place : Place

/-- A reading call on `fd` returns at once. -/
def State.ready (s : State) (lfd fd : ℕ) : Bool :=
  if fd = lfd then !s.backlog.isEmpty else decide (s.streams fd).Ready

/-- What `select(maxn+1,&temp,NULL,NULL,NULL)` leaves in `temp`. -/
def State.selected (s : State) (lfd fd : ℕ) : Bool :=
  s.rsets fd && decide (fd < s.maxn+1) && s.ready lfd fd

/-- The listening socket is ready. -/
def accepted (s : State) (lfd : ℕ) (temp : ℕ → Bool) (cfd : Option ℕ) : State :=
  match cfd with
  | none => { s with place := .exited (-4) }
  | some cfd =>
    if cfd < FD_SETSIZE then
      { s with
        opened := update s.opened cfd true
        streams := update s.streams cfd (s.backlog.headD Stream.fresh)
        backlog := s.backlog.tail
        rsets := update s.rsets cfd true
        maxn := if s.maxn > cfd then s.maxn else cfd
        place := .loop temp (lfd+1) }
    else { s with place := .overrun }

/-- `write(i,buf,strlen(buf)+1)`, where the kernel takes some bytes or sends SIGPIPE. -/
def wrote (s : State) (temp : ℕ → Bool) (i : ℕ) (chunk : List UInt8) (took : Option ℕ) : State :=
  if 0 ∈ s.buf then
    let reply := text s.buf ++ [0]
    let stream := s.streams i
    { s with
      streams := update s.streams i { stream with sent := stream.sent ++ reply.take (took.getD 0) }
      answers := s.answers ++ [⟨i,chunk,reply⟩]
      place := if took = none then .exited (128+13) else .loop temp (i+1) }
  else { s with place := .overrun }

/-- The connection `i` is ready. -/
def received (s : State) (temp : ℕ → Bool) (i count : ℕ) (took : Option ℕ) : State :=
  if s.opened i = false then { s with place := .loop temp (i+1) }
  else
    match (s.streams i).recv count with
    | (.closed,_) =>
      { s with
        rsets := update s.rsets i false
        opened := update s.opened i false
        place := .loop temp (i+1) }
    | (.data bytes,stream) =>
      wrote { s with
        streams := update s.streams i stream
        buf := bytes ++ s.buf.drop bytes.length } temp i bytes took
    | (.again,stream) => { s with streams := update s.streams i stream, place := .loop temp (i+1) }
    | (.failed,stream) => { s with streams := update s.streams i stream, place := .loop temp (i+1) }

/-- The program before its loop, with some descriptors and with what is on the stack. -/
def start (opened : ℕ → Bool) (lfd : ℕ) (buf : List UInt8) : State :=
  ⟨opened,fun _ => Stream.fresh,[],fun fd => fd = lfd,lfd,buf,[],.select⟩

inductive Action
  | connect
  | queued (n : ℕ) (a : Arrival)
  | arrive (fd : ℕ) (a : Arrival)
  | select
  | pass
  | accept (cfd : Option ℕ)
  | recv (count : ℕ) (took : Option ℕ)
  | again

/-- `select` waits until something is ready, and `accept` and `recv` wait, too. -/
inductive Step (lfd : ℕ) (s : State) : Action → State → Prop
  | connect : Step lfd s .connect { s with backlog := s.backlog ++ [Stream.fresh] }
  | queued {n a} : Step lfd s (.queued n a) { s with backlog := s.backlog.modify n (·.receive a) }
  | arrive {fd a} (hfd : fd ≠ lfd) (hset : s.rsets fd = true) :
      Step lfd s (.arrive fd a) { s with streams := update s.streams fd ((s.streams fd).receive a) }
  | select {fd} (hplace : s.place = .select) (hready : s.selected lfd fd = true) :
      Step lfd s .select { s with place := .test (s.selected lfd) }
  | unready {temp} (hplace : s.place = .test temp) (hlfd : temp lfd = false) :
      Step lfd s .pass { s with place := .loop temp (lfd+1) }
  | accept {temp cfd} (hplace : s.place = .test temp) (hlfd : temp lfd = true) (hbacklog : s.backlog ≠ [])
      (hnew : ∀ fd, cfd = some fd → s.opened fd = false) :
      Step lfd s (.accept cfd) (accepted s lfd temp cfd)
  | skip {temp i} (hplace : s.place = .loop temp i) (hi : i < s.maxn+1) (htemp : temp i = false) :
      Step lfd s .pass { s with place := .loop temp (i+1) }
  | recv {temp i count took} (hplace : s.place = .loop temp i) (hi : i < s.maxn+1) (htemp : temp i = true)
      (hcount : 0 < count) (hfits : count ≤ BUF_SIZE) (hnow : s.opened i = false ∨ (s.streams i).Ready)
      (hsend : took = none → (s.streams i).ending = .broken) :
      Step lfd s (.recv count took) (received s temp i count took)
  | again {temp i} (hplace : s.place = .loop temp i) (hi : ¬i < s.maxn+1) :
      Step lfd s .again { s with place := .select }

/-- What `temp` says of the descriptors from `first` on is still so. -/
def State.Seen (s : State) (lfd first : ℕ) (temp : ℕ → Bool) : Prop :=
  ∀ fd, first ≤ fd → temp fd = true → s.rsets fd = true ∧ s.ready lfd fd = true

def State.At (s : State) (lfd : ℕ) : Place → Prop
  | .test temp => s.Seen lfd 0 temp
  | .loop temp i => lfd < i ∧ s.Seen lfd i temp
  | _ => True

/-- The set has the listening socket and the connections, and `maxn` is not below any of them. -/
structure Kept (opened : ℕ → Bool) (lfd : ℕ) (s : State) : Prop where
  low : ∀ fd, fd ≤ lfd → s.opened fd = true
  listens : s.rsets lfd = true
  member : ∀ fd, s.rsets fd = true → s.opened fd = true ∧ lfd ≤ fd ∧ fd ≤ s.maxn
  conns : ∀ fd, s.opened fd = true → opened fd = false → s.rsets fd = true
  place : s.At lfd s.place

section Steps
variable {opened : ℕ → Bool} {lfd : ℕ} {s s' : State} {temp : ℕ → Bool} {i : ℕ}

theorem State.Seen.mono {first first' : ℕ} (h : s.Seen lfd first temp) (hle : first ≤ first') :
    s.Seen lfd first' temp := fun fd hfd => h fd (hle.trans hfd)

/-- What came in between does no harm. -/
theorem State.Seen.congr {first : ℕ} (h : s.Seen lfd first temp)
    (hsame : ∀ fd, first ≤ fd → temp fd = true → s.rsets fd = true → s.ready lfd fd = true →
      s'.rsets fd = true ∧ s'.ready lfd fd = true) : s'.Seen lfd first temp := by
  intro fd hfd htemp
  obtain ⟨hset,hready⟩ := h fd hfd htemp
  exact hsame fd hfd htemp hset hready

theorem State.At.congr (h : s.At lfd s.place) (hplace : s'.place = s.place) (hrsets : s'.rsets = s.rsets)
    (hready : ∀ fd, s.ready lfd fd = true → s'.ready lfd fd = true) : s'.At lfd s'.place := by
  have hseen {first : ℕ} {temp : ℕ → Bool} (hs : s.Seen lfd first temp) : s'.Seen lfd first temp :=
    hs.congr fun fd _ _ hset hr => ⟨hrsets ▸ hset,hready fd hr⟩
  rw [hplace]
  cases hat : s.place with
  | test temp =>
    rw [hat] at h
    exact hseen h
  | loop temp i =>
    rw [hat] at h
    exact ⟨h.1,hseen h.2⟩
  | _ => trivial

/-- Something came from a client. -/
theorem Kept.came (h : Kept opened lfd s) (hopened : s'.opened = s.opened) (hrsets : s'.rsets = s.rsets)
    (hmaxn : s'.maxn = s.maxn) (hplace : s'.place = s.place)
    (hready : ∀ fd, s.ready lfd fd = true → s'.ready lfd fd = true) : Kept opened lfd s' := by
  refine ⟨?_,?_,?_,?_,h.place.congr hplace hrsets hready⟩
  · rw [hopened]
    exact h.low
  · rw [hrsets]
    exact h.listens
  · rw [hrsets, hopened, hmaxn]
    exact h.member
  · rw [hrsets, hopened]
    exact h.conns

theorem ready_iff {fd : ℕ} (hfd : fd ≠ lfd) : s.ready lfd fd = true ↔ (s.streams fd).Ready := by
  unfold State.ready
  rw [if_neg hfd, decide_eq_true_iff]

theorem ready_listen : s.ready lfd lfd = true ↔ s.backlog ≠ [] := by
  unfold State.ready
  rw [if_pos rfl, Bool.not_eq_true', List.isEmpty_eq_false_iff]

/-- Where the streams do not lose anything and the backlog does not get empty, readiness stays. -/
theorem ready_mono {fd : ℕ} (hbacklog : s.backlog ≠ [] → s'.backlog ≠ [])
    (hstream : (s.streams fd).Ready → (s'.streams fd).Ready) (h : s.ready lfd fd = true) :
    s'.ready lfd fd = true := by
  by_cases hfd : fd = lfd
  · subst hfd
    exact ready_listen.mpr (hbacklog (ready_listen.mp h))
  · exact (ready_iff hfd).mpr (hstream ((ready_iff hfd).mp h))

/-- What a call of `recv` with everything behind it may change. -/
structure Visited (s : State) (temp : ℕ → Bool) (i : ℕ) (s' : State) : Prop where
  maxn : s'.maxn = s.maxn
  backlog : s'.backlog = s.backlog
  streams : ∀ fd, fd ≠ i → s'.streams fd = s.streams fd
  members : s'.rsets = s.rsets ∧ s'.opened = s.opened ∨
    s'.rsets = update s.rsets i false ∧ s'.opened = update s.opened i false
  place : s'.place = .loop temp (i+1) ∨ (∃ status, s'.place = .exited status) ∨ s'.place = .overrun

theorem wrote_visited (s : State) (temp : ℕ → Bool) (i : ℕ) (chunk : List UInt8) (took : Option ℕ) :
    Visited s temp i (wrote s temp i chunk took) := by
  unfold wrote
  split
  · refine ⟨rfl,rfl,fun fd hfd => update_of_ne hfd ..,.inl ⟨rfl,rfl⟩,?_⟩
    cases took with
    | none => exact .inr (.inl ⟨_,rfl⟩)
    | some n => exact .inl rfl
  · exact ⟨rfl,rfl,fun _ _ => rfl,.inl ⟨rfl,rfl⟩,.inr (.inr rfl)⟩

theorem received_visited (s : State) (temp : ℕ → Bool) (i count : ℕ) (took : Option ℕ) :
    Visited s temp i (received s temp i count took) := by
  unfold received
  split
  · exact ⟨rfl,rfl,fun _ _ => rfl,.inl ⟨rfl,rfl⟩,.inl rfl⟩
  · have hreceives := (s.streams i).receives count
    generalize (s.streams i).recv count = result at hreceives
    have hstreams (c : Stream) fd (hfd : fd ≠ i) : update s.streams i c fd = s.streams fd :=
      update_of_ne hfd ..
    cases hreceives with
    | data =>
      have hwrote := wrote_visited { s with
        streams := update s.streams i { s.streams i with
          unread := (s.streams i).unread.drop count
          received := (s.streams i).received ++ (s.streams i).unread.take count }
        buf := (s.streams i).unread.take count ++ s.buf.drop ((s.streams i).unread.take count).length }
        temp i ((s.streams i).unread.take count) took
      exact ⟨hwrote.maxn,hwrote.backlog,fun fd hfd => (hwrote.streams fd hfd).trans (hstreams _ fd hfd),
        hwrote.members,hwrote.place⟩
    | again => exact ⟨rfl,rfl,hstreams _,.inl ⟨rfl,rfl⟩,.inl rfl⟩
    | closed => exact ⟨rfl,rfl,fun _ _ => rfl,.inr ⟨rfl,rfl⟩,.inl rfl⟩
    | failed => exact ⟨rfl,rfl,hstreams _,.inl ⟨rfl,rfl⟩,.inl rfl⟩

/-- The loop over the descriptors leaves those that it has not come to alone. -/
theorem Kept.visited (h : Kept opened lfd s) (hi : lfd < i) (hseen : s.Seen lfd i temp)
    (hvisited : Visited s temp i s') : Kept opened lfd s' := by
  have hplace : s'.At lfd s'.place := by
    obtain hloop | ⟨status,hexited⟩ | hoverrun := hvisited.place
    · rw [hloop]
      refine ⟨Nat.lt_succ_of_lt hi,(hseen.mono (Nat.le_succ i)).congr fun fd hfd _ hset hready => ?_⟩
      have hne : fd ≠ i := by omega
      refine ⟨?_,ready_mono (fun hb => hvisited.backlog ▸ hb) (fun hr => (hvisited.streams fd hne) ▸ hr) hready⟩
      obtain ⟨hrsets,-⟩ | ⟨hrsets,-⟩ := hvisited.members
      · rwa [hrsets]
      · rwa [hrsets, update_of_ne hne]
    · rw [hexited]
      trivial
    · rw [hoverrun]
      trivial
  obtain ⟨hrsets,hopened⟩ | ⟨hrsets,hopened⟩ := hvisited.members
  · refine ⟨?_,?_,?_,?_,hplace⟩
    · rw [hopened]
      exact h.low
    · rw [hrsets]
      exact h.listens
    · rw [hrsets, hopened, hvisited.maxn]
      exact h.member
    · rw [hrsets, hopened]
      exact h.conns
  · refine ⟨fun fd hfd => ?_,?_,fun fd hset => ?_,fun fd hopen hnew => ?_,hplace⟩
    · rw [hopened, update_of_ne (by omega)]
      exact h.low fd hfd
    · rw [hrsets, update_of_ne (by omega)]
      exact h.listens
    · rw [hrsets] at hset
      by_cases hne : fd = i
      · rw [hne, update_self] at hset
        cases hset
      · rw [update_of_ne hne] at hset
        rw [hopened, update_of_ne hne, hvisited.maxn]
        exact h.member fd hset
    · rw [hopened] at hopen
      by_cases hne : fd = i
      · rw [hne, update_self] at hopen
        cases hopen
      · rw [update_of_ne hne] at hopen
        rw [hrsets, update_of_ne hne]
        exact h.conns fd hopen hnew

/-- A new descriptor is above `lfd`, and no result of `select` speaks of it. -/
theorem Kept.accept (h : Kept opened lfd s) {cfd : Option ℕ} (hseen : s.Seen lfd 0 temp)
    (hnew : ∀ fd, cfd = some fd → s.opened fd = false) : Kept opened lfd (accepted s lfd temp cfd) := by
  unfold accepted
  cases cfd with
  | none => exact ⟨h.low,h.listens,h.member,h.conns,trivial⟩
  | some cfd =>
    have hclosed := hnew cfd rfl
    have hne {fd : ℕ} (hopen : s.opened fd = true) : fd ≠ cfd := by
      rintro rfl
      cases hclosed.symm.trans hopen
    have habove : lfd < cfd := by
      by_contra hle
      exact hne (h.low cfd (Nat.le_of_not_lt hle)) rfl
    dsimp only
    split
    · refine ⟨fun fd hfd => ?_,?_,fun fd hset => ?_,fun fd hopen hold => ?_,?_⟩
      · exact (update_of_ne (by omega) ..).trans (h.low fd hfd)
      · exact (update_of_ne (by omega) ..).trans h.listens
      · by_cases heq : fd = cfd
        · subst heq
          refine ⟨update_self ..,habove.le,?_⟩
          dsimp only
          split <;> omega
        · obtain ⟨hopen,hle,hmaxn⟩ := h.member fd ((update_of_ne heq ..).symm.trans hset)
          refine ⟨(update_of_ne heq ..).trans hopen,hle,?_⟩
          dsimp only
          split <;> omega
      · by_cases heq : fd = cfd
        · subst heq
          exact update_self ..
        · exact (update_of_ne heq ..).trans (h.conns fd ((update_of_ne heq ..).symm.trans hopen) hold)
      · refine ⟨Nat.lt_succ_self lfd,(hseen.mono (Nat.zero_le _)).congr fun fd hfd _ hset hready => ?_⟩
        have hother := hne (h.member fd hset).1
        refine ⟨(update_of_ne hother ..).trans hset,?_⟩
        have hconn : fd ≠ lfd := by omega
        rw [ready_iff hconn] at hready ⊢
        dsimp only
        rwa [update_of_ne hother]
    · exact ⟨h.low,h.listens,h.member,h.conns,trivial⟩

theorem Kept.step (h : Kept opened lfd s) {a : Action} (hstep : Step lfd s a s') : Kept opened lfd s' := by
  cases hstep with
  | connect =>
    refine h.came rfl rfl rfl rfl fun fd => ready_mono (fun hb => ?_) id
    exact List.append_ne_nil_of_left_ne_nil hb _
  | @queued n a =>
    refine h.came rfl rfl rfl rfl fun fd => ready_mono (fun hb hnil => hb ?_) id
    exact List.length_eq_zero_iff.mp ((List.length_modify ..).symm.trans (congrArg List.length hnil))
  | @arrive fd a =>
    refine h.came rfl rfl rfl rfl fun fd' => ready_mono id fun hready => ?_
    dsimp only
    by_cases heq : fd' = fd
    · subst heq
      rw [update_self]
      exact Stream.ready_receive hready a
    · rwa [update_of_ne heq]
  | select =>
    refine ⟨h.low,h.listens,h.member,h.conns,fun fd _ htemp => ?_⟩
    obtain ⟨hset,hready⟩ := Bool.and_eq_true_iff.mp htemp
    exact ⟨(Bool.and_eq_true_iff.mp hset).1,hready⟩
  | unready hplace =>
    have hat := h.place
    rw [hplace] at hat
    exact ⟨h.low,h.listens,h.member,h.conns,Nat.lt_succ_self lfd,hat.mono (Nat.zero_le _)⟩
  | accept hplace _ _ hnew =>
    have hat := h.place
    rw [hplace] at hat
    exact h.accept hat hnew
  | skip hplace =>
    have hat := h.place
    rw [hplace] at hat
    exact ⟨h.low,h.listens,h.member,h.conns,Nat.lt_succ_of_lt hat.1,hat.2.mono (Nat.le_succ _)⟩
  | recv hplace =>
    have hat := h.place
    rw [hplace] at hat
    exact h.visited hat.1 hat.2 (received_visited ..)
  | again => exact ⟨h.low,h.listens,h.member,h.conns,trivial⟩

theorem start_kept (hlow : ∀ fd, fd ≤ lfd → opened fd = true) (buf : List UInt8) :
    Kept opened lfd (start opened lfd buf) := by
  refine ⟨hlow,decide_eq_true rfl,fun fd hset => ?_,fun fd hopen hclosed => ?_,trivial⟩
  · obtain rfl := of_decide_eq_true hset
    exact ⟨hlow fd le_rfl,le_rfl,le_rfl⟩
  · cases hopen.symm.trans hclosed

end Steps

/-- `select` has to wait. -/
structure State.Idle (lfd : ℕ) (s : State) : Prop where
  place : s.place = .select
  quiet : ∀ fd, s.selected lfd fd = false

section Runs
variable {opened : ℕ → Bool} {lfd : ℕ} {buf : List UInt8} {as : List Action} {s : State}

theorem run_kept (hlow : ∀ fd, fd ≤ lfd → opened fd = true)
    (h : Run (Step lfd) (start opened lfd buf) as s) : Kept opened lfd s :=
  h.invariant (start_kept hlow buf) fun _ _ _ hs hstep => hs.step hstep

/-- When the process waits for good, it has accepted every client, read all that came from the connections that
are open, and closed every connection whose client has gone. -/
theorem select_answered (hlow : ∀ fd, fd ≤ lfd → opened fd = true)
    (h : Run (Step lfd) (start opened lfd buf) as s) (hidle : s.Idle lfd) :
    s.backlog = [] ∧ ∀ fd, s.opened fd = true → opened fd = false → (s.streams fd).Answered := by
  have hkept := run_kept hlow h
  have hquiet fd (hset : s.rsets fd = true) : ¬s.ready lfd fd = true := by
    intro hready
    have hmaxn : decide (fd < s.maxn+1) = true := decide_eq_true (Nat.lt_succ_of_le (hkept.member fd hset).2.2)
    have hselected : s.selected lfd fd = true := by
      rw [State.selected, hset, hmaxn, hready]
      rfl
    cases hselected.symm.trans (hidle.quiet fd)
  constructor
  · by_contra hbacklog
    exact hquiet lfd hkept.listens (ready_listen.mpr hbacklog)
  · intro fd hopen hnew
    apply Stream.Answered.of_not_ready
    intro hready
    have hconn : fd ≠ lfd := by
      rintro rfl
      cases (hlow fd le_rfl).symm.trans hnew
    exact hquiet fd (hkept.conns fd hopen hnew) ((ready_iff hconn).mpr hready)

/-- The first four descriptors were open, and a client was accepted. -/
def oneClient (buf : List UInt8) : State where
  opened := update (fun fd => decide (fd ≤ 3)) 4 true
  streams := update (fun _ => Stream.fresh) 4 Stream.fresh
  backlog := []
  rsets := update (fun fd => decide (fd = 3)) 4 true
  maxn := 4
  buf := buf
  answers := []
  place := .select

theorem reached_oneClient (buf : List UInt8) :
    ∃ as, Run (Step 3) (start (fun fd => decide (fd ≤ 3)) 3 buf) as (oneClient buf) := by
  have hconnect : Run (Step 3) (start (fun fd => decide (fd ≤ 3)) 3 buf) _ _ := Run.nil.snoc .connect
  have hselect := hconnect.snoc (.select rfl (show State.selected _ 3 3 = true from rfl))
  have haccept := hselect.snoc (show Step _ _ (.accept (some 4)) _ from
    .accept rfl rfl (List.cons_ne_nil _ _) fun fd hfd => Option.some.inj hfd ▸ rfl)
  exact ⟨_,(haccept.snoc (.skip rfl (show 4 < 5 by decide) rfl)).snoc (.again rfl (show ¬5 < 5 by decide))⟩

/-- The client has sent two bytes, which are read and written back with a zero behind them. -/
theorem exists_answered : ∃ as s,
    Run (Step 3) (start (fun fd => decide (fd ≤ 3)) 3 (List.replicate BUF_SIZE 0)) as s ∧ s.Idle 3 ∧
      s.opened 4 = true ∧ s.answers = [⟨4,[1,2],[1,2,0]⟩] := by
  obtain ⟨as,hrun⟩ := reached_oneClient (List.replicate BUF_SIZE 0)
  have harrive := hrun.snoc (show Step _ _ (.arrive 4 (.bytes [1,2])) _ from .arrive (by decide) rfl)
  have hselect := (harrive.snoc (.select rfl (show State.selected _ 3 4 = true from rfl))).snoc (.unready rfl rfl)
  have hrecv := hselect.snoc (show Step _ _ (.recv 1024 (some 3)) _ from
    .recv rfl (show 4 < 5 by decide) rfl (by decide) (by decide) (.inr (.inl (List.cons_ne_nil _ _))) nofun)
  refine ⟨_,_,hrecv.snoc (.again rfl (show ¬5 < 5 by decide)),⟨rfl,fun fd => ?_⟩,rfl,rfl⟩
  obtain rfl | hfd := eq_or_ne fd 4
  · rfl
  · obtain rfl | hlfd := eq_or_ne fd 3
    · rfl
    · have hset : update (fun fd => decide (fd = 3)) 4 true fd = false := by
        rw [update_of_ne hfd]
        exact decide_eq_false hlfd
      change (update (fun fd => decide (fd = 3)) 4 true fd && _ && _) = false
      rw [hset, Bool.false_and, Bool.false_and]

theorem select_answered_one : ∃ as s,
    Run (Step 3) (start (fun fd => decide (fd ≤ 3)) 3 (List.replicate BUF_SIZE 0)) as s ∧
      s.answers = [⟨4,[1,2],[1,2,0]⟩] ∧ s.backlog = [] ∧ (s.streams 4).Answered := by
  obtain ⟨as,s,hrun,hidle,hopen,hanswers⟩ := exists_answered
  obtain ⟨hbacklog,hall⟩ := select_answered (fun fd hfd => decide_eq_true hfd) hrun hidle
  exact ⟨as,s,hrun,hanswers,hbacklog,hall 4 hopen rfl⟩

/-- What `select` has told stays so until `accept` and `recv` are called for it: the one finds a connection, the
other one something to read or the end of the connection. So these calls return, however long a `write` may
take. -/
theorem select_calls_return (hlow : ∀ fd, fd ≤ lfd → opened fd = true)
    (h : Run (Step lfd) (start opened lfd buf) as s) :
    (∀ temp, s.place = .test temp → temp lfd = true → s.backlog ≠ []) ∧
      ∀ temp i, s.place = .loop temp i → temp i = true →
        i ≠ lfd ∧ s.opened i = true ∧ (s.streams i).Ready := by
  have hkept := run_kept hlow h
  have hat := hkept.place
  constructor
  · intro temp hplace hlfd
    rw [hplace] at hat
    exact ready_listen.mp (hat lfd (Nat.zero_le _) hlfd).2
  · intro temp i hplace htemp
    rw [hplace] at hat
    obtain ⟨hset,hready⟩ := hat.2 i le_rfl htemp
    have hconn : i ≠ lfd := Nat.ne_of_gt hat.1
    exact ⟨hconn,(hkept.member i hset).1,(ready_iff hconn).mp hready⟩

/-- A client has connected; later it has sent two bytes. -/
theorem select_calls_return_one :
    (∃ as s temp, Run (Step 3) (start (fun fd => decide (fd ≤ 3)) 3 []) as s ∧ s.place = .test temp ∧
      temp 3 = true ∧ s.backlog ≠ []) ∧
    ∃ as s temp, Run (Step 3) (start (fun fd => decide (fd ≤ 3)) 3 []) as s ∧ s.place = .loop temp 4 ∧
      temp 4 = true ∧ (s.streams 4).Ready := by
  have hconnect : Run (Step 3) (start (fun fd => decide (fd ≤ 3)) 3 []) _ _ := Run.nil.snoc .connect
  have htold := hconnect.snoc (.select rfl (show State.selected _ 3 3 = true from rfl))
  obtain ⟨as,hrun⟩ := reached_oneClient []
  have harrive := hrun.snoc (show Step _ _ (.arrive 4 (.bytes [1,2])) _ from .arrive (by decide) rfl)
  have hselect := (harrive.snoc (.select rfl (show State.selected _ 3 4 = true from rfl))).snoc (.unready rfl rfl)
  obtain ⟨haccept,-⟩ := select_calls_return (fun fd hfd => decide_eq_true hfd) htold
  obtain ⟨-,hrecv⟩ := select_calls_return (fun fd hfd => decide_eq_true hfd) hselect
  exact ⟨⟨_,_,_,htold,rfl,rfl,haccept _ rfl rfl⟩,_,_,_,hselect,rfl,rfl,(hrecv _ 4 rfl rfl).2.2⟩

end Runs
end ServerKit.Io.Select
