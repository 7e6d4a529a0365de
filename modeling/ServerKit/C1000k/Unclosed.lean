import ServerKit.C1000k.Code
import ServerKit.Lib.Overlay
import ServerKit.Lib.Sockets

/-! The servers of `server2.c` and of `server3.c` under `#else`, in the same directory. They close no connection.
The first one has buffers in `items`, which it indexes with the descriptor, and the second one has two buffers
for all connections. -/
namespace ServerKit.C1000k.Unclosed
open Function ServerKit.Lib

/-- The buffers of one item, or the global ones. -/
structure Buffers where
  rbuffer : List UInt8
  wbuffer : List UInt8

/-- What the two programs have in their places. -/
structure Program where
  /-- Where the buffers of a connection are. -/
  slot : ℕ → ℕ
  /-- An accepted connection gets new buffers. -/
  calloc : Bool

def server2 : Program := ⟨id,true⟩
def server3 : Program := ⟨fun _ => 0,false⟩

/-- A buffer of zeros. -/
def zeros : List UInt8 := List.replicate BUFFER_LENGTH 0

/-- The process and its kernel. Buffers are `none` when they are NULL. The last three fields are the descriptors
that `accept` has returned, the chunks that `recv` has returned and the blocks that `send` was given. -/
structure State where
  sockets : Sockets
  buffers : ℕ → Option Buffers
  pending : List (Ready ℕ)
  accepts : List ℕ
  chunks : List (ℕ × List UInt8)
  blocks : List (ℕ × List UInt8)

/-- The request is made, and its result is ignored. -/
def State.ctl (s : State) (granted : Bool) (op : EpollOp) (fd events : ℕ) : State :=
  { s with sockets := { s.sockets with epoll := (s.sockets.epoll.ctl granted op fd ⟨events,fd⟩).1 } }

/-- A new connection. -/
def accepted (p : Program) (s : State) (connfd : ℕ) (granted : Bool) : State :=
  let s := { s with sockets := s.sockets.accept connfd, accepts := s.accepts ++ [connfd] }
  let s := s.ctl granted .add connfd EPOLLIN
  if p.calloc then { s with buffers := update s.buffers (p.slot connfd) (some ⟨zeros,zeros⟩) } else s

/-- The branch for EPOLLIN, unless `recv` has to wait or a buffer is NULL. -/
def readable (p : Program) (s : State) (clientfd : ℕ) : Option State := do
  let b ← s.buffers (p.slot clientfd)
  match (s.sockets.streams clientfd).recv BUFFER_LENGTH with
  | (.again,_) => none
  | (.closed,stream) | (.failed,stream) => return { s with sockets := s.sockets.setStream clientfd stream }
  | (.data bytes,stream) =>
    let rbuffer := bytes ++ b.rbuffer.drop bytes.length
    let wbuffer := rbuffer.take BUFFER_LENGTH ++ b.wbuffer.drop BUFFER_LENGTH
    let s := { s with
      sockets := s.sockets.setStream clientfd stream
      buffers := update s.buffers (p.slot clientfd) (some ⟨rbuffer,wbuffer⟩)
      chunks := s.chunks ++ [(clientfd,bytes)] }
    return s.ctl true .mod clientfd EPOLLOUT

/-- The branch for EPOLLOUT, where the kernel takes some of the bytes. -/
def writable (p : Program) (s : State) (clientfd took : ℕ) : Option State := do
  let b ← s.buffers (p.slot clientfd)
  let block := b.wbuffer.take BUFFER_LENGTH
  let stream := s.sockets.streams clientfd
  let s := { s with
    sockets := s.sockets.setStream clientfd { stream with sent := stream.sent ++ block.take took }
    blocks := s.blocks ++ [(clientfd,block)] }
  return s.ctl true .mod clientfd EPOLLIN

/-- `main` before its loop. The descriptors below `base` are open. -/
def start (p : Program) (base lfd : ℕ) : State where
  sockets :=
    ⟨⟨fun fd => fd < base,update (fun _ => none) lfd (some ⟨EPOLLIN,lfd⟩),[]⟩,fun _ => Stream.fresh,
      fun _ => false,[]⟩
  buffers _ := if p.calloc then none else some ⟨zeros,zeros⟩
  pending := []
  accepts := []
  chunks := []
  blocks := []

inductive Action
  | connect
  | queued (n : ℕ) (a : Arrival)
  | arrive (fd : ℕ) (a : Arrival)
  | wait (batch : List (Ready ℕ))
  | accept (connfd : ℕ) (granted : Bool)
  | refuse
  | read (clientfd : ℕ)
  | write (clientfd took : ℕ)
  | skip

/-- `accept` returns the lowest descriptor that is not open. A write behind `items` ends the run, and a signal
that ends the process does so, too. -/
inductive Step (p : Program) (lfd : ℕ) (s : State) : Action → State → Prop
  | connect : Step p lfd s .connect { s with sockets := s.sockets.connect }
  | queued {n a} : Step p lfd s (.queued n a) { s with sockets := s.sockets.arriveQueued n a }
  | arrive {fd a} (hfd : fd ∈ s.accepts) : Step p lfd s (.arrive fd a) { s with sockets := s.sockets.arrive fd a }
  | wait {batch} (hpending : s.pending = []) (hbatch : s.sockets.epoll.Reports batch)
      (hlength : batch.length ≤ EVENTS_LENGTH) : Step p lfd s (.wait batch) { s with pending := batch }
  | accept {e pending connfd granted} (hpending : s.pending = e :: pending) (hlfd : e.data = lfd)
      (hbacklog : s.sockets.backlog ≠ []) (hfree : s.sockets.epoll.opened connfd = false)
      (hleast : ∀ fd, fd < connfd → s.sockets.epoll.opened fd = true) (hitems : p.slot connfd < EVENTS_LENGTH) :
      Step p lfd s (.accept connfd granted) (accepted p { s with pending := pending } connfd granted)
  | refuse {e pending} (hpending : s.pending = e :: pending) (hlfd : e.data = lfd) :
      Step p lfd s .refuse { s with pending := [] }
  | read {e pending s'} (hpending : s.pending = e :: pending) (hlfd : e.data ≠ lfd)
      (hin : hasBit e.events EPOLLIN) (hread : readable p { s with pending := pending } e.data = some s') :
      Step p lfd s (.read e.data) s'
  | write {e pending took s'} (hpending : s.pending = e :: pending) (hlfd : e.data ≠ lfd)
      (hin : ¬ hasBit e.events EPOLLIN) (hout : hasBit e.events EPOLLOUT)
      (hwrite : writable p { s with pending := pending } e.data took = some s') :
      Step p lfd s (.write e.data took) s'
  | skip {e pending} (hpending : s.pending = e :: pending) (hlfd : e.data ≠ lfd)
      (hin : ¬ hasBit e.events EPOLLIN) (hout : ¬ hasBit e.events EPOLLOUT) :
      Step p lfd s .skip { s with pending := pending }

/-- The chunks that went into the buffers of a slot. -/
def written (p : Program) (chunks : List (ℕ × List UInt8)) (n : ℕ) : List (List UInt8) :=
  (chunks.filter fun c => p.slot c.1 = n).map Prod.snd

/-- What the buffers of a slot have to hold. -/
def held (p : Program) (chunks : List (ℕ × List UInt8)) (n : ℕ) : Buffers :=
  ⟨overlay zeros (written p chunks n),overlay zeros (written p chunks n)⟩

/-- The connections of a process that closes none. -/
structure Kept (p : Program) (base lfd : ℕ) (s : State) : Prop where
  lfd_lt : lfd < base
  opened : ∀ fd, s.sockets.epoll.opened fd = decide (fd < base+s.accepts.length)
  accepts : s.accepts = List.range' base s.accepts.length
  interest : ∀ fd i, s.sockets.epoll.interest fd = some i →
    (i = ⟨EPOLLIN,fd⟩ ∨ i = ⟨EPOLLOUT,fd⟩) ∧ (fd = lfd ∨ fd ∈ s.accepts)
  pending : s.sockets.epoll.Reports s.pending
  chunks : ∀ c ∈ s.chunks, c.1 ∈ s.accepts ∧ c.2.length ≤ BUFFER_LENGTH
  buffers : ∀ n, p.calloc = false ∨ (∃ fd ∈ s.accepts, p.slot fd = n) →
    s.buffers n = some (held p s.chunks n)

/-- New buffers belong to one connection. -/
def Program.Sound (p : Program) : Prop := p.calloc = true → Injective p.slot

theorem server2_sound : server2.Sound := fun _ => injective_id

theorem server3_sound : server3.Sound := fun h => Bool.noConfusion h

section Kept
variable {p : Program} {base lfd : ℕ} {s s' : State}

theorem start_kept (p : Program) (hlfd : lfd < base) : Kept p base lfd (start p base lfd) where
  lfd_lt := hlfd
  opened _ := rfl
  accepts := rfl
  interest fd i hi := by
    change update (fun _ => none) lfd (some ⟨EPOLLIN,lfd⟩) fd = some i at hi
    obtain rfl | hne := eq_or_ne fd lfd
    · rw [update_self] at hi
      obtain rfl := Option.some.inj hi
      exact ⟨.inl rfl,.inl rfl⟩
    · rw [update_of_ne hne] at hi
      cases hi
  pending := ⟨List.nodup_nil,fun e he => absurd he List.not_mem_nil⟩
  chunks c hc := absurd hc List.not_mem_nil
  buffers n hn := by
    obtain hn | ⟨fd,hfd,-⟩ := hn
    · change (if p.calloc then none else some _) = _
      rw [hn]
      rfl
    · cases hfd

theorem length_held (h : ∀ c ∈ s.chunks, c.2.length ≤ BUFFER_LENGTH) (n : ℕ) :
    (overlay zeros (written p s.chunks n)).length = BUFFER_LENGTH := by
  have hzeros : zeros.length = BUFFER_LENGTH := List.length_replicate
  rw [← hzeros]
  refine length_overlay fun chunk hchunk => ?_
  obtain ⟨c,hc,rfl⟩ := List.mem_map.mp hchunk
  rw [hzeros]
  exact h c (List.mem_of_mem_filter hc)

/-- The event of another descriptor stays as it was reported. -/
theorem Kept.tail (hs : Kept p base lfd s) {e : Ready ℕ} {pending : List (Ready ℕ)}
    (hpending : s.pending = e :: pending) :
    e.fd ∉ pending.map Ready.fd ∧ s.sockets.epoll.Reports pending ∧ s.sockets.epoll.Reported e := by
  obtain ⟨hnodup,hreported⟩ := hs.pending
  rw [hpending] at hnodup hreported
  obtain ⟨hnot,hnodup⟩ := List.nodup_cons.mp hnodup
  exact ⟨hnot,⟨hnodup,fun e' he' => hreported e' (List.mem_cons_of_mem _ he')⟩,hreported e List.mem_cons_self⟩

/-- The event is one of a connection, and it is told what this waits for. -/
theorem Kept.event (hs : Kept p base lfd s) {e : Ready ℕ} {pending : List (Ready ℕ)}
    (hpending : s.pending = e :: pending) (hlfd : e.data ≠ lfd) :
    e.data = e.fd ∧ e.fd ∈ s.accepts ∧
      (hasBit e.events EPOLLIN → s.sockets.epoll.interest e.fd = some ⟨EPOLLIN,e.fd⟩) := by
  obtain ⟨-,-,i,hi,hdata,hin,-⟩ := hs.tail hpending
  obtain ⟨hkind,hor⟩ := hs.interest _ i hi
  have heq : e.data = e.fd := by
    rw [hdata]
    obtain rfl | rfl := hkind <;> rfl
  refine ⟨heq,hor.resolve_left fun h => hlfd (heq.trans h),fun hbit => ?_⟩
  obtain rfl | rfl := hkind
  · exact hi
  · exact absurd (hin hbit) (show ¬hasBit EPOLLOUT EPOLLIN by decide)

theorem ctl_opened (k : Epoll ℕ) (granted : Bool) (op : EpollOp) (fd : ℕ) (i : Interest ℕ) :
    (k.ctl granted op fd i).1.opened = k.opened := by
  unfold Epoll.ctl
  split
  · cases op <;> rfl
  · rfl

/-- A request that adds or changes is carried out or refused. -/
theorem ctl_interest (k : Epoll ℕ) (granted : Bool) (op : EpollOp) (hop : op ≠ .del) (fd : ℕ) (i : Interest ℕ) :
    (k.ctl granted op fd i).1.interest = k.interest ∨
      (k.ctl granted op fd i).1.interest = update k.interest fd (some i) := by
  unfold Epoll.ctl
  split
  · cases op with
    | add => exact .inr rfl
    | mod => exact .inr rfl
    | del => exact absurd rfl hop
  · exact .inl rfl

theorem Kept.mem_lt (hs : Kept p base lfd s) {fd : ℕ} (h : fd = lfd ∨ fd ∈ s.accepts) :
    fd < base+s.accepts.length := by
  obtain rfl | hfd := h
  · exact Nat.lt_add_right _ hs.lfd_lt
  · rw [hs.accepts] at hfd
    exact (List.mem_range'_1.mp hfd).2

/-- The descriptors are given one after the other. -/
theorem Kept.connfd (hs : Kept p base lfd s) {connfd : ℕ} (hfree : s.sockets.epoll.opened connfd = false)
    (hleast : ∀ fd, fd < connfd → s.sockets.epoll.opened fd = true) : connfd = base+s.accepts.length := by
  rw [hs.opened, decide_eq_false_iff_not] at hfree
  by_contra hne
  have hopen := hleast (base+s.accepts.length) (by omega)
  rw [hs.opened, decide_eq_true_eq] at hopen
  omega

theorem written_snoc (p : Program) (chunks : List (ℕ × List UInt8)) (fd : ℕ) (bytes : List UInt8) (n : ℕ) :
    written p (chunks ++ [(fd,bytes)]) n = written p chunks n ++ if p.slot fd = n then [bytes] else [] := by
  unfold written
  rw [List.filter_append, List.map_append]
  by_cases hn : p.slot fd = n
  · simp [hn]
  · simp [hn]

theorem Kept.accept (hs : Kept p base lfd s) (hp : p.Sound) {connfd : ℕ} {granted : Bool}
    (hfree : s.sockets.epoll.opened connfd = false)
    (hleast : ∀ fd, fd < connfd → s.sockets.epoll.opened fd = true) {pending : List (Ready ℕ)}
    (hpending : s.sockets.epoll.Reports pending) :
    Kept p base lfd (accepted p { s with pending := pending } connfd granted) := by
  have hconnfd := hs.connfd hfree hleast
  have hnew {fd : ℕ} (h : fd = lfd ∨ fd ∈ s.accepts) : fd ≠ connfd := by
    have hlt := hs.mem_lt h
    omega
  -- the parts that do not depend on the buffers
  have haccepts : (accepted p { s with pending := pending } connfd granted).accepts = s.accepts ++ [connfd] := by
    unfold accepted
    split <;> rfl
  have hsockets : (accepted p { s with pending := pending } connfd granted).sockets.epoll =
      ((s.sockets.epoll.accept connfd).ctl granted .add connfd ⟨EPOLLIN,connfd⟩).1 := by
    unfold accepted
    split <;> rfl
  have hrest : (accepted p { s with pending := pending } connfd granted).chunks = s.chunks ∧
      (accepted p { s with pending := pending } connfd granted).pending = pending := by
    unfold accepted
    split <;> exact ⟨rfl,rfl⟩
  have hinterest := ctl_interest (s.sockets.epoll.accept connfd) granted .add EpollOp.noConfusion
    connfd ⟨EPOLLIN,connfd⟩
  refine ⟨hs.lfd_lt,fun fd => ?_,?_,fun fd i hi => ?_,?_,fun c hc => ?_,fun n hn => ?_⟩
  · rw [hsockets, ctl_opened, haccepts, List.length_append, List.length_singleton]
    change update s.sockets.epoll.opened connfd true fd = _
    obtain rfl | hne := eq_or_ne fd connfd
    · rw [update_self]
      exact (decide_eq_true (by omega)).symm
    · rw [update_of_ne hne, hs.opened]
      exact decide_eq_decide.mpr (by omega)
  · rw [haccepts, List.length_append, List.length_singleton, List.range'_1_concat, ← hs.accepts, hconnfd]
  · rw [haccepts]
    rw [hsockets] at hi
    have hold (hi : s.sockets.epoll.interest fd = some i) :
        (i = ⟨EPOLLIN,fd⟩ ∨ i = ⟨EPOLLOUT,fd⟩) ∧ (fd = lfd ∨ fd ∈ s.accepts ++ [connfd]) := by
      obtain ⟨hkind,hor⟩ := hs.interest fd i hi
      exact ⟨hkind,hor.imp_right (List.mem_append_left _)⟩
    obtain hsame | hset := hinterest
    · rw [hsame] at hi
      exact hold hi
    · rw [hset] at hi
      obtain rfl | hne := eq_or_ne fd connfd
      · rw [update_self] at hi
        obtain rfl := Option.some.inj hi
        exact ⟨.inl rfl,.inr (List.mem_append_right _ List.mem_cons_self)⟩
      · rw [update_of_ne hne] at hi
        exact hold hi
  · rw [hrest.2, hsockets]
    refine ⟨hpending.nodup,fun e he => (hpending.reported e he).congr ?_⟩
    obtain ⟨i,hi,-⟩ := hpending.reported e he
    have hne := hnew (hs.interest _ i hi).2
    obtain hsame | hset := hinterest
    · rw [hsame]
      rfl
    · rw [hset, update_of_ne hne]
      rfl
  · rw [hrest.1] at hc
    rw [haccepts]
    exact ⟨List.mem_append_left _ (hs.chunks c hc).1,(hs.chunks c hc).2⟩
  · rw [haccepts] at hn
    rw [hrest.1]
    unfold accepted
    split
    · next hcalloc =>
      have hnone : written p s.chunks (p.slot connfd) = [] := by
        refine List.map_eq_nil_iff.mpr (List.filter_eq_nil_iff.mpr fun c hc heq => ?_)
        exact hnew (.inr (hs.chunks c hc).1) (hp hcalloc (of_decide_eq_true heq))
      change update s.buffers (p.slot connfd) (some ⟨zeros,zeros⟩) n = _
      obtain rfl | hne := eq_or_ne n (p.slot connfd)
      · rw [update_self]
        unfold held
        rw [hnone]
        rfl
      · rw [update_of_ne hne]
        refine hs.buffers n (hn.imp_right fun ⟨fd,hfd,hslot⟩ => ⟨fd,?_,hslot⟩)
        obtain hfd | hfd := List.mem_append.mp hfd
        · exact hfd
        · rw [List.mem_singleton.mp hfd] at hslot
          exact absurd hslot.symm hne
    · next hcalloc => exact hs.buffers n (.inl (Bool.eq_false_iff.mpr hcalloc))

/-- The event is handled, which may change what is registered for its descriptor. -/
theorem Kept.handled (hs : Kept p base lfd s) {e : Ready ℕ} (hpending : s.pending = e :: s'.pending)
    (hlfd : e.data ≠ lfd) (hopened : s'.sockets.epoll.opened = s.sockets.epoll.opened)
    (hinterest : s'.sockets.epoll.interest = s.sockets.epoll.interest ∨ ∃ i : Interest ℕ,
      (i = ⟨EPOLLIN,e.fd⟩ ∨ i = ⟨EPOLLOUT,e.fd⟩) ∧
        s'.sockets.epoll.interest = update s.sockets.epoll.interest e.fd (some i))
    (haccepts : s'.accepts = s.accepts)
    (hchunks : ∀ c ∈ s'.chunks, c.1 ∈ s.accepts ∧ c.2.length ≤ BUFFER_LENGTH)
    (hbuffers : ∀ n, p.calloc = false ∨ (∃ fd ∈ s.accepts, p.slot fd = n) →
      s'.buffers n = some (held p s'.chunks n)) : Kept p base lfd s' := by
  obtain ⟨hnot,hreports,-⟩ := hs.tail hpending
  obtain ⟨hdata,hfd,-⟩ := hs.event hpending hlfd
  refine ⟨hs.lfd_lt,?_,?_,fun fd i hi => ?_,⟨hreports.nodup,fun e' he' => ?_⟩,?_,?_⟩
  · rw [hopened, haccepts]
    exact hs.opened
  · rw [haccepts]
    exact hs.accepts
  · rw [haccepts]
    obtain hsame | ⟨i',hkind,hset⟩ := hinterest
    · rw [hsame] at hi
      exact hs.interest fd i hi
    · rw [hset] at hi
      obtain rfl | hne := eq_or_ne fd e.fd
      · rw [update_self] at hi
        obtain rfl := Option.some.inj hi
        exact ⟨hkind,.inr hfd⟩
      · rw [update_of_ne hne] at hi
        exact hs.interest fd i hi
  · refine (hreports.reported e' he').congr ?_
    have hne : e'.fd ≠ e.fd := fun heq => hnot (heq ▸ List.mem_map_of_mem he')
    obtain hsame | ⟨i',-,hset⟩ := hinterest
    · rw [hsame]
    · rw [hset, update_of_ne hne]
  · rw [haccepts]
    exact hchunks
  · rw [haccepts]
    exact hbuffers

/-- The buffers of an accepted connection. -/
theorem Kept.buffer (hs : Kept p base lfd s) {fd : ℕ} (hfd : fd ∈ s.accepts) :
    s.buffers (p.slot fd) = some (held p s.chunks (p.slot fd)) :=
  hs.buffers _ (.inr ⟨fd,hfd,rfl⟩)

/-- What the branch for EPOLLIN does with the buffers that are there. -/
theorem readable_cases {b : Buffers} {clientfd : ℕ} (hb : s.buffers (p.slot clientfd) = some b)
    (hread : readable p s clientfd = some s') :
    (∃ stream, s' = { s with sockets := s.sockets.setStream clientfd stream } ∧ stream.unread = [] ∧
        stream.ending ≠ .alive) ∨
      ∃ bytes stream, (s.sockets.streams clientfd).unread ≠ [] ∧ bytes.length ≤ BUFFER_LENGTH ∧
        s' = State.ctl { s with
          sockets := s.sockets.setStream clientfd stream
          buffers := update s.buffers (p.slot clientfd) (some
            ⟨bytes ++ b.rbuffer.drop bytes.length,
              (bytes ++ b.rbuffer.drop bytes.length).take BUFFER_LENGTH ++ b.wbuffer.drop BUFFER_LENGTH⟩)
          chunks := s.chunks ++ [(clientfd,bytes)] } true .mod clientfd EPOLLOUT := by
  unfold readable at hread
  rw [hb] at hread
  have hreceives := (s.sockets.streams clientfd).receives BUFFER_LENGTH
  generalize (s.sockets.streams clientfd).recv BUFFER_LENGTH = result at hread hreceives
  cases hreceives with
  | data hunread =>
    obtain rfl := Option.some.inj hread
    exact .inr ⟨_,_,hunread,List.length_take_le ..,rfl⟩
  | again => cases hread
  | closed hunread hending =>
    obtain rfl := Option.some.inj hread
    exact .inl ⟨_,rfl,hunread,fun h => by rw [hending] at h; cases h⟩
  | failed hunread hending =>
    obtain rfl := Option.some.inj hread
    exact .inl ⟨_,rfl,hunread,Ending.noConfusion⟩

theorem Kept.read (hs : Kept p base lfd s) {e : Ready ℕ} {pending : List (Ready ℕ)}
    (hpending : s.pending = e :: pending) (hlfd : e.data ≠ lfd)
    (hread : readable p { s with pending := pending } e.data = some s') : Kept p base lfd s' := by
  obtain ⟨hdata,hfd,-⟩ := hs.event hpending hlfd
  rw [hdata] at hread
  have hb : ({ s with pending := pending } : State).buffers (p.slot e.fd) = _ := hs.buffer hfd
  obtain ⟨stream,rfl,-⟩ | ⟨bytes,stream,-,hbytes,rfl⟩ := readable_cases hb hread
  · exact hs.handled hpending hlfd rfl (.inl rfl) rfl hs.chunks hs.buffers
  · have hinterest := ctl_interest s.sockets.epoll true .mod EpollOp.noConfusion e.fd ⟨EPOLLOUT,e.fd⟩
    refine hs.handled hpending hlfd (ctl_opened ..) (hinterest.imp_right fun h => ⟨_,.inr rfl,h⟩) rfl ?_ ?_
    · intro c hc
      obtain hc | hc := List.mem_append.mp hc
      · exact hs.chunks c hc
      · rw [List.mem_singleton.mp hc]
        exact ⟨hfd,hbytes⟩
    · intro n hn
      change update s.buffers (p.slot e.fd) (some _) n = some (held p (s.chunks ++ [(e.fd,bytes)]) n)
      unfold held
      rw [written_snoc]
      obtain rfl | hne := eq_or_ne n (p.slot e.fd)
      · have hlength := length_held (p := p) (fun c hc => (hs.chunks c hc).2) (p.slot e.fd)
        have hfull : (bytes ++ (overlay zeros (written p s.chunks (p.slot e.fd))).drop bytes.length).length =
            BUFFER_LENGTH := by
          rw [List.length_append, List.length_drop, hlength]
          omega
        rw [update_self, if_pos rfl, overlay_snoc]
        dsimp only
        rw [List.take_of_length_le hfull.le, List.drop_of_length_le hlength.le, List.append_nil]
      · rw [update_of_ne hne, if_neg (Ne.symm hne), List.append_nil]
        exact hs.buffers n hn

/-- The branch for EPOLLOUT, with the buffers that are there. -/
theorem writable_eq {b : Buffers} {clientfd : ℕ} (hb : s.buffers (p.slot clientfd) = some b) (took : ℕ) :
    writable p s clientfd took = some (State.ctl { s with
      sockets := s.sockets.setStream clientfd { s.sockets.streams clientfd with
        sent := (s.sockets.streams clientfd).sent ++ (b.wbuffer.take BUFFER_LENGTH).take took }
      blocks := s.blocks ++ [(clientfd,b.wbuffer.take BUFFER_LENGTH)] } true .mod clientfd EPOLLIN) := by
  unfold writable
  rw [hb]
  rfl

theorem Kept.write (hs : Kept p base lfd s) {e : Ready ℕ} {pending : List (Ready ℕ)} {took : ℕ}
    (hpending : s.pending = e :: pending) (hlfd : e.data ≠ lfd)
    (hwrite : writable p { s with pending := pending } e.data took = some s') : Kept p base lfd s' := by
  obtain ⟨hdata,hfd,-⟩ := hs.event hpending hlfd
  rw [hdata] at hwrite
  have hb : ({ s with pending := pending } : State).buffers (p.slot e.fd) = _ := hs.buffer hfd
  rw [writable_eq hb] at hwrite
  obtain rfl := Option.some.inj hwrite
  have hinterest := ctl_interest s.sockets.epoll true .mod EpollOp.noConfusion e.fd ⟨EPOLLIN,e.fd⟩
  exact hs.handled hpending hlfd (ctl_opened ..) (hinterest.imp_right fun h => ⟨_,.inl rfl,h⟩) rfl hs.chunks
    hs.buffers

theorem Step.kept {a : Action} (hp : p.Sound) (hs : Kept p base lfd s) (h : Step p lfd s a s') :
    Kept p base lfd s' := by
  cases h with
  | connect | queued | arrive =>
    exact ⟨hs.lfd_lt,hs.opened,hs.accepts,hs.interest,hs.pending,hs.chunks,hs.buffers⟩
  | wait hpending hbatch hlength =>
    exact ⟨hs.lfd_lt,hs.opened,hs.accepts,hs.interest,hbatch,hs.chunks,hs.buffers⟩
  | accept hpending hlfd hbacklog hfree hleast hitems => exact hs.accept hp hfree hleast (hs.tail hpending).2.1
  | refuse hpending hlfd =>
    have hnone : s.sockets.epoll.Reports [] := ⟨List.nodup_nil,fun e he => absurd he List.not_mem_nil⟩
    exact ⟨hs.lfd_lt,hs.opened,hs.accepts,hs.interest,hnone,hs.chunks,hs.buffers⟩
  | read hpending hlfd hin hread => exact hs.read hpending hlfd hread
  | write hpending hlfd hin hout hwrite => exact hs.write hpending hlfd hwrite
  | skip hpending hlfd hin hout =>
    exact ⟨hs.lfd_lt,hs.opened,hs.accepts,hs.interest,(hs.tail hpending).2.1,hs.chunks,hs.buffers⟩

theorem run_kept (hp : p.Sound) (hlfd : lfd < base) {actions : List Action}
    (h : Run (Step p lfd) (start p base lfd) actions s) : Kept p base lfd s :=
  h.invariant (P := Kept p base lfd) (start_kept p hlfd) fun _ _ _ hs hstep => hstep.kept hp hs

theorem sound_of_eq (hp : p = server2 ∨ p = server3) : p.Sound := by
  obtain rfl | rfl := hp
  · exact server2_sound
  · exact server3_sound

/-- Every block that is sent has what came over the connections with the same buffers, the last chunk in front
and zeros where nothing has been. In `server2` these are the chunks of the connection itself, and in `server3`
the chunks of all connections. -/
theorem run_sends (hp : p = server2 ∨ p = server3) (hlfd : lfd < base) {actions : List Action}
    (h : Run (Step p lfd) (start p base lfd) actions s) {fd took : ℕ} (hstep : Step p lfd s (.write fd took) s') :
    s'.blocks = s.blocks ++ [(fd,overlay zeros (written p s.chunks (p.slot fd)))] := by
  have hs := run_kept (sound_of_eq hp) hlfd h
  cases hstep with
  | write hpending hne hin hout hwrite =>
    rename_i e pending
    obtain ⟨hdata,hfd,-⟩ := hs.event hpending hne
    rw [hdata] at hwrite ⊢
    have hb : ({ s with pending := pending } : State).buffers (p.slot e.fd) = _ := hs.buffer hfd
    rw [writable_eq hb] at hwrite
    obtain rfl := Option.some.inj hwrite
    have hlength := length_held (p := p) (fun c hc => (hs.chunks c hc).2) (p.slot e.fd)
    change s.blocks ++ [(e.fd,(overlay zeros _).take BUFFER_LENGTH)] = _
    rw [List.take_of_length_le hlength.le]

/-- The second of two clients is sent a byte of the first one. -/
theorem run_sends_two : ∃ actions s s', Run (Step server3 3) (start server3 5 3) actions s ∧
    Step server3 3 s (.write 6 128) s' ∧ s.chunks = [(5,[7,8]),(6,[1])] ∧
      s'.blocks = [(6,[1,8] ++ List.replicate 126 0)] := by
  have hnil : Run (Step server3 3) (start server3 5 3) [] _ := .nil
  have hconnected := (hnil.snoc (l := .connect) .connect).snoc (l := .connect) .connect
  have htold := hconnected.snoc (l := .wait [⟨3,EPOLLIN,3⟩])
    (.wait rfl (Epoll.reports_one rfl rfl) (by decide))
  have hfirst := htold.snoc (l := .accept 5 true)
    (.accept (e := ⟨3,EPOLLIN,3⟩) rfl rfl (List.cons_ne_nil _ _) rfl (by decide) (by decide))
  have htold := hfirst.snoc (l := .wait [⟨3,EPOLLIN,3⟩])
    (.wait rfl (Epoll.reports_one rfl rfl) (by decide))
  have hboth := htold.snoc (l := .accept 6 true)
    (.accept (e := ⟨3,EPOLLIN,3⟩) rfl rfl (List.cons_ne_nil _ _) rfl (by decide) (by decide))
  have harrived := (hboth.snoc (l := .arrive 5 (.bytes [7,8])) (.arrive (by decide))).snoc
    (l := .arrive 6 (.bytes [1])) (.arrive (by decide))
  have htold := harrived.snoc (l := .wait [⟨5,EPOLLIN,5⟩])
    (.wait rfl (Epoll.reports_one rfl rfl) (by decide))
  have hread := htold.snoc (l := .read 5)
    (.read (e := ⟨5,EPOLLIN,5⟩) rfl (by decide) (by decide) rfl)
  have htold := hread.snoc (l := .wait [⟨6,EPOLLIN,6⟩])
    (.wait rfl (Epoll.reports_one rfl rfl) (by decide))
  have hread := htold.snoc (l := .read 6)
    (.read (e := ⟨6,EPOLLIN,6⟩) rfl (by decide) (by decide) rfl)
  have htold := hread.snoc (l := .wait [⟨6,EPOLLOUT,6⟩])
    (.wait rfl (Epoll.reports_one rfl rfl) (by decide))
  refine ⟨_,_,_,htold,.write (e := ⟨6,EPOLLOUT,6⟩) rfl (by decide) (by decide) (by decide) rfl,rfl,?_⟩
  exact run_sends (.inr rfl) (by decide) htold
    (.write (e := ⟨6,EPOLLOUT,6⟩) rfl (by decide) (by decide) (by decide) rfl)

/-- The connections of `server2` have the descriptors from `base` on and keep them, and the next one is served
exactly if its descriptor is still one of `items`. -/
theorem run_serves_iff (hlfd : lfd < base) {actions : List Action}
    (h : Run (Step server2 lfd) (start server2 base lfd) actions s) {e : Ready ℕ} {pending : List (Ready ℕ)}
    (hpending : s.pending = e :: pending) (hdata : e.data = lfd) (hbacklog : s.sockets.backlog ≠ []) :
    s.accepts = List.range' base s.accepts.length ∧
      (∀ fd ∈ s.accepts, s.sockets.epoll.opened fd = true) ∧
        ((∃ connfd granted s', Step server2 lfd s (.accept connfd granted) s') ↔
          base+s.accepts.length < EVENTS_LENGTH) := by
  have hs := run_kept server2_sound hlfd h
  refine ⟨hs.accepts,fun fd hfd => ?_,?_,fun hlt => ?_⟩
  · rw [hs.opened]
    exact decide_eq_true (hs.mem_lt (.inr hfd))
  · rintro ⟨connfd,granted,s',hstep⟩
    cases hstep with
    | accept _ _ _ hfree hleast hitems => rwa [← hs.connfd hfree hleast]
  · refine ⟨_,true,_,.accept hpending hdata hbacklog ?_ (fun fd hfd => ?_) hlt⟩
    · rw [hs.opened]
      exact decide_eq_false (lt_irrefl _)
    · rw [hs.opened]
      exact decide_eq_true hfd

/-- With the last descriptor of `items` in use, the client that waits is not served. -/
theorem run_serves_iff_last : ∃ actions s, Run (Step server2 3) (start server2 127 3) actions s ∧
    s.accepts = [127] ∧ s.sockets.backlog ≠ [] ∧
      ¬∃ connfd granted s', Step server2 3 s (.accept connfd granted) s' := by
  have hnil : Run (Step server2 3) (start server2 127 3) [] _ := .nil
  have hconnected := (hnil.snoc (l := .connect) .connect).snoc (l := .connect) .connect
  have htold := hconnected.snoc (l := .wait [⟨3,EPOLLIN,3⟩])
    (.wait rfl (Epoll.reports_one rfl rfl) (by decide))
  have haccepted := htold.snoc (l := .accept 127 true)
    (.accept (e := ⟨3,EPOLLIN,3⟩) rfl rfl (List.cons_ne_nil _ _) rfl (by decide) (by decide))
  have htold := haccepted.snoc (l := .wait [⟨3,EPOLLIN,3⟩])
    (.wait rfl (Epoll.reports_one rfl rfl) (by decide))
  obtain ⟨-,-,hiff⟩ := run_serves_iff (by decide) htold rfl rfl (List.cons_ne_nil _ _)
  exact ⟨_,_,htold,rfl,List.cons_ne_nil _ _,fun hserved => absurd (hiff.mp hserved) (by decide)⟩

end Kept

section Gone
variable {p : Program} {base lfd fd : ℕ} {s s' : State}

/-- The client of `fd` is gone and all that it has sent is read, but the connection is still registered. -/
structure Gone (lfd fd : ℕ) (s : State) : Prop where
  ne : fd ≠ lfd
  accepts : fd ∈ s.accepts
  interest : s.sockets.epoll.interest fd = some ⟨EPOLLIN,fd⟩
  unread : (s.sockets.streams fd).unread = []
  ending : (s.sockets.streams fd).ending ≠ .alive

/-- The chunks that came over one connection. -/
def State.chunksOf (s : State) (fd : ℕ) : List (ℕ × List UInt8) := s.chunks.filter fun c => c.1 = fd

theorem receive_gone {stream : Lib.Stream} (hunread : stream.unread = []) (hending : stream.ending ≠ .alive)
    (a : Arrival) : (stream.receive a).unread = [] ∧ (stream.receive a).ending ≠ .alive := by
  cases a with
  | bytes bytes =>
    change (if stream.ending = .alive then _ else stream).unread = [] ∧ (if _ then _ else stream).ending ≠ .alive
    rw [if_neg hending]
    exact ⟨hunread,hending⟩
  | close =>
    change (if stream.ending = .alive then _ else stream).unread = [] ∧ (if _ then _ else stream).ending ≠ .alive
    rw [if_neg hending]
    exact ⟨hunread,hending⟩
  | reset => exact ⟨hunread,Ending.noConfusion⟩

/-- One stream is written, which leaves this connection without a client. -/
theorem Gone.setStream (hgone : Gone lfd fd s) (fd' : ℕ) (stream : Lib.Stream)
    (h : fd = fd' → stream.unread = [] ∧ stream.ending ≠ .alive) :
    (update s.sockets.streams fd' stream fd).unread = [] ∧
      (update s.sockets.streams fd' stream fd).ending ≠ .alive := by
  by_cases hfd : fd = fd'
  · subst hfd
    rw [update_self]
    exact h rfl
  · rw [update_of_ne hfd]
    exact ⟨hgone.unread,hgone.ending⟩

/-- A request for another descriptor, or for the same interest, changes nothing here. -/
theorem ctl_interest_eq {k : Epoll ℕ} {i : Interest ℕ} (hi : k.interest fd = some i) (granted : Bool)
    (op : EpollOp) (hop : op ≠ .del) {fd' : ℕ} (i' : Interest ℕ) (hfd : fd' = fd → i' = i) :
    (k.ctl granted op fd' i').1.interest fd = some i := by
  obtain hsame | hset := ctl_interest k granted op hop fd' i'
  · rw [hsame]
    exact hi
  · rw [hset]
    obtain rfl | hne := eq_or_ne fd fd'
    · rw [update_self, hfd rfl]
    · rw [update_of_ne hne]
      exact hi

theorem Gone.step (hs : Kept p base lfd s) (hgone : Gone lfd fd s) {a : Action} (h : Step p lfd s a s') :
    Gone lfd fd s' ∧ s'.chunksOf fd = s.chunksOf fd := by
  cases h with
  | connect | queued | wait | refuse | skip =>
    exact ⟨⟨hgone.ne,hgone.accepts,hgone.interest,hgone.unread,hgone.ending⟩,rfl⟩
  | arrive hfd =>
    rename_i fd' a
    have hstream := hgone.setStream fd' ((s.sockets.streams fd').receive a) fun heq =>
      receive_gone (heq ▸ hgone.unread) (heq ▸ hgone.ending) a
    exact ⟨⟨hgone.ne,hgone.accepts,hgone.interest,hstream.1,hstream.2⟩,rfl⟩
  | accept hpending hlfd hbacklog hfree hleast hitems =>
    rename_i e pending connfd granted
    have hne : fd ≠ connfd := by
      have hlt := hs.mem_lt (.inr hgone.accepts)
      have hconnfd := hs.connfd hfree hleast
      omega
    have hinterest := ctl_interest_eq (k := s.sockets.epoll.accept connfd) hgone.interest granted
      .add EpollOp.noConfusion ⟨EPOLLIN,connfd⟩ fun heq => absurd heq.symm hne
    have hstream := hgone.setStream connfd (s.sockets.backlog.headD Stream.fresh)
      fun heq => absurd heq hne
    unfold accepted
    split
    all_goals exact ⟨⟨hgone.ne,List.mem_append_left _ hgone.accepts,hinterest,hstream.1,hstream.2⟩,rfl⟩
  | read hpending hlfd hin hread =>
    rename_i e pending
    obtain ⟨hdata,hfd,-⟩ := hs.event hpending hlfd
    rw [hdata] at hread
    have hb : ({ s with pending := pending } : State).buffers (p.slot e.fd) = _ := hs.buffer hfd
    obtain ⟨stream,rfl,hunread,hending⟩ | ⟨bytes,stream,hunread,-,rfl⟩ := readable_cases hb hread
    · have hstream := hgone.setStream e.fd stream fun _ => ⟨hunread,hending⟩
      exact ⟨⟨hgone.ne,hgone.accepts,hgone.interest,hstream.1,hstream.2⟩,rfl⟩
    · have hne : e.fd ≠ fd := fun heq => hunread (heq ▸ hgone.unread)
      have hstream := hgone.setStream e.fd stream fun heq => absurd heq.symm hne
      have hinterest := ctl_interest_eq hgone.interest true .mod EpollOp.noConfusion
        ⟨EPOLLOUT,e.fd⟩ fun heq => absurd heq hne
      refine ⟨⟨hgone.ne,hgone.accepts,hinterest,hstream.1,hstream.2⟩,?_⟩
      change List.filter _ (s.chunks ++ [(e.fd,bytes)]) = _
      rw [List.filter_append]
      simp [State.chunksOf,hne]
  | write hpending hlfd hin hout hwrite =>
    rename_i e pending took
    obtain ⟨hdata,hfd,-⟩ := hs.event hpending hlfd
    rw [hdata] at hwrite
    have hb : ({ s with pending := pending } : State).buffers (p.slot e.fd) = _ := hs.buffer hfd
    rw [writable_eq hb] at hwrite
    obtain rfl := Option.some.inj hwrite
    have hstream := hgone.setStream e.fd { s.sockets.streams e.fd with
      sent := (s.sockets.streams e.fd).sent ++
        ((held p s.chunks (p.slot e.fd)).wbuffer.take BUFFER_LENGTH).take took } fun heq => by
        rw [← heq]
        exact ⟨hgone.unread,hgone.ending⟩
    have hinterest := ctl_interest_eq hgone.interest true .mod EpollOp.noConfusion
      ⟨EPOLLIN,e.fd⟩ fun heq => congrArg _ heq
    exact ⟨⟨hgone.ne,hgone.accepts,hinterest,hstream.1,hstream.2⟩,rfl⟩

/-- The connection on which `recv` returned no data. -/
theorem Gone.of_read (hs : Kept p base lfd s) (h : Step p lfd s (.read fd) s') (hchunks : s'.chunks = s.chunks) :
    Gone lfd fd s' := by
  cases h with
  | read hpending hlfd hin hread =>
    rename_i e pending
    obtain ⟨hdata,hfd,hinterest⟩ := hs.event hpending hlfd
    rw [hdata] at hread hlfd ⊢
    have hb : ({ s with pending := pending } : State).buffers (p.slot e.fd) = _ := hs.buffer hfd
    obtain ⟨stream,rfl,hunread,hending⟩ | ⟨bytes,stream,hunread,-,rfl⟩ := readable_cases hb hread
    · have hstream : update s.sockets.streams e.fd stream e.fd = stream := update_self ..
      refine ⟨hlfd,hfd,hinterest hin,?_,?_⟩
      · exact (congrArg Stream.unread hstream).trans hunread
      · exact fun halive => hending ((congrArg Stream.ending hstream).symm.trans halive)
    · have hsnoc : s.chunks ++ [(e.fd,bytes)] = s.chunks := hchunks
      exact absurd (List.append_right_eq_self.mp hsnoc) (List.cons_ne_nil _ _)

/-- When `recv` has returned no data, `epoll_wait` has to tell about this connection at all times, so the loop
never waits again, the descriptor stays open, and nothing more is received over it. -/
theorem run_spins (hp : p = server2 ∨ p = server3) (hlfd : lfd < base) {actions actions' : List Action}
    {s₁ : State} (h : Run (Step p lfd) (start p base lfd) actions s)
    (hread : Step p lfd s (.read fd) s₁) (hchunks : s₁.chunks = s.chunks) (h' : Run (Step p lfd) s₁ actions' s') :
    s'.sockets.Due lfd fd ∧ s'.sockets.epoll.opened fd = true ∧ s'.chunksOf fd = s.chunksOf fd := by
  have hs := run_kept (sound_of_eq hp) hlfd h
  have hs₁ := hread.kept (sound_of_eq hp) hs
  obtain ⟨hs',hgone,hsame⟩ : Kept p base lfd s' ∧ Gone lfd fd s' ∧ s'.chunksOf fd = s₁.chunksOf fd := by
    refine h'.invariant (P := fun s => Kept p base lfd s ∧ Gone lfd fd s ∧ s.chunksOf fd = s₁.chunksOf fd)
      ⟨hs₁,.of_read hs hread hchunks,rfl⟩ fun s a s' ⟨hs,hgone,hsame⟩ hstep => ?_
    obtain ⟨hgone',hsame'⟩ := hgone.step hs hstep
    exact ⟨hstep.kept (sound_of_eq hp) hs,hgone',hsame'.trans hsame⟩
  refine ⟨.intro hgone.interest (by decide)
    (fun het => absurd het (show ¬hasBit EPOLLIN EPOLLET by decide)) ?_,?_,hsame.trans ?_⟩
  · unfold Sockets.Ready
    rw [if_neg hgone.ne]
    exact .inr hgone.ending
  · rw [hs'.opened]
    exact decide_eq_true (hs'.mem_lt (.inr hgone.accepts))
  · unfold State.chunksOf
    rw [hchunks]

/-- A client that closes its connection at once is told of again and again. -/
theorem run_spins_one : ∃ actions s, Run (Step server2 3) (start server2 5 3) actions s ∧
    s.pending = [⟨5,EPOLLIN,5⟩] ∧ s.sockets.Due 3 5 ∧ s.sockets.epoll.opened 5 = true ∧ s.chunksOf 5 = [] := by
  have hnil : Run (Step server2 3) (start server2 5 3) [] _ := .nil
  have htold := (hnil.snoc (l := .connect) .connect).snoc (l := .wait [⟨3,EPOLLIN,3⟩])
    (.wait rfl (Epoll.reports_one rfl rfl) (by decide))
  have haccepted := htold.snoc (l := .accept 5 true)
    (.accept (e := ⟨3,EPOLLIN,3⟩) rfl rfl (List.cons_ne_nil _ _) rfl (by decide) (by decide))
  have htold := (haccepted.snoc (l := .arrive 5 .close) (.arrive (by decide))).snoc (l := .wait [⟨5,EPOLLIN,5⟩])
    (.wait rfl (Epoll.reports_one rfl rfl) (by decide))
  have hread := htold.snoc (l := .read 5)
    (.read (e := ⟨5,EPOLLIN,5⟩) rfl (by decide) (by decide) rfl)
  have hagain := hread.snoc (l := .wait [⟨5,EPOLLIN,5⟩])
    (.wait rfl (Epoll.reports_one rfl rfl) (by decide))
  refine ⟨_,_,hagain,rfl,?_⟩
  exact run_spins (.inl rfl) (by decide) htold (.read (e := ⟨5,EPOLLIN,5⟩) rfl (by decide) (by decide) rfl) rfl
    (Run.nil.snoc (l := .wait [⟨5,EPOLLIN,5⟩]) (.wait rfl (Epoll.reports_one rfl rfl) (by decide)))

end Gone
end ServerKit.C1000k.Unclosed
