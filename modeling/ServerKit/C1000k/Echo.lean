import ServerKit.C1000k.Code
import ServerKit.Lib.Padding

/-! What the echo server has sent on a connection: a whole buffer for each chunk that it received. -/
namespace ServerKit.C1000k
open Function ServerKit.Lib

section Items
variable {r r' : Reactor} {p : ℕ × ℕ} {fd : ℕ}

/-- The counter is the length of the chain. -/
def Reactor.Valid (r : Reactor) : Prop := r.blkcnt = r.evblk.length

def placeOf (fd : ℕ) : ℕ × ℕ := (fd/ITEM_LENGTH,fd % ITEM_LENGTH)

/-- New blocks leave the items as they are. -/
theorem forUp_resize (lo n : ℕ) (r : Reactor) (hr : r.Valid) :
    (∀ p, (forUp lo n (fun _ r => reactorResize r) r).item p = r.item p) ∧
      (forUp lo n (fun _ r => reactorResize r) r).Valid ∧
      (forUp lo n (fun _ r => reactorResize r) r).evblk.length = r.evblk.length+n := by
  induction n generalizing lo r with
  | zero => exact ⟨fun _ => rfl,hr,rfl⟩
  | succ n ih =>
    have hvalid : (reactorResize r).Valid := by
      rw [Reactor.Valid, reactorResize, List.length_append, List.length_singleton, hr]
    obtain ⟨hitem,hr',hlength⟩ := ih (lo+1) (reactorResize r) hvalid
    refine ⟨fun p => (hitem p).trans (slotAt_append zeroItem r.evblk p),hr',hlength.trans ?_⟩
    rw [reactorResize, List.length_append, List.length_singleton]
    omega

/-- The item of a descriptor is found, in a block that is there. -/
theorem reactorLookup_spec (hr : r.Valid) (hfd : fd ≠ 0) :
    ∃ r', reactorLookup r fd = some (r',placeOf fd) ∧ r'.Valid ∧ (∀ p, r'.item p = r.item p) ∧
      (placeOf fd).1 < r'.evblk.length := by
  obtain ⟨hitem,hvalid,hlength⟩ := forUp_resize 0 (fd/ITEM_LENGTH+1-r.blkcnt) r hr
  refine ⟨_,if_neg hfd,hvalid,hitem,?_⟩
  rw [hlength, placeOf, ← hr]
  omega

theorem setItem_valid (hr : r.Valid) (p : ℕ × ℕ) (item : SockItem) : (r.setItem p item).Valid :=
  hr.trans length_setSlotAt.symm

end Items

/-- What belongs to one descriptor. -/
structure Conn where
  item : SockItem
  opened : Bool
  interest : Option (Interest ℕ)
  wire : Wire

def Server.conn (s : Server) (fd : ℕ) : Conn :=
  ⟨s.reactor.item (placeOf fd),s.kernel.opened fd,s.kernel.interest fd,s.wires fd⟩

/-- The chunks that were answered: all, or all but the last one while the answer to it is to be sent. -/
def Conn.answered (c : Conn) : List (List UInt8) :=
  match c.interest with
  | none => c.wire.received
  | some i => if i.events = EPOLLOUT then c.wire.received.dropLast else c.wire.received

/-- An item with both of its buffers. -/
structure SockItem.Holds (item : SockItem) (rbuffer wbuffer : List UInt8) : Prop where
  reads : item.rbuffer = some rbuffer
  writes : item.wbuffer = some wbuffer
  rsize : rbuffer.length = BUFFER_LENGTH
  wsize : wbuffer.length = BUFFER_LENGTH

/-- What may be said of a descriptor between two events. -/
inductive Conn.Phase (sockfds : List ℤ) (fd : ℕ) (c : Conn) : Prop
  | out (hlisten : isListenfd sockfds fd = false) (interest : c.interest = none)
      (echo : Padded BUFFER_LENGTH c.wire.received c.wire.sent)
  | listens (hlisten : isListenfd sockfds fd = true) (opened : c.opened = true)
      (interest : c.interest = some ⟨EPOLLIN,fd⟩) (wire : c.wire = ⟨[],[]⟩)
  | reads {rbuffer wbuffer} (hlisten : isListenfd sockfds fd = false) (hfd : fd ≠ 0)
      (opened : c.opened = true) (interest : c.interest = some ⟨EPOLLIN,fd⟩)
      (item : c.item.Holds rbuffer wbuffer) (echo : Padded BUFFER_LENGTH c.wire.received c.wire.sent)
  | writes {rbuffer wbuffer answered chunk} (hlisten : isListenfd sockfds fd = false) (hfd : fd ≠ 0)
      (opened : c.opened = true) (interest : c.interest = some ⟨EPOLLOUT,fd⟩)
      (item : c.item.Holds rbuffer wbuffer) (received : c.wire.received = answered ++ [chunk])
      (chunk : chunk <+: wbuffer) (echo : Padded BUFFER_LENGTH answered c.wire.sent)

section Local
variable {sockfds : List ℤ} {fd : ℕ} {c : Conn}

theorem Conn.Phase.answered (h : c.Phase sockfds fd) : Padded BUFFER_LENGTH c.answered c.wire.sent := by
  unfold Conn.answered
  cases h with
  | out _ interest echo =>
    rw [interest]
    exact echo
  | listens _ _ interest wire =>
    rw [interest, wire]
    exact .nil
  | reads _ _ _ interest _ echo =>
    rw [interest]
    exact echo
  | writes _ _ _ interest _ received _ echo =>
    rw [interest, received]
    dsimp only
    rw [if_pos rfl, List.dropLast_concat]
    exact echo

theorem Conn.Phase.opened (h : c.Phase sockfds fd) (hreg : c.interest ≠ none) : c.opened = true := by
  cases h with
  | out _ interest => exact absurd interest hreg
  | listens _ opened => exact opened
  | reads _ _ opened => exact opened
  | writes _ _ opened => exact opened

/-- A descriptor that `accept` may return. -/
theorem Conn.Phase.of_closed (h : c.Phase sockfds fd) (hnew : c.opened = false) :
    isListenfd sockfds fd = false ∧ c.interest = none := by
  have hnone : c.interest = none := by
    by_contra hreg
    rw [h.opened hreg] at hnew
    cases hnew
  cases h with
  | out hlisten => exact ⟨hlisten,hnone⟩
  | listens _ opened => cases opened.symm.trans hnew
  | reads hlisten => exact ⟨hlisten,hnone⟩
  | writes hlisten => exact ⟨hlisten,hnone⟩

end Local

/-- The server differs in what belongs to `fd` only. -/
structure Changed (s s' : Server) (fd : ℕ) (c : Conn) : Prop where
  conn : s'.conn = update s.conn fd c
  valid : s'.reactor.Valid

section Changes
variable {s s' : Server} {fd : ℕ} {c : Conn}

theorem Changed.self (h : Changed s s' fd c) : s'.conn fd = c := by
  rw [h.conn, update_self]

theorem Changed.other (h : Changed s s' fd c) {fd' : ℕ} (hfd : fd' ≠ fd) : s'.conn fd' = s.conn fd' := by
  rw [h.conn, update_of_ne hfd]

/-- Everything is written at `fd`. -/
theorem Changed.intro (hvalid : s'.reactor.Valid)
    (hitem : ∀ fd', s'.reactor.item (placeOf fd') =
      if fd' = fd then c.item else s.reactor.item (placeOf fd'))
    (hopened : s'.kernel.opened = update s.kernel.opened fd c.opened)
    (hinterest : s'.kernel.interest = update s.kernel.interest fd c.interest)
    (hwires : s'.wires = update s.wires fd c.wire) : Changed s s' fd c := by
  refine ⟨?_,hvalid⟩
  funext fd'
  rw [Server.conn, hitem, hopened, hinterest, hwires]
  by_cases hfd : fd' = fd
  · subst hfd
    simp
  · simp [hfd, Server.conn]

theorem Changed.refl (h : s.reactor.Valid) (fd : ℕ) : Changed s s fd (s.conn fd) :=
  ⟨(update_eq_self ..).symm,h⟩

/-- The item of a descriptor after a write to it. -/
theorem setItem_item {r : Reactor} (hblk : (placeOf fd).1 < r.evblk.length) (item : SockItem) (fd' : ℕ) :
    (r.setItem (placeOf fd) item).item (placeOf fd') = if fd' = fd then item else r.item (placeOf fd') := by
  refine (slotAt_setSlotAt hblk).trans ?_
  exact if_congr place_inj rfl rfl

/-- The item of a new connection. -/
def newItem (fd : ℕ) : SockItem :=
  ⟨fd,some (List.replicate BUFFER_LENGTH 0),0,some (List.replicate BUFFER_LENGTH 0),0⟩

theorem newItem_holds (fd : ℕ) :
    (newItem fd).Holds (List.replicate BUFFER_LENGTH 0) (List.replicate BUFFER_LENGTH 0) :=
  ⟨rfl,rfl,List.length_replicate,List.length_replicate⟩

theorem accepted_changed (hs : s.reactor.Valid) (hfd : fd ≠ 0) (hnone : (s.conn fd).interest = none) :
    ∃ s', accepted s fd = some s' ∧
      Changed s s' fd ⟨newItem fd,true,some ⟨EPOLLIN,fd⟩,⟨[],[]⟩⟩ := by
  obtain ⟨r,hlookup,hvalid,hitem,hblk⟩ := reactorLookup_spec hs hfd
  have hopen : (s.kernel.accept fd).opened fd = true := update_self ..
  have hctl : (s.kernel.accept fd).ctl true .add fd ⟨EPOLLIN,fd⟩ = _ := Epoll.ctl_add hopen hnone
  unfold accepted Server.ctl
  simp only [hlookup, hctl, bind, Option.bind_some, pure]
  refine ⟨_,rfl,Changed.intro (setItem_valid hvalid _ _) ?_ rfl rfl rfl⟩
  intro fd'
  rw [setItem_item hblk, hitem (placeOf fd')]
  rfl

/-- What `recv` does to the descriptor that is read. -/
def Conn.read (fd : ℕ) (c : Conn) (rbuffer : List UInt8) : Option (List UInt8) → Conn
  | none => c
  | some [] => ⟨{ c.item with fd := 0, rbuffer := none, wbuffer := none },false,none,c.wire⟩
  | some (b :: bytes) =>
    let rbuffer := b :: bytes ++ rbuffer.drop (b :: bytes).length
    ⟨{ c.item with rbuffer := some rbuffer, wbuffer := some rbuffer },c.opened,some ⟨EPOLLOUT,fd⟩,
      { c.wire with received := c.wire.received ++ [b :: bytes] }⟩

theorem readable_changed (hs : s.reactor.Valid) (hfd : fd ≠ 0) (hreg : (s.conn fd).interest ≠ none)
    {rbuffer wbuffer : List UInt8} (hholds : (s.conn fd).item.Holds rbuffer wbuffer)
    {recv : Option (List UInt8)} (hrecv : ∀ bytes, recv = some bytes → bytes.length ≤ BUFFER_LENGTH) :
    ∃ s', readable s fd recv = some s' ∧ Changed s s' fd ((s.conn fd).read fd rbuffer recv) := by
  obtain ⟨r,hlookup,hvalid,hitem,hblk⟩ := reactorLookup_spec hs hfd
  have hread : (r.item (placeOf fd)).rbuffer = some rbuffer := (congrArg _ (hitem _)).trans hholds.reads
  have hwrite : (r.item (placeOf fd)).wbuffer = some wbuffer := (congrArg _ (hitem _)).trans hholds.writes
  unfold readable
  simp only [hlookup, bind, Option.bind_some, pure, hread, hwrite]
  match recv, hrecv with
  | none, _ =>
    refine ⟨_,rfl,Changed.intro hvalid ?_ (update_eq_self ..).symm (update_eq_self ..).symm
      (update_eq_self ..).symm⟩
    intro fd'
    rw [hitem]
    split
    · next h =>
      subst h
      rfl
    · rfl
  | some [], _ =>
    refine ⟨_,rfl,Changed.intro (setItem_valid hvalid _ _) ?_ rfl rfl (update_eq_self ..).symm⟩
    intro fd'
    rw [setItem_item hblk, hitem (placeOf fd'), hitem (placeOf fd)]
    rfl
  | some (b :: bytes), hrecv =>
    have hctl : s.kernel.ctl true .mod fd ⟨EPOLLOUT,fd⟩ = _ := Epoll.ctl_mod hreg
    have hsize : (b :: bytes ++ rbuffer.drop (b :: bytes).length).length = BUFFER_LENGTH := by
      have hle := hrecv _ rfl
      rw [List.length_append, List.length_drop, hholds.rsize]
      omega
    have hall : (b :: bytes ++ rbuffer.drop (b :: bytes).length).take BUFFER_LENGTH ++
        wbuffer.drop BUFFER_LENGTH = b :: bytes ++ rbuffer.drop (b :: bytes).length := by
      rw [List.take_of_length_le (Nat.le_of_eq hsize), List.drop_of_length_le (Nat.le_of_eq hholds.wsize),
        List.append_nil]
    simp only [Server.ctl, hctl, hall]
    refine ⟨_,rfl,Changed.intro (setItem_valid hvalid _ _) ?_ (update_eq_self ..).symm rfl rfl⟩
    intro fd'
    rw [setItem_item hblk, hitem (placeOf fd'), hitem (placeOf fd)]
    rfl

theorem writable_changed (hs : s.reactor.Valid) (hfd : fd ≠ 0) (hreg : (s.conn fd).interest ≠ none)
    {rbuffer wbuffer : List UInt8} (hholds : (s.conn fd).item.Holds rbuffer wbuffer) :
    ∃ s', writable s fd = some s' ∧ Changed s s' fd { s.conn fd with
      interest := some ⟨EPOLLIN,fd⟩
      wire := { s.wires fd with sent := (s.wires fd).sent ++ wbuffer } } := by
  obtain ⟨r,hlookup,hvalid,hitem,hblk⟩ := reactorLookup_spec hs hfd
  have hwrite : (r.item (placeOf fd)).wbuffer = some wbuffer := (congrArg _ (hitem _)).trans hholds.writes
  have hctl : s.kernel.ctl true .mod fd ⟨EPOLLIN,fd⟩ = _ := Epoll.ctl_mod hreg
  have hall : wbuffer.take BUFFER_LENGTH = wbuffer := List.take_of_length_le (Nat.le_of_eq hholds.wsize)
  unfold writable Server.ctl
  simp only [hlookup, bind, Option.bind_some, pure, hwrite, hctl, hall]
  refine ⟨_,rfl,Changed.intro hvalid ?_ (update_eq_self ..).symm rfl rfl⟩
  intro fd'
  rw [hitem]
  split
  · next h =>
    subst h
    rfl
  · rfl

end Changes

/-- A step writes at one descriptor, and leaves it in a phase. -/
structure Moved (sockfds : List ℤ) (s s' : Server) (fd : ℕ) (c : Conn) : Prop where
  changed : Changed s s' fd c
  phase : c.Phase sockfds fd

section Events
variable {sockfds : List ℤ} {s : Server} {e : Ready ℕ} {res : Results}

/-- What holds of the server between two events. -/
structure Steady (sockfds : List ℤ) (s : Server) : Prop where
  valid : s.reactor.Valid
  phase : ∀ fd, (s.conn fd).Phase sockfds fd

theorem Moved.steady {s' : Server} {fd : ℕ} {c : Conn} (h : Moved sockfds s s' fd c)
    (hs : Steady sockfds s) : Steady sockfds s' := by
  refine ⟨h.changed.valid,fun fd' => ?_⟩
  by_cases hfd : fd' = fd
  · rw [hfd, h.changed.self]
    exact h.phase
  · rw [h.changed.other hfd]
    exact hs.phase fd'

theorem Steady.refl (hs : Steady sockfds s) (fd : ℕ) : Moved sockfds s s fd (s.conn fd) :=
  ⟨Changed.refl hs.valid fd,hs.phase fd⟩

theorem Steady.opened (hs : Steady sockfds s) (he : s.kernel.Reported e) :
    s.kernel.opened e.fd = true := by
  obtain ⟨i,hi,-⟩ := he
  apply (hs.phase e.fd).opened
  exact (show (s.conn e.fd).interest = some i from hi).trans_ne (Option.some_ne_none _)

/-- The event is handled, at its own descriptor or at one that was not open. -/
def Handled (sockfds : List ℤ) (s : Server) (e : Ready ℕ) (res : Results) : Prop :=
  ∃ s' next fd c, handle sockfds s e res = some (s',next) ∧ Moved sockfds s s' fd c ∧
    (fd = e.fd ∨ s.kernel.opened fd = false)

theorem handled_listens (hs : Steady sockfds s) (hlisten : isListenfd sockfds e.data = true)
    (hfits : res.Fits s.kernel) (hzero : res.accept ≠ some 0) : Handled sockfds s e res := by
  unfold Handled handle
  simp only [hlisten, if_true]
  cases haccept : res.accept with
  | none => exact ⟨s,.break,e.fd,_,rfl,hs.refl e.fd,.inl rfl⟩
  | some connfd =>
    have hnew := hfits.fresh connfd haccept
    have hfd : connfd ≠ 0 := by
      rintro rfl
      exact hzero haccept
    obtain ⟨hnot,hnone⟩ := (hs.phase connfd).of_closed hnew
    obtain ⟨s',hs',hchanged⟩ := accepted_changed hs.valid hfd hnone
    refine ⟨s',.continue,connfd,_,?_,⟨hchanged,?_⟩,.inr hnew⟩
    · simp only [hs', Option.map_some]
    · exact .reads hnot hfd rfl rfl (newItem_holds connfd) .nil

/-- What `recv` does keeps a connection in a phase. -/
theorem Conn.read_phase {fd : ℕ} {c : Conn} {rbuffer wbuffer : List UInt8}
    (hlisten : isListenfd sockfds fd = false) (hfd : fd ≠ 0) (hopen : c.opened = true)
    (hinterest : c.interest = some ⟨EPOLLIN,fd⟩) (hholds : c.item.Holds rbuffer wbuffer)
    (hecho : Padded BUFFER_LENGTH c.wire.received c.wire.sent) {recv : Option (List UInt8)}
    (hrecv : ∀ bytes, recv = some bytes → bytes.length ≤ BUFFER_LENGTH) :
    (c.read fd rbuffer recv).Phase sockfds fd := by
  match recv, hrecv with
  | none, _ => exact .reads hlisten hfd hopen hinterest hholds hecho
  | some [], _ => exact .out hlisten rfl hecho
  | some (b :: bytes), hrecv =>
    have hsize : (b :: bytes ++ rbuffer.drop (b :: bytes).length).length = BUFFER_LENGTH := by
      have hle := hrecv _ rfl
      rw [List.length_append, List.length_drop, hholds.rsize]
      omega
    exact .writes hlisten hfd hopen rfl ⟨rfl,rfl,hsize,hsize⟩ rfl (List.prefix_append ..) hecho

theorem handled_client (hs : Steady sockfds s) (he : s.kernel.Reported e)
    (hnot : isListenfd sockfds e.data = false) (hfits : res.Fits s.kernel) : Handled sockfds s e res := by
  obtain ⟨i,hi,hdata,hin,hout⟩ := he
  have hinterest : (s.conn e.fd).interest = some i := hi
  unfold Handled handle
  simp only [hnot, Bool.false_eq_true, if_false]
  cases hs.phase e.fd with
  | out _ hnone => cases hnone.symm.trans hinterest
  | listens hlisten _ hreg =>
    obtain rfl := Option.some.inj (hreg.symm.trans hinterest)
    rw [hdata, hlisten] at hnot
    cases hnot
  | reads hlisten hfd hopen hreg hholds hecho =>
    obtain rfl := Option.some.inj (hreg.symm.trans hinterest)
    have hwrite : ¬ hasBit e.events EPOLLOUT := fun h =>
      (by decide : ¬ hasBit EPOLLIN EPOLLOUT) (hout h)
    rw [if_neg hwrite, hdata]
    by_cases hread : hasBit e.events EPOLLIN
    · obtain ⟨s',hs',hchanged⟩ := readable_changed hs.valid hfd
        (hreg.trans_ne (Option.some_ne_none _)) hholds hfits.recv
      have hphase := Conn.read_phase hlisten hfd hopen hreg hholds hecho hfits.recv
      rw [if_pos hread, hs']
      exact ⟨s',.continue,e.fd,_,rfl,⟨hchanged,hphase⟩,.inl rfl⟩
    · rw [if_neg hread]
      exact ⟨s,.continue,e.fd,_,rfl,hs.refl e.fd,.inl rfl⟩
  | @writes rbuffer wbuffer answered chunk hlisten hfd hopen hreg hholds hreceived hchunk hecho =>
    obtain rfl := Option.some.inj (hreg.symm.trans hinterest)
    have hread : ¬ hasBit e.events EPOLLIN := fun h =>
      (by decide : ¬ hasBit EPOLLOUT EPOLLIN) (hin h)
    rw [if_neg hread, hdata]
    by_cases hwrite : hasBit e.events EPOLLOUT
    · obtain ⟨s',hs',hchanged⟩ := writable_changed hs.valid hfd
        (hreg.trans_ne (Option.some_ne_none _)) hholds
      have hanswer : Padded BUFFER_LENGTH (s.wires e.fd).received ((s.wires e.fd).sent ++ wbuffer) := by
        rw [show (s.wires e.fd).received = _ from hreceived]
        exact hecho.snoc hholds.wsize hchunk
      rw [if_pos hwrite, hs']
      exact ⟨s',.continue,e.fd,_,rfl,⟨hchanged,.reads hlisten hfd hopen rfl hholds hanswer⟩,.inl rfl⟩
    · rw [if_neg hwrite]
      exact ⟨s,.continue,e.fd,_,rfl,hs.refl e.fd,.inl rfl⟩

end Events

/-- What holds between two events. -/
structure Kept (sockfds : List ℤ) (s : State) : Prop where
  steady : Steady sockfds s.server
  nodup : (s.pending.map Ready.fd).Nodup
  pending : ∀ e ∈ s.pending, s.server.kernel.Reported e

section Runs
variable {sockfds : List ℤ} {opened : ℕ → Bool} {s s' : State} {a : Action}

/-- For the descriptor 0 there is no item, and its null pointer is used. -/
theorem handle_zero {s : Server} {e : Ready ℕ} {res : Results} (hlisten : isListenfd sockfds e.data = true)
    (hzero : res.accept = some 0) : handle sockfds s e res = none := by
  unfold handle
  simp [hlisten, hzero, accepted, reactorLookup]

/-- An event that has a result is handled. -/
theorem Steady.handled {s server : Server} {e : Ready ℕ} {res : Results} {next : Next}
    (hs : Steady sockfds s) (he : s.kernel.Reported e) (hfits : res.Fits s.kernel)
    (h : handle sockfds s e res = some (server,next)) : Handled sockfds s e res := by
  cases hlisten : isListenfd sockfds e.data with
  | false => exact handled_client hs he hlisten hfits
  | true =>
    refine handled_listens hs hlisten hfits fun hzero => ?_
    cases (handle_zero hlisten hzero).symm.trans h

/-- An event that was reported is handled, whatever `recv` returns and unless `accept` returns 0. -/
theorem Kept.exists_step (hs : Kept sockfds s) {e : Ready ℕ} {pending : List (Ready ℕ)} {res : Results}
    (hpending : s.pending = e :: pending) (hfits : res.Fits s.server.kernel)
    (hzero : isListenfd sockfds e.data = true → res.accept ≠ some 0) : ∃ s', Step sockfds s (.event res) s' := by
  have he : s.server.kernel.Reported e := hs.pending e (by simp [hpending])
  have hhandled : Handled sockfds s.server e res := by
    cases hlisten : isListenfd sockfds e.data with
    | false => exact handled_client hs.steady he hlisten hfits
    | true => exact handled_listens hs.steady hlisten hfits (hzero hlisten)
  obtain ⟨server,next,-,-,h,-⟩ := hhandled
  exact ⟨_,.event hpending hfits h⟩

theorem Kept.step (hs : Kept sockfds s) (h : Step sockfds s a s') : Kept sockfds s' := by
  cases h with
  | wait hpending hbatch => exact ⟨hs.steady,hbatch.nodup,hbatch.reported⟩
  | @event e pending res server next hpending hfits h =>
    have he : s.server.kernel.Reported e := hs.pending e (by simp [hpending])
    obtain ⟨server',next',fd,c,h',hmoved,hfd⟩ := hs.steady.handled he hfits h
    obtain ⟨rfl,rfl⟩ := Prod.mk.inj (Option.some.inj (h'.symm.trans h))
    refine ⟨hmoved.steady hs.steady,?_,?_⟩
    · split
      · exact List.nodup_nil
      · have hnodup := hs.nodup
        rw [hpending, List.map_cons] at hnodup
        exact hnodup.of_cons
    · intro e' he'
      dsimp only at he'
      split at he'
      · cases he'
      have hnodup := hs.nodup
      rw [hpending, List.map_cons, List.nodup_cons] at hnodup
      have hreported : s.server.kernel.Reported e' := hs.pending e' (by simp [hpending,he'])
      have hother := Ready.ne_of_pending hnodup.1 he' (hs.steady.opened hreported) hfd
      exact hreported.congr (congrArg Conn.interest (hmoved.changed.other hother))

/-- A socket that is open is registered, or it already was. -/
theorem listening_spec (s : Server) (sockfd : ℤ)
    (hopen : ∀ fd : ℕ, sockfd = fd → s.kernel.opened fd = true)
    (hreg : ∀ fd i, s.kernel.interest fd = some i → i = ⟨EPOLLIN,fd⟩) :
    (listening s sockfd).reactor = s.reactor ∧ (listening s sockfd).wires = s.wires ∧
      (listening s sockfd).kernel.opened = s.kernel.opened ∧
      ∀ fd : ℕ, (listening s sockfd).kernel.interest fd =
        if sockfd = fd then some ⟨EPOLLIN,fd⟩ else s.kernel.interest fd := by
  cases sockfd with
  | negSucc n =>
    refine ⟨rfl,rfl,rfl,fun fd => ?_⟩
    rw [if_neg (by omega)]
    rfl
  | ofNat fd =>
    cases hfree : s.kernel.interest fd with
    | none =>
      have hctl : s.kernel.ctl true .add fd ⟨EPOLLIN,fd⟩ = _ := Epoll.ctl_add (hopen fd rfl) hfree
      have hset : listening s (.ofNat fd) = { s with kernel := s.kernel.set fd (some ⟨EPOLLIN,fd⟩) } := by
        rw [listening, Server.ctl, hctl]
      rw [hset]
      refine ⟨rfl,rfl,rfl,fun fd' => ?_⟩
      by_cases hfd : fd = fd'
      · subst hfd
        simp [Epoll.set]
      · have hne : ¬ Int.ofNat fd = (fd' : ℤ) := fun h => hfd (Int.ofNat.inj h)
        rw [if_neg hne]
        exact update_of_ne (Ne.symm hfd) ..
    | some i =>
      have hctl : s.kernel.ctl true .add fd ⟨EPOLLIN,fd⟩ =
          ({ s.kernel with failed := (.add,fd) :: s.kernel.failed },-1) := by
        simp [Epoll.ctl, Epoll.legal, hfree]
      have hrefused : listening s (.ofNat fd) =
          { s with kernel := { s.kernel with failed := (.add,fd) :: s.kernel.failed } } := by
        rw [listening, Server.ctl, hctl]
      rw [hrefused]
      refine ⟨rfl,rfl,rfl,fun fd' => ?_⟩
      split
      · next hfd =>
        obtain rfl := Int.ofNat.inj hfd
        rw [hfree, hreg fd i hfree]
      · rfl

/-- The listening sockets are registered, and nothing else is. -/
theorem foldl_listening (fds : List ℤ) (s : Server)
    (hopen : ∀ fd, isListenfd fds fd = true → s.kernel.opened fd = true)
    (hreg : ∀ fd i, s.kernel.interest fd = some i → i = ⟨EPOLLIN,fd⟩) :
    (fds.foldl listening s).reactor = s.reactor ∧ (fds.foldl listening s).wires = s.wires ∧
      (fds.foldl listening s).kernel.opened = s.kernel.opened ∧
      ∀ fd, (fds.foldl listening s).kernel.interest fd =
        if isListenfd fds fd then some ⟨EPOLLIN,fd⟩ else s.kernel.interest fd := by
  induction fds generalizing s with
  | nil => exact ⟨rfl,rfl,rfl,fun _ => rfl⟩
  | cons sockfd fds ih =>
    have hfirst (fd : ℕ) (h : sockfd = fd) : s.kernel.opened fd = true := by
      apply hopen
      rw [isListenfd, if_pos h]
    obtain ⟨hreactor,hwires,hopened,hinterest⟩ := listening_spec s sockfd hfirst hreg
    obtain ⟨hreactor',hwires',hopened',hinterest'⟩ := ih (listening s sockfd)
      (fun fd hfd => by
        rw [hopened]
        apply hopen
        rw [isListenfd]
        split
        · rfl
        · exact hfd)
      (fun fd i hi => by
        rw [hinterest] at hi
        split at hi
        · exact (Option.some.inj hi).symm
        · exact hreg fd i hi)
    refine ⟨hreactor'.trans hreactor,hwires'.trans hwires,hopened'.trans hopened,fun fd => ?_⟩
    rw [List.foldl_cons, hinterest', hinterest, isListenfd]
    by_cases hfd : sockfd = fd
    · simp [hfd]
    · simp [hfd]

theorem start_kept (opened : ℕ → Bool) (sockfds : List ℤ) : Kept sockfds (start opened sockfds) := by
  obtain ⟨hreactor,hwires,hopened,hinterest⟩ := foldl_listening sockfds
    { reactor := ⟨0,[]⟩
      kernel := ⟨fun fd => isListenfd sockfds fd || opened fd,fun _ => none,[]⟩
      wires := fun _ => ⟨[],[]⟩ }
    (fun fd hfd => by simp [hfd]) nofun
  refine ⟨⟨?_,fun fd => ?_⟩,List.nodup_nil,nofun⟩
  · rw [start, hreactor]
    rfl
  · have hwire : ((start opened sockfds).server.conn fd).wire = ⟨[],[]⟩ := congrFun hwires fd
    have hreg : ((start opened sockfds).server.conn fd).interest = _ := hinterest fd
    have hopen : ((start opened sockfds).server.conn fd).opened = (isListenfd sockfds fd || opened fd) :=
      congrFun hopened fd
    cases hlisten : isListenfd sockfds fd with
    | false =>
      rw [hlisten] at hreg
      refine .out hlisten hreg ?_
      rw [hwire]
      exact .nil
    | true =>
      rw [hlisten] at hreg hopen
      exact .listens hlisten hopen hreg hwire

theorem run_kept {actions : List Action} (h : Run (Step sockfds) (start opened sockfds) actions s) :
    Kept sockfds s :=
  h.invariant (P := Kept sockfds) (start_kept opened sockfds) fun _ _ _ hs hstep => hs.step hstep

/-- What was sent on a connection is what was received and answered, in every state of a run, exactly if
each of these chunks has the length of the buffer. -/
theorem run_echoed_iff {actions : List Action}
    (h : Run (Step sockfds) (start opened sockfds) actions s) (fd : ℕ) :
    (s.server.wires fd).sent = (s.server.conn fd).answered.flatten ↔
      ∀ chunk ∈ (s.server.conn fd).answered, chunk.length = BUFFER_LENGTH :=
  ((run_kept h).steady.phase fd).answered.eq_flatten_iff

/-- In every state of a run the next event is handled with buffers that are there, exactly unless `accept`
returns the descriptor 0 for it. -/
theorem run_handles_iff {actions : List Action} (h : Run (Step sockfds) (start opened sockfds) actions s)
    {e : Ready ℕ} {pending : List (Ready ℕ)} (hpending : s.pending = e :: pending) {res : Results}
    (hfits : res.Fits s.server.kernel) :
    (∃ s', Step sockfds s (.event res) s') ↔ ¬(isListenfd sockfds e.data = true ∧ res.accept = some 0) := by
  constructor
  · rintro ⟨s',hstep⟩ ⟨hlisten,hzero⟩
    cases hstep with
    | event hpending' _ hhandle =>
      obtain ⟨rfl,rfl⟩ := List.cons.inj (hpending'.symm.trans hpending)
      cases (handle_zero hlisten hzero).symm.trans hhandle
  · intro hnot
    apply (run_kept h).exists_step hpending hfits
    intro hlisten hzero
    exact hnot ⟨hlisten,hzero⟩

section Sample

def accepts (connfd : ℕ) : Results := ⟨some connfd,none⟩
def reads (bytes : List UInt8) : Results := ⟨none,some bytes⟩

theorem accepts_fits {k : Epoll ℕ} {connfd : ℕ} (hnew : k.opened connfd = false) :
    (accepts connfd).Fits k := by
  refine ⟨?_,nofun⟩
  rintro _ ⟨⟩
  exact hnew

theorem reads_fits {bytes : List UInt8} (h : bytes.length ≤ BUFFER_LENGTH) (k : Epoll ℕ) :
    (reads bytes).Fits k := by
  refine ⟨nofun,?_⟩
  rintro _ ⟨⟩
  exact h

/-- Without a standard input, the first connection gets the descriptor 0. -/
theorem run_handles_iff_zero : ∃ actions s, Run (Step [3]) (start (fun _ => false) [3]) actions s ∧
    s.pending = [⟨3,EPOLLIN,3⟩] ∧ ¬∃ s', Step [3] s (.event (accepts 0)) s' := by
  have hnil : Run (Step [3]) (start (fun _ => false) [3]) [] _ := .nil
  have htold := hnil.snoc (l := .wait [⟨3,EPOLLIN,3⟩]) (.wait rfl (Epoll.reports_one rfl rfl) (by decide))
  refine ⟨_,_,htold,rfl,fun hstep => ?_⟩
  exact (run_handles_iff htold rfl (accepts_fits rfl)).mp hstep ⟨rfl,rfl⟩

/-- On the descriptor `5`, two chunks are received, and both are answered. -/
theorem sample_answered : ∃ actions s, Run (Step [3]) (start (fun _ => false) [3]) actions s ∧
    (s.server.wires 5).received = [[1,2],[3]] ∧ (s.server.conn 5).answered = [[1,2],[3]] ∧
    (s.server.wires 5).sent =
      [1,2] ++ List.replicate 126 0 ++ ([3,2] ++ List.replicate 126 0) := by
  have hwait : Step [3] (start (fun _ => false) [3]) (.wait [⟨3,EPOLLIN,3⟩]) _ :=
    .wait rfl (Epoll.reports_one rfl rfl) (by decide)
  have haccepted := (Run.nil.snoc hwait).snoc (l := .event (accepts 5))
    (.event rfl (accepts_fits rfl) rfl)
  have hfirst := (haccepted.snoc (l := .wait [⟨5,EPOLLIN,5⟩])
    (.wait rfl (Epoll.reports_one rfl rfl) (by decide))).snoc (l := .event (reads [1,2]))
    (.event rfl (reads_fits (by decide) _) rfl)
  have hanswered := (hfirst.snoc (l := .wait [⟨5,EPOLLOUT,5⟩])
    (.wait rfl (Epoll.reports_one rfl rfl) (by decide))).snoc (l := .event (reads []))
    (.event rfl (reads_fits (by decide) _) rfl)
  have hsecond := (hanswered.snoc (l := .wait [⟨5,EPOLLIN,5⟩])
    (.wait rfl (Epoll.reports_one rfl rfl) (by decide))).snoc (l := .event (reads [3]))
    (.event rfl (reads_fits (by decide) _) rfl)
  have hall := (hsecond.snoc (l := .wait [⟨5,EPOLLOUT,5⟩])
    (.wait rfl (Epoll.reports_one rfl rfl) (by decide))).snoc (l := .event (reads []))
    (.event rfl (reads_fits (by decide) _) rfl)
  exact ⟨_,_,hall,rfl,rfl,rfl⟩

theorem run_echoed_iff_two : ∃ actions s, Run (Step [3]) (start (fun _ => false) [3]) actions s ∧
    (s.server.conn 5).answered = [[1,2],[3]] ∧
    ((s.server.wires 5).sent = (s.server.conn 5).answered.flatten ↔
      ∀ chunk ∈ (s.server.conn 5).answered, chunk.length = BUFFER_LENGTH) := by
  obtain ⟨actions,s,hrun,-,hanswered,-⟩ := sample_answered
  exact ⟨actions,s,hrun,hanswered,run_echoed_iff hrun 5⟩

/-- The zeros of the new buffer are sent, and with the second chunk a byte of the first one. -/
theorem echo_padded : ∃ actions s, Run (Step [3]) (start (fun _ => false) [3]) actions s ∧
    (s.server.wires 5).received = [[1,2],[3]] ∧
    (s.server.wires 5).sent = [1,2] ++ List.replicate 126 0 ++ ([3,2] ++ List.replicate 126 0) ∧
    (s.server.wires 5).sent ≠ (s.server.wires 5).received.flatten := by
  obtain ⟨actions,s,hrun,hreceived,-,hsent⟩ := sample_answered
  refine ⟨actions,s,hrun,hreceived,hsent,fun heq => ?_⟩
  have hlength := congrArg List.length heq
  rw [hsent, hreceived] at hlength
  simp only [List.length_append, List.length_replicate] at hlength
  exact absurd hlength (by decide)

end Sample
end Runs
end ServerKit.C1000k
