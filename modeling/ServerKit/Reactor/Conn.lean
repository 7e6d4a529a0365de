import ServerKit.Reactor.System

/-! What belongs to one descriptor, and how the callbacks change it. Every callback changes what belongs
to a single descriptor, so that the loop moves these parts one at a time. -/
namespace ServerKit.Reactor
open Function ServerKit.Lib

variable {X : Type}

structure Conn (X : Type) where
  slot : NtyEvent X
  opened : Bool
  interest : Option (Interest Ptr)
  log : List (Event X)

def Server.conn [Zero X] (s : Server X) (fd : ℕ) : Conn X :=
  ⟨s.reactor.slot (slotOf fd),s.kernel.opened fd,s.kernel.interest fd,s.log fd⟩

/-- The parsers touch nothing that the loop relies on, and `buffer` keeps its size. -/
structure App.Lawful (app : App X) : Prop where
  pastBuffer_status : ∀ ev, (app.pastBuffer ev).status = ev.status
  pastBuffer_buffer : ∀ ev, (app.pastBuffer ev).buffer = ev.buffer
  request_size : ∀ ev, (app.request ev).buffer.length = ev.buffer.length
  response_size : ∀ ev, (app.response ev).buffer.length = ev.buffer.length
  request_status : ∀ ev, (app.request ev).status = ev.status
  response_status : ∀ ev, (app.response ev).status = ev.status
  response_fd : ∀ ev, (app.response ev).fd = ev.fd

namespace Conn

/-- The descriptor is registered, and its event asks for `events` with `callback`. -/
structure At (fd : ℕ) (callback : Callback) (events : ℕ) (c : Conn X) : Prop where
  opened : c.opened = true
  interest : c.interest = some ⟨events,slotOf fd⟩
  status : c.slot.status = 1
  fd : c.slot.fd = fd
  events : c.slot.events = events
  arg : c.slot.arg = .reactor
  callback : c.slot.callback = some callback

/-- A connection was accepted and is not closed. -/
def connected (c : Conn X) : Bool :=
  match c.log with
  | [] => false
  | .closed :: _ => false
  | _ :: _ => true

/-- A registered descriptor mirrors its event, and the status of the others is `0`. -/
inductive Mirrored (fd : ℕ) (c : Conn X) : Prop
  | out (interest : c.interest = none) (status : c.slot.status = 0)
  | listens (h : c.At fd .acceptCb EPOLLIN) (log : c.log = [])
  | receives (h : c.At fd .recvCb EPOLLIN) (live : c.connected = true)
  | sends (h : c.At fd .sendCb EPOLLOUT) (live : c.connected = true)

/-- The event of `fd` waits for `events` again. -/
def watched (fd : ℕ) (callback : Callback) (events : ℕ) (ev : NtyEvent X) : NtyEvent X :=
  { ntyEventSet ev fd callback .reactor with events := events, status := 1 }

/-- Accepted, when `fcntl` fails. -/
def leaked (c : Conn X) : Conn X := { c with opened := true, log := .accepted :: c.log }

def accepted (fd : ℕ) (c : Conn X) : Conn X where
  slot := watched fd .recvCb EPOLLIN c.slot
  opened := true
  interest := some ⟨EPOLLIN,slotOf fd⟩
  log := .accepted :: c.log

/-- The event after its descriptor has left the set. -/
def off (ev : NtyEvent X) : NtyEvent X := { ev with status := 0 }

/-- The event that a request is parsed from. -/
def received (app : App X) (bytes : List UInt8) (ev : NtyEvent X) : NtyEvent X :=
  terminate app (off (fill ev bytes)) bytes.length

def heard (app : App X) (fd : ℕ) (bytes : List UInt8) (c : Conn X) : Conn X where
  slot := watched fd .sendCb EPOLLOUT (app.request (received app bytes c.slot))
  opened := c.opened
  interest := some ⟨EPOLLOUT,slotOf fd⟩
  log := .message bytes (received app bytes c.slot).ext :: c.log

/-- Neither registered nor closed. -/
def stalled (c : Conn X) : Conn X := { c with slot := off c.slot, interest := none }

def hungUp (c : Conn X) : Conn X where
  slot := off c.slot
  opened := false
  interest := none
  log := .closed :: c.log

def answered (app : App X) (fd : ℕ) (send : Option ℕ) (rest : List ℕ) (c : Conn X) : Conn X :=
  let ev := app.response c.slot
  { slot := watched fd .recvCb EPOLLIN ev
    opened := c.opened
    interest := some ⟨EPOLLIN,slotOf fd⟩
    log := .reply send rest (ev.wbuffer.take ev.wlength :: app.rest ev) :: c.log }

def dropped (app : App X) (send : Option ℕ) (rest : List ℕ) (c : Conn X) : Conn X :=
  let ev := app.response c.slot
  hungUp { c with slot := ev, log := .reply send rest [ev.wbuffer.take ev.wlength] :: c.log }

/-- What comes from outside: the results of the system calls of a callback. -/
inductive Act
  | accept (fcntl : Bool)
  | recv (recv : Recv)
  | send (send : Option ℕ) (rest : List ℕ)

/-- An error other than a reset. -/
def Act.Stalls : Act → Prop
  | .recv (.error errno) => errno ≠ ECONNRESET
  | _ => False

/-- How many bytes of the buffer are sent. -/
def sends (app : App X) (send : Option ℕ) (c : Conn X) : ℕ :=
  (send.map fun n => min n (app.response c.slot).wlength).getD 0

inductive Step (app : App X) (fd : ℕ) (c : Conn X) : Act → Conn X → Prop
  | leak (hnew : c.opened = false) : Step app fd c (.accept false) c.leaked
  | accept (hnew : c.opened = false) : Step app fd c (.accept true) (c.accepted fd)
  | hear {bytes} (h : c.At fd .recvCb EPOLLIN) (hne : bytes ≠ [])
      (hle : bytes.length ≤ BUFFER_LENGTH) : Step app fd c (.recv (.data bytes)) (c.heard app fd bytes)
  | fin (h : c.At fd .recvCb EPOLLIN) : Step app fd c (.recv .fin) c.hungUp
  | reset (h : c.At fd .recvCb EPOLLIN) : Step app fd c (.recv (.error ECONNRESET)) c.hungUp
  | stall {errno} (h : c.At fd .recvCb EPOLLIN) (hne : errno ≠ ECONNRESET) :
      Step app fd c (.recv (.error errno)) c.stalled
  | answer {send rest} (h : c.At fd .sendCb EPOLLOUT) (hpos : 0 < c.sends app send) :
      Step app fd c (.send send rest) (c.answered app fd send rest)
  | drop {send rest} (h : c.At fd .sendCb EPOLLOUT) (hnot : ¬ 0 < c.sends app send) :
      Step app fd c (.send send rest) (c.dropped app send rest)

end Conn

/-- The server differs in what belongs to `fd` only, and no request was refused. -/
structure Changed [Zero X] (s s' : Server X) (fd : ℕ) (c : Conn X) : Prop where
  valid : s'.reactor.Valid
  failed : s'.kernel.failed = s.kernel.failed
  conn : s'.conn = update s.conn fd c

section Events
variable {app : App X} {k : Epoll Ptr} {ev : NtyEvent X} {p : Ptr} {events : ℕ}

theorem ntyEventDel_registered (hstatus : ev.status = 1) (hreg : k.interest ev.fd ≠ none) :
    ntyEventDel k ev p =
      (k.set ev.fd none,Conn.off ev,0) := by
  rw [ntyEventDel, if_neg (not_not.mpr hstatus), Epoll.ctl_del hreg]
  rfl

theorem ntyEventDel_out (hstatus : ev.status = 0) : ntyEventDel k ev p = (k,ev,-1) := by
  apply if_pos
  rw [hstatus]
  decide

theorem ntyEventAdd_out (hstatus : ev.status = 0) (hopen : k.opened ev.fd = true)
    (hfree : k.interest ev.fd = none) : ntyEventAdd k true events ev p =
      (k.set ev.fd (some ⟨events,p⟩),{ ev with events := events, status := 1 },0) := by
  have hne : ¬ ev.status = 1 := by rw [hstatus]; decide
  rw [ntyEventAdd]
  simp only [hne, if_false, Epoll.ctl_add hopen hfree]

theorem terminate_status (happ : app.Lawful) (ev : NtyEvent X) (len : ℕ) :
    (terminate app ev len).status = ev.status := by
  unfold terminate
  dsimp only
  split
  · rfl
  · exact happ.pastBuffer_status _

section Buffer
variable {bytes : List UInt8}

theorem size_fill (hle : bytes.length ≤ BUFFER_LENGTH) (hsize : ev.buffer.length = BUFFER_LENGTH) :
    (fill ev bytes).buffer.length = BUFFER_LENGTH := by
  change (bytes ++ ev.buffer.drop bytes.length).length = BUFFER_LENGTH
  rw [List.length_append, List.length_drop, hsize]
  omega

theorem size_received (happ : app.Lawful) (hle : bytes.length ≤ BUFFER_LENGTH)
    (hsize : ev.buffer.length = BUFFER_LENGTH) :
    (Conn.received app bytes ev).buffer.length = BUFFER_LENGTH := by
  have hfill := size_fill hle hsize
  unfold Conn.received terminate
  dsimp only
  split
  · rw [List.length_set]
    exact hfill
  · rw [happ.pastBuffer_buffer]
    exact hfill

/-- The text of the buffer is that of the message, whatever the buffer held before. -/
theorem text_received (happ : app.Lawful) (hle : bytes.length ≤ BUFFER_LENGTH)
    (hsize : ev.buffer.length = BUFFER_LENGTH) :
    text (Conn.received app bytes ev).buffer = text bytes := by
  unfold Conn.received terminate
  dsimp only
  split
  · exact text_terminated bytes _
  · have hnil : ev.buffer.drop bytes.length = [] := List.drop_eq_nil_of_le (by omega)
    rw [happ.pastBuffer_buffer]
    change text (bytes ++ ev.buffer.drop bytes.length) = text bytes
    rw [hnil, List.append_nil]

end Buffer
end Events

section Callbacks
variable [Zero X] {app : App X} {s : Server X} {fd : ℕ} {callback : Callback} {events : ℕ}

/-- The event of `fd` is written, and the kernel and the log are changed at `fd`. -/
theorem Changed.intro {k : Epoll Ptr} {opened : Bool} {interest : Option (Interest Ptr)}
    (hr : s.reactor.Valid) (fd : ℕ) (ev : NtyEvent X) (log : List (Event X))
    (hopened : k.opened = update s.kernel.opened fd opened)
    (hinterest : k.interest = update s.kernel.interest fd interest)
    (hfailed : k.failed = s.kernel.failed) :
    Changed s ⟨(ntyreactorIdx s.reactor fd).1.setSlot (ntyreactorIdx s.reactor fd).2 ev,k,
      update s.log fd log⟩ fd ⟨ev,opened,interest,log⟩ := by
  refine ⟨valid_write hr fd ev,hfailed,?_⟩
  funext fd'
  rw [Server.conn, slot_write hr, hopened, hinterest]
  by_cases hfd : fd' = fd
  · subst hfd
    simp
  · simp [hfd, Server.conn]

/-- The same where the descriptor stays open. -/
theorem Changed.intro_set (hr : s.reactor.Valid) (fd : ℕ) (ev : NtyEvent X)
    (interest : Option (Interest Ptr)) (log : List (Event X)) :
    Changed s ⟨(ntyreactorIdx s.reactor fd).1.setSlot (ntyreactorIdx s.reactor fd).2 ev,
      s.kernel.set fd interest,update s.log fd log⟩ fd ⟨ev,s.kernel.opened fd,interest,log⟩ :=
  Changed.intro hr fd ev log (update_eq_self ..).symm rfl rfl

/-- What a callback finds for its descriptor. -/
theorem slot_conn (hr : s.reactor.Valid) :
    (ntyreactorIdx s.reactor fd).1.slot (slotOf fd) = (s.conn fd).slot :=
  slot_idx hr fd (slotOf fd)

theorem Conn.At.registered (h : (s.conn fd).At fd callback events) :
    s.kernel.interest fd ≠ none := by
  intro hnone
  have hsome : s.kernel.interest fd = some ⟨events,slotOf fd⟩ := h.interest
  rw [hnone] at hsome
  cases hsome

/-- The slot of the descriptor decides which callback runs. -/
theorem Conn.At.call_accept (h : (s.conn fd).At fd .acceptCb events) (res : Results) :
    call app s (s.conn fd).slot res = acceptCb s res.accept res.fcntl := by
  simp only [call, h.arg, h.callback]

theorem Conn.At.call_recv (h : (s.conn fd).At fd .recvCb events) (res : Results) :
    call app s (s.conn fd).slot res = recvCb app s fd res.recv := by
  simp only [call, h.arg, h.callback, h.fd]

theorem Conn.At.call_send (h : (s.conn fd).At fd .sendCb events) (res : Results) :
    call app s (s.conn fd).slot res = sendCb app s fd res.send res.rest := by
  simp only [call, h.arg, h.callback, h.fd]

theorem Conn.At.del (h : (s.conn fd).At fd callback events) {ev : NtyEvent X} {p : Ptr}
    (hstatus : ev.status = 1) (hfd : ev.fd = fd) :
    ntyEventDel s.kernel ev p = (s.kernel.set fd none,Conn.off ev,0) := by
  subst hfd
  exact ntyEventDel_registered hstatus h.registered

theorem Conn.At.readd (h : (s.conn fd).At fd callback events) {ev : NtyEvent X}
    (hstatus : ev.status = 0) (callback' : Callback) (events' : ℕ) :
    ntyEventAdd (s.kernel.set fd none) true events' (ntyEventSet ev fd callback' .reactor) (slotOf fd) =
      (s.kernel.set fd (some ⟨events',slotOf fd⟩),Conn.watched fd callback' events' ev,0) := by
  have hset : (ntyEventSet ev fd callback' .reactor).status = 0 := hstatus
  have hopen : (s.kernel.set fd none).opened fd = true := h.opened
  rw [ntyEventAdd_out hset hopen]
  · change ((s.kernel.set fd none).set fd _,_,_) = _
    rw [Epoll.set_set]
    rfl
  · exact update_self ..

theorem recvCb_data (happ : app.Lawful) (hr : s.reactor.Valid)
    (h : (s.conn fd).At fd .recvCb EPOLLIN) (bytes : List UInt8) :
    Changed s (recvCb app s fd (.data bytes)) fd ((s.conn fd).heard app fd bytes) := by
  have hdel (p : Ptr) : ntyEventDel s.kernel (fill (s.conn fd).slot bytes) p = _ :=
    h.del h.status h.fd
  have hstatus : (app.request (Conn.received app bytes (s.conn fd).slot)).status = 0 := by
    rw [happ.request_status, Conn.received, terminate_status happ]
    rfl
  have hadd := h.readd hstatus .sendCb EPOLLOUT
  unfold Conn.received at hadd
  rw [recvCb]
  simp only [ntyreactorIdx_snd, slot_conn hr, hdel, hadd]
  exact Changed.intro_set hr fd _ _ _

theorem recvCb_fin (hr : s.reactor.Valid) (h : (s.conn fd).At fd .recvCb EPOLLIN) :
    Changed s (recvCb app s fd .fin) fd (s.conn fd).hungUp := by
  have hdel (p : Ptr) := h.del (p := p) h.status h.fd
  -- the second `nty_event_del` finds the status `0`
  have hagain (k : Epoll Ptr) (p : Ptr) : ntyEventDel k (Conn.off (s.conn fd).slot) p =
      (k,Conn.off (s.conn fd).slot,-1) := ntyEventDel_out rfl
  have hfd : (Conn.off (s.conn fd).slot).fd = fd := h.fd
  rw [recvCb]
  simp only [ntyreactorIdx_snd, slot_conn hr, hdel, hagain, Server.close, hfd, Epoll.close_set]
  exact Changed.intro hr fd _ _ rfl rfl rfl

theorem recvCb_reset (hr : s.reactor.Valid) (h : (s.conn fd).At fd .recvCb EPOLLIN) :
    Changed s (recvCb app s fd (.error ECONNRESET)) fd (s.conn fd).hungUp := by
  have hnot : ¬ (ECONNRESET = EAGAIN ∧ ECONNRESET = EWOULDBLOCK) := by decide
  have heq : recvCb app s fd (.error ECONNRESET) = recvCb app s fd .fin := by
    simp only [recvCb, hnot, if_false, if_true]
  rw [heq]
  exact recvCb_fin hr h

/-- On every other error, EAGAIN included, the descriptor is left out of the set and open. -/
theorem recvCb_stall (hr : s.reactor.Valid) (h : (s.conn fd).At fd .recvCb EPOLLIN) {errno : ℕ}
    (hne : errno ≠ ECONNRESET) :
    Changed s (recvCb app s fd (.error errno)) fd (s.conn fd).stalled := by
  have hdel (p : Ptr) := h.del (p := p) h.status h.fd
  have hchanged := Changed.intro_set hr fd (Conn.off (s.conn fd).slot) none (s.log fd)
  rw [update_eq_self] at hchanged
  rw [recvCb]
  simp only [ntyreactorIdx_snd, slot_conn hr, hdel, hne, if_false, ite_self]
  exact hchanged

theorem recvCb_changed (happ : app.Lawful) (hr : s.reactor.Valid)
    (h : (s.conn fd).At fd .recvCb EPOLLIN) {recv : Recv}
    (hfits : ∀ bytes, recv = .data bytes → bytes ≠ [] ∧ bytes.length ≤ BUFFER_LENGTH) :
    ∃ c, Conn.Step app fd (s.conn fd) (.recv recv) c ∧ Changed s (recvCb app s fd recv) fd c := by
  cases recv with
  | data bytes =>
    obtain ⟨hne,hle⟩ := hfits bytes rfl
    exact ⟨_,.hear h hne hle,recvCb_data happ hr h bytes⟩
  | fin => exact ⟨_,.fin h,recvCb_fin hr h⟩
  | error errno =>
    by_cases hreset : errno = ECONNRESET
    · subst hreset
      exact ⟨_,.reset h,recvCb_reset hr h⟩
    · exact ⟨_,.stall h hreset,recvCb_stall hr h hreset⟩

theorem sendCb_answer (happ : app.Lawful) (hr : s.reactor.Valid)
    (h : (s.conn fd).At fd .sendCb EPOLLOUT) {send : Option ℕ} (rest : List ℕ)
    (hpos : 0 < (s.conn fd).sends app send) :
    Changed s (sendCb app s fd send rest) fd ((s.conn fd).answered app fd send rest) := by
  have hstatus : (app.response (s.conn fd).slot).status = 1 := by
    rw [happ.response_status, h.status]
  have hfd : (app.response (s.conn fd).slot).fd = fd := by rw [happ.response_fd, h.fd]
  have hdel (p : Ptr) := h.del (p := p) hstatus hfd
  have hadd (ev : NtyEvent X) (hev : ev.status = 0) := h.readd hev .recvCb EPOLLIN
  unfold Conn.sends at hpos
  rw [sendCb]
  simp only [ntyreactorIdx_snd, slot_conn hr, if_pos hpos, hdel]
  rw [hadd _ rfl]
  exact Changed.intro_set hr fd _ _ _

theorem sendCb_drop (happ : app.Lawful) (hr : s.reactor.Valid)
    (h : (s.conn fd).At fd .sendCb EPOLLOUT) {send : Option ℕ} (rest : List ℕ)
    (hnot : ¬ 0 < (s.conn fd).sends app send) :
    Changed s (sendCb app s fd send rest) fd ((s.conn fd).dropped app send rest) := by
  have hstatus : (app.response (s.conn fd).slot).status = 1 := by
    rw [happ.response_status, h.status]
  have hfd : (app.response (s.conn fd).slot).fd = fd := by rw [happ.response_fd, h.fd]
  have hdel (p : Ptr) := h.del (p := p) hstatus hfd
  have hoff : (Conn.off (app.response (s.conn fd).slot)).fd = fd := hfd
  unfold Conn.sends at hnot
  rw [sendCb]
  simp only [ntyreactorIdx_snd, slot_conn hr, if_neg hnot, hdel, Server.close, hoff, Epoll.close_set,
    update_self, update_idem]
  exact Changed.intro hr fd _ _ rfl rfl rfl

theorem sendCb_changed (happ : app.Lawful) (hr : s.reactor.Valid)
    (h : (s.conn fd).At fd .sendCb EPOLLOUT) (send : Option ℕ) (rest : List ℕ) :
    ∃ c, Conn.Step app fd (s.conn fd) (.send send rest) c ∧
      Changed s (sendCb app s fd send rest) fd c := by
  by_cases hpos : 0 < (s.conn fd).sends app send
  · exact ⟨_,.answer h hpos,sendCb_answer happ hr h rest hpos⟩
  · exact ⟨_,.drop h hpos,sendCb_drop happ hr h rest hpos⟩

/-- A connection whose descriptor was not open, so that nothing is registered for it. -/
theorem acceptCb_changed (app : App X) (hr : s.reactor.Valid) {clientfd : ℕ}
    (hnew : s.kernel.opened clientfd = false)
    (hfree : s.kernel.interest clientfd = none) (hstatus : (s.conn clientfd).slot.status = 0)
    (fcntl : Bool) : ∃ c,
      Conn.Step app clientfd (s.conn clientfd) (.accept fcntl) c ∧
      Changed s (acceptCb s (some clientfd) fcntl) clientfd c := by
  cases fcntl with
  | false =>
    refine ⟨_,.leak hnew,hr,rfl,?_⟩
    funext fd'
    by_cases hfd : fd' = clientfd
    · subst hfd
      simp [acceptCb, Server.conn, Epoll.accept, Conn.leaked]
    · simp [acceptCb, Server.conn, Epoll.accept, hfd]
  | true =>
    refine ⟨_,.accept hnew,?_⟩
    have hadd : ntyEventAdd (s.kernel.accept clientfd) true EPOLLIN
        (ntyEventSet (s.conn clientfd).slot clientfd .recvCb .reactor) (slotOf clientfd) = _ :=
      ntyEventAdd_out hstatus (update_self ..) hfree
    rw [acceptCb]
    simp only [if_true, ntyreactorIdx_snd, slot_conn hr, hadd]
    exact Changed.intro hr clientfd _ _ rfl rfl rfl

theorem ntyreactorAddlistener_changed (hr : s.reactor.Valid) (hopen : s.kernel.opened fd = true)
    (hfree : s.kernel.interest fd = none) (hstatus : (s.conn fd).slot.status = 0) :
    Changed s (ntyreactorAddlistener s fd) fd
      ⟨Conn.watched fd .acceptCb EPOLLIN (s.conn fd).slot,s.kernel.opened fd,
        some ⟨EPOLLIN,slotOf fd⟩,s.log fd⟩ := by
  have hadd : ntyEventAdd s.kernel true EPOLLIN
      (ntyEventSet (s.conn fd).slot fd .acceptCb .reactor) (slotOf fd) = _ :=
    ntyEventAdd_out hstatus hopen hfree
  have hchanged := Changed.intro_set hr fd (Conn.watched fd .acceptCb EPOLLIN (s.conn fd).slot)
    (some ⟨EPOLLIN,slotOf fd⟩) (s.log fd)
  rw [update_eq_self] at hchanged
  rw [ntyreactorAddlistener]
  simp only [ntyreactorIdx_snd, slot_conn hr, hadd]
  exact hchanged

end Callbacks
end ServerKit.Reactor
