import ServerKit.Reactor.Answers
import ServerKit.Reactor.HandshakeBounds

/-! How the WebSocket server treats one connection: whether the handshake is answered once, and whether
earlier connections on the same descriptor make a difference. -/
namespace ServerKit.Reactor.Websocket
open Function ServerKit.Lib

section Openssl
variable {sha1 base64 : List UInt8 → List UInt8}

section Connection
variable {cur hist : List (Event Fields)}

theorem length_handlers (log : List (Event Fields)) :
    (handlers log).length = (messages log).length := by
  induction log with
  | nil => rfl
  | cons e log ih =>
    cases e with
    | accepted => exact ih
    | reply send rest offered => exact ih
    | closed => exact ih
    | message bytes ext =>
      rw [handlers_message, messages_message, List.length_append, List.length_append, ih]
      rfl

theorem drop_dispatched (m n : ℕ) : (dispatched (m+n)).drop m =
    if m = 0 then dispatched n else List.replicate n (some .tranmission) := by
  cases m with
  | zero => simp
  | succ m =>
    have hsum : m+1+n = m+n+1 := by omega
    rw [hsum, dispatched, List.drop_succ_cons, List.drop_replicate, if_neg (by omega)]
    congr 1
    omega

theorem messages_join (cur hist : List (Event Fields)) :
    messages (cur ++ .accepted :: hist) = messages hist ++ messages cur := inOrder_append _ _ _

theorem handlers_join (cur hist : List (Event Fields)) :
    handlers (cur ++ .accepted :: hist) = handlers hist ++ handlers cur := inOrder_append _ _ _

theorem replies_join (cur hist : List (Event Fields)) :
    replies (cur ++ .accepted :: hist) = replies hist ++ replies cur := inOrder_append _ _ _

theorem dispatched_eq_replicate {n : ℕ} :
    dispatched n = List.replicate n (some .tranmission) ↔ n = 0 := by
  cases n with
  | zero => simp [dispatched]
  | succ n => simp [dispatched,List.replicate_succ]

namespace LogOk

/-- Whether a message came earlier decides how those of a connection are dispatched. -/
theorem cur_handlers (h : LogOk sha1 base64 (cur ++ .accepted :: hist)) : Websocket.handlers cur =
    if messages hist = [] then dispatched (messages cur).length
    else List.replicate (messages cur).length (some .tranmission) := by
  have hdrop := congrArg (List.drop (messages hist).length) h.handlers
  rw [handlers_join, messages_join, List.length_append, drop_dispatched, ← length_handlers hist,
    List.drop_left, length_handlers hist] at hdrop
  rw [hdrop]
  exact if_congr List.length_eq_zero_iff rfl rfl

theorem cur_replies (h : LogOk sha1 base64 (cur ++ .accepted :: hist)) :
    Websocket.replies cur = List.replicate (Websocket.replies cur).length
      [switching (text (keyOf sha1 base64 (messages hist ++ messages cur)))] := by
  refine List.eq_replicate_of_mem fun r hr => ?_
  rw [← messages_join]
  refine h.replies r ?_
  rw [replies_join]
  exact List.mem_append_right _ hr

theorem cur_length_le (h : LogOk sha1 base64 (cur ++ .accepted :: hist)) :
    (Websocket.replies cur).length ≤ (messages cur).length :=
  h.paired.length_le nofun

end LogOk

theorem keyOf_join {ms : List (List UInt8)} (h : ms ≠ []) (ms' : List (List UInt8)) :
    keyOf sha1 base64 (ms ++ ms') = keyOf sha1 base64 ms := by
  cases ms with
  | nil => exact absurd rfl h
  | cons m ms => rfl

theorem switching_inj {key key' : List UInt8} : switching key = switching key' ↔ key = key' := by
  unfold switching
  rw [List.append_left_inj, List.append_right_inj]

variable {cur₁ cur₂ hist₁ hist₂ : List (Event Fields)}

/-- A connection that sends nothing gets no reply. -/
theorem LogOk.replies_nil (h : LogOk sha1 base64 (cur ++ .accepted :: hist))
    (hnil : messages cur = []) : Websocket.replies cur = [] := by
  have hle := h.cur_length_le
  rwa [hnil, List.length_nil, Nat.le_zero, List.length_eq_zero_iff] at hle

/-- A connection on a fresh slot and one on a used slot are treated in the same way if they send
nothing. -/
theorem LogOk.fresh_used_iff (h₁ : LogOk sha1 base64 (cur₁ ++ .accepted :: hist₁))
    (h₂ : LogOk sha1 base64 (cur₂ ++ .accepted :: hist₂)) (hmessages : messages cur₁ = messages cur₂)
    (hfresh : messages hist₁ = []) (hused : messages hist₂ ≠ []) :
    (Websocket.handlers cur₁ = Websocket.handlers cur₂ ∧
      Websocket.replies cur₁ = Websocket.replies cur₂) ↔ messages cur₁ = [] := by
  rw [h₁.cur_handlers, h₂.cur_handlers, if_pos hfresh, if_neg hused, ← hmessages,
    dispatched_eq_replicate, List.length_eq_zero_iff]
  refine ⟨And.left,fun hnil => ⟨hnil,?_⟩⟩
  rw [h₁.replies_nil hnil, h₂.replies_nil (hmessages ▸ hnil)]

/-- Two connections on used slots are dispatched in the same way, and the replies have the keys of the
earlier messages. -/
theorem LogOk.used_iff (h₁ : LogOk sha1 base64 (cur₁ ++ .accepted :: hist₁))
    (h₂ : LogOk sha1 base64 (cur₂ ++ .accepted :: hist₂)) (hmessages : messages cur₁ = messages cur₂)
    (hreplies : (Websocket.replies cur₁).length = (Websocket.replies cur₂).length)
    (hused₁ : messages hist₁ ≠ []) (hused₂ : messages hist₂ ≠ []) :
    (Websocket.handlers cur₁ = Websocket.handlers cur₂ ∧
      Websocket.replies cur₁ = Websocket.replies cur₂) ↔ Websocket.replies cur₁ = [] ∨
        text (keyOf sha1 base64 (messages hist₁)) = text (keyOf sha1 base64 (messages hist₂)) := by
  have heq₁ := h₁.cur_replies
  have heq₂ := h₂.cur_replies
  rw [keyOf_join hused₁] at heq₁
  rw [keyOf_join hused₂, ← hreplies] at heq₂
  generalize (Websocket.replies cur₁).length = k at heq₁ heq₂
  rw [h₁.cur_handlers, h₂.cur_handlers, if_neg hused₁, if_neg hused₂, ← hmessages, heq₁, heq₂,
    List.replicate_eq_nil_iff, and_iff_right rfl, List.replicate_right_inj', List.singleton_inj,
    switching_inj]

/-- Which function each message that was answered was dispatched to, and what the answer was. -/
def exchanges (log : List (Event Fields)) : List (Option Handler × List (List UInt8)) :=
  (handlers log).zip (replies log)

/-- What is sent is a handshake response. -/
def IsSwitching (offered : List (List UInt8)) : Prop :=
  bytes "HTTP/1.1 101 Switching Protocols" <+: offered.flatten

instance (offered : List (List UInt8)) : Decidable (IsSwitching offered) :=
  inferInstanceAs (Decidable (_ <+: _))

/-- There is one handshake response, and it is the reply to the message that `ws_handshark` handled. -/
structure HandshakeOnce (log : List (Event Fields)) : Prop where
  once : (exchanges log).countP (fun x => IsSwitching x.2) = 1
  handshark : ∀ x ∈ exchanges log, IsSwitching x.2 → x.1 = some .handshark

theorem isSwitching_switching (key : List UInt8) : IsSwitching [switching key] := by
  have hprefix : bytes "HTTP/1.1 101 Switching Protocols" <+:
      bytes "HTTP/1.1 101 Switching Protocols\r\nUpgrade: websocket\r\nConnection: Upgrade\r\n" := by
    decide
  rw [IsSwitching, List.flatten_singleton, switching, List.append_assoc, List.append_assoc]
  exact hprefix.trans (List.prefix_append ..)

/-- A reply of which bytes were taken. -/
def Taken {X : Type} : Event X → Bool
  | .reply (some (_+1)) _ _ => true
  | _ => false

theorem length_replies {X : Type} (log : List (Event X)) : (replies log).length = log.countP Taken := by
  unfold replies inOrder
  rw [List.length_reverse, List.length_filterMap_eq_countP]
  refine List.countP_congr fun e _ => ?_
  unfold Taken
  split <;> simp

/-- On a fresh slot every answer is the handshake response. -/
theorem LogOk.exchanges_eq (h : LogOk sha1 base64 (cur ++ [.accepted])) : exchanges cur =
    (dispatched (messages cur).length).zip (List.replicate (Websocket.replies cur).length
      [switching (text (keyOf sha1 base64 (messages cur)))]) := by
  have hreplies := h.cur_replies
  have hnil : messages ([] : List (Event Fields)) = [] := rfl
  rw [exchanges, h.cur_handlers, if_pos hnil]
  exact congrArg _ hreplies

/-- One answer is that of the handshake, and a second one would be that of a frame. -/
theorem LogOk.handshakeOnce_iff (h : LogOk sha1 base64 (cur ++ [.accepted])) :
    HandshakeOnce cur ↔ cur.countP Taken = 1 := by
  have heq := h.exchanges_eq
  have hle := h.cur_length_le
  have hswitching := isSwitching_switching (text (keyOf sha1 base64 (messages cur)))
  rw [length_replies] at heq hle
  generalize (messages cur).length = n at heq hle
  generalize cur.countP Taken = k at heq hle ⊢
  constructor
  · rintro ⟨honce,hhandshark⟩
    rw [heq] at honce hhandshark
    match k, n with
    | 0, n => rw [List.replicate_zero, List.zip_nil_right] at honce; cases honce
    | 1, n => rfl
    | k+2, 0 => exact absurd hle (by omega)
    | k+2, 1 => exact absurd hle (by omega)
    | k+2, n+2 => cases hhandshark (some .tranmission,_) (.tail _ (.head _)) hswitching
  · rintro rfl
    obtain ⟨n,rfl⟩ : ∃ m, n = m+1 := ⟨n-1,by omega⟩
    have heq' : exchanges cur =
        [(some .handshark,[switching (text (keyOf sha1 base64 (messages cur)))])] := by
      rw [heq, dispatched, List.replicate_one, List.zip_cons_cons, List.zip_nil_right]
    refine ⟨?_,?_⟩
    · rw [heq', List.countP_singleton]
      simp [hswitching]
    · rw [heq']
      rintro x hx -
      rw [List.mem_singleton.mp hx]

end Connection

section Arrays
variable {m : List UInt8}

/-- Whatever is in the arrays, `ws_handshark` handles the message with all accesses in bounds. -/
def Handled (sha1 base64 : List UInt8 → List UInt8) (m : List UInt8) : Prop :=
  ∀ before old linebuf ext, Safe sha1 base64 ⟨before,(m ++ old).set m.length 0,linebuf,ext⟩

/-- The text is shorter than the buffer, the end of the header is in it, and the key lines fit. -/
structure Fits (m : List UInt8) : Prop where
  short : (text m).length < 1024
  header : [13,10,13,10] <:+: text m
  keys : ∀ l ∈ headerLines (splitPair 13 10 (text m)), KeyFits l

theorem handled_iff (sha1 base64 : List UInt8 → List UInt8) : Handled sha1 base64 m ↔ Fits m := by
  have htext (old : List UInt8) : text ((m ++ old).set m.length 0) = text m := text_terminated m old
  constructor
  · intro h
    have hsafe : Safe sha1 base64 ⟨0,(m ++ []).set m.length 0,[],⟨[],[],[]⟩⟩ := h ..
    have hlt := hsafe.lt
    have hends := (safe_iff_of_lt sha1 base64 hlt).mp hsafe
    rw [htext] at hlt hends
    exact ⟨hlt,hends.1,hends.2⟩
  · rintro ⟨hlt,hheader,hkeys⟩ before old linebuf ext
    refine (safe_iff_of_lt sha1 base64 ?_).mpr ?_
    · rwa [htext]
    · rw [htext]
      exact ⟨hheader,hkeys⟩

/-- The messages that `ws_handshark` handles. -/
def handshakes : List (Event Fields) → List (List UInt8) :=
  inOrder fun
    | .message bytes ext => if handler ext = some .handshark then some bytes else none
    | _ => none

def isHandshake (x : List UInt8 × Option Handler) : Bool := x.2 = some .handshark

theorem handshakes_eq_filter (log : List (Event Fields)) :
    handshakes log = (((messages log).zip (handlers log)).filter isHandshake).map Prod.fst := by
  induction log with
  | nil => rfl
  | cons e log ih =>
    cases e with
    | accepted => exact ih
    | reply send rest offered => exact ih
    | closed => exact ih
    | message bytes ext =>
      rw [messages_message, handlers_message, List.zip_append (length_handlers log).symm,
        List.filter_append, List.map_append, ← ih]
      unfold handshakes
      by_cases hhandler : handler ext = some .handshark
      · rw [inOrder_found (if_pos hhandler)]
        simp [isHandshake,hhandler]
      · rw [inOrder_skip (if_neg hhandler)]
        simp [isHandshake,hhandler]

/-- That is the first message on the descriptor. -/
theorem LogOk.handshakes_eq {log : List (Event Fields)} (h : LogOk sha1 base64 log) :
    handshakes log = (messages log).take 1 := by
  rw [handshakes_eq_filter, h.handlers]
  cases messages log with
  | nil => rfl
  | cons m ms =>
    have hframes : ((ms.zip (List.replicate ms.length (some .tranmission))).filter isHandshake) = [] := by
      refine List.filter_eq_nil_iff.mpr fun x hx => ?_
      have hx' := List.eq_of_mem_replicate (List.of_mem_zip hx).2
      rw [isHandshake, hx']
      decide
    rw [List.length_cons, dispatched, List.zip_cons_cons, List.filter_cons_of_pos rfl, hframes]
    rfl

end Arrays

/-- The key that a later connection is sent when messages came before it. -/
def keyText (sha1 base64 : List UInt8 → List UInt8) (hist : List (Event Fields)) : List UInt8 :=
  text (keyOf sha1 base64 (messages hist))

variable {opened : ℕ → Bool} {listenfd fd : ℕ} {actions₁ actions₂ : List Action}
  {s₁ s₂ : State Fields} {cur₁ cur₂ hist₁ hist₂ : List (Event Fields)}

/-- Two connections on one descriptor that send the same messages are treated in the same way if and only
if no messages came before, or messages came before both and the first of them leave the same key. -/
theorem isolated_iff (hopen : opened listenfd = true)
    (h₁ : Run (Step (app sha1 base64)) (start opened listenfd) actions₁ s₁)
    (h₂ : Run (Step (app sha1 base64)) (start opened listenfd) actions₂ s₂)
    (hlog₁ : (s₁.server.conn fd).log = cur₁ ++ .accepted :: hist₁)
    (hlog₂ : (s₂.server.conn fd).log = cur₂ ++ .accepted :: hist₂)
    (hmessages : messages cur₁ = messages cur₂)
    (hreplies : (replies cur₁).length = (replies cur₂).length) :
    (handlers cur₁ = handlers cur₂ ∧ replies cur₁ = replies cur₂) ↔
      messages cur₁ = [] ∨ messages hist₁ = [] ∧ messages hist₂ = [] ∨
        messages hist₁ ≠ [] ∧ messages hist₂ ≠ [] ∧
          (replies cur₁ = [] ∨ keyText sha1 base64 hist₁ = keyText sha1 base64 hist₂) := by
  have hok₁ := (run_answers hopen h₁ fd).log
  have hok₂ := (run_answers hopen h₂ fd).log
  rw [hlog₁] at hok₁
  rw [hlog₂] at hok₂
  by_cases hused₁ : messages hist₁ = []
  · by_cases hused₂ : messages hist₂ = []
    · have heq₁ := hok₁.cur_replies
      have heq₂ := hok₂.cur_replies
      rw [hused₁] at heq₁
      rw [hused₂, ← hreplies, ← hmessages, ← heq₁] at heq₂
      rw [hok₁.cur_handlers, hok₂.cur_handlers, if_pos hused₁, if_pos hused₂, ← hmessages, heq₂]
      exact ⟨fun _ => .inr (.inl ⟨hused₁,hused₂⟩),fun _ => ⟨rfl,rfl⟩⟩
    · rw [hok₁.fresh_used_iff hok₂ hmessages hused₁ hused₂]
      simp [hused₁,hused₂]
  · by_cases hused₂ : messages hist₂ = []
    · rw [eq_comm, @eq_comm _ (replies cur₁), hok₂.fresh_used_iff hok₁ hmessages.symm hused₂ hused₁,
        ← hmessages]
      simp [hused₁,hused₂]
    · rw [hok₁.used_iff hok₂ hmessages hreplies hused₁ hused₂]
      constructor
      · exact fun h => .inr (.inr ⟨hused₁,hused₂,h⟩)
      · rintro (hnil | ⟨hnil,-⟩ | ⟨-,-,h⟩)
        · exact .inl (hok₁.replies_nil hnil)
        · exact absurd hnil hused₁
        · exact h

/-- A connection sends a message, and the reply is taken as a whole. -/
theorem exchange_run {c₀ c : Conn Fields} {acts : List Conn.Act} {m : List UInt8}
    (hrun : Run (Conn.Step (app sha1 base64) fd) c₀ acts c) (h : c.At fd .recvCb EPOLLIN)
    (hne : m ≠ []) (hle : m.length ≤ BUFFER_LENGTH) : ∃ acts' c' ext offered,
      Run (Conn.Step (app sha1 base64) fd) c₀ acts' c' ∧ c'.At fd .recvCb EPOLLIN ∧
        c'.log = .reply (some 1024) [] offered :: .message m ext :: c.log := by
  have hat := h.heard (app sha1 base64) m
  have hpos : 0 < (c.heard (app sha1 base64) fd m).sends (app sha1 base64) (some 1024) := by
    have hlength (key : List UInt8) : 0 < (switching key).length := by
      unfold switching
      rw [List.append_assoc, List.append_assoc, List.length_append]
      exact Nat.add_pos_left (by decide) _
    exact lt_min (by decide) (hlength _)
  exact ⟨_,_,_,_,(hrun.snoc (.hear h hne hle)).snoc (.answer hat hpos),hat.answered _ _,rfl⟩

/-- All handshakes stay inside the arrays, and a connection on a fresh slot is sent the handshake response
once, and to the handshake, if and only if the first messages of the descriptors fit and one reply to the
connection was taken. -/
theorem handshake_once_iff {actions : List Action} {s : State Fields} {cur : List (Event Fields)}
    (hopen : opened listenfd = true)
    (h : Run (Step (app sha1 base64)) (start opened listenfd) actions s)
    (hlog : (s.server.conn fd).log = cur ++ [.accepted]) :
    ((∀ fd, ∀ m ∈ handshakes (s.server.conn fd).log, Handled sha1 base64 m) ∧ HandshakeOnce cur) ↔
      (∀ fd, ∀ m ∈ (messages (s.server.conn fd).log).take 1, Fits m) ∧ cur.countP Taken = 1 := by
  have hok (fd : ℕ) := (run_answers hopen h fd).log
  have hcur := hok fd
  rw [hlog] at hcur
  refine and_congr (forall_congr' fun fd => ?_) hcur.handshakeOnce_iff
  rw [(hok fd).handshakes_eq]
  exact forall₂_congr fun _ _ => handled_iff sha1 base64

end Openssl

section Sample

/-- A handshake, the digest of its key with the GUID, and the encoding of the digest. -/
def sampleRequest : List UInt8 :=
  bytes "GET /chat HTTP/1.1\r\nSec-WebSocket-Key: dGhlIHNhbXBsZSBub25jZQ==\r\n\r\n"

def sampleSha1 : List UInt8 → List UInt8 := fun _ =>
  [0xb3,0x7a,0x4f,0x2c,0xc0,0x62,0x4f,0x16,0x90,0xf6,0x46,0x06,0xcf,0x38,0x59,0x45,0xb2,0xbe,0xc4,0xea]

def sampleBase64 : List UInt8 → List UInt8 := fun _ => bytes "s3pPLMBiTxaQ9kYGzzhZRbK+xOo=\n"

/-- An empty text frame with a mask. -/
def sampleFrame : List UInt8 := [0x81,0x80,1,2,3,4]

theorem sampleRequest_size : sampleRequest ≠ [] ∧ sampleRequest.length ≤ BUFFER_LENGTH := by decide

/-- The slot of the descriptor `5` at the start, and a run in which a connection sends the sample
handshake. -/
theorem sample_run : ∃ acts c ext offered, Run (Conn.Step (app sampleSha1 sampleBase64) 5)
    ⟨zeroEvent,false,none,[]⟩ acts c ∧ c.At 5 .recvCb EPOLLIN ∧
      c.log = [.reply (some 1024) [] offered,.message sampleRequest ext,.accepted] := by
  have haccept : Run (Conn.Step (app sampleSha1 sampleBase64) 5) ⟨zeroEvent,false,none,[]⟩ _ _ :=
    Run.nil.snoc (.accept rfl)
  exact exchange_run haccept (Conn.accepted_at ..) sampleRequest_size.1 sampleRequest_size.2

theorem sampleRequest_fits : Fits sampleRequest := by
  refine ⟨by decide,by decide,fun l hl => ?_⟩
  have hlines : headerLines (splitPair 13 10 (text sampleRequest)) =
      [bytes "GET /chat HTTP/1.1",bytes "Sec-WebSocket-Key: dGhlIHNhbXBsZSBub25jZQ=="] := by decide
  rw [hlines] at hl
  obtain rfl | hl := List.mem_cons.mp hl
  · exact fun hkey => absurd hkey (by decide)
  · rw [List.mem_singleton.mp hl]
    exact fun _ => by decide

theorem sample_exists {acts : List Conn.Act} {c : Conn Fields}
    (h : Run (Conn.Step (app sampleSha1 sampleBase64) 5) ⟨zeroEvent,false,none,[]⟩ acts c) :
    ∃ actions s, Run (Step (app sampleSha1 sampleBase64)) (start (fun fd => fd == 3) 3) actions s ∧
      s.server.conn 5 = c ∧ ∀ fd ≠ 5, (s.server.conn fd).log = [] :=
  exists_run_log (app_lawful sampleSha1 sampleBase64) rfl (by decide) h

/-- If only the descriptor `5` has been used, its handshake is the only one. -/
theorem sample_fits {s : State Fields} (hothers : ∀ fd ≠ 5, (s.server.conn fd).log = [])
    (h : (messages (s.server.conn 5).log).take 1 = [sampleRequest]) :
    ∀ fd, ∀ m ∈ (messages (s.server.conn fd).log).take 1, Fits m := by
  intro fd m hm
  by_cases hfd : fd = 5
  · rw [hfd, h] at hm
    rw [List.mem_singleton.mp hm]
    exact sampleRequest_fits
  · rw [hothers fd hfd] at hm
    cases hm

/-- After the handshake a connection sends a frame, and gets a second handshake response. -/
theorem switched_twice : ∃ actions s cur,
    Run (Step (app sampleSha1 sampleBase64)) (start (fun fd => fd == 3) 3) actions s ∧
      (s.server.conn 5).log = cur ++ [.accepted] ∧
      messages cur = [sampleRequest,sampleFrame] ∧
      (∀ fd, ∀ m ∈ handshakes (s.server.conn fd).log, Handled sampleSha1 sampleBase64 m) ∧
      (replies cur).length = 2 ∧ ¬ HandshakeOnce cur := by
  obtain ⟨acts,c,ext,offered,hrun,hat,hlog⟩ := sample_run
  obtain ⟨acts',c',ext',offered',hrun',-,hlog'⟩ := exchange_run hrun hat (m := sampleFrame) (by decide)
    (by decide)
  obtain ⟨actions,s,hs,rfl,hothers⟩ := sample_exists hrun'
  rw [hlog] at hlog'
  have hsplit : (s.server.conn 5).log = [.reply (some 1024) [] offered',.message sampleFrame ext',
      .reply (some 1024) [] offered,.message sampleRequest ext] ++ [.accepted] := hlog'
  have hok := (run_answers rfl hs 5).log
  rw [hsplit] at hok
  refine ⟨actions,s,_,hs,hsplit,rfl,fun fd m hm => ?_,rfl,?_⟩
  · rw [(run_answers rfl hs fd).log.handshakes_eq] at hm
    exact (handled_iff ..).mpr (sample_fits hothers (by rw [hsplit]; rfl) fd m hm)
  · rw [hok.handshakeOnce_iff]
    intro hone
    cases hone

theorem handshake_once_iff_sample : ∃ actions s cur,
    Run (Step (app sampleSha1 sampleBase64)) (start (fun fd => fd == 3) 3) actions s ∧
      (s.server.conn 5).log = cur ++ [.accepted] ∧ messages cur = [sampleRequest] ∧
      (∀ fd, ∀ m ∈ handshakes (s.server.conn fd).log, Handled sampleSha1 sampleBase64 m) ∧
      HandshakeOnce cur := by
  obtain ⟨acts,c,ext,offered,hrun,-,hlog⟩ := sample_run
  obtain ⟨actions,s,hs,rfl,hothers⟩ := sample_exists hrun
  have hsplit : (s.server.conn 5).log =
      [.reply (some 1024) [] offered,.message sampleRequest ext] ++ [.accepted] := hlog
  refine ⟨actions,s,_,hs,hsplit,rfl,(handshake_once_iff rfl hs hsplit).mpr ⟨?_,rfl⟩⟩
  exact sample_fits hothers (by rw [hsplit]; rfl)

/-- The sample handshake on a fresh slot, and after a connection that has sent it too. -/
theorem sample_runs : ∃ actions₁ s₁ cur₁ actions₂ s₂ cur₂ hist₂,
    Run (Step (app sampleSha1 sampleBase64)) (start (fun fd => fd == 3) 3) actions₁ s₁ ∧
      Run (Step (app sampleSha1 sampleBase64)) (start (fun fd => fd == 3) 3) actions₂ s₂ ∧
      (s₁.server.conn 5).log = cur₁ ++ [.accepted] ∧
      (s₂.server.conn 5).log = cur₂ ++ .accepted :: .closed :: hist₂ ∧
      messages cur₁ = [sampleRequest] ∧ messages cur₂ = [sampleRequest] ∧
      messages hist₂ = [sampleRequest] ∧ (replies cur₁).length = (replies cur₂).length := by
  obtain ⟨acts₁,c₁,ext₁,offered₁,hrun₁,hat,hlog₁⟩ := sample_run
  have haccept := (hrun₁.snoc (.fin hat)).snoc (.accept rfl)
  obtain ⟨acts₂,c₂,ext₂,offered₂,hrun₂,-,hlog₂⟩ := exchange_run haccept
    (Conn.accepted_at 5 c₁.hungUp) sampleRequest_size.1 sampleRequest_size.2
  obtain ⟨actions₁,s₁,hs₁,rfl,-⟩ := sample_exists hrun₁
  obtain ⟨actions₂,s₂,hs₂,rfl,-⟩ := sample_exists hrun₂
  have hsplit₁ : (s₁.server.conn 5).log =
      [.reply (some 1024) [] offered₁,.message sampleRequest ext₁] ++ [.accepted] := hlog₁
  have hsplit₂ : (s₂.server.conn 5).log =
      [.reply (some 1024) [] offered₂,.message sampleRequest ext₂] ++
        .accepted :: .closed :: (s₁.server.conn 5).log := hlog₂
  refine ⟨actions₁,s₁,_,actions₂,s₂,_,_,hs₁,hs₂,hsplit₁,hsplit₂,rfl,rfl,?_,rfl⟩
  rw [hlog₁]
  rfl

theorem isolated_iff_sample : ∃ cur₁ cur₂ hist₂,
    messages cur₁ = [sampleRequest] ∧ messages hist₂ = [sampleRequest] ∧
      ((handlers cur₁ = handlers cur₂ ∧ replies cur₁ = replies cur₂) ↔
        messages cur₁ = [] ∨
          messages ([] : List (Event Fields)) = [] ∧ messages (.closed :: hist₂) = [] ∨
          messages ([] : List (Event Fields)) ≠ [] ∧ messages (.closed :: hist₂) ≠ [] ∧
            (replies cur₁ = [] ∨ keyText sampleSha1 sampleBase64 [] =
              keyText sampleSha1 sampleBase64 (.closed :: hist₂))) := by
  obtain ⟨_,_,cur₁,_,_,cur₂,hist₂,hs₁,hs₂,hlog₁,hlog₂,hcur₁,hcur₂,hhist₂,hreplies⟩ := sample_runs
  exact ⟨cur₁,cur₂,hist₂,hcur₁,hhist₂,
    isolated_iff rfl hs₁ hs₂ hlog₁ hlog₂ (hcur₁.trans hcur₂.symm) hreplies⟩

/-- After another connection on its descriptor a handshake is read as a frame. -/
theorem handshake_misread : ∃ actions₁ s₁ cur₁ actions₂ s₂ cur₂ hist₂,
    Run (Step (app sampleSha1 sampleBase64)) (start (fun fd => fd == 3) 3) actions₁ s₁ ∧
      Run (Step (app sampleSha1 sampleBase64)) (start (fun fd => fd == 3) 3) actions₂ s₂ ∧
      (s₁.server.conn 5).log = cur₁ ++ [.accepted] ∧
      (s₂.server.conn 5).log = cur₂ ++ .accepted :: .closed :: hist₂ ∧
      messages cur₁ = [sampleRequest] ∧ messages cur₂ = [sampleRequest] ∧
      messages hist₂ = [sampleRequest] ∧ (replies cur₁).length = (replies cur₂).length ∧
      handlers cur₁ = [some .handshark] ∧ handlers cur₂ = [some .tranmission] := by
  obtain ⟨actions₁,s₁,cur₁,actions₂,s₂,cur₂,hist₂,hs₁,hs₂,hlog₁,hlog₂,hcur₁,hcur₂,hhist₂,hreplies⟩ :=
    sample_runs
  have hok₁ := (run_answers rfl hs₁ 5).log
  have hok₂ := (run_answers rfl hs₂ 5).log
  rw [hlog₁] at hok₁
  rw [hlog₂] at hok₂
  have hused : messages (.closed :: hist₂) = [sampleRequest] := hhist₂
  refine ⟨actions₁,s₁,cur₁,actions₂,s₂,cur₂,hist₂,hs₁,hs₂,hlog₁,hlog₂,hcur₁,hcur₂,hhist₂,hreplies,?_,?_⟩
  · rw [hok₁.cur_handlers, hcur₁]
    rfl
  · rw [hok₂.cur_handlers, hused, hcur₂]
    rfl

end Sample
end ServerKit.Reactor.Websocket
