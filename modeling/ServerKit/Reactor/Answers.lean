import ServerKit.Reactor.Single
import ServerKit.Reactor.Websocket

/-! What the messages on a descriptor of the WebSocket server are answered with, over all runs. -/
namespace ServerKit.Reactor.Websocket
open Function ServerKit.Lib

section Logs
variable {X α : Type}

/-- What `f` finds in a log, in the order of time. -/
def inOrder (f : Event X → Option α) (log : List (Event X)) : List α := (log.filterMap f).reverse

theorem inOrder_skip {f : Event X → Option α} {e : Event X} (h : f e = none) (log : List (Event X)) :
    inOrder f (e :: log) = inOrder f log := by
  rw [inOrder, List.filterMap_cons_none h]
  rfl

theorem inOrder_found {f : Event X → Option α} {e : Event X} {a : α} (h : f e = some a)
    (log : List (Event X)) : inOrder f (e :: log) = inOrder f log ++ [a] := by
  rw [inOrder, List.filterMap_cons_some h, List.reverse_cons]
  rfl

theorem inOrder_append (f : Event X → Option α) (log log' : List (Event X)) :
    inOrder f (log ++ log') = inOrder f log' ++ inOrder f log := by
  unfold inOrder
  rw [List.filterMap_append, List.reverse_append]

def messages : List (Event X) → List (List UInt8) :=
  inOrder fun
    | .message bytes _ => some bytes
    | _ => none

/-- The replies of which bytes were taken, each with what the calls that send were given. -/
def replies : List (Event X) → List (List (List UInt8)) :=
  inOrder fun
    | .reply (some (_+1)) _ offered => some offered
    | _ => none

/-- Every reply is the reply to the message before it. -/
def Paired : List (Event X) → Prop
  | [] => True
  | .reply _ _ _ :: log => (∃ bytes ext log', log = .message bytes ext :: log') ∧ Paired log
  | _ :: log => Paired log

theorem messages_message (bytes : List UInt8) (ext : X) (log : List (Event X)) :
    messages (.message bytes ext :: log) = messages log ++ [bytes] := by
  unfold messages
  rw [inOrder_found]
  rfl

theorem length_replies_cons (e : Event X) (log : List (Event X)) :
    (replies (e :: log)).length ≤ (replies log).length+1 := by
  unfold replies inOrder
  rw [List.length_reverse, List.length_reverse, List.filterMap_cons]
  split
  · omega
  · rw [List.length_cons]

theorem mem_replies {send : Option ℕ} {rest : List ℕ} {r offered : List (List UInt8)}
    {log : List (Event X)} (h : r ∈ replies (.reply send rest offered :: log)) :
    r ∈ replies log ∨ r = offered := by
  unfold replies inOrder at h ⊢
  rw [List.mem_reverse, List.filterMap_cons] at h
  rw [List.mem_reverse]
  split at h
  · exact .inl h
  · next heq =>
    obtain rfl | h := List.mem_cons.mp h
    · refine .inr ?_
      split at heq
      · next hreply =>
        cases hreply
        exact (Option.some.inj heq).symm
      · cases heq
    · exact .inl h

/-- There is a message for every reply in the newer part of a log, if no reply to an older message is in
it. -/
theorem Paired.length_le {log hist : List (Event X)} (h : Paired (log ++ hist))
    (hhist : ∀ bytes ext hist', hist ≠ .message bytes ext :: hist') :
    (replies log).length ≤ (messages log).length := by
  -- a message on top of the log has no reply yet
  have hboth : (replies log).length ≤ (messages log).length ∧
      ∀ bytes ext log', log = .message bytes ext :: log' →
        (replies log).length < (messages log).length := by
    induction log with
    | nil => exact ⟨le_rfl,nofun⟩
    | cons e log ih =>
      cases e with
      | accepted => exact ⟨(ih h).1,nofun⟩
      | closed => exact ⟨(ih h).1,nofun⟩
      | message bytes ext =>
        have hreplies : replies (.message bytes ext :: log) = replies log := inOrder_skip rfl log
        have hle := (ih h).1
        rw [messages_message, hreplies, List.length_append, List.length_singleton]
        exact ⟨by omega,fun _ _ _ _ => by omega⟩
      | reply send rest offered =>
        obtain ⟨⟨bytes,ext,log',hlog⟩,hpaired⟩ := h
        refine ⟨?_,nofun⟩
        have hmessages : messages (.reply send rest offered :: log) = messages log :=
          inOrder_skip rfl log
        have hle := length_replies_cons (.reply send rest offered) log
        obtain ⟨rfl,rfl⟩ | ⟨l,hl,-⟩ := List.append_eq_cons_iff.mp hlog
        · exact absurd rfl (hhist bytes ext log')
        · have hlt := (ih hpaired).2 bytes ext l hl
          rw [hmessages]
          omega
  exact hboth.1

end Logs

/-- The functions that the first `n` messages on a descriptor are dispatched to. -/
def dispatched : ℕ → List (Option Handler)
  | 0 => []
  | n+1 => some .handshark :: List.replicate n (some .tranmission)

theorem dispatched_succ (n : ℕ) : dispatched (n+1) =
    dispatched n ++ [if n = 0 then some .handshark else some .tranmission] := by
  cases n with
  | zero => rfl
  | succ n => simp [dispatched,List.replicate_succ']

def handlers : List (Event Fields) → List (Option Handler) :=
  inOrder fun
    | .message _ ext => some (handler ext)
    | _ => none

theorem handlers_message (bytes : List UInt8) (ext : Fields) (log : List (Event Fields)) :
    handlers (.message bytes ext :: log) = handlers log ++ [handler ext] := by
  unfold handlers
  rw [inOrder_found]
  rfl

section Openssl
variable (sha1 base64 : List UInt8 → List UInt8)

/-- The key that is left by the first of some messages. -/
def keyOf : List (List UInt8) → List UInt8
  | [] => List.replicate ACCEPT_KEY_LENGTH 0
  | bytes :: _ => wsAccept sha1 base64 bytes (List.replicate ACCEPT_KEY_LENGTH 0)

theorem keyOf_append {ms : List (List UInt8)} (h : ms ≠ []) (bytes : List UInt8) :
    keyOf sha1 base64 (ms ++ [bytes]) = keyOf sha1 base64 ms := by
  cases ms with
  | nil => exact absurd rfl h
  | cons m ms => rfl

/-- What is left in an event by some messages. -/
def fieldsAfter (ms : List (List UInt8)) : Fields :=
  ⟨keyOf sha1 base64 ms,if ms = [] then WS_HANDSHARK else WS_TRANMISSION⟩

/-- In a log the messages after the first are dispatched as frames, and all of them are answered with the
handshake response for the first one. -/
structure LogOk (log : List (Event Fields)) : Prop where
  handlers : handlers log = dispatched (messages log).length
  replies : ∀ r ∈ replies log, r = [switching (text (keyOf sha1 base64 (messages log)))]
  paired : Paired log

structure Answers (fd : ℕ) (c : Conn Fields) : Prop where
  size : c.slot.buffer.length = BUFFER_LENGTH
  ext : c.slot.ext = fieldsAfter sha1 base64 (messages c.log)
  log : LogOk sha1 base64 c.log
  sends : c.At fd .sendCb EPOLLOUT → ∃ bytes ext log, c.log = .message bytes ext :: log

section Steps
variable {sha1 base64} {fd : ℕ} {c c' : Conn Fields} {act : Conn.Act} {bytes : List UInt8}
  {log : List (Event Fields)} {ms : List (List UInt8)}

theorem handler_fieldsAfter (ms : List (List UInt8)) : handler (fieldsAfter sha1 base64 ms) =
    if ms.length = 0 then some .handshark else some .tranmission := by
  cases ms <;> rfl

/-- Only the first message leaves anything. -/
theorem wsRequest_ext {ev : NtyEvent Fields} (hext : ev.ext = fieldsAfter sha1 base64 ms)
    (htext : text ev.buffer = text bytes) :
    (wsRequest sha1 base64 ev).ext = fieldsAfter sha1 base64 (ms ++ [bytes]) := by
  cases ms with
  | nil =>
    have hhandler : handler ev.ext = some .handshark := by rw [hext]; rfl
    have hkey : (wsRequest sha1 base64 ev).ext =
        ⟨wsAccept sha1 base64 ev.buffer ev.ext.secAccept,WS_TRANMISSION⟩ := by
      simp only [wsRequest, hhandler]
      rfl
    rw [hkey, hext, wsAccept_congr sha1 base64 htext]
    rfl
  | cons m ms =>
    have hhandler : handler ev.ext = some .tranmission := by rw [hext]; rfl
    have hsame : (wsRequest sha1 base64 ev).ext = ev.ext := by
      simp only [wsRequest, hhandler, wsTranmission]
      split <;> rfl
    rw [hsame, hext]
    rfl

theorem received_ext (ev : NtyEvent Fields) :
    (Conn.received (app sha1 base64) bytes ev).ext = ev.ext := by
  unfold Conn.received terminate
  dsimp only
  split <;> rfl

theorem wsResponse_offered (ev : NtyEvent Fields) :
    ((app sha1 base64).response ev).wbuffer.take ((app sha1 base64).response ev).wlength =
      switching (text ev.ext.secAccept) := take_putText ..

namespace LogOk

theorem nil : LogOk sha1 base64 [] := ⟨rfl,nofun,trivial⟩

theorem accepted (h : LogOk sha1 base64 log) : LogOk sha1 base64 (.accepted :: log) :=
  ⟨h.handlers,h.replies,h.paired⟩

theorem closed (h : LogOk sha1 base64 log) : LogOk sha1 base64 (.closed :: log) :=
  ⟨h.handlers,h.replies,h.paired⟩

theorem message (h : LogOk sha1 base64 log) {ext : Fields}
    (hext : ext = fieldsAfter sha1 base64 (messages log)) :
    LogOk sha1 base64 (.message bytes ext :: log) := by
  refine ⟨?_,?_,h.paired⟩
  · have hhandlers : Websocket.handlers (.message bytes ext :: log) =
        Websocket.handlers log ++ [handler ext] := by
      unfold Websocket.handlers
      rw [inOrder_found]
      rfl
    rw [hhandlers, h.handlers, messages_message, List.length_append, List.length_singleton,
      dispatched_succ, hext, handler_fieldsAfter]
  · intro r hr
    have hr : r ∈ Websocket.replies log := hr
    have hne : messages log ≠ [] := by
      intro hnil
      have hpaired : Paired (log ++ []) := by simpa using h.paired
      have hle := hpaired.length_le nofun
      rw [hnil, List.length_nil] at hle
      exact absurd (List.length_pos_of_mem hr) (by omega)
    rw [h.replies r hr, messages_message, keyOf_append sha1 base64 hne]

theorem reply (h : LogOk sha1 base64 log) {send : Option ℕ} {rest : List ℕ}
    {offered : List (List UInt8)} (hhead : ∃ bytes ext log', log = .message bytes ext :: log')
    (hoffered : offered = [switching (text (keyOf sha1 base64 (messages log)))]) :
    LogOk sha1 base64 (.reply send rest offered :: log) := by
  refine ⟨h.handlers,fun r hr => ?_,hhead,h.paired⟩
  change r = [switching (text (keyOf sha1 base64 (messages log)))]
  obtain hr | rfl := mem_replies hr
  · exact h.replies r hr
  · exact hoffered

end LogOk

theorem Answers.step (h : Answers sha1 base64 fd c) (hc : c.Mirrored fd)
    (hstep : Conn.Step (app sha1 base64) fd c act c') : Answers sha1 base64 fd c' := by
  have hlaw := app_lawful sha1 base64
  have hsize := hstep.size hlaw h.size
  cases hstep with
  | leak hnew =>
    refine ⟨hsize,h.ext,h.log.accepted,fun hat => ?_⟩
    cases (hc.of_closed hnew).1.symm.trans hat.interest
  | accept hnew => exact ⟨hsize,h.ext,h.log.accepted,fun hat => by cases hat.callback⟩
  | @hear bytes hat hne hle =>
    have hext : (Conn.received (app sha1 base64) bytes c.slot).ext = _ :=
      (received_ext c.slot).trans h.ext
    have hmessages : messages (c.heard (app sha1 base64) fd bytes).log = messages c.log ++ [bytes] :=
      messages_message ..
    refine ⟨hsize,?_,h.log.message hext,fun _ => ⟨_,_,_,rfl⟩⟩
    rw [hmessages]
    exact wsRequest_ext hext (text_received hlaw hle h.size)
  | fin hat => exact ⟨hsize,h.ext,h.log.closed,fun hat => by cases hat.interest⟩
  | reset hat => exact ⟨hsize,h.ext,h.log.closed,fun hat => by cases hat.interest⟩
  | stall hat hne => exact ⟨hsize,h.ext,h.log,fun hat => by cases hat.interest⟩
  | answer hat hpos =>
    refine ⟨hsize,h.ext,h.log.reply (h.sends hat) ?_,fun hat' => by cases hat'.callback⟩
    rw [wsResponse_offered, h.ext]
    rfl
  | drop hat hnot =>
    refine ⟨hsize,h.ext,(h.log.reply (h.sends hat) ?_).closed,fun hat' => by cases hat'.interest⟩
    rw [wsResponse_offered, h.ext]
    rfl

/-- On every descriptor, after every run. -/
theorem run_answers {opened : ℕ → Bool} {listenfd : ℕ} (hopen : opened listenfd = true)
    {actions : List Action} {s : State Fields}
    (h : Run (Step (app sha1 base64)) (start opened listenfd) actions s) (fd : ℕ) :
    Answers sha1 base64 fd (s.server.conn fd) := by
  have hstart : Answers sha1 base64 fd ((start opened listenfd : State Fields).server.conn fd) := by
    rw [start_conn hopen]
    split
    · exact ⟨List.length_replicate ..,rfl,.nil,fun hat => by cases hat.callback⟩
    · exact ⟨List.length_replicate ..,rfl,.nil,fun hat => by cases hat.interest⟩
  exact run_conn_invariant (app_lawful sha1 base64) hopen h hstart
    fun _ _ _ hmirrored hc hstep => hc.step hmirrored hstep

end Steps
end Openssl
end ServerKit.Reactor.Websocket
