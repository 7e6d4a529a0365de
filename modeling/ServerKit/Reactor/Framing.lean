import ServerKit.Reactor.Gets

/-! The bytes that an HTTP connection is sent for its GET requests. -/
namespace ServerKit.Reactor.Http
open Function ServerKit.Lib

/-- What the calls that send have taken of a reply. -/
def taken (send : Option ℕ) (rest : List ℕ) (offered : List (List UInt8)) : List UInt8 :=
  (List.zipWith List.take (send.getD 0 :: rest) offered).flatten

/-- Each of the calls has taken all that it was given. -/
def AllTaken (send : Option ℕ) (rest : List ℕ) (offered : List (List UInt8)) : Prop :=
  List.Forall₂ (fun n b => b.length ≤ n) (send.getD 0 :: rest) offered

/-- The bytes that are written to the socket, in the order of time. -/
def written : List (Event Fields) → List UInt8
  | [] => []
  | .reply send rest offered :: log => written log ++ taken send rest offered
  | _ :: log => written log

/-- How many messages a log has. -/
def requests : List (Event Fields) → ℕ
  | [] => 0
  | .message _ _ :: log => requests log+1
  | _ :: log => requests log

/-- How many replies a log has. -/
def answers : List (Event Fields) → ℕ
  | [] => 0
  | .reply _ _ _ :: log => answers log+1
  | _ :: log => answers log

/-- The bytes are `k` responses, each with `n` declared and with `n` bytes behind its header. -/
def Framed (n k : ℕ) (out : List UInt8) : Prop :=
  ∃ bodies : List (List UInt8), bodies.length = k ∧ (∀ b ∈ bodies, b.length = n) ∧
    out = (bodies.map fun b => header n ++ b).flatten

/-- What a GET request is answered with if the file has this content. -/
def response (content : List UInt8) : List UInt8 := header content.length ++ content ++ bytes "\r\n"

theorem flatten_zipWith_take {ns : List ℕ} {bs : List (List UInt8)}
    (h : List.Forall₂ (fun n b => b.length ≤ n) ns bs) :
    (List.zipWith List.take ns bs).flatten = bs.flatten := by
  induction h with
  | nil => rfl
  | cons hle _ ih =>
    rw [List.zipWith_cons_cons, List.flatten_cons, List.flatten_cons, ih, List.take_of_length_le hle]

theorem Framed.length_eq {n k : ℕ} {out : List UInt8} (h : Framed n k out) :
    out.length = k*((header n).length+n) := by
  obtain ⟨bodies,rfl,hn,rfl⟩ := h
  induction bodies with
  | nil => simp
  | cons b bodies ih =>
    have hb : b.length = n := hn b List.mem_cons_self
    have hrest := ih fun b hb => hn b (List.mem_cons_of_mem _ hb)
    rw [List.map_cons, List.flatten_cons, List.length_append, List.length_append, hrest, hb,
      List.length_cons, Nat.succ_mul, Nat.add_comm]

/-- With a line end behind every body the bytes are too many. -/
theorem framed_responses_iff (content : List UInt8) (k : ℕ) :
    Framed content.length k (List.replicate k (response content)).flatten ↔ k = 0 := by
  constructor
  · intro h
    have hlength := h.length_eq
    have hcrlf : (bytes "\r\n").length = 2 := by decide
    rw [List.length_flatten, List.map_replicate, List.sum_replicate_nat, response,
      List.length_append, List.length_append, hcrlf] at hlength
    rw [Nat.mul_add] at hlength
    omega
  · rintro rfl
    exact ⟨[],rfl,nofun,rfl⟩

section Replies
variable {files : List UInt8 → Option (List UInt8)} {content : List UInt8}

/-- Every reply comes right after a message and answers it. -/
def Replied (files : List UInt8 → Option (List UInt8)) : List (Event Fields) → Prop
  | [] => True
  | .reply send _ offered :: log =>
    (∃ m ext hist, log = .message m ext :: hist ∧ (IsGet m → offered = getAnswer files send)) ∧
      Replied files log
  | _ :: log => Replied files log

theorem getAnswer_taken (hfile : files HTTP_WEB_ROOT = some content) {send : Option ℕ} {rest : List ℕ}
    (h : AllTaken send rest (getAnswer files send)) :
    taken send rest (getAnswer files send) = response content := by
  have hpage : pageFor files HTTP_WEB_ROOT = header content.length := by rw [pageFor, hfile]
  have hfirst : (pageFor files HTTP_WEB_ROOT).length ≤ send.getD 0 := by
    cases h with
    | cons hle _ => exact hle
  have hpos : 0 < (pageFor files HTTP_WEB_ROOT).length := List.length_pos_iff.mpr (pageFor_ne_nil _)
  have hsent : 0 < (send.map fun n => min n (pageFor files HTTP_WEB_ROOT).length).getD 0 := by
    cases send with
    | none => exact absurd hfirst (Nat.not_le.mpr hpos)
    | some n => exact lt_min (hpos.trans_le hfirst) hpos
  rw [taken, flatten_zipWith_take h, getAnswer, if_pos hsent, hpage, hfile]
  simp [response]

/-- A connection that sends GET requests is written one response for each reply. -/
theorem written_eq (hfile : files HTTP_WEB_ROOT = some content) {log hist : List (Event Fields)}
    (h : Replied files (log ++ .accepted :: hist)) (hget : ∀ m ext, .message m ext ∈ log → IsGet m)
    (htaken : ∀ send rest offered, .reply send rest offered ∈ log → AllTaken send rest offered) :
    written log = (List.replicate (answers log) (response content)).flatten := by
  induction log with
  | nil => rfl
  | cons e log ih =>
    have hget' : ∀ m ext, .message m ext ∈ log → IsGet m :=
      fun m ext hm => hget m ext (List.mem_cons_of_mem e hm)
    have htaken' : ∀ send rest offered, .reply send rest offered ∈ log → AllTaken send rest offered :=
      fun send rest offered hr => htaken send rest offered (List.mem_cons_of_mem e hr)
    cases e with
    | accepted => exact ih h hget' htaken'
    | message => exact ih h hget' htaken'
    | closed => exact ih h hget' htaken'
    | reply send rest offered =>
      obtain ⟨⟨m,ext,hist',hlog,hoffered⟩,hrest⟩ := h
      obtain ⟨-,hne⟩ | ⟨log',rfl,-⟩ := List.append_eq_cons_iff.mp hlog
      · cases hne
      obtain rfl := hoffered (hget m ext (by simp))
      have hresponse := getAnswer_taken hfile (htaken send rest _ List.mem_cons_self)
      rw [written, ih hrest hget' htaken', hresponse, answers, List.replicate_succ', List.flatten_append,
        List.flatten_singleton]

theorem Replied.step {fd : ℕ} {c c' : Conn Fields} {act : Conn.Act} (h : Replied files c.log)
    (hkept : GetKept files fd c) (hstep : Conn.Step (app files) fd c act c') : Replied files c'.log := by
  cases hstep with
  | leak => exact h
  | accept => exact h
  | hear => exact h
  | fin => exact h
  | reset => exact h
  | stall => exact h
  | answer hat hpos =>
    obtain ⟨m,ext,hist,hlog,hget⟩ := hkept.waiting hat
    exact ⟨⟨m,ext,hist,hlog,fun hm => (offered_get (hget hm).1 (hget hm).2).1 hpos⟩,h⟩
  | drop hat hnot =>
    obtain ⟨m,ext,hist,hlog,hget⟩ := hkept.waiting hat
    exact ⟨⟨m,ext,hist,hlog,fun hm => (offered_get (hget hm).1 (hget hm).2).2 hnot⟩,h⟩

variable {opened : ℕ → Bool} {listenfd : ℕ} {actions : List Action} {s : State Fields}

theorem run_replied (hopen : opened listenfd = true)
    (h : Run (Step (app files)) (start opened listenfd) actions s) (fd : ℕ) :
    Replied files (s.server.conn fd).log := by
  have hstart : ((start opened listenfd : State Fields).server.conn fd).log = [] := by
    rw [start_conn hopen]
    split <;> rfl
  have hkept : GetKept files fd ((start opened listenfd : State Fields).server.conn fd) :=
    run_getKept hopen .nil fd
  refine (run_conn_invariant (P := fun c => GetKept files fd c ∧ Replied files c.log)
    (app_lawful files) hopen h ⟨hkept,?_⟩ fun c act c' hmirrored hc hstep => ?_).2
  · rw [hstart]
    trivial
  · exact ⟨hc.1.step hmirrored hstep,hc.2.step hc.1 hstep⟩

/-- A connection whose GET requests are all answered in full is written well-formed responses exactly if it
has sent none. -/
theorem responses_framed_iff (hopen : opened listenfd = true)
    (h : Run (Step (app files)) (start opened listenfd) actions s)
    (hfile : files HTTP_WEB_ROOT = some content)
    {fd : ℕ} {log hist : List (Event Fields)} (hlog : s.server.log fd = log ++ .accepted :: hist)
    (hget : ∀ m ext, .message m ext ∈ log → IsGet m)
    (htaken : ∀ send rest offered, .reply send rest offered ∈ log → AllTaken send rest offered)
    (hall : answers log = requests log) :
    Framed content.length (requests log) (written log) ↔ requests log = 0 := by
  have hreplied : Replied files (s.server.log fd) := run_replied hopen h fd
  rw [hlog] at hreplied
  rw [written_eq hfile hreplied hget htaken, hall]
  exact framed_responses_iff content (requests log)

end Replies

section Sample

/-- A file of two bytes. -/
def sampleFiles (_ : List UInt8) : Option (List UInt8) := some (bytes "hi")

/-- What is left of a GET request is enough for a reply. -/
theorem sends_get {files : List UInt8 → Option (List UInt8)} {c : Conn Fields} {n : ℕ}
    (hmethod : c.slot.ext.method = HTTP_METHOD_GET) (hn : 0 < n) : 0 < c.sends (app files) (some n) := by
  have hev : (app files).response c.slot = sprintf c.slot (pageFor files (text c.slot.ext.resource)) :=
    ntyHttpResponse_get hmethod
  unfold Conn.sends
  rw [hev]
  exact lt_min hn (List.length_pos_iff.mpr (pageFor_ne_nil _))

theorem getAnswer_sample : getAnswer sampleFiles (some 1024) = [header 2,bytes "hi",bytes "\r\n"] := by
  have hpage : pageFor sampleFiles HTTP_WEB_ROOT = header 2 := rfl
  have hpos : 0 < min 1024 (header 2).length :=
    lt_min (by decide) (List.length_pos_iff.mpr (hpage ▸ pageFor_ne_nil _))
  rw [getAnswer, hpage]
  exact congrArg _ (if_pos hpos)

theorem allTaken_sample : AllTaken (some 1024) [2,2] (getAnswer sampleFiles (some 1024)) := by
  have hheader : (header 2).length ≤ 1024 := by decide +kernel
  rw [getAnswer_sample]
  exact .cons hheader (.cons (by decide) (.cons (by decide) .nil))

/-- One GET request that is answered in full. -/
def sampleLog (ext : Fields) : List (Event Fields) :=
  [.reply (some 1024) [2,2] (getAnswer sampleFiles (some 1024)),.message sampleGet ext]

theorem sample_exchange : ∃ actions s ext,
    Run (Step (app sampleFiles)) (start (fun fd => fd == 3) 3) actions s ∧
      s.server.log 5 = sampleLog ext ++ .accepted :: [] := by
  have hlaw := app_lawful sampleFiles
  set c₀ : Conn Fields := ⟨zeroEvent,false,none,[]⟩
  set c₁ : Conn Fields := (c₀.accepted 5).heard (app sampleFiles) 5 sampleGet
  have hheard : Run (Conn.Step (app sampleFiles) 5) c₀ _ c₁ :=
    (Run.nil.snoc (.accept rfl)).snoc (.hear (Conn.accepted_at 5 c₀) (by decide) (by decide))
  have hat : c₁.At 5 .sendCb EPOLLOUT := (Conn.accepted_at 5 c₀).heard (app sampleFiles) sampleGet
  have hreach {acts : List Conn.Act} {c : Conn Fields} (h : Run (Conn.Step (app sampleFiles) 5) c₀ acts c) :
      ∃ actions s, Run (Step (app sampleFiles)) (start (fun fd => fd == 3) 3) actions s ∧
        s.server.conn 5 = c ∧ ∀ fd' ≠ 5, (s.server.conn fd').log = [] :=
    exists_run_log hlaw rfl (by decide) h
  -- the slot knows that the message is a GET request
  obtain ⟨actions₁,s₁,hrun₁,hconn₁,-⟩ := hreach hheard
  have hkept : GetKept sampleFiles 5 c₁ := hconn₁ ▸ run_getKept rfl hrun₁ 5
  obtain ⟨m,ext,hist,hlog,hget⟩ := hkept.waiting hat
  obtain ⟨hmessage,-⟩ := List.cons.inj hlog
  cases hmessage
  obtain ⟨hmethod,hresource⟩ := hget (by decide)
  have hpos : 0 < c₁.sends (app sampleFiles) (some 1024) := sends_get hmethod (by decide)
  have hoffered := (offered_get hmethod hresource).1 hpos
  have hanswer : Conn.Step (app sampleFiles) 5 c₁ (.send (some 1024) [2,2]) _ := .answer hat hpos
  obtain ⟨actions,s,hrun,hconn,-⟩ := hreach (hheard.snoc hanswer)
  refine ⟨actions,s,(Conn.received (app sampleFiles) sampleGet (c₀.accepted 5).slot).ext,hrun,?_⟩
  have hlogged : (s.server.conn 5).log = .reply (some 1024) [2,2] _ :: c₁.log := congrArg Conn.log hconn
  exact hlogged.trans (by rw [hoffered]; rfl)

theorem sampleLog_get (ext : Fields) : ∀ m ext', .message m ext' ∈ sampleLog ext → IsGet m := by
  intro m ext' hmem
  simp only [sampleLog, List.mem_cons, List.not_mem_nil, reduceCtorEq, false_or, or_false] at hmem
  cases hmem
  decide

theorem sampleLog_taken (ext : Fields) : ∀ send rest offered,
    .reply send rest offered ∈ sampleLog ext → AllTaken send rest offered := by
  intro send rest offered hmem
  simp only [sampleLog, List.mem_cons, List.not_mem_nil, reduceCtorEq, or_false] at hmem
  cases hmem
  exact allTaken_sample

theorem responses_framed_iff_one : ∃ ext,
    Framed 2 (requests (sampleLog ext)) (written (sampleLog ext)) ↔ requests (sampleLog ext) = 0 := by
  obtain ⟨actions,s,ext,hrun,hlog⟩ := sample_exchange
  have hfile : sampleFiles HTTP_WEB_ROOT = some (bytes "hi") := rfl
  exact ⟨ext,responses_framed_iff rfl hrun hfile hlog (sampleLog_get ext) (sampleLog_taken ext) rfl⟩

/-- Behind the two bytes that the header declares come two more. -/
theorem response_misframed : ∃ actions s ext,
    Run (Step (app sampleFiles)) (start (fun fd => fd == 3) 3) actions s ∧
      s.server.log 5 = sampleLog ext ++ .accepted :: [] ∧ requests (sampleLog ext) = 1 ∧
      written (sampleLog ext) = header 2 ++ bytes "hi" ++ bytes "\r\n" ∧
      ¬ Framed 2 1 (written (sampleLog ext)) := by
  obtain ⟨actions,s,ext,hrun,hlog⟩ := sample_exchange
  have hreplied : Replied sampleFiles (sampleLog ext ++ .accepted :: []) := hlog ▸ run_replied rfl hrun 5
  have hfile : sampleFiles HTTP_WEB_ROOT = some (bytes "hi") := rfl
  have hwritten := written_eq hfile hreplied (sampleLog_get ext) (sampleLog_taken ext)
  refine ⟨actions,s,ext,hrun,hlog,rfl,hwritten.trans (List.flatten_singleton ..),?_⟩
  rw [hwritten]
  exact fun h => absurd ((framed_responses_iff (bytes "hi") 1).mp h) Nat.one_ne_zero

end Sample
end ServerKit.Reactor.Http
