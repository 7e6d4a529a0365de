import ServerKit.Lib.Logged

/-! The loop that reads from a connection in `zero_threadpool/io/server1_epoll2.c`, as it is compiled and as
it stands under `#elif` in the same file. -/
namespace ServerKit.Epoll2
open ServerKit.Lib

def EAGAIN : ℤ := 11
def EBADF : ℤ := 9

/-- `sizeof(buf)` -/
def BUF_SIZE : ℕ := 5

/-- What one call of `recv` stores. -/
structure Chunk where
  bytes : List UInt8
  pos : 0 < bytes.length
  fits : bytes.length ≤ BUF_SIZE

/-- How a connection goes on when everything has been read: the client has closed it, or nothing has come
yet. -/
inductive Last
  | closed
  | again
  deriving DecidableEq, Repr

/-- A connection with the chunks that are still to be read, and the variables of the thread. -/
structure Conn where
  chunks : List Chunk
  last : Last
  opened : Bool
  registered : Bool
  buf : List UInt8
  errno : ℤ

inductive Event
  | recv (opened : Bool)
  | printf (text : String)
  | write (bytes : List UInt8)
  | send (bytes : List UInt8)
  | epollDel
  | close
  | perror (text : String) (errno : ℤ)
  deriving DecidableEq, Repr

/-- How the loop ends. -/
inductive Outcome
  | broken
  | exited (status : ℤ)
  deriving DecidableEq, Repr

abbrev Prog (α : Type) := Logged Conn Event α

/-- On a closed descriptor `recv` fails with `EBADF`. -/
def recv : Prog ℤ := fun s =>
  if s.opened = false then (-1,{ s with errno := EBADF },[.recv false])
  else match s.chunks,s.last with
    | chunk :: chunks,_ => (chunk.bytes.length,
        { s with chunks := chunks, buf := chunk.bytes ++ s.buf.drop chunk.bytes.length },[.recv true])
    | [],.closed => (0,s,[.recv true])
    | [],.again => (-1,{ s with errno := EAGAIN },[.recv true])

def printf (text : String) : Prog Unit := .read (fun _ => ()) fun _ => .printf text

def write (cnt : ℤ) : Prog Unit := .read (fun _ => ()) fun s => .write (s.buf.take cnt.toNat)

def send (cnt : ℤ) : Prog Unit := .read (fun _ => ()) fun s => .send (s.buf.take cnt.toNat)

def epollDel : Prog Unit := .write (fun s => { s with registered := false }) fun _ => .epollDel

def close : Prog Unit := .write (fun s => { s with opened := false }) fun _ => .close

def perror (text : String) : Prog Unit := .read (fun _ => ()) fun s => .perror text s.errno

def errno : Prog ℤ := .get (·.errno)

/-- The version that is compiled: there is no `break` behind the `close`. -/
def activePass (_ : Unit) : Prog (Unit ⊕ Outcome) := do
  let cnt ← recv
  if cnt = 0 then
    printf "客户端断开连接\n"
    epollDel
    close
    return .inl ()
  else if cnt > 0 then
    write cnt
    send cnt
    return .inl ()
  else if (← errno) = EAGAIN then
    printf "数据读完了\n"
    return .inr .broken
  else
    perror "异常\n"
    return .inr (.exited 0)

/-- The version under `#elif`. -/
def elifPass (_ : Unit) : Prog (Unit ⊕ Outcome) := do
  let len ← recv
  if len = 0 then
    printf "客户端断开了连接...\n"
    epollDel
    close
    return .inr .broken
  else if len > 0 then
    write len
    send len
    return .inl ()
  else if (← errno) = EAGAIN then
    printf "数据读完了...\n"
    return .inr .broken
  else
    perror "recv"
    return .inr (.exited 0)

/-- A connection for which there is an event, with the buffer that is set to zero. -/
def reading (chunks : List Chunk) (last : Last) (errno : ℤ) : Conn :=
  ⟨chunks,last,true,true,List.replicate BUF_SIZE 0,errno⟩

/-- What is logged for the chunks. -/
def echoes (chunks : List Chunk) : List Event :=
  chunks.flatMap fun chunk => [.recv true,.write chunk.bytes,.send chunk.bytes]

section Passes
variable {s : Conn} {chunk : Chunk} {chunks : List Chunk}

/-- The connection behind a chunk. -/
def Conn.behind (s : Conn) (chunk : Chunk) (chunks : List Chunk) : Conn :=
  { s with chunks := chunks, buf := chunk.bytes ++ s.buf.drop chunk.bytes.length }

theorem recv_chunk (hopened : s.opened = true) (hchunks : s.chunks = chunk :: chunks) :
    recv s = ((chunk.bytes.length : ℤ),s.behind chunk chunks,[.recv true]) := by
  unfold recv Conn.behind
  rw [hopened, hchunks]
  rfl

theorem recv_closed (hopened : s.opened = true) (hchunks : s.chunks = []) (hlast : s.last = .closed) :
    recv s = (0,s,[.recv true]) := by
  unfold recv
  rw [hopened, hchunks, hlast]
  rfl

theorem recv_again (hopened : s.opened = true) (hchunks : s.chunks = []) (hlast : s.last = .again) :
    recv s = (-1,{ s with errno := EAGAIN },[.recv true]) := by
  unfold recv
  rw [hopened, hchunks, hlast]
  rfl

/-- What `recv` has stored is what goes out. -/
theorem echo_behind {cnt : ℤ} (hcnt : cnt = chunk.bytes.length) :
    (do write cnt; send cnt; return (.inl () : Unit ⊕ Outcome) : Prog _).log (s.behind chunk chunks) =
      [.write chunk.bytes,.send chunk.bytes] := by
  have htake : (s.behind chunk chunks).buf.take cnt.toNat = chunk.bytes := by
    rw [hcnt]
    exact List.take_left
  change [Event.write ((s.behind chunk chunks).buf.take cnt.toNat),
    Event.send ((s.behind chunk chunks).buf.take cnt.toNat)] = _
  rw [htake]

/-- Both versions send back a chunk in the same way. -/
theorem echo_pass (rest : ℤ → Prog (Unit ⊕ Outcome)) (gone : Prog (Unit ⊕ Outcome))
    (hopened : s.opened = true) (hchunks : s.chunks = chunk :: chunks) :
    (do
      let cnt ← recv
      if cnt = 0 then gone
      else if cnt > 0 then
        write cnt
        send cnt
        return .inl ()
      else rest cnt : Prog (Unit ⊕ Outcome)) s =
    (.inl (),s.behind chunk chunks,[.recv true,.write chunk.bytes,.send chunk.bytes]) := by
  have hpos : (chunk.bytes.length : ℤ) > 0 := Int.natCast_pos.mpr chunk.pos
  rw [Logged.bind_eq (recv_chunk hopened hchunks), if_neg (Int.ne_of_gt hpos), if_pos hpos, echo_behind rfl]
  rfl

theorem activePass_chunk (hopened : s.opened = true) (hchunks : s.chunks = chunk :: chunks) :
    activePass () s = (.inl (),s.behind chunk chunks,[.recv true,.write chunk.bytes,.send chunk.bytes]) :=
  echo_pass _ _ hopened hchunks

theorem elifPass_chunk (hopened : s.opened = true) (hchunks : s.chunks = chunk :: chunks) :
    elifPass () s = (.inl (),s.behind chunk chunks,[.recv true,.write chunk.bytes,.send chunk.bytes]) :=
  echo_pass _ _ hopened hchunks

/-- The connection when the client has gone. -/
def Conn.gone (s : Conn) : Conn := { s with opened := false, registered := false }

theorem activePass_closed (hopened : s.opened = true) (hchunks : s.chunks = []) (hlast : s.last = .closed) :
    activePass () s =
      (.inl (),s.gone,[.recv true,.printf "客户端断开连接\n",.epollDel,.close]) := by
  unfold activePass
  rw [Logged.bind_eq (recv_closed hopened hchunks hlast)]
  rfl

theorem elifPass_closed (hopened : s.opened = true) (hchunks : s.chunks = []) (hlast : s.last = .closed) :
    elifPass () s =
      (.inr .broken,s.gone,[.recv true,.printf "客户端断开了连接...\n",.epollDel,.close]) := by
  unfold elifPass
  rw [Logged.bind_eq (recv_closed hopened hchunks hlast)]
  rfl

theorem activePass_again (hopened : s.opened = true) (hchunks : s.chunks = []) (hlast : s.last = .again) :
    activePass () s =
      (.inr .broken,{ s with errno := EAGAIN },[.recv true,.printf "数据读完了\n"]) := by
  unfold activePass
  rw [Logged.bind_eq (recv_again hopened hchunks hlast)]
  rfl

theorem elifPass_again (hopened : s.opened = true) (hchunks : s.chunks = []) (hlast : s.last = .again) :
    elifPass () s =
      (.inr .broken,{ s with errno := EAGAIN },[.recv true,.printf "数据读完了...\n"]) := by
  unfold elifPass
  rw [Logged.bind_eq (recv_again hopened hchunks hlast)]
  rfl

/-- The pass that the missing `break` leads to. -/
theorem activePass_gone (hopened : s.opened = false) : activePass () s =
    (.inr (.exited 0),{ s with errno := EBADF },[.recv false,.perror "异常\n" EBADF]) := by
  have hrecv : recv s = (-1,{ s with errno := EBADF },[.recv false]) := if_pos hopened
  unfold activePass
  rw [Logged.bind_eq hrecv]
  rfl

end Passes

section Loops
variable {pass : Unit → Prog (Unit ⊕ Outcome)} {s : Conn}

/-- A loop that sends back one chunk after the other comes to the end of the stream. -/
theorem loop_chunks (hpass : ∀ (s : Conn) chunk chunks, s.opened = true → s.chunks = chunk :: chunks →
      pass () s = (.inl (),s.behind chunk chunks,[.recv true,.write chunk.bytes,.send chunk.bytes]))
    (hopened : s.opened = true) : ∃ buf, ∀ r t es,
      Returns (fun n => Logged.loop pass n () { s with chunks := [], buf := buf }) (r,t,es) →
        Returns (fun n => Logged.loop pass n () s) (r,t,echoes s.chunks ++ es) := by
  generalize hchunks : s.chunks = chunks
  induction chunks generalizing s with
  | nil =>
    refine ⟨s.buf,fun r t es h => ?_⟩
    rw [← hchunks] at h
    exact h
  | cons chunk chunks ih =>
    obtain ⟨buf,hbuf⟩ := ih (s := s.behind chunk chunks) hopened rfl
    refine ⟨buf,fun r t es h => ?_⟩
    have hreturns := Logged.returns_next (hpass s chunk chunks hopened hchunks) (hbuf r t es h)
    rw [← List.append_assoc] at hreturns
    exact hreturns

end Loops

section Results
variable (chunks : List Chunk) (errno : ℤ)

/-- Without a disconnect the two versions do the same, but for what they print. -/
theorem again_runs : ∃ t t',
    Returns (fun n => Logged.loop activePass n () (reading chunks .again errno))
      (.broken,t,echoes chunks ++ [.recv true,.printf "数据读完了\n"]) ∧
    Returns (fun n => Logged.loop elifPass n () (reading chunks .again errno))
      (.broken,t',echoes chunks ++ [.recv true,.printf "数据读完了...\n"]) := by
  obtain ⟨buf,hbuf⟩ := loop_chunks (s := reading chunks .again errno)
    (fun _ _ _ => activePass_chunk) rfl
  obtain ⟨buf',hbuf'⟩ := loop_chunks (s := reading chunks .again errno)
    (fun _ _ _ => elifPass_chunk) rfl
  exact ⟨_,_,hbuf _ _ _ (Logged.returns_done (activePass_again rfl rfl rfl)),
    hbuf' _ _ _ (Logged.returns_done (elifPass_again rfl rfl rfl))⟩

/-- After a disconnect the first version calls `recv` once more, and the process ends. -/
theorem closed_runs : ∃ t t',
    Returns (fun n => Logged.loop activePass n () (reading chunks .closed errno))
      (.exited 0,t,echoes chunks ++ [.recv true,.printf "客户端断开连接\n",.epollDel,.close,.recv false,
        .perror "异常\n" EBADF]) ∧
    Returns (fun n => Logged.loop elifPass n () (reading chunks .closed errno))
      (.broken,t',echoes chunks ++ [.recv true,.printf "客户端断开了连接...\n",.epollDel,.close]) := by
  obtain ⟨buf,hbuf⟩ := loop_chunks (s := reading chunks .closed errno)
    (fun _ _ _ => activePass_chunk) rfl
  obtain ⟨buf',hbuf'⟩ := loop_chunks (s := reading chunks .closed errno)
    (fun _ _ _ => elifPass_chunk) rfl
  have hgone := Logged.returns_done (activePass_gone (s := Conn.gone ⟨[],.closed,true,true,buf,errno⟩) rfl)
  exact ⟨_,_,hbuf _ _ _ (Logged.returns_next (activePass_closed rfl rfl rfl) hgone),
    hbuf' _ _ _ (Logged.returns_done (elifPass_closed rfl rfl rfl))⟩

/-- What has been sent back. -/
def sent (es : List Event) : List (List UInt8) :=
  es.filterMap fun
    | .send bytes => some bytes
    | _ => none

/-- The loop that ends with `r` and the log `es` does what the other one does that ends with `r'` and `es'`:
it sends the same chunks, does not receive from a closed descriptor, and is left. -/
structure Agrees (r : Outcome) (es : List Event) (r' : Outcome) (es' : List Event) : Prop where
  sent : sent es = sent es'
  opened : Event.recv false ∉ es
  outcome : r = r'
  left : r = .broken

theorem recv_not_mem_echoes : Event.recv false ∉ echoes chunks := by
  intro h
  obtain ⟨chunk,-,hin⟩ := List.mem_flatMap.mp h
  simp at hin

/-- The two versions agree on a stream exactly if it does not end with a disconnect. -/
theorem readLoop_agrees_iff (last : Last) : ∃ r t es r' t' es',
    Returns (fun n => Logged.loop activePass n () (reading chunks last errno)) (r,t,es) ∧
    Returns (fun n => Logged.loop elifPass n () (reading chunks last errno)) (r',t',es') ∧
    (Agrees r es r' es' ↔ last ≠ .closed) := by
  cases last with
  | again =>
    obtain ⟨t,t',h,h'⟩ := again_runs chunks errno
    refine ⟨_,_,_,_,_,_,h,h',iff_of_true ⟨?_,?_,rfl,rfl⟩ nofun⟩
    · unfold sent
      rw [List.filterMap_append, List.filterMap_append]
      rfl
    · intro hin
      obtain hin | hin := List.mem_append.mp hin
      · exact recv_not_mem_echoes chunks hin
      · simp at hin
  | closed =>
    obtain ⟨t,t',h,h'⟩ := closed_runs chunks errno
    refine ⟨_,_,_,_,_,_,h,h',iff_of_false (fun hagrees => ?_) fun hne => hne rfl⟩
    cases hagrees.left

/-- A client that disconnects at once. -/
theorem readLoop_disagrees : ∃ r t es r' t' es',
    Returns (fun n => Logged.loop activePass n () (reading [] .closed 0)) (r,t,es) ∧
    Returns (fun n => Logged.loop elifPass n () (reading [] .closed 0)) (r',t',es') ∧
    Event.recv false ∈ es ∧ r = .exited 0 ∧ r' = .broken := by
  obtain ⟨t,t',h,h'⟩ := closed_runs [] 0
  exact ⟨_,_,_,_,_,_,h,h',by simp,rfl,rfl⟩

end Results
end ServerKit.Epoll2
