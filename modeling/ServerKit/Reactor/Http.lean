import ServerKit.Reactor.Conn

/-! Requests and responses of `reactor+http/reactor_singlecb_http_c1000k.c`. -/
namespace ServerKit.Reactor.Http
open ServerKit.Lib

def RESOURCE_LENGTH : ℕ := 1024
def HTTP_METHOD_GET : ℕ := 0
def HTTP_METHOD_POST : ℕ := 1
def HTTP_WEB_ROOT : List UInt8 := bytes "/home/wfh/hello_world/reactor+http/a.html"

/-- The fields of an event that only this server has. -/
structure Fields where
  method : ℕ
  resource : List UInt8

instance : Zero Fields := ⟨⟨0,List.replicate RESOURCE_LENGTH 0⟩⟩

/-- What is served when the resource cannot be opened. -/
def PAGE : List UInt8 :=
  bytes "HTTP/1.1 200 OK\r\nAccept-Ranges: bytes\r\nContent-Length: 78\r\nContent-Type: text/html\r\n" ++
  bytes "Date: Sat, 06 Aug 2022 13:16:46 GMT\r\n\r\n" ++
  bytes "<html><head><title>0voice.king</title></head><body><h1>King</h1><body/></html>"

def header (size : ℕ) : List UInt8 :=
  bytes "HTTP/1.1 200 OK\r\nAccept-Ranges: bytes\r\nContent-Length: " ++ bytes (Nat.repr size) ++
  bytes "\r\nContent-Type: text/html\r\nDate: Sat, 06 Aug 2022 13:16:46 GMT\r\n\r\n"

/-- The line that `nty_http_request` looks at. -/
def firstLine (buffer : List UInt8) : List UInt8 := (readline buffer 0).2

/-- The search for the blank behind the target, where a zero is written, is left out: it is for a message on
the terminal. `Traced.findBlank` is that search, and what follows is what the code does if the blank is in
`linebuffer`. -/
def ntyHttpRequest (ev : NtyEvent Fields) : NtyEvent Fields :=
  let linebuffer := firstLine ev.buffer
  if strstr linebuffer (bytes "GET") then
    { ev with ext := ⟨HTTP_METHOD_GET,putText ev.ext.resource HTTP_WEB_ROOT⟩ }
  else if strstr linebuffer (bytes "POST") then
    { ev with ext := { ev.ext with method := HTTP_METHOD_POST } }
  else ev

/-- `wlength = sprintf(wbuffer, "%s", s)`. -/
def sprintf (ev : NtyEvent Fields) (s : List UInt8) : NtyEvent Fields :=
  { ev with wbuffer := putText ev.wbuffer s, wlength := s.length }

section Files
-- what `open` finds under a path
variable (files : List UInt8 → Option (List UInt8))

def ntyHttpResponseGetMethod (ev : NtyEvent Fields) : NtyEvent Fields :=
  match files (text ev.ext.resource) with
  | none => sprintf ev PAGE
  | some content => sprintf ev (header content.length)

def ntyHttpResponse (ev : NtyEvent Fields) : NtyEvent Fields :=
  if ev.ext.method = HTTP_METHOD_GET then ntyHttpResponseGetMethod files ev else ev

/-- The content of the file goes through `sendfile`, which fails when the file was not opened. -/
def rest (ev : NtyEvent Fields) : List (List UInt8) :=
  [(files (text ev.ext.resource)).getD [],bytes "\r\n"]

/-- Here `wbuffer` is what comes after `buffer`. -/
def app : App Fields where
  pastBuffer := fun ev => { ev with wbuffer := ev.wbuffer.set 0 0 }
  request := ntyHttpRequest
  response := ntyHttpResponse files
  rest := rest files

theorem ntyHttpRequest_eq (ev : NtyEvent Fields) :
    ntyHttpRequest ev = { ev with ext := (ntyHttpRequest ev).ext } := by
  unfold ntyHttpRequest
  dsimp only
  split
  · rfl
  · split <;> rfl

theorem ntyHttpResponse_eq (ev : NtyEvent Fields) : ntyHttpResponse files ev = { ev with
    wbuffer := (ntyHttpResponse files ev).wbuffer
    wlength := (ntyHttpResponse files ev).wlength } := by
  unfold ntyHttpResponse ntyHttpResponseGetMethod
  split
  · split <;> rfl
  · rfl

theorem app_lawful : (app files).Lawful where
  pastBuffer_status := fun _ => rfl
  pastBuffer_buffer := fun _ => rfl
  request_status := by
    intro ev
    change (ntyHttpRequest ev).status = ev.status
    rw [ntyHttpRequest_eq]
  request_size := by
    intro ev
    change (ntyHttpRequest ev).buffer.length = ev.buffer.length
    rw [ntyHttpRequest_eq]
  response_status := by
    intro ev
    change (ntyHttpResponse files ev).status = ev.status
    rw [ntyHttpResponse_eq]
  response_fd := by
    intro ev
    change (ntyHttpResponse files ev).fd = ev.fd
    rw [ntyHttpResponse_eq]
  response_size := by
    intro ev
    change (ntyHttpResponse files ev).buffer.length = ev.buffer.length
    rw [ntyHttpResponse_eq]

end Files
end ServerKit.Reactor.Http
