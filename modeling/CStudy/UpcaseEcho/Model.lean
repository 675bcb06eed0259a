import CStudy.Foundation.Machine
import CStudy.Foundation.Datagrams
import CStudy.UpcaseServer.Model

/-! The server of `v6_upcase_echo` with any number of its clients. They share a network that may
lose, double and reorder datagrams. A system call and the code behind it up to the next one is one
step; a client is told apart by its port. -/
namespace CStudy.UpcaseEcho
open CStudy.Foundation
open CStudy.UpcaseServer (toupper)

/-- An argument of `main`. -/
abbrev Message := {bytes : List UInt8 // 0 ∉ bytes}

/-- `char buffer[32]` of both programs. -/
def bufferSize : ℕ := 32

inductive ServerPc
  | receiving
  /-- at `sendto`, with the client and its upper-case bytes -/
  | sending (client : ℕ) (buffer : List UInt8)
  /-- `return -1` -/
  | exited
  deriving DecidableEq

inductive ClientPc
  | sending
  | receiving
  | exited
  deriving DecidableEq

/-- A client with its messages from `argv[2]` on; `next` is `i - 2` of its loop. `output` are the
numbers and the texts it has printed. -/
structure Client where
  messages : List Message
  next : ℕ
  pc : ClientPc
  output : List (ℕ × List UInt8)

structure State where
  server : ServerPc
  clients : List Client
  requests : List (Datagram (List UInt8))
  responses : List (Datagram (List UInt8))

/-- The two directions of the network. -/
inductive Way
  | requests
  | responses
  deriving DecidableEq

/-- Who goes on, with the datagram it receives, or what happens to a datagram in flight. -/
inductive Action
  | serverReceive (i : ℕ)
  | serverReceiveFails
  | serverSend
  | serverSendFails
  | clientSend (k : ℕ)
  | clientSendFails (k : ℕ)
  | clientReceive (k i : ℕ)
  | clientReceiveFails (k : ℕ)
  | lose (way : Way) (i : ℕ)
  | double (way : Way) (i : ℕ)
  deriving DecidableEq

inductive Event
  | silent
  /-- `Server receive %ld bytes from (%s, %u)` -/
  | served (client count : ℕ)
  /-- `## Response %d: %.*s` -/
  | printed (client number : ℕ) (text : List UInt8)
  | perror (call : String)
  deriving DecidableEq

/-- What `%.*s` prints of a buffer. -/
def shown (buffer : List UInt8) : List UInt8 := buffer.takeWhile fun c => c ≠ 0

/-- The loop with `toupper`. -/
def upcase (buffer : List UInt8) : List UInt8 := buffer.map toupper

def startClient (messages : List Message) : Client :=
  ⟨messages,0,if messages = [] then .exited else .sending,[]⟩

def start (messages : List (List Message)) : State :=
  ⟨.receiving,messages.map startClient,[],[]⟩

/-- The next round of the loop, or its end. -/
def Client.print (c : Client) (buffer : List UInt8) : Client :=
  { c with
    next := c.next+1
    pc := if c.next+1 < c.messages.length then .sending else .exited
    output := c.output++[(c.next+1,shown buffer)] }

def Client.move (c : Client) (pc : ClientPc) : Client := { c with pc := pc }

def State.setClient (s : State) (k : ℕ) (c : Client) : State :=
  { s with clients := s.clients.set k c }

def serverReceive (s : State) (i : ℕ) : Option (State × Event) :=
  match s.server,s.requests[i]? with
  | .receiving,some d =>
    let buffer := d.bytes.take bufferSize
    some ({ s with
      server := .sending d.port (upcase buffer)
      requests := s.requests.eraseIdx i },.served d.port buffer.length)
  | _,_ => none

def serverSend (s : State) : Option (State × Event) :=
  match s.server with
  | .sending client buffer =>
    some ({ s with server := .receiving, responses := s.responses++[Datagram.mk client buffer] },.silent)
  | _ => none

def clientSend (s : State) (k : ℕ) : Option (State × Event) :=
  match s.clients[k]? with
  | some c =>
    match c.pc,c.messages[c.next]? with
    | .sending,some m =>
      some ({ s with requests := s.requests++[Datagram.mk k m.val] }.setClient k (c.move .receiving),.silent)
    | _,_ => none
  | none => none

def clientReceive (s : State) (k i : ℕ) : Option (State × Event) :=
  match s.clients[k]?,s.responses[i]? with
  | some c,some d =>
    if c.pc = .receiving ∧ d.port = k then
      let buffer := d.bytes.take bufferSize
      some ({ s with responses := s.responses.eraseIdx i }.setClient k (c.print buffer),
        .printed k (c.next+1) (shown buffer))
    else none
  | _,_ => none

/-- A client ends with `perror` from where it is. -/
def clientFails (s : State) (k : ℕ) (pc : ClientPc) (call : String) : Option (State × Event) :=
  match s.clients[k]? with
  | some c => if c.pc = pc then some (s.setClient k (c.move .exited),.perror call) else none
  | none => none

def State.net (s : State) : Way → List (Datagram (List UInt8))
  | .requests => s.requests
  | .responses => s.responses

def State.setNet (s : State) (net : List (Datagram (List UInt8))) : Way → State
  | .requests => { s with requests := net }
  | .responses => { s with responses := net }

def step : Machine State Action Event
  | s,.serverReceive i => serverReceive s i
  | s,.serverReceiveFails =>
    match s.server with
    | .receiving => some ({ s with server := .exited },.perror "recvfrom")
    | _ => none
  | s,.serverSend => serverSend s
  | s,.serverSendFails =>
    match s.server with
    | .sending _ _ => some ({ s with server := .exited },.perror "sendto")
    | _ => none
  | s,.clientSend k => clientSend s k
  | s,.clientSendFails k => clientFails s k .sending "sendto"
  | s,.clientReceive k i => clientReceive s k i
  | s,.clientReceiveFails k => clientFails s k .receiving "recvfrom"
  | s,.lose way i =>
    if i < (s.net way).length then some (s.setNet ((s.net way).eraseIdx i) way,.silent) else none
  | s,.double way i =>
    match (s.net way)[i]? with
    | some d => some (s.setNet (s.net way++[d]) way,.silent)
    | none => none

end CStudy.UpcaseEcho
