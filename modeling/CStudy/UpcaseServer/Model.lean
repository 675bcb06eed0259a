import CStudy.Foundation.Machine

/-! One connection of the servers that send back what they receive in upper case: the loop of
`handler` in `multi_thread_server01`, and the inner loop of a child in `prefork_server01`. Each is a
machine that is driven by the answers to its system calls. -/
namespace CStudy.UpcaseServer
open CStudy.Foundation

/-- `toupper` in the C locale. -/
def toupper (c : UInt8) : UInt8 := if 97 ≤ c ∧ c ≤ 122 then c-32 else c

/-- Where the server is: about to receive, about to send what is in its buffer, or done, with the
connection closed or with the process ended. -/
inductive Position
  | receiving
  | sending (buffer : List UInt8)
  | closed
  | exited
  deriving DecidableEq

/-- The answers to the system calls. -/
inductive Answer
  | received (chunk : List UInt8)
  /-- `recv` or `read` returns 0 -/
  | ended
  /-- it returns -1 with `EINTR` -/
  | interrupted
  /-- it returns -1 with another error -/
  | failed
  /-- `send` accepts so many bytes -/
  | sent (count : ℕ)
  | sendFailed
  deriving DecidableEq

/-- The bytes that have been received and those `send` has accepted, both since the connection was
made. -/
structure Connection where
  received : List UInt8
  accepted : List UInt8
  position : Position

def start : Connection := ⟨[],[],.receiving⟩

namespace Connection

/-- The loop with `toupper`, behind the call that has filled the buffer. -/
def receive (s : Connection) (chunk : List UInt8) : Connection :=
  { s with received := s.received++chunk, position := .sending (chunk.map toupper) }

/-- `send` has accepted the first bytes of the buffer. -/
def send (s : Connection) (buffer : List UInt8) (count : ℕ) : Connection :=
  { s with accepted := s.accepted++buffer.take count, position := .receiving }

def move (s : Connection) (position : Position) : Connection := { s with position := position }

end Connection

/-- What a server does about an error: `continue`, `break`, which closes the connection, or
`return -1`. -/
inductive Reaction
  | goOn
  | close
  | exit
  deriving DecidableEq

def Reaction.position : Reaction → Position
  | .goOn => .receiving
  | .close => .closed
  | .exit => .exited

/-- In what the two loops differ: the size of the buffer, and for each error what is done about it
and what `perror` is called with. -/
structure Server where
  bufSize : ℕ
  interrupted : Reaction × List String
  failed : Reaction × List String
  sendFailed : Reaction × List String

/-- The loop over the calls, with the messages of `perror`. -/
def Server.step (server : Server) : Machine Connection Answer (List String)
  | s,.received chunk =>
    if s.position = .receiving ∧ 1 ≤ chunk.length ∧ chunk.length ≤ server.bufSize then
      some (s.receive chunk,[])
    else none
  | s,.ended => if s.position = .receiving then some (s.move .closed,[]) else none
  | s,.interrupted =>
    if s.position = .receiving then
      some (s.move server.interrupted.1.position,server.interrupted.2)
    else none
  | s,.failed =>
    if s.position = .receiving then some (s.move server.failed.1.position,server.failed.2) else none
  | s,.sent count =>
    match s.position with
    | .sending buffer =>
      if 1 ≤ count ∧ count ≤ buffer.length then some (s.send buffer count,[]) else none
    | _ => none
  | s,.sendFailed =>
    match s.position with
    | .sending _ => some (s.move server.sendFailed.1.position,server.sendFailed.2)
    | _ => none

/-- `handler` in `multi_thread_server01`, which goes on when `send` has failed. -/
def handler : Server := ⟨1024,(.close,["recv"]),(.close,["recv"]),(.goOn,["send"])⟩

/-- The inner loop of a child in `prefork_server01`. -/
def child : Server := ⟨256,(.goOn,[]),(.exit,["read"]),(.exit,["send"])⟩

/-- What a step can do. -/
inductive Change (s : Connection) : Answer → Connection → Prop
  | receive {chunk : List UInt8} (position : s.position = .receiving) :
      Change s (.received chunk) (s.receive chunk)
  | send {buffer : List UInt8} {count : ℕ} (position : s.position = .sending buffer) :
      Change s (.sent count) (s.send buffer count)
  | move {answer : Answer} {position : Position} (idle : ∀ buffer, position ≠ .sending buffer) :
      Change s answer (s.move position)

section Cases
variable {server : Server} {s t : Connection} {answer : Answer} {messages : List String}

theorem Reaction.position_ne_sending (r : Reaction) (buffer : List UInt8) :
    r.position ≠ .sending buffer := by cases r <;> rintro ⟨⟩

theorem change_of_step (h : server.step s answer = some (t,messages)) : Change s answer t := by
  cases answer with
  | received chunk =>
    simp only [Server.step] at h
    split_ifs at h with hcond
    cases h
    exact .receive hcond.1
  | ended =>
    simp only [Server.step] at h
    split_ifs at h
    cases h
    exact .move (by rintro _ ⟨⟩)
  | interrupted =>
    simp only [Server.step] at h
    split_ifs at h
    cases h
    exact .move (Reaction.position_ne_sending _)
  | failed =>
    simp only [Server.step] at h
    split_ifs at h
    cases h
    exact .move (Reaction.position_ne_sending _)
  | sent count =>
    simp only [Server.step] at h
    split at h
    · next buffer hpos =>
      split_ifs at h
      cases h
      exact .send hpos
    · cases h
  | sendFailed =>
    simp only [Server.step] at h
    split at h
    · cases h
      exact .move (Reaction.position_ne_sending _)
    · cases h

end Cases

end CStudy.UpcaseServer
