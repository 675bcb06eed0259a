import CStudy.Foundation.Machine
import Mathlib.Data.Finset.Insert

/-! The chat server of `tcp_server_chat01` as a machine that is driven by the answers to its system
calls. Between two calls its loops run on alone, one pass of the inner loop at a step. The system
gives a new client a descriptor that is not open. -/
namespace CStudy.ChatServer
open CStudy.Foundation

def fdSetSize : ℕ := 1024

/-- The size of `buf`. -/
def bufSize : ℕ := 1024

/-- Where the server is: about to call `select`, at a pass of `for (int i = 1; …)`, or at its end. -/
inductive Position
  | top
  | scan (i : ℕ)
  | exited (status : ℕ)
  deriving DecidableEq

/-- The answers to the system calls. -/
inductive Answer
  /-- there is no call in this pass -/
  | noCall
  /-- the descriptors that are left in `reads` -/
  | select (ready : Finset ℕ)
  | selectFailed
  | accept (clientSock : ℕ)
  | acceptFailed
  /-- as many bytes as are returned, and none if the client has closed its connection -/
  | recv (chunk : List UInt8)
  | recvFailed
  deriving DecidableEq

/-- What the server does. -/
inductive Event
  | polled (fds : Finset ℕ)
  | accepted (fd : ℕ)
  /-- `recv` has returned these bytes -/
  | received (fd : ℕ) (chunk : List UInt8)
  /-- `recv` has returned -1, and the descriptor is closed -/
  | dropped (fd : ℕ)
  /-- `send` is called with these bytes -/
  | sent (fd : ℕ) (chunk : List UInt8)
  | perror (message : String)
  deriving DecidableEq

/-- The variables of `main`, and the descriptors that are open. -/
structure Server where
  serverSock : ℕ
  master : Finset ℕ
  maxFd : ℕ
  reads : Finset ℕ
  position : Position
  opened : Finset ℕ

/-- `main` up to its loop, with the descriptors that are open before it. `FD_SET` is undefined for a
descriptor that is not below `FD_SETSIZE`. -/
def start (serverSock : ℕ) (opened : Finset ℕ) : Option Server :=
  if serverSock < fdSetSize then
    some ⟨serverSock,{serverSock},serverSock,∅,.top,insert serverSock opened⟩
  else none

namespace Server

/-- The descriptor this pass has to do with: `i <= max_fd` and `FD_ISSET(i, &reads)`. -/
def turn (s : Server) : Option ℕ :=
  match s.position with
  | .scan i => if i ≤ s.maxFd ∧ i ∈ s.reads then some i else none
  | _ => none

/-- `++i` -/
def next (s : Server) (i : ℕ) : Server := { s with position := .scan (i+1) }

/-- A pass in which nothing is to be read, or the end of the loop. -/
def passOn (s : Server) : Option Server :=
  match s.position with
  | .scan i =>
    if i ≤ s.maxFd then if i ∈ s.reads then none else some (s.next i)
    else some { s with position := .top }
  | _ => none

/-- The branch for a new connection. -/
def welcome (s : Server) (clientSock : ℕ) : Server :=
  { s with
    master := insert clientSock s.master
    maxFd := if clientSock > s.maxFd then clientSock else s.maxFd
    opened := insert clientSock s.opened }

/-- `FD_CLR(i, &master); close(i);` -/
def drop (s : Server) (i : ℕ) : Server :=
  { s with master := s.master.erase i, opened := s.opened.erase i }

/-- `for (int j = 1; j <= max_fd; ++j)`: the descriptors `send` is called with. -/
def recipients (s : Server) (i : ℕ) : List ℕ :=
  (List.range' 1 s.maxFd).filter fun j => decide (j ∈ s.master ∧ ¬ (j = s.serverSock ∨ j = i))

end Server

def step : Machine Server Answer (List Event)
  | s,.noCall => s.passOn.map fun t => (t,[])
  | s,.select ready =>
    if s.position = .top ∧ ready ⊆ s.master then
      some ({ s with reads := ready, position := .scan 1 },[.polled s.master])
    else none
  | s,.selectFailed =>
    if s.position = .top then
      some ({ s with position := .exited 1 },[.polled s.master,.perror "select"])
    else none
  | s,.accept clientSock =>
    if s.turn = some s.serverSock ∧ 1 ≤ clientSock ∧ clientSock ∉ s.opened ∧
        clientSock < fdSetSize then
      some ((s.welcome clientSock).next s.serverSock,[.accepted clientSock])
    else none
  | s,.acceptFailed =>
    if s.turn = some s.serverSock then
      some ({ s with position := .exited 1 },[.perror "accept"])
    else none
  | s,.recv chunk =>
    match s.turn with
    | some i =>
      if i ≠ s.serverSock ∧ chunk.length ≤ bufSize then
        some (s.next i,.received i chunk::(s.recipients i).map fun j => .sent j chunk)
      else none
    | none => none
  | s,.recvFailed =>
    match s.turn with
    | some i => if i ≠ s.serverSock then some ((s.drop i).next i,[.dropped i]) else none
    | none => none

/-- What a step can do. -/
inductive Change (s : Server) : Answer → Server → List Event → Prop
  | finish {i : ℕ} (position : s.position = .scan i) :
      Change s .noCall { s with position := .top } []
  | skip {i : ℕ} (position : s.position = .scan i) (unset : i ∉ s.reads) :
      Change s .noCall (s.next i) []
  | select {ready : Finset ℕ} (position : s.position = .top) (subset : ready ⊆ s.master) :
      Change s (.select ready) { s with reads := ready, position := .scan 1 } [.polled s.master]
  | selectFailed (position : s.position = .top) :
      Change s .selectFailed { s with position := .exited 1 } [.polled s.master,.perror "select"]
  | accept {clientSock : ℕ} (position : s.position = .scan s.serverSock) (positive : 1 ≤ clientSock)
      (fresh : clientSock ∉ s.opened) :
      Change s (.accept clientSock) ((s.welcome clientSock).next s.serverSock) [.accepted clientSock]
  | acceptFailed (position : s.position = .scan s.serverSock) :
      Change s .acceptFailed { s with position := .exited 1 } [.perror "accept"]
  | recv {i : ℕ} {chunk : List UInt8} (position : s.position = .scan i) (set : i ∈ s.reads)
      (client : i ≠ s.serverSock) :
      Change s (.recv chunk) (s.next i)
        (.received i chunk::(s.recipients i).map fun j => .sent j chunk)
  | recvFailed {i : ℕ} (position : s.position = .scan i) (set : i ∈ s.reads)
      (client : i ≠ s.serverSock) : Change s .recvFailed ((s.drop i).next i) [.dropped i]

section Cases
variable {s t : Server} {answer : Answer} {events : List Event} {i : ℕ}

theorem turn_eq_some (h : s.turn = some i) : s.position = .scan i ∧ i ≤ s.maxFd ∧ i ∈ s.reads := by
  unfold Server.turn at h
  split at h
  · next k hk =>
    split_ifs at h with hread
    cases h
    exact ⟨hk,hread⟩
  · cases h

theorem change_passOn (h : s.passOn = some t) : Change s .noCall t [] := by
  unfold Server.passOn at h
  split at h
  · next k hk =>
    split_ifs at h with hle hread
    · cases h
      exact .skip hk hread
    · cases h
      exact .finish hk
  · cases h

theorem change_of_step (h : step s answer = some (t,events)) : Change s answer t events := by
  cases answer with
  | noCall =>
    obtain ⟨u,hu,he⟩ := Option.map_eq_some_iff.mp h
    cases he
    exact change_passOn hu
  | select ready =>
    simp only [step] at h
    split_ifs at h with hcond
    cases h
    exact .select hcond.1 hcond.2
  | selectFailed =>
    simp only [step] at h
    split_ifs at h with htop
    cases h
    exact .selectFailed htop
  | accept clientSock =>
    simp only [step] at h
    split_ifs at h with hcond
    cases h
    exact .accept (turn_eq_some hcond.1).1 hcond.2.1 hcond.2.2.1
  | acceptFailed =>
    simp only [step] at h
    split_ifs at h with hturn
    cases h
    exact .acceptFailed (turn_eq_some hturn).1
  | recv chunk =>
    simp only [step] at h
    split at h
    · next i hturn =>
      obtain ⟨hpos,_,hread⟩ := turn_eq_some hturn
      split_ifs at h with hcond
      cases h
      exact .recv hpos hread hcond.1
    · cases h
  | recvFailed =>
    simp only [step] at h
    split at h
    · next i hturn =>
      obtain ⟨hpos,_,hread⟩ := turn_eq_some hturn
      split_ifs at h with hcond
      cases h
      exact .recvFailed hpos hread hcond
    · cases h

end Cases

end CStudy.ChatServer
