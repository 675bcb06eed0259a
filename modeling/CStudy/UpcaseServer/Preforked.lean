import CStudy.Foundation.Threads
import CStudy.UpcaseServer.Model

/-! The whole server of `prefork_server01`: `main` forks its children and waits for them. Each child
accepts one connection after the other on the shared socket and serves it alone; after an error of
one of its calls it returns from `main`. The processes take their steps in any order. -/
namespace CStudy.UpcaseServer.Preforked
open CStudy.Foundation

def numChildren : ℕ := 10

/-- Where the first process is: in the loop with `fork`, in the one with `waitpid`, or at its end. -/
inductive ParentPosition
  | forking
  | waiting
  | returned (status : ℤ)
  deriving DecidableEq

/-- Where a child is: about to accept, in its inner loop or behind it about to close the connection,
or at its end, which the parent may have learned from `waitpid`. -/
inductive ChildPosition
  | accepting
  | serving (client : ℕ)
  | exited
  | waitedFor
  deriving DecidableEq

namespace ChildPosition

def client? : ChildPosition → Option ℕ
  | .serving client => some client
  | _ => none

def isServing (x : ChildPosition) : Bool := x.client?.isSome

def isRunning : ChildPosition → Bool
  | .accepting => true
  | .serving _ => true
  | _ => false

end ChildPosition

/-- The connections are numbered in the order in which they are accepted. -/
structure State where
  parent : ParentPosition
  children : List ChildPosition
  connections : List Connection

def init : State := ⟨.forking,[],[]⟩

/-- The steps of the processes, with the outcomes of their calls. -/
inductive Action
  | fork (success : Bool)
  | accept (w : ℕ) (success : Bool)
  | answer (w : ℕ) (answer : Answer)
  | close (w : ℕ)
  /-- the child is ended by a signal, as by `SIGPIPE` in `send` -/
  | kill (w : ℕ)
  /-- `waitpid` returns a child that has ended, or -1 as there is none left -/
  | wait (w : Option ℕ)

/-- What has been done, with the messages of `perror`. -/
inductive Event
  | parent (messages : List String)
  | accepted (w client : ℕ)
  | notAccepted (w : ℕ) (messages : List String)
  | answered (w client : ℕ) (answer : Answer) (messages : List String)
  | closed (w client : ℕ)
  | killed (w : ℕ) (client : Option ℕ)

namespace State

def setChild (s : State) (w : ℕ) (x : ChildPosition) : State :=
  { s with children := s.children.set w x }

/-- `++i` and the test of the first loop -/
def forked (s : State) : State where
  parent := if s.children.length+1 < numChildren then .forking else .waiting
  children := s.children++[.accepting]
  connections := s.connections

def accepted (s : State) (w : ℕ) : State where
  parent := s.parent
  children := s.children.set w (.serving s.connections.length)
  connections := s.connections++[start]

/-- The inner loop has got to `c`; `return -1` in it ends the child. -/
def answered (s : State) (w i : ℕ) (c : Connection) : State where
  parent := s.parent
  children := s.children.set w (if c.position = .exited then .exited else .serving i)
  connections := s.connections.set i c

end State

def step : Machine State Action Event
  | s,.fork success =>
    if s.parent = .forking then
      if success then some (s.forked,.parent [])
      else some ({ s with parent := .returned (-1) },.parent ["fork"])
    else none
  | s,.accept w success =>
    if s.children[w]? = some .accepting then
      if success then some (s.accepted w,.accepted w s.connections.length)
      else some (s.setChild w .exited,.notAccepted w ["accept"])
    else none
  | s,.answer w answer => do
    let i ← s.children[w]?.bind ChildPosition.client?
    let c ← s.connections[i]?
    let r ← child.step c answer
    pure (s.answered w i r.1,.answered w i answer r.2)
  | s,.close w => do
    let i ← s.children[w]?.bind ChildPosition.client?
    let c ← s.connections[i]?
    if c.position = .closed then pure (s.setChild w .accepting,.closed w i) else none
  | s,.kill w => do
    let x ← s.children[w]?
    if x.isRunning then pure (s.setChild w .exited,.killed w x.client?) else none
  | s,.wait none =>
    if s.parent = .waiting ∧ ∀ x ∈ s.children, x = .waitedFor then
      some ({ s with parent := .returned 0 },.parent [])
    else none
  | s,.wait (some w) =>
    if s.parent = .waiting ∧ s.children[w]? = some .exited then
      some (s.setChild w .waitedFor,.parent [])
    else none

/-- What a step can do. -/
inductive Change (s : State) : Event → State → Prop
  | forked (parent : s.parent = .forking) : Change s (.parent []) s.forked
  | notForked (parent : s.parent = .forking) :
      Change s (.parent ["fork"]) { s with parent := .returned (-1) }
  | accepted {w : ℕ} (child : s.children[w]? = some .accepting) :
      Change s (.accepted w s.connections.length) (s.accepted w)
  | notAccepted {w : ℕ} (child : s.children[w]? = some .accepting) :
      Change s (.notAccepted w ["accept"]) (s.setChild w .exited)
  | answered {w i : ℕ} {c d : Connection} {answer : Answer} {messages : List String}
      (child : s.children[w]? = some (.serving i)) (connection : s.connections[i]? = some c)
      (answers : UpcaseServer.child.step c answer = some (d,messages)) :
      Change s (.answered w i answer messages) (s.answered w i d)
  | closed {w i : ℕ} {c : Connection} (child : s.children[w]? = some (.serving i))
      (connection : s.connections[i]? = some c) (position : c.position = .closed) :
      Change s (.closed w i) (s.setChild w .accepting)
  | killed {w : ℕ} {x : ChildPosition} (child : s.children[w]? = some x)
      (running : x.isRunning = true) : Change s (.killed w x.client?) (s.setChild w .exited)
  | ended (parent : s.parent = .waiting) (children : ∀ x ∈ s.children, x = .waitedFor) :
      Change s (.parent []) { s with parent := .returned 0 }
  | waited {w : ℕ} (parent : s.parent = .waiting) (child : s.children[w]? = some .exited) :
      Change s (.parent []) (s.setChild w .waitedFor)

section Cases
variable {s t : State} {w i : ℕ} {x : ChildPosition} {action : Action} {e : Event}

theorem eq_serving_of_client? (h : x.client? = some i) : x = .serving i := by
  cases x <;> simp_all [ChildPosition.client?]

theorem serving_of_bind (h : s.children[w]?.bind ChildPosition.client? = some i) :
    s.children[w]? = some (.serving i) := by
  obtain ⟨x,hx,hi⟩ := Option.bind_eq_some_iff.mp h
  rw [hx,eq_serving_of_client? hi]

theorem change_of_step (h : step s action = some (t,e)) : Change s e t := by
  cases action with
  | fork success =>
    simp only [step] at h
    split_ifs at h with hparent hsuccess
    · cases h
      exact .forked hparent
    · cases h
      exact .notForked hparent
  | accept w success =>
    simp only [step] at h
    split_ifs at h with hchild hsuccess
    · cases h
      exact .accepted hchild
    · cases h
      exact .notAccepted hchild
  | answer w answer =>
    obtain ⟨i,hi,h⟩ := Option.bind_eq_some_iff.mp h
    obtain ⟨c,hc,h⟩ := Option.bind_eq_some_iff.mp h
    obtain ⟨⟨d,messages⟩,hanswer,h⟩ := Option.bind_eq_some_iff.mp h
    cases h
    exact .answered (serving_of_bind hi) hc hanswer
  | close w =>
    obtain ⟨i,hi,h⟩ := Option.bind_eq_some_iff.mp h
    obtain ⟨c,hc,h⟩ := Option.bind_eq_some_iff.mp h
    split_ifs at h with hclosed
    cases h
    exact .closed (serving_of_bind hi) hc hclosed
  | kill w =>
    obtain ⟨x,hx,h⟩ := Option.bind_eq_some_iff.mp h
    split_ifs at h with hrunning
    cases h
    exact .killed hx hrunning
  | wait w =>
    cases w with
    | none =>
      simp only [step] at h
      split_ifs at h with hcond
      cases h
      exact .ended hcond.1 hcond.2
    | some w =>
      simp only [step] at h
      split_ifs at h with hcond
      cases h
      exact .waited hcond.1 hcond.2

end Cases

end CStudy.UpcaseServer.Preforked
