import CStudy.Foundation.Ownership
import CStudy.Foundation.Threads
import CStudy.UpcaseServer.Model

/-! The whole server of `multi_thread_server01`: `main` allocates a `struct client_info` for the
next client, accepts it, and starts a detached thread with `handler`, which closes the socket and
frees the struct. The threads take their steps in any order, and return from `main` ends them all. -/
namespace CStudy.UpcaseServer.Multithreaded
open CStudy.Foundation

/-- `struct client_info` without the address, which nothing reads. It has no socket as long as
nothing has been stored. -/
structure ClientInfo where
  sock : Option Ptr

/-- Where `main` is in its loop, with the local variable `info`. -/
inductive MainPosition
  | allocate
  | accept (info : Ptr)
  | create (info : Ptr)
  | exited
  deriving DecidableEq

/-- Where `handler` is: in its loop or behind it about to close the socket, about to free its
argument, or at its end. -/
inductive HandlerPosition
  | serving
  | freeing
  | ended
  deriving DecidableEq

structure Handler where
  info : Ptr
  connection : Connection
  position : HandlerPosition

structure State where
  main : MainPosition
  infos : Heap ClientInfo
  /-- open file descriptors of connections -/
  sockets : Heap Unit
  handlers : List Handler

def init : State := ⟨.allocate,Heap.empty,Heap.empty,[]⟩

/-- The steps of the threads, with the outcomes of their calls. -/
inductive Action
  | malloc (success : Bool)
  | accept (success : Bool)
  | create (success : Bool)
  | answer (i : ℕ) (answer : Answer)
  | close (i : ℕ)
  | free (i : ℕ)

namespace State

/-- The thread that is about to make a step: no thread makes one after `main` has returned. -/
def thread (s : State) (i : ℕ) : Option Handler :=
  if s.main = .exited then none else s.handlers[i]?

/-- `info->sock` as an argument of a call, which has to be an open descriptor. -/
def socketOf (s : State) (info : Ptr) : Option Ptr := do
  let c ← s.infos.read info
  let sock ← c.sock
  let _ ← s.sockets.read sock
  pure sock

def setHandler (s : State) (i : ℕ) (t : Handler) : State :=
  { s with handlers := s.handlers.set i t }

end State

/-- The error message of a failed call and what `main` does about it. -/
def step : Machine State Action (List String)
  | s,.malloc success =>
    match s.main with
    | .allocate =>
      if success then
        some ({ s with infos := s.infos.alloc ⟨none⟩, main := .accept s.infos.top },[])
      else some ({ s with main := .exited },["malloc(struct client_info)"])
    | _ => none
  | s,.accept success =>
    match s.main with
    | .accept info => do
      if success then
        let infos ← s.infos.store info fun _ => ⟨some s.sockets.top⟩
        pure ({ s with infos := infos, sockets := s.sockets.alloc (), main := .create info },[])
      else
        let infos ← s.infos.release info
        pure ({ s with infos := infos, main := .allocate },["accept"])
    | _ => none
  | s,.create success =>
    match s.main with
    | .create info =>
      if success then
        some ({ s with handlers := s.handlers++[⟨info,start,.serving⟩], main := .allocate },[])
      else do
        -- the socket stays open
        let infos ← s.infos.release info
        pure ({ s with infos := infos, main := .allocate },["pthread_create"])
    | _ => none
  | s,.answer i answer => do
    let t ← s.thread i
    if t.position = .serving then
      let _ ← s.socketOf t.info
      let r ← handler.step t.connection answer
      pure (s.setHandler i { t with connection := r.1 },r.2)
    else none
  | s,.close i => do
    let t ← s.thread i
    if t.position = .serving ∧ t.connection.position = .closed then
      let sock ← s.socketOf t.info
      let sockets ← s.sockets.release sock
      pure ({ s.setHandler i { t with position := .freeing } with sockets := sockets },[])
    else none
  | s,.free i => do
    let t ← s.thread i
    if t.position = .freeing then
      let infos ← s.infos.release t.info
      pure ({ s.setHandler i { t with position := .ended } with infos := infos },[])
    else none

/-- What a step can do. -/
inductive Change (s : State) : Action → State → Prop
  | allocated (main : s.main = .allocate) :
      Change s (.malloc true)
        { s with infos := s.infos.alloc ⟨none⟩, main := .accept s.infos.top }
  | outOfMemory (main : s.main = .allocate) : Change s (.malloc false) { s with main := .exited }
  | accepted {info : Ptr} (main : s.main = .accept info) :
      Change s (.accept true)
        { s with
          infos := s.infos.modify info fun _ => ⟨some s.sockets.top⟩
          sockets := s.sockets.alloc ()
          main := .create info }
  | refused {info : Ptr} (main : s.main = .accept info) :
      Change s (.accept false) { s with infos := s.infos.free info, main := .allocate }
  | started {info : Ptr} (main : s.main = .create info) :
      Change s (.create true)
        { s with handlers := s.handlers++[⟨info,start,.serving⟩], main := .allocate }
  | notStarted {info : Ptr} (main : s.main = .create info) :
      Change s (.create false) { s with infos := s.infos.free info, main := .allocate }
  | answered {i : ℕ} {t : Handler} {answer : Answer} {c : Connection} {messages : List String}
      (thread : s.handlers[i]? = some t) (position : t.position = .serving)
      (answers : handler.step t.connection answer = some (c,messages)) :
      Change s (.answer i answer) (s.setHandler i { t with connection := c })
  | closed {i : ℕ} {t : Handler} {sock : Ptr} (thread : s.handlers[i]? = some t)
      (position : t.position = .serving) (socket : s.socketOf t.info = some sock) :
      Change s (.close i)
        { s.setHandler i { t with position := .freeing } with sockets := s.sockets.free sock }
  | freed {i : ℕ} {t : Handler} (thread : s.handlers[i]? = some t)
      (position : t.position = .freeing) :
      Change s (.free i)
        { s.setHandler i { t with position := .ended } with infos := s.infos.free t.info }

section Cases
variable {s u : State} {i : ℕ} {t : Handler} {action : Action} {messages : List String}

theorem State.thread_eq (h : s.thread i = some t) : s.main ≠ .exited ∧ s.handlers[i]? = some t := by
  rw [State.thread] at h
  split_ifs at h with hmain
  exact ⟨hmain,h⟩

theorem release_eq_some {α : Type} {h h' : Heap α} {p : Ptr} (hr : h.release p = some h') :
    h' = h.free p := by
  obtain ⟨_,_,rfl⟩ := Option.map_eq_some_iff.mp hr
  rfl

theorem change_of_step (h : step s action = some (u,messages)) : Change s action u := by
  cases action with
  | malloc success =>
    simp only [step] at h
    split at h
    · next hmain =>
      cases success with
      | true =>
        cases h
        exact .allocated hmain
      | false =>
        cases h
        exact .outOfMemory hmain
    · cases h
  | accept success =>
    simp only [step] at h
    split at h
    · next info hmain =>
      cases success with
      | true =>
        obtain ⟨infos,hstore,hu⟩ := Option.bind_eq_some_iff.mp h
        obtain ⟨_,_,rfl⟩ := Option.map_eq_some_iff.mp hstore
        cases hu
        exact .accepted hmain
      | false =>
        obtain ⟨infos,hrelease,hu⟩ := Option.bind_eq_some_iff.mp h
        cases release_eq_some hrelease
        cases hu
        exact .refused hmain
    · cases h
  | create success =>
    simp only [step] at h
    split at h
    · next info hmain =>
      cases success with
      | true =>
        cases h
        exact .started hmain
      | false =>
        obtain ⟨infos,hrelease,hu⟩ := Option.bind_eq_some_iff.mp h
        cases release_eq_some hrelease
        cases hu
        exact .notStarted hmain
    · cases h
  | answer i answer =>
    obtain ⟨t,ht,h⟩ := Option.bind_eq_some_iff.mp h
    split_ifs at h with hpos
    obtain ⟨sock,_,h⟩ := Option.bind_eq_some_iff.mp h
    obtain ⟨⟨c,texts⟩,hanswer,h⟩ := Option.bind_eq_some_iff.mp h
    cases h
    exact .answered (State.thread_eq ht).2 hpos hanswer
  | close i =>
    obtain ⟨t,ht,h⟩ := Option.bind_eq_some_iff.mp h
    split_ifs at h with hpos
    obtain ⟨sock,hsock,h⟩ := Option.bind_eq_some_iff.mp h
    obtain ⟨sockets,hrelease,h⟩ := Option.bind_eq_some_iff.mp h
    cases release_eq_some hrelease
    cases h
    exact .closed (State.thread_eq ht).2 hpos.1 hsock
  | free i =>
    obtain ⟨t,ht,h⟩ := Option.bind_eq_some_iff.mp h
    split_ifs at h with hpos
    obtain ⟨infos,hrelease,h⟩ := Option.bind_eq_some_iff.mp h
    cases release_eq_some hrelease
    cases h
    exact .freed (State.thread_eq ht).2 hpos

end Cases

end CStudy.UpcaseServer.Multithreaded
