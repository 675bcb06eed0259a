import CStudy.Foundation.Machine
import CStudy.Foundation.Ownership
import CStudy.UpcaseServer.Model

/-! `libuv_tcp_server01`: one thread in the event loop, which runs the callbacks of the server one at
a time. When and with what `libuv` calls them is given by the actions: `AllocBuffer` comes before each
`ReadCallback`, an error or the end of the input may be the last of a stream, and the requests that
`uv_write` has accepted are called back in their order, their buffers being sent until then. -/
namespace CStudy.UpcaseServer.Evented
open CStudy.Foundation

/-- What `malloc` has been called for: a `uv_tcp_t`, characters, or a `struct Request`, whose `buf` is
not set at first. -/
inductive Block
  | client
  | chars (bytes : List UInt8)
  | request (buf : Option Ptr)

/-- A stream that has been accepted. -/
structure Stream where
  client : Ptr
  /-- there are callbacks to come for what is read -/
  reading : Bool
  /-- `buf->base` between `AllocBuffer` and `ReadCallback`, which is null if `malloc` has failed -/
  base : Option (Option Ptr)
  /-- the requests that `uv_write` has accepted and that are not yet called back, in order -/
  writes : List Ptr

structure State where
  heap : Heap Block
  streams : List Stream
  exited : Bool

def init : State := ⟨Heap.empty,[],false⟩

/-- How far `ReadCallback` gets with what has been read: one of its calls of `malloc` fails, or
`uv_write` returns an error, which is ignored. -/
inductive Outcome
  | noRequest
  | noBuffer
  | notQueued
  | queued
  deriving DecidableEq

inductive Action
  /-- `ConnectionCallback`; reading may not have been started -/
  | connection (success reading : Bool)
  /-- `AllocBuffer`, with what `malloc` has returned -/
  | alloc (i : ℕ) (block : Option (List UInt8))
  /-- `ReadCallback` when the chunk has been read -/
  | read (i : ℕ) (chunk : List UInt8) (outcome : Outcome)
  /-- `ReadCallback` with `UV_EOF` -/
  | eof (i : ℕ)
  /-- `ReadCallback` with another error -/
  | error (i : ℕ) (reading : Bool)
  /-- `WriteCallback` -/
  | write (i : ℕ) (success : Bool)

inductive Event
  | connected
  | notConnected
  | allocated
  | received (i : ℕ) (chunk : List UInt8) (queued : Bool)
  | ended (i : ℕ)
  | failed (i : ℕ)
  | sent (i : ℕ) (bytes : List UInt8) (success : Bool)
  | exited (message : String)

/-- `r->buf` -/
def bufOf (heap : Heap Block) (req : Ptr) : Option Ptr :=
  match heap.read req with
  | some (.request buf) => buf
  | _ => none

def charsOf (heap : Heap Block) (p : Ptr) : Option (List UInt8) :=
  match heap.read p with
  | some (.chars bytes) => some bytes
  | _ => none

/-- What `libuv` has read, at the beginning of the buffer. -/
def fill (block chunk : List UInt8) : List UInt8 := chunk++block.drop chunk.length

/-- The loop with `toupper` over the first `nread` characters. -/
def upcase (block : List UInt8) (nread : ℕ) : List UInt8 := (block.take nread).map toupper

/-- Allocate the request and its buffer. -/
def newRequest (heap : Heap Block) (bytes : List UInt8) : Heap Block :=
  let req := heap.top
  let heap := heap.alloc (.request none)
  let buf := heap.top
  let heap := heap.alloc (.chars bytes)
  heap.modify req fun _ => .request (some buf)

/-- `free(r->buf); free(r);` -/
def freeRequest (heap : Heap Block) (req : Ptr) : Option (Heap Block) := do
  let buf ← bufOf heap req
  let heap ← heap.release buf
  heap.release req

namespace State

def stream (s : State) (i : ℕ) : Option Stream := if s.exited then none else s.streams[i]?

def update (s : State) (i : ℕ) (t : Stream) (heap : Heap Block) : State :=
  { s with heap := heap, streams := s.streams.set i t }

end State

def step : Machine State Action Event
  | s,.connection success reading =>
    if s.exited then none
    else if success then
      some ({ s with
        heap := s.heap.alloc .client
        streams := s.streams++[⟨s.heap.top,reading,none,[]⟩] },.connected)
    else some (s,.notConnected)
  | s,.alloc i block => do
    let t ← s.stream i
    if t.reading ∧ t.base = none then
      match block with
      | none => pure (s.update i { t with base := some none } s.heap,.allocated)
      | some bytes =>
        pure (s.update i { t with base := some (some s.heap.top) } (s.heap.alloc (.chars bytes)),
          .allocated)
    else none
  | s,.read i chunk outcome => do
    let t ← s.stream i
    let base ← t.base.join
    let block ← charsOf s.heap base
    if chunk.length ≤ block.length then
      match outcome with
      | .noRequest => pure ({ s with exited := true },.exited "malloc")
      | .noBuffer => pure ({ s with exited := true },.exited "malloc")
      | .notQueued =>
        let heap ← (newRequest s.heap (upcase (fill block chunk) chunk.length)).release base
        pure (s.update i { t with base := none } heap,.received i chunk false)
      | .queued =>
        let heap ← (newRequest s.heap (upcase (fill block chunk) chunk.length)).release base
        pure (s.update i { t with base := none, writes := t.writes++[s.heap.top] } heap,
          .received i chunk true)
    else none
  | s,.eof i => do
    let t ← s.stream i
    let _ ← t.base.join
    -- `buf->base` is not freed
    pure (s.update i { t with reading := false, base := none } s.heap,.ended i)
  | s,.error i reading => do
    let t ← s.stream i
    match t.base with
    | none => none
    | some none =>
      pure (s.update i { t with reading := reading, base := none } s.heap,.failed i)
    | some (some base) =>
      let heap ← s.heap.release base
      pure (s.update i { t with reading := reading, base := none } heap,.failed i)
  | s,.write i success => do
    let t ← s.stream i
    match t.writes with
    | [] => none
    | req::writes =>
      let buf ← bufOf s.heap req
      let bytes ← charsOf s.heap buf
      let heap ← freeRequest s.heap req
      pure (s.update i { t with writes := writes } heap,.sent i bytes success)

/-- What a step can do. -/
inductive Change (s : State) : Event → State → Prop
  | connected {reading : Bool} :
      Change s .connected { s with
        heap := s.heap.alloc .client
        streams := s.streams++[⟨s.heap.top,reading,none,[]⟩] }
  | notConnected : Change s .notConnected s
  | outOfMemory {i : ℕ} {t : Stream} (stream : s.streams[i]? = some t) (base : t.base = none) :
      Change s .allocated (s.update i { t with base := some none } s.heap)
  | allocated {i : ℕ} {t : Stream} {bytes : List UInt8} (stream : s.streams[i]? = some t)
      (base : t.base = none) :
      Change s .allocated
        (s.update i { t with base := some (some s.heap.top) } (s.heap.alloc (.chars bytes)))
  | exited {message : String} : Change s (.exited message) { s with exited := true }
  | notQueued {i : ℕ} {t : Stream} {base : Ptr} {chunk block : List UInt8}
      (stream : s.streams[i]? = some t) (held : t.base = some (some base)) :
      Change s (.received i chunk false) (s.update i { t with base := none }
        ((newRequest s.heap (upcase (fill block chunk) chunk.length)).free base))
  | queued {i : ℕ} {t : Stream} {base : Ptr} {chunk block : List UInt8}
      (stream : s.streams[i]? = some t) (held : t.base = some (some base)) :
      Change s (.received i chunk true) (s.update i
        { t with base := none, writes := t.writes++[s.heap.top] }
        ((newRequest s.heap (upcase (fill block chunk) chunk.length)).free base))
  | ended {i : ℕ} {t : Stream} {base : Ptr} (stream : s.streams[i]? = some t)
      (held : t.base = some (some base)) :
      Change s (.ended i) (s.update i { t with reading := false, base := none } s.heap)
  | noBuffer {i : ℕ} {t : Stream} {reading : Bool} (stream : s.streams[i]? = some t)
      (held : t.base = some none) :
      Change s (.failed i) (s.update i { t with reading := reading, base := none } s.heap)
  | failed {i : ℕ} {t : Stream} {base : Ptr} {reading : Bool} (stream : s.streams[i]? = some t)
      (held : t.base = some (some base)) :
      Change s (.failed i)
        (s.update i { t with reading := reading, base := none } (s.heap.free base))
  | sent {i : ℕ} {t : Stream} {req buf : Ptr} {writes : List Ptr} {bytes : List UInt8}
      {success : Bool} (stream : s.streams[i]? = some t) (held : t.writes = req::writes)
      (request : bufOf s.heap req = some buf) (chars : charsOf s.heap buf = some bytes) :
      Change s (.sent i bytes success)
        (s.update i { t with writes := writes } ((s.heap.free buf).free req))

section Cases
variable {s t : State} {i : ℕ} {a : Stream} {action : Action} {e : Event} {heap heap' : Heap Block}
  {p : Ptr}

theorem State.stream_eq (h : s.stream i = some a) : s.exited = false ∧ s.streams[i]? = some a := by
  rw [State.stream] at h
  split_ifs at h with hexited
  exact ⟨by simpa using hexited,h⟩

theorem eq_free_of_release (h : heap.release p = some heap') : heap' = heap.free p := by
  obtain ⟨_,_,rfl⟩ := Option.map_eq_some_iff.mp h
  rfl

theorem eq_free_of_freeRequest {req buf : Ptr} (hbuf : bufOf heap req = some buf)
    (h : freeRequest heap req = some heap') : heap' = (heap.free buf).free req := by
  simp only [freeRequest,hbuf,Option.bind_eq_bind,Option.bind_some] at h
  obtain ⟨heap₁,hfree,h⟩ := Option.bind_eq_some_iff.mp h
  rw [eq_free_of_release h,eq_free_of_release hfree]

theorem change_of_step (h : step s action = some (t,e)) : Change s e t := by
  cases action with
  | connection success reading =>
    simp only [step] at h
    split_ifs at h
    · cases h
      exact .connected
    · cases h
      exact .notConnected
  | alloc i block =>
    obtain ⟨a,ha,h⟩ := Option.bind_eq_some_iff.mp h
    split_ifs at h with hcond
    cases block with
    | none =>
      cases h
      exact .outOfMemory (State.stream_eq ha).2 hcond.2
    | some bytes =>
      cases h
      exact .allocated (State.stream_eq ha).2 hcond.2
  | read i chunk outcome =>
    obtain ⟨a,ha,h⟩ := Option.bind_eq_some_iff.mp h
    obtain ⟨base,hbase,h⟩ := Option.bind_eq_some_iff.mp h
    obtain ⟨block,hblock,h⟩ := Option.bind_eq_some_iff.mp h
    have hheld := Option.join_eq_some_iff.mp hbase
    split_ifs at h with hle
    cases outcome with
    | noRequest =>
      cases h
      exact .exited
    | noBuffer =>
      cases h
      exact .exited
    | notQueued =>
      obtain ⟨heap,hfree,h⟩ := Option.bind_eq_some_iff.mp h
      cases eq_free_of_release hfree
      cases h
      exact .notQueued (State.stream_eq ha).2 hheld
    | queued =>
      obtain ⟨heap,hfree,h⟩ := Option.bind_eq_some_iff.mp h
      cases eq_free_of_release hfree
      cases h
      exact .queued (State.stream_eq ha).2 hheld
  | eof i =>
    obtain ⟨a,ha,h⟩ := Option.bind_eq_some_iff.mp h
    obtain ⟨base,hbase,h⟩ := Option.bind_eq_some_iff.mp h
    cases h
    exact .ended (State.stream_eq ha).2 (Option.join_eq_some_iff.mp hbase)
  | error i reading =>
    obtain ⟨a,ha,h⟩ := Option.bind_eq_some_iff.mp h
    split at h
    · cases h
    · next hheld =>
      cases h
      exact .noBuffer (State.stream_eq ha).2 hheld
    · next base hheld =>
      obtain ⟨heap,hfree,h⟩ := Option.bind_eq_some_iff.mp h
      cases eq_free_of_release hfree
      cases h
      exact .failed (State.stream_eq ha).2 hheld
  | write i success =>
    obtain ⟨a,ha,h⟩ := Option.bind_eq_some_iff.mp h
    split at h
    · cases h
    · next req writes hheld =>
      obtain ⟨buf,hbuf,h⟩ := Option.bind_eq_some_iff.mp h
      obtain ⟨bytes,hbytes,h⟩ := Option.bind_eq_some_iff.mp h
      obtain ⟨heap,hfree,h⟩ := Option.bind_eq_some_iff.mp h
      cases eq_free_of_freeRequest hbuf hfree
      cases h
      exact .sent (State.stream_eq ha).2 hheld hbuf hbytes

end Cases

end CStudy.UpcaseServer.Evented
