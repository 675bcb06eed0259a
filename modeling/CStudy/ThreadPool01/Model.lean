import CStudy.Foundation.Heap
import CStudy.Foundation.Machine
import CStudy.Foundation.Threads

/-! The pool of `thread_pool01` under any scheduling of its worker and client threads. A section
under `tp->mutex` is one step, as is each statement outside of one that reads or writes the
pool. A step that would use the freed pool or a wild task pointer is undefined. -/
namespace CStudy.ThreadPool01
open CStudy.Foundation

structure WorkerTask where
  func : Ptr
  arg : Ptr
  next : Option Ptr

structure ThreadPool where
  taskList : Option Ptr
  workingCount : UInt64
  threadCount : UInt64
  running : Bool

/-- Where a worker is in `Worker`. -/
inductive WorkerPc
  /-- `while (tp->running)` -/
  | loopTest
  /-- before the first lock of the loop, or woken and about to lock again -/
  | acquire
  /-- blocked on `task_list_cond` -/
  | waiting
  /-- outside the lock with the task it took -/
  | execute (task : Option Ptr)
  /-- before the second lock of the loop -/
  | finish
  /-- at `--tp->thread_count` without the lock, having left the loop by its test -/
  | leave
  /-- at the last signal without the lock -/
  | leaveSignal
  | done
  deriving DecidableEq

/-- Where a client thread is in the functions of the pool. `ThreadPoolWait` is also called by
`ThreadPoolDestory`; `inDestory` tells the two calls apart. -/
inductive ClientPc
  | idle
  /-- before the lock in `ThreadPoolAddTask`, with the new task -/
  | addTask (task : Ptr)
  /-- before the lock in `ThreadPoolWait`, or woken and about to lock again -/
  | wait (inDestory : Bool)
  /-- blocked on `finish_cond` -/
  | blocked (inDestory : Bool)
  /-- before the lock in `ThreadPoolDestory` -/
  | destory
  /-- at the destruction of the mutex and the condition variables -/
  | release
  deriving DecidableEq

/-- The pool, the tasks in memory, and all threads. -/
structure State where
  tp : ThreadPool
  released : Bool
  heap : Heap WorkerTask
  workers : List WorkerPc
  clients : List ClientPc

/-- What a step does that a client can tell, or that moves a task. -/
inductive Event
  | silent
  /-- `ThreadPoolAddTask` returns `true`, the task being linked -/
  | added (client : ℕ) (task : Ptr)
  /-- `ThreadPoolAddTask` returns `false` -/
  | refused (client : ℕ)
  | waitCalled (client : ℕ)
  | waitReturned (client : ℕ)
  | took (worker : ℕ) (task : Ptr)
  /-- the function of the task has returned -/
  | executed (worker : ℕ) (task : Ptr)
  /-- `ThreadPoolDestory` frees the listed tasks -/
  | discarded (tasks : List Ptr)
  deriving DecidableEq

/-- Who moves. Where the step signals a condition variable, `wake` is the thread it wakes. -/
inductive Action
  | worker (w : ℕ) (wake : Option ℕ)
  | client (c : ℕ) (wake : Option ℕ)
  | callAddTask (c : ℕ) (func arg : Ptr) (mallocSucceeds : Bool)
  | callWait (c : ℕ)
  | callDestory (c : ℕ)
  | spuriousWorker (w : ℕ)
  | spuriousClient (c : ℕ)
  deriving DecidableEq

def WorkerPc.isWaiting : WorkerPc → Bool
  | .waiting => true
  | _ => false

def ClientPc.isBlocked : ClientPc → Bool
  | .blocked _ => true
  | _ => false

/-- A woken client takes the lock again inside `pthread_cond_wait`. -/
def ClientPc.resume : ClientPc → ClientPc
  | .blocked inDestory => .wait inDestory
  | pc => pc

/-- `pthread_cond_signal(&tp->task_list_cond)` -/
def signalTaskList (s : State) (wake : Option ℕ) : Option State := do
  let workers ← Threads.signal WorkerPc.isWaiting (fun _ => .acquire) s.workers wake
  return { s with workers := workers }

/-- `pthread_cond_broadcast(&tp->task_list_cond)` -/
def broadcastTaskList (s : State) : State :=
  { s with workers := Threads.broadcast WorkerPc.isWaiting (fun _ => .acquire) s.workers }

/-- `pthread_cond_signal(&tp->finish_cond)` -/
def signalFinish (s : State) (wake : Option ℕ) : Option State := do
  let clients ← Threads.signal ClientPc.isBlocked ClientPc.resume s.clients wake
  return { s with clients := clients }

def State.setWorker (s : State) (w : ℕ) (pc : WorkerPc) : State :=
  { s with workers := s.workers.set w pc }

def State.setClient (s : State) (c : ℕ) (pc : ClientPc) : State :=
  { s with clients := s.clients.set c pc }

/-- The pool and its workers. `pthread_create` is asked for `num` threads; `created` says which
of them start. -/
def threadPoolCreate (num : UInt64) (created : ℕ → Bool) (clients : ℕ) : Option State :=
  if num = 0 then none
  else some
    { tp := ⟨none,0,num,true⟩
      released := false
      heap := Heap.empty
      workers := ((List.range num.toNat).filter created).map fun _ => .loopTest
      clients := List.replicate clients .idle }

def getWorkerTask (s : State) : Option (State × Option Ptr) :=
  match s.tp.taskList with
  | none => some (s,none)
  | some p => do
    let c ← s.heap.read p
    return ({ s with tp := { s.tp with taskList := c.next } },some p)

/-- The first section of the loop: wait for a task, leave the loop, or take a task. -/
def acquireTask (s : State) (w : ℕ) (wake : Option ℕ) : Option (State × Event) :=
  if s.tp.running && s.tp.taskList.isNone then some (s.setWorker w .waiting,.silent)
  else if !s.tp.running then do
    -- `break`, and the code after the loop with the lock still held
    let s := { s with tp := { s.tp with threadCount := s.tp.threadCount-1 } }
    let s ← signalFinish s wake
    return (s.setWorker w .done,.silent)
  else do
    let (s,task) ← getWorkerTask s
    let s := { s with tp := { s.tp with workingCount := s.tp.workingCount+1 } }
    return (s.setWorker w (.execute task),match task with
      | some p => .took w p
      | none => .silent)

/-- `task->func(task->arg); free(task);` -/
def executeTask (s : State) (w : ℕ) : Option Ptr → Option (State × Event)
  | none => some (s.setWorker w .finish,.silent)
  | some p => do
    let _ ← s.heap.read p
    return ({ s with heap := s.heap.free p }.setWorker w .finish,.executed w p)

/-- The second section of the loop. -/
def finishTask (s : State) (w : ℕ) (wake : Option ℕ) : Option (State × Event) :=
  let s := { s with tp := { s.tp with workingCount := s.tp.workingCount-1 } }
  if s.tp.running && s.tp.workingCount == 0 && s.tp.taskList.isNone then do
    let s ← signalFinish s wake
    return (s.setWorker w .loopTest,.silent)
  else some (s.setWorker w .loopTest,.silent)

def workerStep (s : State) (w : ℕ) (wake : Option ℕ) : Option (State × Event) :=
  match s.workers[w]? with
  | some (.execute task) => executeTask s w task
  | some pc =>
    if s.released then none
    else match pc with
      | .loopTest => some (s.setWorker w (if s.tp.running then .acquire else .leave),.silent)
      | .acquire => acquireTask s w wake
      | .finish => finishTask s w wake
      | .leave =>
        let s := { s with tp := { s.tp with threadCount := s.tp.threadCount-1 } }
        some (s.setWorker w .leaveSignal,.silent)
      | .leaveSignal => do
        let s ← signalFinish s wake
        return (s.setWorker w .done,.silent)
      | _ => none
  | none => none

/-- The walk to the end of the list, and the link of the new task there. -/
def appendTask (s : State) (task : Ptr) : Option State := do
  let (prev,_) ← s.heap.search WorkerTask.next (fun _ => false) s.heap.top none s.tp.taskList
  match prev with
  | none => return { s with tp := { s.tp with taskList := some task } }
  | some q =>
    let heap ← s.heap.store q fun c => { c with next := some task }
    return { s with heap := heap }

/-- The loop of `ThreadPoolDestory` that frees the list. -/
def freeTasks : ℕ → Heap WorkerTask → Option Ptr → Option (Heap WorkerTask)
  | _,heap,none => some heap
  | 0,_,some _ => none
  | fuel+1,heap,some p =>
    match heap.read p with
    | none => none
    | some c => freeTasks fuel (heap.free p) c.next

/-- The condition under which `ThreadPoolWait` goes on waiting. -/
def ThreadPool.mustWait (tp : ThreadPool) : Bool :=
  (tp.running && tp.workingCount > 0) || (!tp.running && tp.threadCount > 0)

def clientStep (s : State) (c : ℕ) (wake : Option ℕ) : Option (State × Event) :=
  match s.clients[c]? with
  | some (.addTask task) => do
    let s ← appendTask s task
    let s ← signalTaskList s wake
    return (s.setClient c .idle,.added c task)
  | some (.wait inDestory) =>
    if s.tp.mustWait then some (s.setClient c (.blocked inDestory),.silent)
    else if inDestory then some (s.setClient c .release,.silent)
    else some (s.setClient c .idle,.waitReturned c)
  | some .destory => do
    let tasks := s.heap.walk WorkerTask.next s.heap.top s.tp.taskList
    let heap ← freeTasks s.heap.top s.heap s.tp.taskList
    let s := { s with heap := heap, tp := { s.tp with running := false } }
    return ((broadcastTaskList s).setClient c (.wait true),.discarded tasks)
  | some .release => some ({ s with released := true }.setClient c .idle,.silent)
  | _ => none

/-- `malloc` and the initialisation of the task, before the lock. -/
def callAddTask (s : State) (c : ℕ) (func arg : Ptr) (mallocSucceeds : Bool) : State × Event :=
  if mallocSucceeds then
    ({ s with heap := s.heap.alloc ⟨func,arg,none⟩ }.setClient c (.addTask s.heap.top),.silent)
  else (s,.refused c)

def step : Machine State Action Event
  | s,.worker w wake => workerStep s w wake
  | s,.client c wake => if s.released then none else clientStep s c wake
  | s,.callAddTask c func arg mallocSucceeds =>
    if s.clients[c]? = some .idle then some (callAddTask s c func arg mallocSucceeds) else none
  | s,.callWait c =>
    if s.clients[c]? = some .idle then some (s.setClient c (.wait false),.waitCalled c) else none
  | s,.callDestory c =>
    if s.clients[c]? = some .idle then some (s.setClient c .destory,.silent) else none
  | s,.spuriousWorker w =>
    if s.workers[w]? = some .waiting then some (s.setWorker w .acquire,.silent) else none
  | s,.spuriousClient c =>
    match s.clients[c]? with
    | some (.blocked inDestory) => some (s.setClient c (.wait inDestory),.silent)
    | _ => none

end CStudy.ThreadPool01
