import CStudy.ThreadPool02.JobQueue
import CStudy.Foundation.Machine
import CStudy.Foundation.Threads

/-! The pool of `thread_pool02` under any scheduling of its worker and client threads. A section
under the pool mutex, the queue mutex or the semaphore mutex is one step, as is each access to
the pool outside of one. `ThreadPoolWait` keeps the pool mutex over several steps, in which it
reads the length of the queue and the number of working threads one after the other. A step that
would use the freed pool or a wild job pointer is undefined. -/
namespace CStudy.ThreadPool02
open CStudy.Foundation

structure ThreadPool where
  threadNum : ℕ
  aliveThreads : ℤ
  workingThreads : ℤ
  jobQueue : JobQueue
  alive : Bool

/-- Where a worker is in `Worker`. -/
inductive WorkerPc
  /-- at `pool->alive_threads += 1` -/
  | start
  /-- `while (pool->alive)` -/
  | loopTest
  /-- before the lock in `BinarySemaphoreWait`, or woken and about to lock again -/
  | semaphoreWait
  /-- blocked on the condition variable of the semaphore -/
  | semaphoreBlocked
  /-- `if (pool->alive)` -/
  | aliveTest
  /-- at `pool->working_threads += 1` -/
  | countIn
  /-- at `JobQueuePull` -/
  | pull
  | execute (task : Option Ptr)
  /-- at `pool->working_threads -= 1` -/
  | countOut
  /-- at `pool->alive_threads -= 1` -/
  | leave
  | done
  deriving DecidableEq

/-- Where a client thread is in the functions of the pool. -/
inductive ClientPc
  | idle
  /-- at `JobQueuePush` in `ThreadPoolAddTask`, with the new job -/
  | addTask (task : Ptr)
  /-- before the lock in `ThreadPoolWait`, or woken and about to lock again -/
  | waitLock
  /-- in `ThreadPoolWait` with the lock, at the read of `job_queue->length` -/
  | waitLength
  /-- in `ThreadPoolWait` with the lock, at the read of `working_threads` -/
  | waitWorking
  /-- in `ThreadPoolWait` with the lock, at `pthread_cond_wait` -/
  | waitSleep
  /-- blocked on the condition variable of the pool -/
  | waitBlocked
  /-- `while (pool->alive_threads > 0)` in `ThreadPoolDestory` -/
  | destoryTest
  /-- at `BinarySemaphorePostAll` in `ThreadPoolDestory` -/
  | destoryPost
  /-- at `JobQueueDestory` in `ThreadPoolDestory` -/
  | destoryFree
  deriving DecidableEq

/-- The pool, the jobs in memory, and all threads. `mutex` is the client that holds the pool
mutex from one step to the next, if one does; `ready` says that `ThreadPoolCreate` has returned. -/
structure State where
  pool : ThreadPool
  mutex : Option ℕ
  ready : Bool
  released : Bool
  heap : Heap Job
  workers : List WorkerPc
  clients : List ClientPc

/-- What a step does that a client can tell, or that moves a job. -/
inductive Event
  | silent
  /-- `ThreadPoolAddTask` returns `true`, the job being pushed -/
  | added (client : ℕ) (job : Ptr)
  /-- `ThreadPoolAddTask` returns `false` -/
  | refused (client : ℕ)
  | waitCalled (client : ℕ)
  | waitReturned (client : ℕ)
  | destoryCalled (client : ℕ)
  | pulled (worker : ℕ) (job : Ptr)
  /-- the function of the job has returned -/
  | executed (worker : ℕ) (job : Ptr)
  deriving DecidableEq

/-- Who moves. Where the step signals a condition variable, `wake` is the thread it wakes. -/
inductive Action
  | createReturn
  | worker (w : ℕ) (wake : Option ℕ)
  | client (c : ℕ) (wake : Option ℕ)
  /-- `stale` is what the `next` field of the new job held before -/
  | callAddTask (c : ℕ) (func arg : Ptr) (stale : Option Ptr) (mallocSucceeds : Bool)
  | callWait (c : ℕ)
  | callDestory (c : ℕ)
  | spuriousWorker (w : ℕ)
  | spuriousClient (c : ℕ)
  deriving DecidableEq

def WorkerPc.isBlocked : WorkerPc → Bool
  | .semaphoreBlocked => true
  | _ => false

def ClientPc.isBlocked : ClientPc → Bool
  | .waitBlocked => true
  | _ => false

/-- `pthread_cond_signal(&bs->cond)` -/
def signalSemaphore (s : State) (wake : Option ℕ) : Option State := do
  let workers ← Threads.signal WorkerPc.isBlocked (fun _ => .semaphoreWait) s.workers wake
  return { s with workers := workers }

/-- `pthread_cond_broadcast(&bs->cond)` -/
def broadcastSemaphore (s : State) : State :=
  { s with workers := Threads.broadcast WorkerPc.isBlocked (fun _ => .semaphoreWait) s.workers }

/-- `pthread_cond_signal(&pool->cond)` -/
def signalPool (s : State) (wake : Option ℕ) : Option State := do
  let clients ← Threads.signal ClientPc.isBlocked (fun _ => .waitLock) s.clients wake
  return { s with clients := clients }

def State.setWorker (s : State) (w : ℕ) (pc : WorkerPc) : State :=
  { s with workers := s.workers.set w pc }

def State.setClient (s : State) (c : ℕ) (pc : ClientPc) : State :=
  { s with clients := s.clients.set c pc }

/-- The pool before `ThreadPoolCreate` waits for its workers. `created` says which of the
threads start. -/
def threadPoolCreate (numThreads : ℕ) (created : ℕ → Bool) (clients : ℕ) : State where
  pool := ⟨numThreads,0,0,jobQueueCreate,true⟩
  mutex := none
  ready := false
  released := false
  heap := Heap.empty
  workers := ((List.range numThreads).filter created).map fun _ => .start
  clients := List.replicate clients .idle

def pullEvent (w : ℕ) : Option Ptr → Event
  | some p => .pulled w p
  | none => .silent

/-- `JobQueuePull` in `Worker`. -/
def pullJob (s : State) (w : ℕ) (wake : Option ℕ) : Option (State × Event) := do
  let (jq,job,posted) ← jobQueuePull s.pool.jobQueue s.heap
  let s := { s with pool := { s.pool with jobQueue := jq } }
  if posted then
    let s ← signalSemaphore s wake
    return (s.setWorker w (.execute job),pullEvent w job)
  else return (s.setWorker w (.execute job),pullEvent w job)

/-- `task->func(task->arg); free(task);` -/
def executeJob (s : State) (w : ℕ) : Option Ptr → Option (State × Event)
  | none => some (s.setWorker w .countOut,.silent)
  | some p => do
    let _ ← s.heap.read p
    return ({ s with heap := s.heap.free p }.setWorker w .countOut,.executed w p)

/-- The section after a job. -/
def countOut (s : State) (w : ℕ) (wake : Option ℕ) : Option (State × Event) :=
  let s := { s with pool := { s.pool with workingThreads := s.pool.workingThreads-1 } }
  if s.pool.workingThreads = 0 then do
    let s ← signalPool s wake
    return (s.setWorker w .loopTest,.silent)
  else some (s.setWorker w .loopTest,.silent)

/-- A section of a worker under the pool mutex. -/
def locked (s : State) (body : Option (State × Event)) : Option (State × Event) :=
  if s.mutex.isSome then none else body

def workerStep (s : State) (w : ℕ) (wake : Option ℕ) : Option (State × Event) :=
  match s.workers[w]? with
  | some (.execute task) => executeJob s w task
  | some pc =>
    if s.released then none
    else match pc with
      | .start =>
        let t := { s with pool := { s.pool with aliveThreads := s.pool.aliveThreads+1 } }
        locked s (some (t.setWorker w .loopTest,.silent))
      | .loopTest => some (s.setWorker w (if s.pool.alive then .semaphoreWait else .leave),.silent)
      | .semaphoreWait =>
        some (s.setWorker w (if s.pool.jobQueue.hasJob.value then .aliveTest
          else .semaphoreBlocked),.silent)
      | .aliveTest => some (s.setWorker w (if s.pool.alive then .countIn else .loopTest),.silent)
      | .countIn =>
        let t := { s with pool := { s.pool with workingThreads := s.pool.workingThreads+1 } }
        locked s (some (t.setWorker w .pull,.silent))
      | .pull => pullJob s w wake
      | .countOut => locked s (countOut s w wake)
      | .leave =>
        let t := { s with pool := { s.pool with aliveThreads := s.pool.aliveThreads-1 } }
        locked s (some (t.setWorker w .done,.silent))
      | _ => none
  | none => none

def clientStep (s : State) (c : ℕ) (wake : Option ℕ) : Option (State × Event) :=
  match s.clients[c]? with
  | some (.addTask task) => do
    let (jq,heap) ← jobQueuePush s.pool.jobQueue s.heap task
    let s := { s with heap := heap, pool := { s.pool with jobQueue := jq } }
    let s ← signalSemaphore s wake
    return (s.setClient c .idle,.added c task)
  | some .waitLock =>
    if s.mutex.isSome then none
    else some ({ s with mutex := some c }.setClient c .waitLength,.silent)
  | some .waitLength =>
    some (s.setClient c (if s.pool.jobQueue.length > 0 then .waitSleep else .waitWorking),.silent)
  | some .waitWorking =>
    if s.pool.workingThreads > 0 then some (s.setClient c .waitSleep,.silent)
    else some ({ s with mutex := none }.setClient c .idle,.waitReturned c)
  | some .waitSleep => some ({ s with mutex := none }.setClient c .waitBlocked,.silent)
  | some .destoryTest =>
    some (s.setClient c (if s.pool.aliveThreads > 0 then .destoryPost else .destoryFree),.silent)
  | some .destoryPost =>
    let jq := { s.pool.jobQueue with hasJob := binarySemaphorePost s.pool.jobQueue.hasJob }
    let s := { s with pool := { s.pool with jobQueue := jq } }
    some ((broadcastSemaphore s).setClient c .destoryTest,.silent)
  | some .destoryFree => do
    let (jq,heap) ← jobQueueClear s.pool.jobQueue s.heap
    let s := { s with heap := heap, released := true, pool := { s.pool with jobQueue := jq } }
    return (s.setClient c .idle,.silent)
  | _ => none

/-- `malloc` and the assignments to the job, before `JobQueuePush`. -/
def callAddTask (s : State) (c : ℕ) (func arg : Ptr) (stale : Option Ptr) (mallocSucceeds : Bool) :
    State × Event :=
  if mallocSucceeds then
    ({ s with heap := s.heap.alloc ⟨stale,func,arg⟩ }.setClient c (.addTask s.heap.top),.silent)
  else (s,.refused c)

/-- A client may call a function of the pool. -/
def State.mayCall (s : State) (c : ℕ) : Prop := s.ready = true ∧ s.clients[c]? = some .idle

instance (s : State) (c : ℕ) : Decidable (s.mayCall c) := inferInstanceAs (Decidable (_ ∧ _))

def step : Machine State Action Event
  | s,.createReturn =>
    if s.pool.aliveThreads = s.pool.threadNum then some ({ s with ready := true },.silent) else none
  | s,.worker w wake => workerStep s w wake
  | s,.client c wake => if s.released then none else clientStep s c wake
  | s,.callAddTask c func arg stale mallocSucceeds =>
    if s.mayCall c then some (callAddTask s c func arg stale mallocSucceeds) else none
  | s,.callWait c =>
    if s.mayCall c then some (s.setClient c .waitLock,.waitCalled c) else none
  | s,.callDestory c =>
    if s.mayCall c ∧ s.released = false then
      some ({ s with pool := { s.pool with alive := false } }.setClient c .destoryTest,
        .destoryCalled c)
    else none
  | s,.spuriousWorker w =>
    if s.workers[w]? = some .semaphoreBlocked then some (s.setWorker w .semaphoreWait,.silent)
    else none
  | s,.spuriousClient c =>
    if s.clients[c]? = some .waitBlocked then some (s.setClient c .waitLock,.silent) else none

end CStudy.ThreadPool02
