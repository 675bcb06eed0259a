import CStudy.ThreadPool02.Model
import CStudy.Foundation.Program

/-! The pool of `thread_pool02` statement by statement, with the statements of the queue and of the
semaphore. Undefined are a statement that uses a freed block or a wild job pointer, the use of a
destroyed mutex, and an unlock by a thread that is not the owner. The arguments of a call are read
in a step of their own. -/
namespace CStudy.ThreadPool02.Statements
open CStudy.Foundation

inductive Mutex
  /-- `pool->mutex` -/
  | pool
  /-- `pool->job_queue->mutex` -/
  | queue
  /-- `pool->job_queue->has_job->mutex` -/
  | semaphore
  deriving DecidableEq

inductive Cond
  /-- `pool->cond` -/
  | pool
  /-- `pool->job_queue->has_job->cond` -/
  | semaphore
  deriving DecidableEq

/-- What `ThreadPoolDestory` frees, jobs apart. -/
inductive Block
  | semaphore
  | queue
  /-- the `Thread` record of a worker -/
  | thread (id : ℕ)
  /-- `pool->threads` -/
  | threads
  | pool
  deriving DecidableEq

/-- `ready` says that `ThreadPoolCreate` has returned. -/
structure Shared where
  pool : ThreadPool
  owner : Mutex → Option ℕ
  destroyed : Mutex → Bool
  freed : Block → Bool
  ready : Bool
  heap : Heap Job

def Shared.setQueue (g : Shared) (f : JobQueue → JobQueue) : Shared :=
  { g with pool := { g.pool with jobQueue := f g.pool.jobQueue } }

def Shared.free (g : Shared) (block : Block) : Shared :=
  { g with freed := fun b => decide (b = block) || g.freed b }

/-- `BinarySemaphorePost` and `BinarySemaphorePostAll`. -/
inductive PostStmt
  | lock
  /-- `bs->value = true` -/
  | raise
  /-- `pthread_cond_signal(&bs->cond)` or `pthread_cond_broadcast(&bs->cond)` -/
  | notify
  | unlock
  deriving DecidableEq

/-- `BinarySemaphoreWait` -/
inductive WaitStmt
  | lock
  /-- `while (!bs->value)` -/
  | test
  /-- `pthread_cond_wait(&bs->cond, &bs->mutex)` -/
  | sleep
  | asleep
  | relock
  | unlock
  deriving DecidableEq

inductive PushStmt
  | lock
  /-- `job->next = NULL` -/
  | clearNext
  /-- `if (jq->length == 0)` -/
  | lengthTest
  /-- `jq->front = job` -/
  | setFront
  /-- `jq->last->next = job` -/
  | linkLast
  /-- `jq->last = job` -/
  | setLast
  /-- `jq->length += 1` -/
  | addLength
  | post (stmt : PostStmt)
  | unlock
  deriving DecidableEq

inductive PullStmt
  | lock
  /-- `if (jq->length == 0)` -/
  | emptyTest
  /-- `else if (jq->length == 1)` -/
  | singleTest
  /-- `job = jq->front` where it is the only job -/
  | takeOnly
  /-- `jq->front = jq->last = NULL` -/
  | clearEnds (job : Option Ptr)
  /-- `jq->length = 0` -/
  | zeroLength (job : Option Ptr)
  /-- `job = jq->front` where more jobs follow -/
  | takeFirst
  /-- `jq->front = job->next` -/
  | setFront (job : Ptr)
  /-- `--jq->length` -/
  | subLength (job : Ptr)
  | post (job : Ptr) (stmt : PostStmt)
  | unlock (job : Option Ptr)
  deriving DecidableEq

/-- The next statement of a thread in `Worker`. -/
inductive WorkerStmt
  /-- `pool = t->pool` -/
  | start
  | lockStart
  /-- `pool->alive_threads += 1` -/
  | countStart
  | unlockStart
  /-- `while (pool->alive)` -/
  | loopTest
  /-- the argument of `BinarySemaphoreWait` -/
  | readSemaphore
  | wait (stmt : WaitStmt)
  /-- `if (pool->alive)` -/
  | aliveTest
  | lockIn
  /-- `pool->working_threads += 1` -/
  | countIn
  | unlockIn
  /-- the argument of `JobQueuePull` -/
  | readQueue
  | pull (stmt : PullStmt)
  /-- `if (task != NULL)` -/
  | taskTest (task : Option Ptr)
  /-- `task->func(task->arg)` -/
  | runTask (task : Ptr)
  /-- `free(task)` -/
  | freeTask (task : Ptr)
  | lockOut
  /-- `pool->working_threads -= 1` -/
  | countOut
  /-- `if (pool->working_threads == 0)` -/
  | outTest
  /-- `pthread_cond_signal(&pool->cond)` -/
  | signalOut
  | unlockOut
  | lockExit
  /-- `pool->alive_threads -= 1` -/
  | countExit
  | unlockExit
  | returned
  deriving DecidableEq

/-- The next statement of a thread that uses the pool. -/
inductive ClientStmt
  /-- `while (pool->alive_threads != num_threads)` in `ThreadPoolCreate` -/
  | createTest
  | idle
  /-- the argument of `JobQueuePush` -/
  | readQueue (job : Ptr)
  | push (job : Ptr) (stmt : PushStmt)
  | lockWait
  /-- `pool->job_queue->length > 0` in `ThreadPoolWait` -/
  | lengthWait
  /-- `pool->working_threads > 0` in `ThreadPoolWait` -/
  | workingWait
  /-- `pthread_cond_wait(&pool->cond, &pool->mutex)` -/
  | sleepWait
  | asleepWait
  | relockWait
  | unlockWait
  /-- `pool->alive = false` -/
  | clearAlive
  /-- `while (pool->alive_threads > 0)` -/
  | pollAlive
  /-- the argument of `BinarySemaphorePostAll` -/
  | readSemaphore
  | postAll (stmt : PostStmt)
  /-- the argument of `JobQueueDestory` -/
  | readDestory
  /-- `while (jq->length > 0)` in `JobQueueClear` -/
  | clearTest
  | clearPull (stmt : PullStmt)
  /-- `free(j)` -/
  | clearFree (job : Option Ptr)
  /-- `jq->front = NULL` -/
  | clearFront
  /-- `jq->last = NULL` -/
  | clearLast
  /-- `pthread_mutex_init` in `BinarySemaphoreReset` -/
  | resetMutex
  /-- `bs->value = false` in `BinarySemaphoreReset` -/
  | resetValue
  /-- `jq->length = 0` in `JobQueueClear` -/
  | clearLength
  | destroySemaphoreMutex
  | destroySemaphoreCond
  | freeSemaphore
  | destroyQueueMutex
  | freeQueue
  /-- `i < pool->thread_num` -/
  | threadTest (id : ℕ)
  /-- `ThreadDestory(pool->threads[i])` -/
  | freeThread (id : ℕ)
  /-- `free(pool->threads)` -/
  | freeThreads
  /-- `free(pool)` -/
  | freePool
  deriving DecidableEq

inductive Position
  | worker (stmt : WorkerStmt)
  | client (stmt : ClientStmt)
  deriving DecidableEq

inductive Call
  /-- `stale` is what the `next` field of the new job held before -/
  | addTask (func arg : Ptr) (stale : Option Ptr) (mallocSucceeds : Bool)
  | wait
  | destory
  deriving DecidableEq

/-- Where a statement leaves its thread, with the shared memory and the wake-up it makes. -/
abbrev Outcome (α : Type) := Option (α × Shared × Notice Cond)

section Primitives
variable {α β : Type} (g : Shared) (m : Mutex) (i : ℕ) (next : α)

/-- A statement that only goes on. -/
def goOn : Outcome α := some (next,g,.nothing)

def lock : Outcome α :=
  if g.destroyed m = false ∧ g.owner m = none then
    some (next,{ g with owner := Function.update g.owner m (some i) },.nothing)
  else none

/-- `pthread_mutex_unlock`, and the first half of `pthread_cond_wait`. -/
def unlock : Outcome α :=
  if g.destroyed m = false ∧ g.owner m = some i then
    some (next,{ g with owner := Function.update g.owner m none },.nothing)
  else none

/-- The outcome of a statement of a called function, seen from the caller. -/
def Outcome.within (f : α → β) (r : Outcome α) : Outcome β := r.map fun r => (f r.1,r.2)

end Primitives

/-- The thread leaves the function after the unlock. -/
def execPost (i : ℕ) (g : Shared) (all : Bool) : PostStmt → Outcome (Option PostStmt)
  | .lock => lock g .semaphore i (some .raise)
  | .raise =>
    some (some .notify,
      g.setQueue fun jq => { jq with hasJob := binarySemaphorePost jq.hasJob },.nothing)
  | .notify =>
    if g.destroyed .semaphore then none
    else some (some .unlock,g,if all then .broadcast .semaphore else .signal .semaphore)
  | .unlock => unlock g .semaphore i none

def execWait (i : ℕ) (g : Shared) : WaitStmt → Outcome (Option WaitStmt)
  | .lock => lock g .semaphore i (some .test)
  | .test => goOn g (some (if g.pool.jobQueue.hasJob.value then .unlock else .sleep))
  | .sleep => unlock g .semaphore i (some .asleep)
  | .asleep => none
  | .relock => lock g .semaphore i (some .test)
  | .unlock => unlock g .semaphore i none

def execPush (i : ℕ) (g : Shared) (job : Ptr) : PushStmt → Outcome (Option PushStmt)
  | .lock => lock g .queue i (some .clearNext)
  | .clearNext =>
    (g.heap.store job fun c => { c with next := none }).map fun heap =>
      (some .lengthTest,{ g with heap := heap },.nothing)
  | .lengthTest => goOn g (some (if g.pool.jobQueue.length = 0 then .setFront else .linkLast))
  | .setFront => some (some .setLast,g.setQueue fun jq => { jq with front := some job },.nothing)
  | .linkLast =>
    g.pool.jobQueue.last.bind fun last =>
      (g.heap.store last fun c => { c with next := some job }).map fun heap =>
        (some .setLast,{ g with heap := heap },.nothing)
  | .setLast => some (some .addLength,g.setQueue fun jq => { jq with last := some job },.nothing)
  | .addLength =>
    some (some (.post .lock),g.setQueue fun jq => { jq with length := jq.length+1 },.nothing)
  | .post stmt => (execPost i g false stmt).within fun next => some (next.elim .unlock .post)
  | .unlock => unlock g .queue i none

/-- The thread leaves the function with the job. -/
def execPull (i : ℕ) (g : Shared) : PullStmt → Outcome (PullStmt ⊕ Option Ptr)
  | .lock => lock g .queue i (.inl .emptyTest)
  | .emptyTest => goOn g (.inl (if g.pool.jobQueue.length = 0 then .unlock none else .singleTest))
  | .singleTest => goOn g (.inl (if g.pool.jobQueue.length = 1 then .takeOnly else .takeFirst))
  | .takeOnly => goOn g (.inl (.clearEnds g.pool.jobQueue.front))
  | .clearEnds job =>
    some (.inl (.zeroLength job),
      g.setQueue fun jq => { jq with front := none, last := none },.nothing)
  | .zeroLength job =>
    some (.inl (.unlock job),g.setQueue fun jq => { jq with length := 0 },.nothing)
  | .takeFirst => g.pool.jobQueue.front.map fun job => (.inl (.setFront job),g,.nothing)
  | .setFront job =>
    (g.heap.read job).map fun c =>
      (.inl (.subLength job),g.setQueue fun jq => { jq with front := c.next },.nothing)
  | .subLength job =>
    some (.inl (.post job .lock),g.setQueue fun jq => { jq with length := jq.length-1 },.nothing)
  | .post job stmt =>
    (execPost i g false stmt).within fun next => .inl (next.elim (.unlock (some job)) (.post job))
  | .unlock job => unlock g .queue i (.inr job)

def execWorker (i : ℕ) (g : Shared) : WorkerStmt → Outcome WorkerStmt
  | .start => goOn g .lockStart
  | .lockStart => lock g .pool i .countStart
  | .countStart =>
    some (.unlockStart,
      { g with pool := { g.pool with aliveThreads := g.pool.aliveThreads+1 } },.nothing)
  | .unlockStart => unlock g .pool i .loopTest
  | .loopTest => goOn g (if g.pool.alive then .readSemaphore else .lockExit)
  | .readSemaphore => goOn g (.wait .lock)
  | .wait stmt => (execWait i g stmt).within fun next => next.elim .aliveTest .wait
  | .aliveTest => goOn g (if g.pool.alive then .lockIn else .loopTest)
  | .lockIn => lock g .pool i .countIn
  | .countIn =>
    some (.unlockIn,
      { g with pool := { g.pool with workingThreads := g.pool.workingThreads+1 } },.nothing)
  | .unlockIn => unlock g .pool i .readQueue
  | .readQueue => goOn g (.pull .lock)
  | .pull stmt => (execPull i g stmt).within fun next => next.elim .pull .taskTest
  | .taskTest task => goOn g (task.elim .lockOut .runTask)
  | .runTask p => (g.heap.read p).map fun _ => (.freeTask p,g,.nothing)
  | .freeTask p => some (.lockOut,{ g with heap := g.heap.free p },.nothing)
  | .lockOut => lock g .pool i .countOut
  | .countOut =>
    some (.outTest,
      { g with pool := { g.pool with workingThreads := g.pool.workingThreads-1 } },.nothing)
  | .outTest => goOn g (if g.pool.workingThreads = 0 then .signalOut else .unlockOut)
  | .signalOut => some (.unlockOut,g,.signal .pool)
  | .unlockOut => unlock g .pool i .loopTest
  | .lockExit => lock g .pool i .countExit
  | .countExit =>
    some (.unlockExit,
      { g with pool := { g.pool with aliveThreads := g.pool.aliveThreads-1 } },.nothing)
  | .unlockExit => unlock g .pool i .returned
  | .returned => none

def execClient (i : ℕ) (g : Shared) : ClientStmt → Outcome ClientStmt
  | .createTest =>
    if g.pool.aliveThreads = g.pool.threadNum then some (.idle,{ g with ready := true },.nothing)
    else goOn g .createTest
  | .idle => none
  | .readQueue job => goOn g (.push job .lock)
  | .push job stmt => (execPush i g job stmt).within fun next => next.elim .idle (.push job)
  | .lockWait => lock g .pool i .lengthWait
  | .lengthWait => goOn g (if g.pool.jobQueue.length > 0 then .sleepWait else .workingWait)
  | .workingWait => goOn g (if g.pool.workingThreads > 0 then .sleepWait else .unlockWait)
  | .sleepWait => unlock g .pool i .asleepWait
  | .asleepWait => none
  | .relockWait => lock g .pool i .lengthWait
  | .unlockWait => unlock g .pool i .idle
  | .clearAlive => some (.pollAlive,{ g with pool := { g.pool with alive := false } },.nothing)
  | .pollAlive => goOn g (if g.pool.aliveThreads > 0 then .readSemaphore else .readDestory)
  | .readSemaphore => goOn g (.postAll .lock)
  | .postAll stmt => (execPost i g true stmt).within fun next => next.elim .pollAlive .postAll
  | .readDestory => goOn g .clearTest
  | .clearTest => goOn g (if g.pool.jobQueue.length > 0 then .clearPull .lock else .clearFront)
  | .clearPull stmt => (execPull i g stmt).within fun next => next.elim .clearPull .clearFree
  | .clearFree job => some (.clearTest,{ g with heap := job.elim g.heap g.heap.free },.nothing)
  | .clearFront => some (.clearLast,g.setQueue fun jq => { jq with front := none },.nothing)
  | .clearLast => some (.resetMutex,g.setQueue fun jq => { jq with last := none },.nothing)
  | .resetMutex =>
    some (.resetValue,{ g with owner := Function.update g.owner .semaphore none },.nothing)
  | .resetValue =>
    some (.clearLength,g.setQueue fun jq => { jq with hasJob := binarySemaphoreCreate },.nothing)
  | .clearLength =>
    some (.destroySemaphoreMutex,g.setQueue fun jq => { jq with length := 0 },.nothing)
  | .destroySemaphoreMutex =>
    some (.destroySemaphoreCond,
      { g with destroyed := Function.update g.destroyed .semaphore true },.nothing)
  | .destroySemaphoreCond => goOn g .freeSemaphore
  | .freeSemaphore => some (.destroyQueueMutex,g.free .semaphore,.nothing)
  | .destroyQueueMutex =>
    some (.freeQueue,{ g with destroyed := Function.update g.destroyed .queue true },.nothing)
  | .freeQueue => some (.threadTest 0,g.free .queue,.nothing)
  | .threadTest id => goOn g (if id < g.pool.threadNum then .freeThread id else .freeThreads)
  | .freeThread id => some (.threadTest (id+1),g.free (.thread id),.nothing)
  | .freeThreads => some (.freePool,g.free .threads,.nothing)
  | .freePool => some (.idle,g.free .pool,.nothing)

/-- The blocks a statement reads or writes. -/
def PushStmt.uses : PushStmt → List Block
  | .clearNext => []
  | .post _ => [.semaphore]
  | _ => [.queue]

def PullStmt.uses : PullStmt → List Block
  | .post _ _ => [.semaphore]
  | _ => [.queue]

/-- Worker `i` has the record `i`. -/
def WorkerStmt.uses (i : ℕ) : WorkerStmt → List Block
  | .start => [.thread i]
  | .readSemaphore => [.pool,.queue]
  | .wait _ => [.semaphore]
  | .pull stmt => stmt.uses
  | .taskTest _ | .runTask _ | .freeTask _ => []
  | .returned => []
  | _ => [.pool]

def ClientStmt.uses : ClientStmt → List Block
  | .idle => []
  | .push _ stmt => stmt.uses
  | .lengthWait => [.pool,.queue]
  | .readSemaphore => [.pool,.queue]
  | .postAll _ => [.semaphore]
  | .clearTest | .clearFront | .clearLast | .clearLength => [.queue]
  | .clearPull stmt => stmt.uses
  | .clearFree _ => []
  | .resetMutex | .destroySemaphoreMutex => [.queue,.semaphore]
  | .resetValue | .destroySemaphoreCond | .freeSemaphore => [.semaphore]
  | .destroyQueueMutex | .freeQueue => [.queue]
  | .freeThread id => [.pool,.threads,.thread id]
  | .freeThreads => [.pool,.threads]
  | _ => [.pool]

def Position.uses (i : ℕ) : Position → List Block
  | .worker stmt => stmt.uses i
  | .client stmt => stmt.uses

def exec (i : ℕ) (pc : Position) (g : Shared) : Outcome Position :=
  if (pc.uses i).any g.freed then none
  else
    match pc with
    | .worker stmt => (execWorker i g stmt).within .worker
    | .client stmt => (execClient i g stmt).within .client

/-- A call needs the pool that `ThreadPoolCreate` returns. `malloc` and the assignments to a job
touch nothing that is shared. -/
def enter (call : Call) (pc : Position) (g : Shared) : Option (Position × Shared) :=
  if g.ready = true ∧ pc = .client .idle then
    match call with
    | .addTask func arg stale true =>
      some (.client (.readQueue g.heap.top),{ g with heap := g.heap.alloc ⟨stale,func,arg⟩ })
    | .addTask _ _ _ false => some (.client .idle,g)
    | .wait => some (.client .lockWait,g)
    | .destory => some (.client .clearAlive,g)
  else none

def asleep : Position → Option Cond
  | .worker (.wait .asleep) => some .semaphore
  | .client .asleepWait => some .pool
  | _ => none

def resume : Position → Position
  | .worker (.wait .asleep) => .worker (.wait .relock)
  | .client .asleepWait => .client .relockWait
  | pc => pc

def program : Program Position Shared Cond Call := ⟨exec,enter,asleep,resume⟩

/-- All workers are started, and the thread after them waits for them in `ThreadPoolCreate`. -/
def threadPoolCreate (numThreads clients : ℕ) : Config Position Shared where
  shared :=
    { pool := ⟨numThreads,0,0,jobQueueCreate,true⟩
      owner := fun _ => none
      destroyed := fun _ => false
      freed := fun _ => false
      ready := false
      heap := Heap.empty }
  threads := List.replicate numThreads (.worker .start)++
    .client .createTest::List.replicate clients (.client .idle)

end CStudy.ThreadPool02.Statements
