import CStudy.ThreadPool01.Model
import CStudy.Foundation.Program

/-! The pool of `thread_pool01` statement by statement. A statement is one step, whether its thread
holds `tp->mutex` or not; a position carries the local variables that are still needed. Undefined
are a statement that uses the freed pool or a wild task pointer, the use of a destroyed mutex or
condition variable, and an unlock by a thread that is not the owner. -/
namespace CStudy.ThreadPool01.Statements
open CStudy.Foundation

inductive Cond
  | taskList
  | finish
  deriving DecidableEq

/-- The pool with its mutex, and the tasks in memory. -/
structure Shared where
  tp : ThreadPool
  mutex : Option ℕ
  destroyed : Bool
  released : Bool
  heap : Heap WorkerTask

/-- The next statement of a thread in `Worker`. -/
inductive WorkerStmt
  /-- `while (tp->running)` -/
  | loopTest
  | lockLoop
  /-- `while (tp->running && tp->task_list == NULL)` -/
  | waitTest
  /-- `pthread_cond_wait(&tp->task_list_cond, &tp->mutex)` -/
  | waitTask
  /-- inside `pthread_cond_wait`, until it is woken -/
  | asleep
  /-- inside `pthread_cond_wait`, about to lock again -/
  | relock
  /-- `if (!tp->running)` -/
  | stopTest
  /-- `p = tp->task_list; if (p == NULL)` in `GetWorkerTask` -/
  | readTask
  /-- `tp->task_list = p->next` in `GetWorkerTask` -/
  | unlinkTask (p : Ptr)
  /-- `++tp->working_count` -/
  | countIn (task : Option Ptr)
  | unlockLoop (task : Option Ptr)
  /-- `if (task != NULL)` -/
  | taskTest (task : Option Ptr)
  /-- `task->func(task->arg)` -/
  | runTask (task : Ptr)
  /-- `free(task)` -/
  | freeTask (task : Ptr)
  | lockFinish
  /-- `--tp->working_count` -/
  | countOut
  /-- `if (tp->running && tp->working_count == 0 && tp->task_list == NULL)` -/
  | finishTest
  /-- `pthread_cond_signal(&tp->finish_cond)` in the loop -/
  | signalFinish
  | unlockFinish
  /-- `--tp->thread_count` -/
  | leaveCount
  /-- `pthread_cond_signal(&tp->finish_cond)` after the loop -/
  | leaveSignal
  | leaveUnlock
  | returned
  deriving DecidableEq

/-- The next statement of a thread that uses the pool. `ThreadPoolWait` is also called by
`ThreadPoolDestory`; `inDestory` tells the two calls apart. -/
inductive ClientStmt
  | idle
  | lockAdd (task : Ptr)
  /-- `p = tp->task_list; if (p == NULL)` in `ThreadPoolAddTask` -/
  | readAdd (task : Ptr)
  /-- `tp->task_list = task` -/
  | setAdd (task : Ptr)
  /-- `prev = p; p = p->next` -/
  | walkAdd (task p : Ptr)
  /-- `prev->next = task` -/
  | linkAdd (task prev : Ptr)
  | signalAdd
  | unlockAdd
  | lockWait (inDestory : Bool)
  /-- the wait condition -/
  | testWait (inDestory : Bool)
  /-- `pthread_cond_wait(&tp->finish_cond, &tp->mutex)` -/
  | sleepWait (inDestory : Bool)
  | asleepWait (inDestory : Bool)
  | relockWait (inDestory : Bool)
  | unlockWait (inDestory : Bool)
  | lockStop
  /-- `p = tp->task_list` in `ThreadPoolDestory` -/
  | readStop
  /-- `next = p->next` -/
  | nextStop (p : Ptr)
  /-- `free(p); p = next` -/
  | freeStop (p : Ptr) (next : Option Ptr)
  /-- `tp->running = false` -/
  | clearStop
  | broadcastStop
  | unlockStop
  | destroyMutex
  | destroyTaskCond
  | destroyFinishCond
  /-- `free(tp)` -/
  | freePool
  deriving DecidableEq

inductive Position
  | worker (stmt : WorkerStmt)
  | client (stmt : ClientStmt)
  deriving DecidableEq

inductive Call
  | addTask (func arg : Ptr) (mallocSucceeds : Bool)
  | wait
  | destory
  deriving DecidableEq

section Primitives
variable {α : Type} (g : Shared) (i : ℕ) (next : α)

/-- A statement that only goes on. -/
def goOn : Option (α × Shared × Notice Cond) := some (next,g,.nothing)

def lock : Option (α × Shared × Notice Cond) :=
  if g.destroyed = false ∧ g.mutex = none then some (next,{ g with mutex := some i },.nothing)
  else none

/-- `pthread_mutex_unlock`, and the first half of `pthread_cond_wait`. -/
def unlock : Option (α × Shared × Notice Cond) :=
  if g.destroyed = false ∧ g.mutex = some i then some (next,{ g with mutex := none },.nothing)
  else none

def notify (notice : Notice Cond) : Option (α × Shared × Notice Cond) :=
  if g.destroyed then none else some (next,g,notice)

end Primitives

def execWorker (i : ℕ) (g : Shared) : WorkerStmt → Option (WorkerStmt × Shared × Notice Cond)
  | .loopTest => goOn g (if g.tp.running then .lockLoop else .leaveCount)
  | .lockLoop => lock g i .waitTest
  | .waitTest => goOn g (if g.tp.running && g.tp.taskList.isNone then .waitTask else .stopTest)
  | .waitTask => unlock g i .asleep
  | .asleep => none
  | .relock => lock g i .waitTest
  | .stopTest => goOn g (if g.tp.running then .readTask else .leaveCount)
  | .readTask => goOn g (g.tp.taskList.elim (.countIn none) .unlinkTask)
  | .unlinkTask p => do
    let c ← g.heap.read p
    return (.countIn (some p),{ g with tp := { g.tp with taskList := c.next } },.nothing)
  | .countIn task =>
    some (.unlockLoop task,
      { g with tp := { g.tp with workingCount := g.tp.workingCount+1 } },.nothing)
  | .unlockLoop task => unlock g i (.taskTest task)
  | .taskTest task => goOn g (task.elim .lockFinish .runTask)
  | .runTask p => do
    let _ ← g.heap.read p
    return (.freeTask p,g,.nothing)
  | .freeTask p => some (.lockFinish,{ g with heap := g.heap.free p },.nothing)
  | .lockFinish => lock g i .countOut
  | .countOut =>
    some (.finishTest,{ g with tp := { g.tp with workingCount := g.tp.workingCount-1 } },.nothing)
  | .finishTest =>
    goOn g (if g.tp.running && g.tp.workingCount == 0 && g.tp.taskList.isNone then .signalFinish
      else .unlockFinish)
  | .signalFinish => notify g .unlockFinish (.signal .finish)
  | .unlockFinish => unlock g i .loopTest
  | .leaveCount =>
    some (.leaveSignal,{ g with tp := { g.tp with threadCount := g.tp.threadCount-1 } },.nothing)
  | .leaveSignal => notify g .leaveUnlock (.signal .finish)
  | .leaveUnlock => unlock g i .returned
  | .returned => none

def execClient (i : ℕ) (g : Shared) : ClientStmt → Option (ClientStmt × Shared × Notice Cond)
  | .idle => none
  | .lockAdd task => lock g i (.readAdd task)
  | .readAdd task => goOn g (g.tp.taskList.elim (.setAdd task) (.walkAdd task))
  | .setAdd task => some (.signalAdd,{ g with tp := { g.tp with taskList := some task } },.nothing)
  | .walkAdd task p => do
    let c ← g.heap.read p
    return (c.next.elim (.linkAdd task p) (.walkAdd task),g,.nothing)
  | .linkAdd task prev => do
    let heap ← g.heap.store prev fun c => { c with next := some task }
    return (.signalAdd,{ g with heap := heap },.nothing)
  | .signalAdd => notify g .unlockAdd (.signal .taskList)
  | .unlockAdd => unlock g i .idle
  | .lockWait d => lock g i (.testWait d)
  | .testWait d => goOn g (if g.tp.mustWait then .sleepWait d else .unlockWait d)
  | .sleepWait d => unlock g i (.asleepWait d)
  | .asleepWait _ => none
  | .relockWait d => lock g i (.testWait d)
  | .unlockWait d => unlock g i (if d then .destroyMutex else .idle)
  | .lockStop => lock g i .readStop
  | .readStop => goOn g (g.tp.taskList.elim .clearStop .nextStop)
  | .nextStop p => do
    let c ← g.heap.read p
    return (.freeStop p c.next,g,.nothing)
  | .freeStop p next =>
    some (next.elim .clearStop .nextStop,{ g with heap := g.heap.free p },.nothing)
  | .clearStop => some (.broadcastStop,{ g with tp := { g.tp with running := false } },.nothing)
  | .broadcastStop => notify g .unlockStop (.broadcast .taskList)
  | .unlockStop => unlock g i (.lockWait true)
  | .destroyMutex => some (.destroyTaskCond,{ g with destroyed := true },.nothing)
  | .destroyTaskCond => goOn g .destroyFinishCond
  | .destroyFinishCond => goOn g .freePool
  | .freePool => some (.idle,{ g with released := true },.nothing)

/-- The statement reads or writes the pool, its mutex or its condition variables. -/
def WorkerStmt.usesPool : WorkerStmt → Bool
  | .taskTest _ => false
  | .runTask _ => false
  | .freeTask _ => false
  | .returned => false
  | _ => true

/-- A walk along the list reads only the tasks. -/
def ClientStmt.usesPool : ClientStmt → Bool
  | .idle => false
  | .walkAdd _ _ => false
  | .linkAdd _ _ => false
  | .nextStop _ => false
  | .freeStop _ _ => false
  | _ => true

def exec (i : ℕ) (pc : Position) (g : Shared) : Option (Position × Shared × Notice Cond) :=
  match pc with
  | .worker stmt =>
    if g.released && stmt.usesPool then none
    else (execWorker i g stmt).map fun r => (.worker r.1,r.2)
  | .client stmt =>
    if g.released && stmt.usesPool then none
    else (execClient i g stmt).map fun r => (.client r.1,r.2)

/-- `malloc` and the initialisation of a task touch nothing that is shared. -/
def enter (call : Call) (pc : Position) (g : Shared) : Option (Position × Shared) :=
  match pc,call with
  | .client .idle,.addTask func arg true =>
    some (.client (.lockAdd g.heap.top),{ g with heap := g.heap.alloc ⟨func,arg,none⟩ })
  | .client .idle,.addTask _ _ false => some (.client .idle,g)
  | .client .idle,.wait => some (.client (.lockWait false),g)
  | .client .idle,.destory => some (.client .lockStop,g)
  | _,_ => none

def asleep : Position → Option Cond
  | .worker .asleep => some .taskList
  | .client (.asleepWait _) => some .finish
  | _ => none

def resume : Position → Position
  | .worker .asleep => .worker .relock
  | .client (.asleepWait d) => .client (.relockWait d)
  | pc => pc

def program : Program Position Shared Cond Call := ⟨exec,enter,asleep,resume⟩

/-- The pool with all `num` workers started. -/
def threadPoolCreate (num : UInt64) (clients : ℕ) : Option (Config Position Shared) :=
  if num = 0 then none
  else some
    { shared := ⟨⟨none,0,num,true⟩,none,false,false,Heap.empty⟩
      threads := List.replicate num.toNat (.worker .loopTest)++
        List.replicate clients (.client .idle) }

end CStudy.ThreadPool01.Statements
