import CStudy.ThreadPool01.Creation
import CStudy.ThreadPool02.Jobs

/-! The number of workers that `ThreadPoolCreate` waits for. It is the number it was called with,
while a thread whose struct has no memory, or that does not start, never counts itself in. Until
`ThreadPoolCreate` returns there is no job and no caller, so all that a worker can do is to count
itself in and to fall asleep at the semaphore. -/
namespace CStudy.ThreadPool02
open CStudy.Foundation

/-- The struct of a thread; `pool` and `thread` are the same for all, or not used again. -/
structure Thread where
  id : ℕ
  deriving DecidableEq

/-- The struct, or `NULL`, and whether a thread runs `Worker`. The result of `pthread_create` is
not looked at; `pthread_detach` of a thread that was not created is taken to do nothing. -/
def threadCreate (id : ℕ) (mallocSucceeds createSucceeds : Bool) : Option Thread × Bool :=
  if mallocSucceeds then (some ⟨id⟩,createSucceeds) else (none,false)

/-- The loop of `ThreadPoolCreate`: `pool->threads`, and the workers that run. -/
def createThreads (malloc create : ℕ → Bool) : ℕ → List (Option Thread) × List WorkerPc
  | 0 => ([],[])
  | i+1 =>
    let (threads,workers) := createThreads malloc create i
    let (thread,started) := threadCreate i (malloc i) (create i)
    (threads++[thread],if started then workers++[.start] else workers)

theorem createThreads_workers (malloc create : ℕ → Bool) (n : ℕ) :
    (createThreads malloc create n).2 =
      ((List.range n).filter fun i => malloc i && create i).map fun _ => .start := by
  induction n with
  | zero => rfl
  | succ i ih =>
    rw [createThreads,List.range_succ,List.filter_append,List.map_append,← ih]
    cases hmalloc : malloc i <;> cases hcreate : create i <;> simp [threadCreate,hmalloc,hcreate]

/-- The pool with the threads of its loop. -/
def threadPoolCreateThreads (numThreads : ℕ) (malloc create : ℕ → Bool) (clients : ℕ) : State :=
  { threadPoolCreate numThreads (fun _ => false) clients with
    workers := (createThreads malloc create numThreads).2 }

theorem threadPoolCreateThreads_eq (numThreads : ℕ) (malloc create : ℕ → Bool) (clients : ℕ) :
    threadPoolCreateThreads numThreads malloc create clients =
      threadPoolCreate numThreads (fun i => malloc i && create i) clients := by
  rw [threadPoolCreateThreads,createThreads_workers]
  rfl

def WorkerPc.isStarting : WorkerPc → Bool
  | .start => true
  | _ => false

/-- Where a worker can be before there is a job. -/
def WorkerPc.isEarly : WorkerPc → Bool
  | .start => true
  | .loopTest => true
  | .semaphoreWait => true
  | .semaphoreBlocked => true
  | _ => false

def startingWorkers (s : State) : ℕ := s.workers.countP WorkerPc.isStarting

/-- `ThreadPoolCreate` has not returned and waits for more workers, but all have counted themselves
in. -/
def WaitsForNobody (s : State) : Prop :=
  s.ready = false ∧ s.pool.aliveThreads ≠ s.pool.threadNum ∧ startingWorkers s = 0

instance (s : State) : Decidable (WaitsForNobody s) := inferInstanceAs (Decidable (_ ∧ _ ∧ _))

/-- The number that `ThreadPoolCreate` waits for is the number of workers that will count themselves
in, and in no run does it come to wait for a worker that does not exist. -/
def AwaitsItsWorkers (new : State) : Prop :=
  new.pool.threadNum = startingWorkers new ∧
    ∀ actions, Machine.Throughout step (fun s => ¬ WaitsForNobody s) new actions

section Ready
variable {s t : State} {w c : ℕ} {wake : Option ℕ} {e : Event}

theorem pullJob_ready (h : pullJob s w wake = some (t,e)) : t.ready = s.ready := by
  obtain ⟨⟨jq,job,posted⟩,_,h⟩ := Option.bind_eq_some_iff.mp h
  dsimp only at h
  split_ifs at h
  · obtain ⟨u,hu,hr⟩ := Option.bind_eq_some_iff.mp h
    cases hr
    exact (signalSemaphore_frame hu).1
  · cases h
    rfl

theorem countOut_ready (h : countOut s w wake = some (t,e)) : t.ready = s.ready := by
  unfold countOut at h
  dsimp only at h
  split_ifs at h
  · obtain ⟨u,hu,hr⟩ := Option.bind_eq_some_iff.mp h
    cases hr
    exact (signalPool_frame hu).2.1
  · cases h
    rfl

theorem workerStep_ready (h : workerStep s w wake = some (t,e)) : t.ready = s.ready := by
  unfold workerStep at h
  split at h
  · next task hw =>
    cases task with
    | none =>
      cases h
      rfl
    | some p =>
      obtain ⟨d,_,hr⟩ := Option.bind_eq_some_iff.mp h
      cases hr
      rfl
  · next pc _ hw =>
    split at h
    · cases h
    cases pc with
    | start | countIn | leave =>
      have hbody := locked_eq_some h
      cases hbody
      rfl
    | loopTest | semaphoreWait | aliveTest =>
      cases h
      rfl
    | pull => exact pullJob_ready h
    | countOut => exact countOut_ready (locked_eq_some h)
    | semaphoreBlocked | execute | done => cases h
  · cases h

theorem clientStep_ready (h : clientStep s c wake = some (t,e)) : t.ready = s.ready := by
  unfold clientStep at h
  split at h
  · obtain ⟨⟨jq,heap⟩,_,h⟩ := Option.bind_eq_some_iff.mp h
    obtain ⟨u,hu,hr⟩ := Option.bind_eq_some_iff.mp h
    cases hr
    exact (signalSemaphore_frame hu).1
  · split_ifs at h
    cases h
    rfl
  · cases h
    rfl
  · split_ifs at h
    · cases h
      rfl
    · cases h
      rfl
  · cases h
    rfl
  · cases h
    rfl
  · cases h
    rfl
  · obtain ⟨⟨jq,heap⟩,_,hr⟩ := Option.bind_eq_some_iff.mp h
    cases hr
    rfl
  · cases h

/-- `ThreadPoolCreate` returns only once. -/
theorem step_ready {a : Action} (hs : s.ready = true) (h : step s a = some (t,e)) :
    t.ready = true := by
  cases a with
  | createReturn =>
    rw [step] at h
    split_ifs at h
    cases h
    rfl
  | worker w wake => exact (workerStep_ready h).trans hs
  | client c wake =>
    rw [step] at h
    split_ifs at h
    exact (clientStep_ready h).trans hs
  | callAddTask c func arg stale mallocSucceeds =>
    rw [step] at h
    split_ifs at h
    unfold callAddTask at h
    split_ifs at h
    · cases h
      exact hs
    · cases h
      exact hs
  | callWait c | callDestory c | spuriousWorker w | spuriousClient c =>
    rw [step] at h
    split_ifs at h
    cases h
    exact hs

end Ready

/-- The pool before `ThreadPoolCreate` returns, with `m` threads that will never count themselves
in. -/
structure Early (m : ℕ) (s : State) : Prop where
  ready : s.ready = false
  alive : s.pool.alive = true
  flag : s.pool.jobQueue.hasJob.value = false
  idle : ∀ pc ∈ s.clients, pc = .idle
  early : ∀ pc ∈ s.workers, pc.isEarly = true
  count : s.pool.aliveThreads+startingWorkers s+m = s.pool.threadNum

namespace Early
variable {m : ℕ} {s t : State} {w c : ℕ} {wake : Option ℕ} {e : Event} {pc pc' : WorkerPc}

theorem setWorker_early (h : Early m s) (w : ℕ) (hearly : pc'.isEarly = true) :
    ∀ pc ∈ s.workers.set w pc', pc.isEarly = true := by
  intro pc hpc
  rcases List.mem_or_eq_of_mem_set hpc with hold | rfl
  · exact h.early pc hold
  · exact hearly

/-- A worker that has counted itself in moves on. -/
theorem setWorker (h : Early m s) (hw : s.workers[w]? = some pc) (hearly : pc'.isEarly = true)
    (hstart : pc'.isStarting = pc.isStarting) : Early m (s.setWorker w pc') where
  ready := h.ready
  alive := h.alive
  flag := h.flag
  idle := h.idle
  early := h.setWorker_early w hearly
  count := by
    have hsame : startingWorkers (s.setWorker w pc') = startingWorkers s :=
      Threads.countP_set_of_eq hw hstart
    rw [hsame]
    exact h.count

/-- A worker counts itself in. -/
theorem start (h : Early m s) (hw : s.workers[w]? = some .start) :
    Early m ({ s with pool := { s.pool with
      aliveThreads := s.pool.aliveThreads+1 } }.setWorker w .loopTest) where
  ready := h.ready
  alive := h.alive
  flag := h.flag
  idle := h.idle
  early := h.setWorker_early w rfl
  count := by
    have hset := Threads.countP_set (y := WorkerPc.loopTest) WorkerPc.isStarting hw
    simp only [WorkerPc.isStarting,if_true,Bool.false_eq_true,if_false,Nat.add_zero] at hset
    have hcount := h.count
    change s.pool.aliveThreads+1+((s.workers.set w .loopTest).countP WorkerPc.isStarting : ℕ)+m =
      s.pool.threadNum
    rw [startingWorkers,← hset] at hcount
    push_cast at hcount
    omega

theorem workerStep (h : Early m s) (hs : ThreadPool02.workerStep s w wake = some (t,e)) :
    Early m t := by
  unfold ThreadPool02.workerStep at hs
  split at hs
  · next task hw => cases h.early _ (List.mem_of_getElem? hw)
  · next pc _ hw =>
    split at hs
    · cases hs
    cases pc with
    | start =>
      have hbody := locked_eq_some hs
      cases hbody
      exact h.start hw
    | loopTest =>
      cases hs
      rw [if_pos h.alive]
      exact h.setWorker hw rfl rfl
    | semaphoreWait =>
      cases hs
      rw [h.flag,if_neg Bool.false_ne_true]
      exact h.setWorker hw rfl rfl
    | semaphoreBlocked => cases hs
    | aliveTest | countIn | pull | execute | countOut | leave | done =>
      cases h.early _ (List.mem_of_getElem? hw)
  · cases hs

theorem clientStep_eq_none (h : Early m s) : ThreadPool02.clientStep s c wake = none := by
  cases hc : s.clients[c]? with
  | none => simp [ThreadPool02.clientStep,hc]
  | some pc => simp [ThreadPool02.clientStep,hc,h.idle pc (List.mem_of_getElem? hc)]

theorem not_mayCall (h : Early m s) : ¬ s.mayCall c := fun hcall =>
  Bool.false_ne_true (h.ready.symm.trans hcall.1)

/-- `ThreadPoolCreate` returns, which it does not with a thread missing, or the pool stays as it
is, and only workers move. -/
theorem step {a : Action} (h : Early m s) (hs : ThreadPool02.step s a = some (t,e)) :
    (m = 0 ∧ t.ready = true) ∨ Early m t := by
  cases a with
  | createReturn =>
    rw [ThreadPool02.step] at hs
    split_ifs at hs with hall
    cases hs
    have hcount := h.count
    exact .inl ⟨by omega,rfl⟩
  | worker w wake => exact .inr (h.workerStep hs)
  | client c wake =>
    rw [ThreadPool02.step,h.clientStep_eq_none,ite_self] at hs
    cases hs
  | callAddTask c func arg stale mallocSucceeds =>
    rw [ThreadPool02.step,if_neg h.not_mayCall] at hs
    cases hs
  | callWait c =>
    rw [ThreadPool02.step,if_neg h.not_mayCall] at hs
    cases hs
  | callDestory c =>
    rw [ThreadPool02.step,if_neg fun hcall => h.not_mayCall hcall.1] at hs
    cases hs
  | spuriousWorker w =>
    rw [ThreadPool02.step] at hs
    split_ifs at hs with hw
    cases hs
    exact .inr (h.setWorker hw rfl rfl)
  | spuriousClient c =>
    rw [ThreadPool02.step] at hs
    split_ifs at hs with hc
    cases h.idle _ (List.mem_of_getElem? hc)

end Early

/-- In every run the pool is still the early one, or no thread is missing and it is ready. -/
theorem run_early {m : ℕ} {s t : State} {actions : List Action} {events : List Event}
    (hs : (m = 0 ∧ s.ready = true) ∨ Early m s)
    (hrun : Machine.run step s actions = some (t,events)) :
    (m = 0 ∧ t.ready = true) ∨ Early m t := by
  induction actions generalizing s events with
  | nil =>
    cases hrun
    exact hs
  | cons a actions ih =>
    obtain ⟨u,e,events',hstep,hrun,_⟩ := Machine.run_cons_eq_some.mp hrun
    refine ih ?_ hrun
    rcases hs with ⟨hm,hready⟩ | hearly
    · exact .inl ⟨hm,step_ready hready hstep⟩
    · exact hearly.step hstep

section Creation
variable (numThreads : ℕ) (created : ℕ → Bool) (clients : ℕ)

theorem startingWorkers_create : startingWorkers (threadPoolCreate numThreads created clients)+
    Threads.notStarted numThreads created = numThreads := by
  have hall : startingWorkers (threadPoolCreate numThreads created clients) =
      ((List.range numThreads).filter created).length := by
    rw [startingWorkers,threadPoolCreate,List.countP_map,List.countP_eq_length]
    intro i _
    rfl
  rw [hall]
  exact Threads.length_started_add numThreads created

theorem early_create : Early (Threads.notStarted numThreads created)
    (threadPoolCreate numThreads created clients) where
  ready := rfl
  alive := rfl
  flag := rfl
  idle := fun pc hpc => List.eq_of_mem_replicate hpc
  early := by
    intro pc hpc
    obtain ⟨i,_,rfl⟩ := List.mem_map.mp hpc
    rfl
  count := by
    have hcount := startingWorkers_create numThreads created clients
    change (0 : ℤ)+_+_ = (numThreads : ℤ)
    omega

theorem awaitsItsWorkers_iff : AwaitsItsWorkers (threadPoolCreate numThreads created clients) ↔
    ∀ i < numThreads, created i = true := by
  have hcreate := startingWorkers_create numThreads created clients
  have hnum : (threadPoolCreate numThreads created clients).pool.threadNum = numThreads := rfl
  rw [← Threads.notStarted_eq_zero_iff]
  constructor
  · rintro ⟨hcount,_⟩
    omega
  · intro hall
    refine ⟨by omega,?_⟩
    rintro actions done _ s past hrun ⟨hready,hwaits,hnone⟩
    rcases run_early (.inr (early_create numThreads created clients)) hrun with ⟨_,htrue⟩ | hs
    · cases hready.symm.trans htrue
    · have hcount := hs.count
      rw [hnone,hall] at hcount
      exact hwaits (by omega)

/-- With a thread that did not start, `ThreadPoolCreate` does not return in any run. -/
theorem create_never_returns (hfailed : ∃ i < numThreads, created i = false)
    (actions : List Action) :
    Machine.Throughout step (fun s => s.ready = false) (threadPoolCreate numThreads created clients)
      actions := by
  intro done _ s past hrun
  rcases run_early (.inr (early_create numThreads created clients)) hrun with ⟨hzero,_⟩ | hs
  · obtain ⟨i,hi,hfalse⟩ := hfailed
    cases hfalse.symm.trans (Threads.notStarted_eq_zero_iff.mp hzero i hi)
  · exact hs.ready

end Creation

end CStudy.ThreadPool02

namespace CStudy
open CStudy.Foundation

/-- For all numbers of workers and all patterns of success and failure: the pool of `thread_pool01`
awaits the workers it has exactly if every `pthread_create` succeeds, and that of `thread_pool02`
exactly if moreover every `malloc` of `ThreadCreate` does. -/
theorem pools_await_workers_iff (num : UInt64) (created : ℕ → Bool) (clients : ℕ)
    (new : ThreadPool01.State) (hnew : ThreadPool01.threadPoolCreate num created clients = some new)
    (numThreads : ℕ) (malloc create : ℕ → Bool) :
    (ThreadPool01.AwaitsItsWorkers new ↔ ∀ i < num.toNat, created i = true) ∧
      (ThreadPool02.AwaitsItsWorkers
          (ThreadPool02.threadPoolCreateThreads numThreads malloc create clients) ↔
        ∀ i < numThreads, malloc i = true ∧ create i = true) := by
  constructor
  · exact ThreadPool01.awaitsItsWorkers_iff hnew
  · rw [ThreadPool02.threadPoolCreateThreads_eq,ThreadPool02.awaitsItsWorkers_iff]
    simp only [Bool.and_eq_true]

/-- Three workers of `thread_pool01` and two of `thread_pool02`, all of which start. -/
theorem pools_await_workers_all : ∃ new,
    ThreadPool01.threadPoolCreate 3 (fun _ => true) 1 = some new ∧
      ThreadPool01.AwaitsItsWorkers new ∧
      ThreadPool02.AwaitsItsWorkers
        (ThreadPool02.threadPoolCreateThreads 2 (fun _ => true) (fun _ => true) 1) := by
  have h := pools_await_workers_iff 3 (fun _ => true) 1 _ rfl 2 (fun _ => true) (fun _ => true)
  exact ⟨_,rfl,h.1.mpr fun _ _ => rfl,h.2.mpr fun _ _ => ⟨rfl,rfl⟩⟩

/-- Of two workers the second does not start. The pool of `thread_pool01` is destroyed, its worker
has left and its caller is asleep, and the count is still one. `ThreadPoolCreate` of `thread_pool02`
waits for a second worker while the only one has counted itself in. -/
theorem pools_wait_for_nobody :
    (∃ new s past, ThreadPool01.threadPoolCreate 2 (fun i => i == 0) 1 = some new ∧
      new.tp.threadCount.toNat ≠ new.workers.length ∧
      Machine.run ThreadPool01.step new [.callDestory 0,.client 0 none,.client 0 none,.worker 0 none,
        .worker 0 none,.worker 0 (some 0),.client 0 none] = some (s,past) ∧
      s.workers = [.done] ∧ s.clients = [.blocked true] ∧ ThreadPool01.WaitsForNobody s) ∧
    (∃ s past, Machine.run ThreadPool02.step (ThreadPool02.threadPoolCreateThreads 2 (fun _ => true)
        (fun i => i == 0) 1) [.worker 0 none] = some (s,past) ∧
      s.workers = [.loopTest] ∧ ThreadPool02.WaitsForNobody s) := by
  constructor
  · exact ⟨_,_,_,rfl,by decide,rfl,rfl,rfl,by decide⟩
  · exact ⟨_,_,rfl,rfl,by decide⟩

end CStudy
