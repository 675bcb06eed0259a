import CStudy.ThreadPool02.Model
import CStudy.Foundation.Flow

/-! Where the jobs are. As in the other pool a step moves one job along, counts a worker in or
out, or is of no account to jobs. In addition the step is followed in which `ThreadPoolWait` reads
an empty queue: the jobs added so far have then all been pulled. -/
namespace CStudy.ThreadPool02
open CStudy.Foundation

/-- The worker is between its increment and its decrement of `working_threads`. -/
def WorkerPc.isBusy : WorkerPc → Bool
  | .pull => true
  | .execute _ => true
  | .countOut => true
  | _ => false

/-- The job the worker has pulled and not yet executed. -/
def WorkerPc.task? : WorkerPc → Option Ptr
  | .execute task => task
  | _ => none

/-- The job a client has allocated and not yet pushed. -/
def ClientPc.task? : ClientPc → Option Ptr
  | .addTask task => some task
  | _ => none

/-- The client has read an empty queue and has not yet read `working_threads`. -/
def ClientPc.isReading : ClientPc → Bool
  | .waitWorking => true
  | _ => false

theorem isReading_iff {pc : ClientPc} : pc.isReading = true ↔ pc = .waitWorking := by
  cases pc <;> simp [ClientPc.isReading]

section History

/-- The jobs that `ThreadPoolAddTask` has accepted, in this order. -/
def addedJobs (past : List Event) : List Ptr := past.filterMap fun
  | .added _ p => some p
  | _ => none

/-- The jobs that workers have pulled, in this order. -/
def pulledJobs (past : List Event) : List Ptr := past.filterMap fun
  | .pulled _ p => some p
  | _ => none

/-- The jobs whose functions have returned. -/
def executedJobs (past : List Event) : List Ptr := past.filterMap fun
  | .executed _ p => some p
  | _ => none

/-- The event moves no job. -/
def Event.Quiet (e : Event) : Prop :=
  addedJobs [e] = [] ∧ pulledJobs [e] = [] ∧ executedJobs [e] = []

/-- What the three histories become with one more event. -/
def Extends (past : List Event) (e : Event) (a p x : List Ptr) : Prop :=
  addedJobs (past++[e]) = addedJobs past++a ∧ pulledJobs (past++[e]) = pulledJobs past++p ∧
    executedJobs (past++[e]) = executedJobs past++x

theorem extends_event (past : List Event) (e : Event) :
    Extends past e (addedJobs [e]) (pulledJobs [e]) (executedJobs [e]) :=
  ⟨List.filterMap_append,List.filterMap_append,List.filterMap_append⟩

theorem quiet_silent : Event.silent.Quiet := ⟨rfl,rfl,rfl⟩

end History

/-- Two states that agree in all that matters to jobs, of which the second has no client at the
second read of `ThreadPoolWait` that was not there before. -/
structure SameView (s t : State) : Prop where
  workingThreads : t.pool.workingThreads = s.pool.workingThreads
  released : t.released = s.released
  heap : t.heap = s.heap
  queue : ∀ l, s.pool.jobQueue.Holds s.heap l → t.pool.jobQueue.Holds s.heap l
  tasks : t.workers.map WorkerPc.task? = s.workers.map WorkerPc.task?
  busy : t.workers.map WorkerPc.isBusy = s.workers.map WorkerPc.isBusy
  pending : t.clients.map ClientPc.task? = s.clients.map ClientPc.task?
  reading : ∀ c : ℕ, t.clients[c]? = some .waitWorking → s.clients[c]? = some .waitWorking

section View
variable {s t : State} {w c : ℕ} {wake : Option ℕ}

theorem sameView_refl (s : State) : SameView s s :=
  ⟨rfl,rfl,rfl,fun _ h => h,rfl,rfl,rfl,fun _ h => h⟩

theorem SameView.trans {u : State} (h : SameView s t) (h' : SameView t u) : SameView s u :=
  ⟨h'.workingThreads.trans h.workingThreads,h'.released.trans h.released,h'.heap.trans h.heap,
    fun l hl => h.heap ▸ h'.queue l (h.heap.symm ▸ h.queue l hl),h'.tasks.trans h.tasks,
    h'.busy.trans h.busy,h'.pending.trans h.pending,
    fun c hc => h.reading c (h'.reading c hc)⟩

theorem getElem?_set_waitWorking {clients : List ClientPc} {pc : ClientPc} (hpc : pc ≠ .waitWorking)
    {d : ℕ} (h : (clients.set c pc)[d]? = some .waitWorking) : clients[d]? = some .waitWorking := by
  rw [List.getElem?_set] at h
  split_ifs at h
  · cases h
    exact absurd rfl hpc
  · exact h

theorem sameView_setWorker {pc pc' : WorkerPc} (hw : s.workers[w]? = some pc)
    (ht : pc'.task? = pc.task?) (hb : pc'.isBusy = pc.isBusy) : SameView s (s.setWorker w pc') :=
  ⟨rfl,rfl,rfl,fun _ h => h,Threads.map_set_of_eq hw ht,Threads.map_set_of_eq hw hb,rfl,
    fun _ h => h⟩

theorem sameView_setClient {pc pc' : ClientPc} (hc : s.clients[c]? = some pc)
    (ht : pc'.task? = pc.task?) (hr : pc' ≠ .waitWorking) :
    SameView s (s.setClient c pc') :=
  ⟨rfl,rfl,rfl,fun _ h => h,rfl,rfl,Threads.map_set_of_eq hc ht,
    fun _ h => getElem?_set_waitWorking hr h⟩

/-- The same thread is set to the same position in both. -/
theorem SameView.setWorker (h : SameView s t) (w : ℕ) (pc : WorkerPc) :
    SameView (s.setWorker w pc) (t.setWorker w pc) := by
  refine ⟨h.workingThreads,h.released,h.heap,h.queue,?_,?_,h.pending,h.reading⟩
  · rw [State.setWorker,State.setWorker,List.map_set,List.map_set,h.tasks]
  · rw [State.setWorker,State.setWorker,List.map_set,List.map_set,h.busy]

theorem workerBlocked_iff {pc : WorkerPc} : pc.isBlocked = true ↔ pc = .semaphoreBlocked := by
  cases pc <;> simp [WorkerPc.isBlocked]

theorem clientBlocked_iff {pc : ClientPc} : pc.isBlocked = true ↔ pc = .waitBlocked := by
  cases pc <;> simp [ClientPc.isBlocked]

/-- Waking a worker changes nothing that matters. -/
theorem map_semaphoreWait {β : Type*} {f : WorkerPc → β}
    (hf : f .semaphoreWait = f .semaphoreBlocked) (x : WorkerPc) (hx : x.isBlocked = true) :
    f .semaphoreWait = f x := by rw [workerBlocked_iff.mp hx,hf]

theorem sameView_signalSemaphore (h : signalSemaphore s wake = some t) :
    SameView s t ∧ t.clients = s.clients := by
  unfold signalSemaphore at h
  obtain ⟨workers,hw,hr⟩ := Option.bind_eq_some_iff.mp h
  cases hr
  exact ⟨⟨rfl,rfl,rfl,fun _ h => h,Threads.map_signal (map_semaphoreWait rfl) hw,
    Threads.map_signal (map_semaphoreWait rfl) hw,rfl,fun _ h => h⟩,rfl⟩

theorem sameView_broadcastSemaphore (s : State) : SameView s (broadcastSemaphore s) :=
  ⟨rfl,rfl,rfl,fun _ h => h,Threads.map_broadcast (map_semaphoreWait rfl) _,
    Threads.map_broadcast (map_semaphoreWait rfl) _,rfl,fun _ h => h⟩

/-- Waking a client changes nothing that matters. -/
theorem map_waitLock {β : Type*} {f : ClientPc → β} (hf : f .waitLock = f .waitBlocked)
    (x : ClientPc) (hx : x.isBlocked = true) : f .waitLock = f x := by
  rw [clientBlocked_iff.mp hx,hf]

theorem sameView_signalPool (h : signalPool s wake = some t) : SameView s t := by
  unfold signalPool at h
  obtain ⟨clients,hc,hr⟩ := Option.bind_eq_some_iff.mp h
  cases hr
  refine ⟨rfl,rfl,rfl,fun _ h => h,rfl,rfl,Threads.map_signal (map_waitLock rfl) hc,?_⟩
  intro d hd
  have hmap := Threads.map_signal (f := ClientPc.isReading) (map_waitLock rfl) hc
  have hget := congrArg (fun l : List Bool => l[d]?) hmap
  simp only [List.getElem?_map,hd,Option.map_some] at hget
  obtain ⟨pc,hpc,hread⟩ := Option.map_eq_some_iff.mp hget.symm
  rw [hpc,isReading_iff.mp hread]

theorem signalSemaphore_frame (h : signalSemaphore s wake = some t) :
    t.ready = s.ready ∧ t.workers.length = s.workers.length ∧ t.clients = s.clients := by
  obtain ⟨workers,hw,hr⟩ := Option.bind_eq_some_iff.mp h
  cases hr
  exact ⟨rfl,Threads.length_signal hw,rfl⟩

theorem signalPool_frame (h : signalPool s wake = some t) :
    t.pool = s.pool ∧ t.ready = s.ready ∧ t.workers = s.workers ∧
      t.clients.length = s.clients.length := by
  obtain ⟨clients,hc,hr⟩ := Option.bind_eq_some_iff.mp h
  cases hr
  exact ⟨rfl,rfl,rfl,Threads.length_signal hc⟩

end View

/-- All that a step can do to jobs. -/
inductive Moves (s : State) : State → Event → Prop
  | quiet {t : State} {e : Event} (hv : SameView s t) (he : e.Quiet) : Moves s t e
  | prepare {c : ℕ} (hc : s.clients[c]? = some .idle) (func arg : Ptr) (stale : Option Ptr) :
      Moves s ({ s with heap := s.heap.alloc ⟨stale,func,arg⟩ }.setClient c (.addTask s.heap.top))
        .silent
  | push {c : ℕ} {p : Ptr} {jq : JobQueue} {heap : Heap Job} {t : State}
      (hr : s.released = false) (hc : s.clients[c]? = some (.addTask p))
      (hp : jobQueuePush s.pool.jobQueue s.heap p = some (jq,heap))
      (hv : SameView ({ s with heap := heap, pool := { s.pool with
        jobQueue := jq } }.setClient c .idle) t) :
      Moves s t (.added c p)
  | countIn {w : ℕ} (hw : s.workers[w]? = some .countIn) :
      Moves s ({ s with pool := { s.pool with
        workingThreads := s.pool.workingThreads+1 } }.setWorker w .pull) .silent
  | pull {w : ℕ} {p : Ptr} {jq : JobQueue} {posted : Bool} {t : State}
      (hr : s.released = false) (hw : s.workers[w]? = some .pull)
      (hp : jobQueuePull s.pool.jobQueue s.heap = some (jq,some p,posted))
      (hv : SameView ({ s with pool := { s.pool with
        jobQueue := jq } }.setWorker w (.execute (some p))) t) :
      Moves s t (.pulled w p)
  | execute {w : ℕ} {p : Ptr} (hw : s.workers[w]? = some (.execute (some p))) :
      Moves s ({ s with heap := s.heap.free p }.setWorker w .countOut) (.executed w p)
  | countOut {w : ℕ} {t : State} (hw : s.workers[w]? = some .countOut)
      (hv : SameView ({ s with pool := { s.pool with
        workingThreads := s.pool.workingThreads-1 } }.setWorker w .loopTest) t) :
      Moves s t .silent
  | readLength {c : ℕ} (hr : s.released = false) (hc : s.clients[c]? = some .waitLength)
      (hl : s.pool.jobQueue.length = 0) : Moves s (s.setClient c .waitWorking) .silent
  | free {c : ℕ} {jq : JobQueue} {heap : Heap Job} (hc : s.clients[c]? = some .destoryFree)
      (hh : jobQueueClear s.pool.jobQueue s.heap = some (jq,heap)) :
      Moves s ({ s with
        heap := heap
        released := true
        pool := { s.pool with jobQueue := jq } }.setClient c .idle) .silent

section Step
variable {s t : State} {w c : ℕ} {wake : Option ℕ} {e : Event}

/-- A pull that returns no job leaves the queue as it is. -/
theorem holds_of_pull_none {jq : JobQueue} {posted : Bool} {l : List Ptr}
    (hp : jobQueuePull s.pool.jobQueue s.heap = some (jq,none,posted))
    (h : s.pool.jobQueue.Holds s.heap l) : jq.Holds s.heap l := by
  cases l with
  | nil =>
    cases hp.symm.trans h.pull_nil
    exact h
  | cons p l =>
    obtain ⟨_,_,hp',_⟩ := h.pull_cons
    cases hp.symm.trans hp'

theorem pullJob_moves (hr : s.released = false) (hw : s.workers[w]? = some .pull)
    (h : pullJob s w wake = some (t,e)) : Moves s t e := by
  unfold pullJob at h
  obtain ⟨⟨jq,job,posted⟩,hp,h⟩ := Option.bind_eq_some_iff.mp h
  dsimp only at h
  have hview : SameView ({ s with pool := { s.pool with
      jobQueue := jq } }.setWorker w (.execute job)) t ∧ e = pullEvent w job := by
    split_ifs at h
    · obtain ⟨u,hu,h⟩ := Option.bind_eq_some_iff.mp h
      cases h
      exact ⟨(sameView_signalSemaphore hu).1.setWorker w _,rfl⟩
    · cases h
      exact ⟨sameView_refl _,rfl⟩
  obtain ⟨hv,rfl⟩ := hview
  cases job with
  | some p => exact .pull hr hw hp hv
  | none =>
    refine .quiet (SameView.trans ?_ hv) quiet_silent
    exact ⟨rfl,rfl,rfl,fun l hl => holds_of_pull_none hp hl,Threads.map_set_of_eq hw rfl,
      Threads.map_set_of_eq hw rfl,rfl,fun _ h => h⟩

theorem executeJob_moves {task : Option Ptr} (hw : s.workers[w]? = some (.execute task))
    (h : executeJob s w task = some (t,e)) : Moves s t e := by
  cases task with
  | none =>
    cases h
    exact .quiet (sameView_setWorker hw rfl rfl) quiet_silent
  | some p =>
    rw [executeJob] at h
    obtain ⟨d,_,hr⟩ := Option.bind_eq_some_iff.mp h
    cases hr
    exact .execute hw

theorem countOut_moves (hw : s.workers[w]? = some .countOut)
    (h : countOut s w wake = some (t,e)) : Moves s t e := by
  unfold countOut at h
  dsimp only at h
  split_ifs at h
  · obtain ⟨u,hu,hr⟩ := Option.bind_eq_some_iff.mp h
    cases hr
    exact .countOut hw ((sameView_signalPool hu).setWorker w _)
  · cases h
    exact .countOut hw (sameView_refl _)

/-- The section of a worker is run when no client holds the pool mutex. -/
theorem locked_eq_some {body : Option (State × Event)} (h : locked s body = some (t,e)) :
    body = some (t,e) := by
  unfold locked at h
  split_ifs at h
  exact h

theorem workerStep_moves (h : workerStep s w wake = some (t,e)) : Moves s t e := by
  unfold workerStep at h
  split at h
  · next hw => exact executeJob_moves hw h
  · next pc _ hw =>
    split at h
    · cases h
    next hrel =>
    have hr : s.released = false := by simpa using hrel
    cases pc with
    | start =>
      cases locked_eq_some h
      exact .quiet ⟨rfl,rfl,rfl,fun _ h => h,Threads.map_set_of_eq hw rfl,
        Threads.map_set_of_eq hw rfl,rfl,fun _ h => h⟩ quiet_silent
    | loopTest =>
      cases h
      refine .quiet (sameView_setWorker hw ?_ ?_) quiet_silent
      · split_ifs <;> rfl
      · split_ifs <;> rfl
    | semaphoreWait =>
      cases h
      refine .quiet (sameView_setWorker hw ?_ ?_) quiet_silent
      · split_ifs <;> rfl
      · split_ifs <;> rfl
    | semaphoreBlocked => cases h
    | aliveTest =>
      cases h
      refine .quiet (sameView_setWorker hw ?_ ?_) quiet_silent
      · split_ifs <;> rfl
      · split_ifs <;> rfl
    | countIn =>
      cases locked_eq_some h
      exact .countIn hw
    | pull => exact pullJob_moves hr hw h
    | execute task => cases h
    | countOut => exact countOut_moves hw (locked_eq_some h)
    | leave =>
      cases locked_eq_some h
      exact .quiet ⟨rfl,rfl,rfl,fun _ h => h,Threads.map_set_of_eq hw rfl,
        Threads.map_set_of_eq hw rfl,rfl,fun _ h => h⟩ quiet_silent
    | done => cases h
  · cases h

/-- A client that takes or gives back the pool mutex moves no job. -/
theorem sameView_mutex {pc pc' : ClientPc} (m : Option ℕ) (hc : s.clients[c]? = some pc)
    (ht : pc'.task? = pc.task?) (hr : pc' ≠ .waitWorking) :
    SameView s ({ s with mutex := m }.setClient c pc') :=
  ⟨rfl,rfl,rfl,fun _ h => h,rfl,rfl,Threads.map_set_of_eq hc ht,
    fun _ h => getElem?_set_waitWorking hr h⟩

theorem clientStep_moves (hr : s.released = false) (h : clientStep s c wake = some (t,e)) :
    Moves s t e := by
  unfold clientStep at h
  split at h
  · next task hc =>
    obtain ⟨⟨jq,heap⟩,hp,h⟩ := Option.bind_eq_some_iff.mp h
    obtain ⟨u,hu,h⟩ := Option.bind_eq_some_iff.mp h
    cases h
    obtain ⟨hv,hclients⟩ := sameView_signalSemaphore hu
    refine .push hr hc hp ⟨hv.workingThreads,hv.released,hv.heap,hv.queue,hv.tasks,hv.busy,?_,?_⟩
    · rw [State.setClient,State.setClient,hclients]
    · rw [State.setClient,State.setClient,hclients]
      exact fun _ h => h
  · next hc =>
    split_ifs at h
    cases h
    exact .quiet (sameView_mutex _ hc rfl (by simp)) quiet_silent
  · next hc =>
    cases h
    split_ifs with hl
    · exact .quiet (sameView_setClient hc rfl (by simp)) quiet_silent
    · exact .readLength hr hc (by omega)
  · next hc =>
    split_ifs at h
    · cases h
      exact .quiet (sameView_setClient hc rfl (by simp)) quiet_silent
    · cases h
      exact .quiet (sameView_mutex _ hc rfl (by simp)) ⟨rfl,rfl,rfl⟩
  · next hc =>
    cases h
    exact .quiet (sameView_mutex _ hc rfl (by simp)) quiet_silent
  · next hc =>
    cases h
    refine .quiet (sameView_setClient hc ?_ ?_) quiet_silent
    · split_ifs <;> rfl
    · split_ifs <;> simp
  · next hc =>
    cases h
    have hv := sameView_broadcastSemaphore s
    refine .quiet ⟨rfl,rfl,rfl,?_,hv.tasks,hv.busy,Threads.map_set_of_eq hc rfl,
      fun _ h => getElem?_set_waitWorking (by simp) h⟩ quiet_silent
    intro l hl
    exact ⟨hl.chain,hl.last,hl.length,fun _ => rfl⟩
  · next hc =>
    obtain ⟨⟨jq,heap⟩,hh,h⟩ := Option.bind_eq_some_iff.mp h
    cases h
    exact .free hc hh
  · cases h

/-- Every step is one of the moves. -/
theorem step_moves {a : Action} (h : step s a = some (t,e)) : Moves s t e := by
  cases a with
  | createReturn =>
    rw [step] at h
    split_ifs at h
    cases h
    exact .quiet ⟨rfl,rfl,rfl,fun _ h => h,rfl,rfl,rfl,fun _ h => h⟩ quiet_silent
  | worker w wake => exact workerStep_moves h
  | client c wake =>
    rw [step] at h
    split_ifs at h with hrel
    exact clientStep_moves (by simpa using hrel) h
  | callAddTask c func arg stale mallocSucceeds =>
    rw [step] at h
    split_ifs at h with hc
    unfold callAddTask at h
    split_ifs at h
    · cases h
      exact .prepare hc.2 func arg stale
    · cases h
      exact .quiet (sameView_refl s) ⟨rfl,rfl,rfl⟩
  | callWait c =>
    rw [step] at h
    split_ifs at h with hc
    cases h
    exact .quiet (sameView_setClient hc.2 rfl (by simp)) ⟨rfl,rfl,rfl⟩
  | callDestory c =>
    rw [step] at h
    split_ifs at h with hc
    cases h
    exact .quiet ⟨rfl,rfl,rfl,fun _ h => h,rfl,rfl,Threads.map_set_of_eq hc.1.2 rfl,
      fun _ h => getElem?_set_waitWorking (by simp) h⟩ ⟨rfl,rfl,rfl⟩
  | spuriousWorker w =>
    rw [step] at h
    split_ifs at h with hw
    cases h
    exact .quiet (sameView_setWorker hw rfl rfl) quiet_silent
  | spuriousClient c =>
    rw [step] at h
    split_ifs at h with hc
    cases h
    exact .quiet (sameView_setClient hc rfl (by simp)) quiet_silent

end Step
/-- The account of all jobs after the events `past`; the jobs `rest` were added and not pulled. -/
structure Accounts (past : List Event) (s : State) (rest : List Ptr) : Prop where
  working : s.pool.workingThreads = s.workers.countP WorkerPc.isBusy
  flow : Flow s.heap.top (s.clients.filterMap ClientPc.task?) (addedJobs past) (pulledJobs past)
    (executedJobs past) (s.workers.filterMap WorkerPc.task?) rest
  pending : s.released = false → ∀ p ∈ s.clients.filterMap ClientPc.task?,
    ∃ c, s.heap.read p = some c
  queue : s.released = false → s.pool.jobQueue.Holds s.heap rest

namespace Accounts
variable {past : List Event} {s t : State} {w c : ℕ} {p : Ptr} {e : Event} {rest : List Ptr}

theorem of_sameView (h : Accounts past s rest) (hv : SameView s t) : Accounts past t rest := by
  have htask := Threads.filterMap_eq_of_map hv.tasks
  have hpend := Threads.filterMap_eq_of_map hv.pending
  refine ⟨?_,?_,?_,?_⟩
  · rw [hv.workingThreads,Threads.countP_eq_of_map hv.busy]
    exact h.working
  · rw [htask,hpend,hv.heap]
    exact h.flow
  · rw [hv.released,hpend,hv.heap]
    exact h.pending
  · rw [hv.released,hv.heap]
    intro hr
    exact hv.queue rest (h.queue hr)

theorem quiet (h : Accounts past s rest) (he : e.Quiet) : Accounts (past++[e]) s rest := by
  obtain ⟨ha,hp,hx⟩ := extends_event past e
  rw [he.1,List.append_nil] at ha
  rw [he.2.1,List.append_nil] at hp
  rw [he.2.2,List.append_nil] at hx
  refine ⟨h.working,?_,h.pending,h.queue⟩
  rw [ha,hp,hx]
  exact h.flow

theorem prepare (h : Accounts past s rest) (hc : s.clients[c]? = some .idle) (func arg : Ptr)
    (stale : Option Ptr) :
    Accounts past ({ s with heap := s.heap.alloc ⟨stale,func,arg⟩ }.setClient c
      (.addTask s.heap.top)) rest := by
  have hperm : ((s.clients.set c (.addTask s.heap.top)).filterMap ClientPc.task?).Perm
      (s.heap.top::s.clients.filterMap ClientPc.task?) :=
    Threads.filterMap_set_perm ClientPc.task? hc
  refine ⟨h.working,h.flow.prepare hperm,?_,?_⟩
  · intro hr p hp
    rcases List.mem_cons.mp (hperm.mem_iff.mp hp) with rfl | hp
    · exact ⟨_,Heap.read_alloc_top _ _⟩
    · have hlt := h.flow.below p (List.mem_append_right _ hp)
      obtain ⟨d,hd⟩ := h.pending hr p hp
      exact ⟨d,(Heap.read_alloc_of_ne hlt.ne).trans hd⟩
  · intro hr
    apply (h.queue hr).congr
    intro q hq
    apply Heap.read_alloc_of_ne
    refine (h.flow.below q (List.mem_append_left _ ?_)).ne
    rw [h.flow.order]
    exact List.mem_append_right _ hq

theorem push {jq : JobQueue} {heap : Heap Job} (h : Accounts past s rest)
    (hr : s.released = false) (hc : s.clients[c]? = some (.addTask p))
    (hp : jobQueuePush s.pool.jobQueue s.heap p = some (jq,heap)) :
    Accounts (past++[.added c p]) ({ s with heap := heap, pool := { s.pool with
      jobQueue := jq } }.setClient c .idle) (rest++[p]) := by
  obtain ⟨hadd,hpull,hexec⟩ : Extends past (.added c p) [p] [] [] :=
    extends_event past _
  rw [List.append_nil] at hpull hexec
  have hperm : (p::(s.clients.set c .idle).filterMap ClientPc.task?).Perm
      (s.clients.filterMap ClientPc.task?) := Threads.filterMap_set_perm ClientPc.task? hc
  have hpend : p ∈ s.clients.filterMap ClientPc.task? := hperm.mem_iff.mp List.mem_cons_self
  obtain ⟨d,hd⟩ := h.pending hr p hpend
  obtain ⟨jq',heap',hp',hq,htop,hframe⟩ :=
    (h.queue hr).push hd (h.flow.pending_notMem_queue hpend)
  cases hp.symm.trans hp'
  refine ⟨h.working,?_,?_,fun _ => hq⟩
  · rw [hadd,hpull,hexec,State.setClient]
    dsimp only
    rw [htop]
    exact h.flow.add hperm
  · intro _ q hqp
    have hq' := hperm.mem_iff.mp (List.mem_cons_of_mem p hqp)
    obtain ⟨d',hd'⟩ := h.pending hr q hq'
    refine ⟨d',(hframe q ?_).trans hd'⟩
    exact (h.flow.add hperm).pending_notMem_queue hqp

theorem countIn (h : Accounts past s rest) (hw : s.workers[w]? = some .countIn) :
    Accounts past ({ s with pool := { s.pool with
      workingThreads := s.pool.workingThreads+1 } }.setWorker w .pull) rest := by
  have hcount : (s.workers.set w .pull).countP WorkerPc.isBusy =
      s.workers.countP WorkerPc.isBusy+1 := Threads.countP_set WorkerPc.isBusy hw
  have htask : (s.workers.set w .pull).filterMap WorkerPc.task? =
      s.workers.filterMap WorkerPc.task? := Threads.filterMap_set_of_eq hw rfl
  refine ⟨?_,?_,h.pending,h.queue⟩
  · rw [State.setWorker,hcount]
    dsimp only
    rw [h.working]
    push_cast
    rfl
  · rw [State.setWorker,htask]
    exact h.flow

theorem countOut (h : Accounts past s rest) (hw : s.workers[w]? = some .countOut) :
    Accounts past ({ s with pool := { s.pool with
      workingThreads := s.pool.workingThreads-1 } }.setWorker w .loopTest) rest := by
  have hcount : (s.workers.set w .loopTest).countP WorkerPc.isBusy+1 =
      s.workers.countP WorkerPc.isBusy := Threads.countP_set WorkerPc.isBusy hw
  have htask : (s.workers.set w .loopTest).filterMap WorkerPc.task? =
      s.workers.filterMap WorkerPc.task? := Threads.filterMap_set_of_eq hw rfl
  refine ⟨?_,?_,h.pending,h.queue⟩
  · rw [State.setWorker]
    dsimp only
    rw [h.working]
    omega
  · rw [State.setWorker,htask]
    exact h.flow

theorem pull {jq : JobQueue} {posted : Bool} (h : Accounts past s rest) (hr : s.released = false)
    (hw : s.workers[w]? = some .pull)
    (hp : jobQueuePull s.pool.jobQueue s.heap = some (jq,some p,posted)) :
    ∃ rest', rest = p::rest' ∧ Accounts (past++[.pulled w p]) ({ s with pool := { s.pool with
      jobQueue := jq } }.setWorker w (.execute (some p))) rest' := by
  obtain ⟨hadd,hpull,hexec⟩ : Extends past (.pulled w p) [] [p] [] :=
    extends_event past _
  rw [List.append_nil] at hadd hexec
  have hperm : ((s.workers.set w (.execute (some p))).filterMap WorkerPc.task?).Perm
      (p::s.workers.filterMap WorkerPc.task?) := Threads.filterMap_set_perm WorkerPc.task? hw
  have hbusy : (s.workers.set w (.execute (some p))).countP WorkerPc.isBusy =
      s.workers.countP WorkerPc.isBusy := Threads.countP_set_of_eq hw rfl
  have hqueue := h.queue hr
  cases rest with
  | nil => cases hp.symm.trans hqueue.pull_nil
  | cons q rest =>
    obtain ⟨jq',posted',hp',hq⟩ := hqueue.pull_cons
    cases hp.symm.trans hp'
    refine ⟨rest,rfl,?_,?_,h.pending,fun _ => hq⟩
    · rw [State.setWorker,hbusy]
      exact h.working
    · rw [hadd,hpull,hexec,State.setWorker]
      exact h.flow.take hperm

theorem execute (h : Accounts past s rest) (hw : s.workers[w]? = some (.execute (some p))) :
    Accounts (past++[.executed w p]) ({ s with heap := s.heap.free p }.setWorker w .countOut)
      rest := by
  obtain ⟨hadd,hpull,hexec⟩ : Extends past (.executed w p) [] [] [p] :=
    extends_event past _
  rw [List.append_nil] at hadd hpull
  have hperm : (p::(s.workers.set w .countOut).filterMap WorkerPc.task?).Perm
      (s.workers.filterMap WorkerPc.task?) := Threads.filterMap_set_perm WorkerPc.task? hw
  have hheld : p ∈ s.workers.filterMap WorkerPc.task? := hperm.mem_iff.mp List.mem_cons_self
  have hbusy : (s.workers.set w .countOut).countP WorkerPc.isBusy =
      s.workers.countP WorkerPc.isBusy := Threads.countP_set_of_eq hw rfl
  refine ⟨?_,?_,?_,?_⟩
  · rw [State.setWorker,hbusy]
    exact h.working
  · rw [hadd,hpull,hexec,State.setWorker]
    exact h.flow.finish hperm
  · intro hr q hq
    obtain ⟨d,hd⟩ := h.pending hr q hq
    have hqp : q ≠ p := ne_of_mem_of_not_mem hq (h.flow.held_notMem_pending hheld)
    exact ⟨d,(Heap.read_free_of_ne hqp).trans hd⟩
  · intro hr
    apply (h.queue hr).congr
    intro q hq
    exact Heap.read_free_of_ne (ne_of_mem_of_not_mem hq (h.flow.held_notMem_queue hheld))

theorem readLength (h : Accounts past s rest) (hc : s.clients[c]? = some .waitLength) :
    Accounts past (s.setClient c .waitWorking) rest := by
  have hpend : (s.clients.set c .waitWorking).filterMap ClientPc.task? =
      s.clients.filterMap ClientPc.task? := Threads.filterMap_set_of_eq hc rfl
  refine ⟨h.working,?_,?_,h.queue⟩
  · rw [State.setClient,hpend]
    exact h.flow
  · rw [State.setClient,hpend]
    exact h.pending

theorem drainJobs_top {fuel : ℕ} {jq jq' : JobQueue} {heap heap' : Heap Job}
    (h : drainJobs fuel jq heap = some (jq',heap')) : heap'.top = heap.top := by
  induction fuel generalizing jq heap with
  | zero =>
    rw [drainJobs] at h
    split_ifs at h
    cases h
    rfl
  | succ fuel ih =>
    rw [drainJobs] at h
    split_ifs at h
    · cases h
      rfl
    · obtain ⟨⟨jq₁,job,posted⟩,_,h⟩ := Option.bind_eq_some_iff.mp h
      cases job with
      | none => exact ih h
      | some p =>
        have hfree : drainJobs fuel jq₁ (heap.free p) = some (jq',heap') := h
        exact (ih hfree).trans (Heap.top_free heap p)

theorem free {jq : JobQueue} {heap : Heap Job} (h : Accounts past s rest)
    (hc : s.clients[c]? = some .destoryFree)
    (hh : jobQueueClear s.pool.jobQueue s.heap = some (jq,heap)) :
    Accounts past ({ s with
      heap := heap
      released := true
      pool := { s.pool with jobQueue := jq } }.setClient c .idle) rest := by
  obtain ⟨⟨jq',heap'⟩,hdrain,hh⟩ := Option.bind_eq_some_iff.mp hh
  cases hh
  have hpend : (s.clients.set c .idle).filterMap ClientPc.task? =
      s.clients.filterMap ClientPc.task? := Threads.filterMap_set_of_eq hc rfl
  refine ⟨h.working,?_,?_,?_⟩
  · rw [State.setClient,hpend]
    dsimp only
    rw [drainJobs_top hdrain]
    exact h.flow
  · intro hr
    cases hr
  · intro hr
    cases hr

/-- Every step keeps the account. -/
theorem step {a : Action} (h : Accounts past s rest)
    (hs : ThreadPool02.step s a = some (t,e)) : ∃ rest', Accounts (past++[e]) t rest' := by
  cases step_moves hs with
  | quiet hv he => exact ⟨rest,(h.of_sameView hv).quiet he⟩
  | prepare hc func arg stale => exact ⟨rest,(h.prepare hc func arg stale).quiet quiet_silent⟩
  | push hr hc hp hv => exact ⟨_,(h.push hr hc hp).of_sameView hv⟩
  | countIn hw => exact ⟨rest,(h.countIn hw).quiet quiet_silent⟩
  | pull hr hw hp hv =>
    obtain ⟨rest',_,h'⟩ := h.pull hr hw hp
    exact ⟨rest',h'.of_sameView hv⟩
  | execute hw => exact ⟨rest,h.execute hw⟩
  | countOut hw hv => exact ⟨rest,((h.countOut hw).of_sameView hv).quiet quiet_silent⟩
  | readLength hr hc hl => exact ⟨rest,(h.readLength hc).quiet quiet_silent⟩
  | free hc hh => exact ⟨rest,(h.free hc hh).quiet quiet_silent⟩

end Accounts

theorem accounts_create (numThreads : ℕ) (created : ℕ → Bool) (clients : ℕ) :
    Accounts [] (threadPoolCreate numThreads created clients) [] := by
  have hidle : ∀ pc ∈ (threadPoolCreate numThreads created clients).clients, pc = .idle :=
    fun pc hpc => List.eq_of_mem_replicate hpc
  have hstart : ∀ pc ∈ (threadPoolCreate numThreads created clients).workers, pc = .start := by
    intro pc hpc
    obtain ⟨i,_,rfl⟩ := List.mem_map.mp hpc
    rfl
  have hclients : (threadPoolCreate numThreads created clients).clients.filterMap
      ClientPc.task? = [] := Threads.filterMap_eq_nil_of_forall_eq hidle rfl
  have hworkers : (threadPoolCreate numThreads created clients).workers.filterMap
      WorkerPc.task? = [] := Threads.filterMap_eq_nil_of_forall_eq hstart rfl
  refine ⟨?_,?_,?_,fun _ => JobQueue.holds_create⟩
  · rw [Threads.countP_eq_zero_of_forall_eq hstart rfl]
    rfl
  · rw [hclients,hworkers]
    exact .nil
  · rw [hclients]
    simp

end CStudy.ThreadPool02
