import CStudy.ThreadPool01.Model
import CStudy.Foundation.Flow

/-! Where the tasks are. A step either moves one task along its way from `ThreadPoolAddTask` over
the list and a worker to its execution, or is of no account to tasks at all. The account of all
tasks is kept by every step, so it holds after every run. -/
namespace CStudy.ThreadPool01
open CStudy.Foundation

/-- The worker is between its increment and its decrement of `working_count`. -/
def WorkerPc.isBusy : WorkerPc → Bool
  | .execute _ => true
  | .finish => true
  | _ => false

/-- The task the worker has taken and not yet executed. -/
def WorkerPc.task? : WorkerPc → Option Ptr
  | .execute task => task
  | _ => none

/-- The task a client has allocated and not yet linked. -/
def ClientPc.task? : ClientPc → Option Ptr
  | .addTask task => some task
  | _ => none

section History

/-- The tasks that `ThreadPoolAddTask` has accepted, in this order. -/
def addedTasks (past : List Event) : List Ptr := past.filterMap fun
  | .added _ p => some p
  | _ => none

/-- The tasks that workers have taken from the list, in this order. -/
def takenTasks (past : List Event) : List Ptr := past.filterMap fun
  | .took _ p => some p
  | _ => none

/-- The tasks whose functions have returned. -/
def executedTasks (past : List Event) : List Ptr := past.filterMap fun
  | .executed _ p => some p
  | _ => none

/-- The lists freed by calls of `ThreadPoolDestory`. -/
def discardedLists (past : List Event) : List (List Ptr) := past.filterMap fun
  | .discarded tasks => some tasks
  | _ => none

/-- The event moves no task. -/
def Event.Quiet (e : Event) : Prop :=
  addedTasks [e] = [] ∧ takenTasks [e] = [] ∧ executedTasks [e] = [] ∧ discardedLists [e] = []

/-- What the four histories become with one more event. -/
def Extends (past : List Event) (e : Event) (a t x : List Ptr) (d : List (List Ptr)) : Prop :=
  addedTasks (past++[e]) = addedTasks past++a ∧ takenTasks (past++[e]) = takenTasks past++t ∧
    executedTasks (past++[e]) = executedTasks past++x ∧
    discardedLists (past++[e]) = discardedLists past++d

theorem extends_event (past : List Event) (e : Event) :
    Extends past e (addedTasks [e]) (takenTasks [e]) (executedTasks [e]) (discardedLists [e]) :=
  ⟨List.filterMap_append,List.filterMap_append,List.filterMap_append,List.filterMap_append⟩

end History

/-- Two states that agree in all that matters to tasks. -/
structure SameView (s t : State) : Prop where
  taskList : t.tp.taskList = s.tp.taskList
  workingCount : t.tp.workingCount = s.tp.workingCount
  running : t.tp.running = s.tp.running
  heap : t.heap = s.heap
  tasks : t.workers.map WorkerPc.task? = s.workers.map WorkerPc.task?
  busy : t.workers.map WorkerPc.isBusy = s.workers.map WorkerPc.isBusy
  pending : t.clients.map ClientPc.task? = s.clients.map ClientPc.task?

section View
variable {s t : State} {w c : ℕ} {wake : Option ℕ}

theorem sameView_refl (s : State) : SameView s s := ⟨rfl,rfl,rfl,rfl,rfl,rfl,rfl⟩

theorem SameView.trans {u : State} (h : SameView s t) (h' : SameView t u) : SameView s u :=
  ⟨h'.taskList.trans h.taskList,h'.workingCount.trans h.workingCount,h'.running.trans h.running,
    h'.heap.trans h.heap,h'.tasks.trans h.tasks,h'.busy.trans h.busy,h'.pending.trans h.pending⟩

theorem sameView_setWorker {pc pc' : WorkerPc} (hw : s.workers[w]? = some pc)
    (ht : pc'.task? = pc.task?) (hb : pc'.isBusy = pc.isBusy) : SameView s (s.setWorker w pc') :=
  ⟨rfl,rfl,rfl,rfl,Threads.map_set_of_eq hw ht,Threads.map_set_of_eq hw hb,rfl⟩

theorem sameView_setClient {pc pc' : ClientPc} (hc : s.clients[c]? = some pc)
    (ht : pc'.task? = pc.task?) : SameView s (s.setClient c pc') :=
  ⟨rfl,rfl,rfl,rfl,rfl,rfl,Threads.map_set_of_eq hc ht⟩

/-- The same thread is set to the same position in both. -/
theorem SameView.setWorker (h : SameView s t) (w : ℕ) (pc : WorkerPc) :
    SameView (s.setWorker w pc) (t.setWorker w pc) := by
  refine ⟨h.taskList,h.workingCount,h.running,h.heap,?_,?_,h.pending⟩
  · rw [State.setWorker,State.setWorker,List.map_set,List.map_set,h.tasks]
  · rw [State.setWorker,State.setWorker,List.map_set,List.map_set,h.busy]

theorem SameView.setClient (h : SameView s t) (c : ℕ) (pc : ClientPc) :
    SameView (s.setClient c pc) (t.setClient c pc) := by
  refine ⟨h.taskList,h.workingCount,h.running,h.heap,h.tasks,h.busy,?_⟩
  rw [State.setClient,State.setClient,List.map_set,List.map_set,h.pending]

theorem isWaiting_iff {pc : WorkerPc} : pc.isWaiting = true ↔ pc = .waiting := by
  cases pc <;> simp [WorkerPc.isWaiting]

theorem task?_resume (pc : ClientPc) : pc.resume.task? = pc.task? := by cases pc <;> rfl

theorem sameView_signalFinish (h : signalFinish s wake = some t) : SameView s t := by
  unfold signalFinish at h
  obtain ⟨clients,hc,hr⟩ := Option.bind_eq_some_iff.mp h
  cases hr
  exact ⟨rfl,rfl,rfl,rfl,rfl,rfl,Threads.map_signal (fun x _ => task?_resume x) hc⟩

theorem sameView_signalTaskList (h : signalTaskList s wake = some t) : SameView s t := by
  unfold signalTaskList at h
  obtain ⟨workers,hw,hr⟩ := Option.bind_eq_some_iff.mp h
  cases hr
  refine ⟨rfl,rfl,rfl,rfl,Threads.map_signal ?_ hw,Threads.map_signal ?_ hw,rfl⟩
  · intro x hx
    rw [isWaiting_iff.mp hx]
    rfl
  · intro x hx
    rw [isWaiting_iff.mp hx]
    rfl

theorem sameView_broadcastTaskList (s : State) : SameView s (broadcastTaskList s) := by
  refine ⟨rfl,rfl,rfl,rfl,Threads.map_broadcast ?_ _,Threads.map_broadcast ?_ _,rfl⟩
  · intro x hx
    rw [isWaiting_iff.mp hx]
    rfl
  · intro x hx
    rw [isWaiting_iff.mp hx]
    rfl

end View

/-- All that a step can do to tasks. -/
inductive Moves (s : State) : State → Event → Prop
  | quiet {t : State} {e : Event} (hv : SameView s t) (he : e.Quiet) : Moves s t e
  | prepare {c : ℕ} (hc : s.clients[c]? = some .idle) (func arg : Ptr) :
      Moves s ({ s with heap := s.heap.alloc ⟨func,arg,none⟩ }.setClient c (.addTask s.heap.top))
        .silent
  | link {c : ℕ} {p : Ptr} {t u : State} (hc : s.clients[c]? = some (.addTask p))
      (ha : appendTask s p = some t) (hv : SameView (t.setClient c .idle) u) :
      Moves s u (.added c p)
  | take {w : ℕ} {p : Ptr} {c : WorkerTask} (hw : s.workers[w]? = some .acquire)
      (hrun : s.tp.running = true) (hp : s.tp.taskList = some p) (hc : s.heap.read p = some c) :
      Moves s ({ s with tp := { s.tp with
        taskList := c.next
        workingCount := s.tp.workingCount+1 } }.setWorker w (.execute (some p))) (.took w p)
  | execute {w : ℕ} {p : Ptr} (hw : s.workers[w]? = some (.execute (some p))) :
      Moves s ({ s with heap := s.heap.free p }.setWorker w .finish) (.executed w p)
  | finish {w : ℕ} {t : State} (hw : s.workers[w]? = some .finish)
      (hv : SameView ({ s with tp := { s.tp with
        workingCount := s.tp.workingCount-1 } }.setWorker w .loopTest) t) :
      Moves s t .silent
  | stop {heap : Heap WorkerTask} {t : State}
      (hh : freeTasks s.heap.top s.heap s.tp.taskList = some heap)
      (hv : SameView { s with heap := heap, tp := { s.tp with running := false } } t) :
      Moves s t (.discarded (s.heap.walk WorkerTask.next s.heap.top s.tp.taskList))

theorem quiet_silent : Event.silent.Quiet := ⟨rfl,rfl,rfl,rfl⟩

section Step
variable {s t : State} {w c : ℕ} {wake : Option ℕ} {e : Event}

theorem acquireTask_moves (hw : s.workers[w]? = some .acquire)
    (h : acquireTask s w wake = some (t,e)) : Moves s t e := by
  unfold acquireTask at h
  split_ifs at h with hwait hstop
  · cases h
    exact .quiet (sameView_setWorker hw rfl rfl) quiet_silent
  · obtain ⟨u,hu,hr⟩ := Option.bind_eq_some_iff.mp h
    cases hr
    have hexit : SameView s ({ s with tp := { s.tp with
        threadCount := s.tp.threadCount-1 } }.setWorker w .done) :=
      ⟨rfl,rfl,rfl,rfl,Threads.map_set_of_eq hw rfl,Threads.map_set_of_eq hw rfl,rfl⟩
    exact .quiet (hexit.trans ((sameView_signalFinish hu).setWorker w .done)) quiet_silent
  · have hrun : s.tp.running = true := by simpa using hstop
    cases hp : s.tp.taskList with
    | none => simp [hrun,hp] at hwait
    | some p =>
      cases hc : s.heap.read p with
      | none => simp [getWorkerTask,hp,hc] at h
      | some d =>
        simp only [getWorkerTask,hp,hc] at h
        cases h
        exact .take hw hrun hp hc

theorem executeTask_moves {task : Option Ptr} (hw : s.workers[w]? = some (.execute task))
    (h : executeTask s w task = some (t,e)) : Moves s t e := by
  cases task with
  | none =>
    cases h
    exact .quiet (sameView_setWorker hw rfl rfl) quiet_silent
  | some p =>
    rw [executeTask] at h
    obtain ⟨d,_,hr⟩ := Option.bind_eq_some_iff.mp h
    cases hr
    exact .execute hw

theorem finishTask_moves (hw : s.workers[w]? = some .finish)
    (h : finishTask s w wake = some (t,e)) : Moves s t e := by
  unfold finishTask at h
  dsimp only at h
  split_ifs at h
  · obtain ⟨u,hu,hr⟩ := Option.bind_eq_some_iff.mp h
    cases hr
    exact .finish hw ((sameView_signalFinish hu).setWorker w .loopTest)
  · cases h
    exact .finish hw (sameView_refl _)

theorem workerStep_moves (h : workerStep s w wake = some (t,e)) : Moves s t e := by
  unfold workerStep at h
  split at h
  · next hw => exact executeTask_moves hw h
  · next pc _ hw =>
    split at h
    · cases h
    cases pc with
    | loopTest =>
      cases h
      refine .quiet (sameView_setWorker hw ?_ ?_) quiet_silent
      · split_ifs <;> rfl
      · split_ifs <;> rfl
    | acquire => exact acquireTask_moves hw h
    | waiting => cases h
    | execute task => cases h
    | finish => exact finishTask_moves hw h
    | leave =>
      cases h
      exact .quiet ⟨rfl,rfl,rfl,rfl,Threads.map_set_of_eq hw rfl,Threads.map_set_of_eq hw rfl,rfl⟩
        quiet_silent
    | leaveSignal =>
      obtain ⟨u,hu,hr⟩ := Option.bind_eq_some_iff.mp h
      cases hr
      have hdone : SameView s (s.setWorker w .done) := sameView_setWorker hw rfl rfl
      exact .quiet (hdone.trans ((sameView_signalFinish hu).setWorker w .done)) quiet_silent
    | done => cases h
  · cases h

theorem clientStep_moves (h : clientStep s c wake = some (t,e)) : Moves s t e := by
  unfold clientStep at h
  split at h
  · next task hc =>
    obtain ⟨u,hu,hr⟩ := Option.bind_eq_some_iff.mp h
    obtain ⟨v,hv,hr⟩ := Option.bind_eq_some_iff.mp hr
    cases hr
    exact .link hc hu ((sameView_signalTaskList hv).setClient c .idle)
  · next inDestory hc =>
    split_ifs at h
    · cases h
      exact .quiet (sameView_setClient hc rfl) quiet_silent
    · cases h
      exact .quiet (sameView_setClient hc rfl) quiet_silent
    · cases h
      exact .quiet (sameView_setClient hc rfl) ⟨rfl,rfl,rfl,rfl⟩
  · next hc =>
    obtain ⟨heap,hh,hr⟩ := Option.bind_eq_some_iff.mp h
    cases hr
    have hv := sameView_broadcastTaskList { s with heap := heap, tp := { s.tp with running := false } }
    exact .stop hh ⟨hv.taskList,hv.workingCount,hv.running,hv.heap,hv.tasks,hv.busy,
      Threads.map_set_of_eq hc rfl⟩
  · next hc =>
    cases h
    exact .quiet ⟨rfl,rfl,rfl,rfl,rfl,rfl,Threads.map_set_of_eq hc rfl⟩ quiet_silent
  · cases h

/-- Every step is one of the moves. -/
theorem step_moves {a : Action} (h : step s a = some (t,e)) : Moves s t e := by
  cases a with
  | worker w wake => exact workerStep_moves h
  | client c wake =>
    rw [step] at h
    split_ifs at h
    exact clientStep_moves h
  | callAddTask c func arg mallocSucceeds =>
    rw [step] at h
    split_ifs at h with hc
    unfold callAddTask at h
    split_ifs at h
    · cases h
      exact .prepare hc func arg
    · cases h
      exact .quiet (sameView_refl s) ⟨rfl,rfl,rfl,rfl⟩
  | callWait c =>
    rw [step] at h
    split_ifs at h with hc
    cases h
    exact .quiet (sameView_setClient hc rfl) ⟨rfl,rfl,rfl,rfl⟩
  | callDestory c =>
    rw [step] at h
    split_ifs at h with hc
    cases h
    exact .quiet (sameView_setClient hc rfl) quiet_silent
  | spuriousWorker w =>
    rw [step] at h
    split_ifs at h with hw
    cases h
    exact .quiet (sameView_setWorker hw rfl rfl) quiet_silent
  | spuriousClient c =>
    rw [step] at h
    split at h
    · next inDestory hc =>
      cases h
      exact .quiet (sameView_setClient hc rfl) quiet_silent
    · cases h

end Step

/-- The account of all tasks after the events `past`; the tasks `rest` were added and not taken. -/
structure Accounts (past : List Event) (s : State) (rest : List Ptr) : Prop where
  few : s.workers.length < 2^64
  working : s.tp.workingCount.toNat = s.workers.countP WorkerPc.isBusy
  flow : Flow s.heap.top (s.clients.filterMap ClientPc.task?) (addedTasks past) (takenTasks past)
    (executedTasks past) (s.workers.filterMap WorkerPc.task?) rest
  pending : s.tp.running = true → ∀ p ∈ s.clients.filterMap ClientPc.task?,
    ∃ c, s.heap.read p = some c ∧ c.next = none
  chain : s.tp.running = true → s.heap.Chain WorkerTask.next s.tp.taskList rest
  running : s.tp.running = true ↔ discardedLists past = []
  stopped : ∀ tasks, discardedLists past = [tasks] → tasks <+: rest

namespace Accounts
variable {past : List Event} {s t : State} {w c : ℕ} {p : Ptr} {e : Event} {rest : List Ptr}

theorem of_sameView (h : Accounts past s rest) (hv : SameView s t) : Accounts past t rest := by
  have hlen : t.workers.length = s.workers.length := by
    rw [← List.length_map WorkerPc.task?,hv.tasks,List.length_map]
  have htask := Threads.filterMap_eq_of_map hv.tasks
  have hpend := Threads.filterMap_eq_of_map hv.pending
  refine ⟨hlen ▸ h.few,?_,?_,?_,?_,?_,h.stopped⟩
  · rw [hv.workingCount,Threads.countP_eq_of_map hv.busy]
    exact h.working
  · rw [htask,hpend,hv.heap]
    exact h.flow
  · rw [hv.running,hpend,hv.heap]
    exact h.pending
  · rw [hv.running,hv.heap,hv.taskList]
    exact h.chain
  · rw [hv.running]
    exact h.running

theorem quiet (h : Accounts past s rest) (he : e.Quiet) : Accounts (past++[e]) s rest := by
  obtain ⟨ha,ht,hx,hd⟩ := extends_event past e
  rw [he.1,List.append_nil] at ha
  rw [he.2.1,List.append_nil] at ht
  rw [he.2.2.1,List.append_nil] at hx
  rw [he.2.2.2,List.append_nil] at hd
  refine ⟨h.few,h.working,?_,h.pending,h.chain,?_,?_⟩
  · rw [ha,ht,hx]; exact h.flow
  · rw [hd]; exact h.running
  · rw [hd]; exact h.stopped

theorem prepare (h : Accounts past s rest) (hc : s.clients[c]? = some .idle) (func arg : Ptr) :
    Accounts past ({ s with heap := s.heap.alloc ⟨func,arg,none⟩ }.setClient c
      (.addTask s.heap.top)) rest := by
  have hperm : ((s.clients.set c (.addTask s.heap.top)).filterMap ClientPc.task?).Perm
      (s.heap.top::s.clients.filterMap ClientPc.task?) :=
    Threads.filterMap_set_perm ClientPc.task? hc
  refine ⟨h.few,h.working,h.flow.prepare hperm,?_,?_,h.running,h.stopped⟩
  · intro hrun p hp
    rcases List.mem_cons.mp (hperm.mem_iff.mp hp) with rfl | hp
    · exact ⟨_,Heap.read_alloc_top _ _,rfl⟩
    · have hlt := h.flow.below p (List.mem_append_right _ hp)
      obtain ⟨d,hd,hn⟩ := h.pending hrun p hp
      exact ⟨d,(Heap.read_alloc_of_ne hlt.ne).trans hd,hn⟩
  · intro hrun
    exact (h.chain hrun).alloc _

/-- The new task becomes the last one of the list, and no other cell off the list is touched. -/
theorem appendTask_chain {l : List Ptr} {d : WorkerTask}
    (hl : s.heap.Chain WorkerTask.next s.tp.taskList l) (hp : s.heap.read p = some d)
    (hd : d.next = none) (hpl : p ∉ l) (ha : appendTask s p = some t) :
    t.heap.Chain WorkerTask.next t.tp.taskList (l++[p]) ∧
      ∀ q, q ∉ l → t.heap.read q = s.heap.read q := by
  unfold appendTask at ha
  rw [Heap.search_missing hl hl.length_le_top fun _ _ _ _ => rfl] at ha
  rcases List.eq_nil_or_concat l with rfl | ⟨l,q,rfl⟩
  · cases ha
    exact ⟨⟨rfl,d,hp,hd⟩,fun _ _ => rfl⟩
  · rw [List.concat_eq_append] at hl hpl ⊢
    obtain ⟨e,he⟩ := hl.read_of_mem (List.mem_append_right l (List.mem_singleton_self q))
    simp [Heap.store_eq he] at ha
    subst ha
    have hpq : p ≠ q := fun h => hpl (by simp [h])
    refine ⟨hl.link hp hd hpq fun _ => rfl,?_⟩
    intro r hr
    exact Heap.read_modify_of_ne fun h => hr (by simp [h])

/-- What `appendTask` leaves alone, whatever the list looks like. -/
theorem appendTask_frame (ha : appendTask s p = some t) :
    t.workers = s.workers ∧ t.clients = s.clients ∧ t.heap.top = s.heap.top ∧
      t.tp.workingCount = s.tp.workingCount ∧ t.tp.running = s.tp.running := by
  unfold appendTask at ha
  obtain ⟨⟨prev,item⟩,_,ha⟩ := Option.bind_eq_some_iff.mp ha
  cases prev with
  | none =>
    cases ha
    exact ⟨rfl,rfl,rfl,rfl,rfl⟩
  | some q =>
    obtain ⟨heap,hh,ha⟩ := Option.bind_eq_some_iff.mp ha
    cases ha
    obtain ⟨d,_,rfl⟩ := Option.map_eq_some_iff.mp hh
    exact ⟨rfl,rfl,rfl,rfl,rfl⟩

theorem appendTask_threadCount (ha : appendTask s p = some t) :
    t.tp.threadCount = s.tp.threadCount := by
  unfold appendTask at ha
  obtain ⟨⟨prev,item⟩,_,ha⟩ := Option.bind_eq_some_iff.mp ha
  cases prev with
  | none =>
    cases ha
    rfl
  | some q =>
    obtain ⟨heap,_,ha⟩ := Option.bind_eq_some_iff.mp ha
    cases ha
    rfl

theorem link (h : Accounts past s rest) (hc : s.clients[c]? = some (.addTask p))
    (ha : appendTask s p = some t) :
    Accounts (past++[.added c p]) (t.setClient c .idle) (rest++[p]) := by
  obtain ⟨hworkers,hclients,htop,hcount,hrunning⟩ := appendTask_frame ha
  obtain ⟨hadd,htake,hexec,hdisc⟩ : Extends past (.added c p) [p] [] [] [] :=
    extends_event past _
  rw [List.append_nil] at htake hexec hdisc
  have hperm : (p::(s.clients.set c .idle).filterMap ClientPc.task?).Perm
      (s.clients.filterMap ClientPc.task?) := Threads.filterMap_set_perm ClientPc.task? hc
  have hpend : p ∈ s.clients.filterMap ClientPc.task? := hperm.mem_iff.mp List.mem_cons_self
  have hlink : s.tp.running = true → t.heap.Chain WorkerTask.next t.tp.taskList (rest++[p]) ∧
      ∀ q, q ∉ rest → t.heap.read q = s.heap.read q := by
    intro hrun
    obtain ⟨d,hd,hn⟩ := h.pending hrun p hpend
    exact appendTask_chain (h.chain hrun) hd hn (h.flow.pending_notMem_queue hpend) ha
  refine ⟨?_,?_,?_,?_,?_,?_,?_⟩
  · rw [State.setClient,hworkers]; exact h.few
  · rw [State.setClient,hworkers,hcount]; exact h.working
  · rw [State.setClient,hworkers,hclients,htop,hadd,htake,hexec]
    exact h.flow.add hperm
  · intro hrun q hq
    rw [State.setClient,hrunning] at hrun
    rw [State.setClient,hclients] at hq
    have hq' := hperm.mem_iff.mp (List.mem_cons_of_mem p hq)
    obtain ⟨d,hd,hn⟩ := h.pending hrun q hq'
    exact ⟨d,((hlink hrun).2 q (h.flow.pending_notMem_queue hq')).trans hd,hn⟩
  · intro hrun
    rw [State.setClient,hrunning] at hrun
    exact (hlink hrun).1
  · rw [State.setClient,hrunning,hdisc]; exact h.running
  · rw [hdisc]
    intro tasks ht
    exact (h.stopped tasks ht).trans (List.prefix_append _ _)

theorem take {d : WorkerTask} (h : Accounts past s rest) (hw : s.workers[w]? = some .acquire)
    (hrun : s.tp.running = true) (hp : s.tp.taskList = some p) (hd : s.heap.read p = some d) :
    ∃ rest', rest = p::rest' ∧ Accounts (past++[.took w p]) ({ s with tp := { s.tp with
      taskList := d.next
      workingCount := s.tp.workingCount+1 } }.setWorker w (.execute (some p))) rest' := by
  obtain ⟨hadd,htake,hexec,hdisc⟩ : Extends past (.took w p) [] [p] [] [] :=
    extends_event past _
  rw [List.append_nil] at hadd hexec hdisc
  have hcount : (s.workers.set w (.execute (some p))).countP WorkerPc.isBusy =
      s.workers.countP WorkerPc.isBusy+1 := Threads.countP_set WorkerPc.isBusy hw
  have hperm : ((s.workers.set w (.execute (some p))).filterMap WorkerPc.task?).Perm
      (p::s.workers.filterMap WorkerPc.task?) := Threads.filterMap_set_perm WorkerPc.task? hw
  have hlen : (s.workers.set w (.execute (some p))).length < 2^64 := by
    rw [List.length_set]
    exact h.few
  have hchain := h.chain hrun
  cases rest with
  | nil => cases hp.symm.trans hchain
  | cons q rest =>
    cases hp.symm.trans hchain.1
    refine ⟨rest,rfl,hlen,?_,?_,h.pending,?_,?_,?_⟩
    · have hle := hcount ▸ List.countP_le_length (p := WorkerPc.isBusy)
        (l := s.workers.set w (.execute (some p)))
      dsimp only [State.setWorker]
      rw [UInt64.toNat_add,h.working,hcount]
      exact Nat.mod_eq_of_lt (lt_of_le_of_lt hle hlen)
    · rw [hadd,htake,hexec,State.setWorker]
      exact h.flow.take hperm
    · intro _
      exact hchain.of_cons hd
    · rw [hdisc]; exact h.running
    · rw [hdisc,h.running.mp hrun]
      intro tasks ht
      cases ht

theorem execute (h : Accounts past s rest) (hw : s.workers[w]? = some (.execute (some p))) :
    Accounts (past++[.executed w p]) ({ s with heap := s.heap.free p }.setWorker w .finish)
      rest := by
  obtain ⟨hadd,htake,hexec,hdisc⟩ : Extends past (.executed w p) [] [] [p] [] :=
    extends_event past _
  rw [List.append_nil] at hadd htake hdisc
  have hperm : (p::(s.workers.set w .finish).filterMap WorkerPc.task?).Perm
      (s.workers.filterMap WorkerPc.task?) := Threads.filterMap_set_perm WorkerPc.task? hw
  have hheld : p ∈ s.workers.filterMap WorkerPc.task? := hperm.mem_iff.mp List.mem_cons_self
  refine ⟨?_,?_,?_,?_,?_,?_,?_⟩
  · rw [State.setWorker,List.length_set]
    exact h.few
  · have hbusy : (s.workers.set w .finish).countP WorkerPc.isBusy =
        s.workers.countP WorkerPc.isBusy := Threads.countP_set_of_eq hw rfl
    exact h.working.trans hbusy.symm
  · rw [hadd,htake,hexec,State.setWorker]
    exact h.flow.finish hperm
  · intro hrun q hq
    obtain ⟨d,hd,hn⟩ := h.pending hrun q hq
    have hqp : q ≠ p := ne_of_mem_of_not_mem hq (h.flow.held_notMem_pending hheld)
    exact ⟨d,(Heap.read_free_of_ne hqp).trans hd,hn⟩
  · intro hrun
    exact (h.chain hrun).free (h.flow.held_notMem_queue hheld)
  · rw [hdisc]; exact h.running
  · rw [hdisc]; exact h.stopped

theorem finish (h : Accounts past s rest) (hw : s.workers[w]? = some .finish) :
    Accounts past ({ s with tp := { s.tp with
      workingCount := s.tp.workingCount-1 } }.setWorker w .loopTest) rest := by
  have hcount : (s.workers.set w .loopTest).countP WorkerPc.isBusy+1 =
      s.workers.countP WorkerPc.isBusy := Threads.countP_set WorkerPc.isBusy hw
  have htask : (s.workers.set w .loopTest).filterMap WorkerPc.task? =
      s.workers.filterMap WorkerPc.task? := Threads.filterMap_set_of_eq hw rfl
  refine ⟨?_,?_,?_,h.pending,h.chain,h.running,h.stopped⟩
  · rw [State.setWorker,List.length_set]
    exact h.few
  · dsimp only [State.setWorker]
    rw [UInt64.toNat_sub_of_le,h.working,← hcount]
    · rfl
    · rw [UInt64.le_iff_toNat_le,h.working,← hcount]
      exact Nat.le_add_left 1 _
  · rw [State.setWorker,htask]
    exact h.flow

theorem freeTasks_top {fuel : ℕ} {heap heap' : Heap WorkerTask} {a : Option Ptr}
    (h : freeTasks fuel heap a = some heap') : heap'.top = heap.top := by
  induction fuel generalizing heap a with
  | zero =>
    cases a with
    | none => cases h; rfl
    | some p => cases h
  | succ fuel ih =>
    cases a with
    | none => cases h; rfl
    | some p =>
      rw [freeTasks] at h
      split at h
      · cases h
      · exact (ih h).trans (Heap.top_free heap p)

theorem stop {heap : Heap WorkerTask} (h : Accounts past s rest)
    (hh : freeTasks s.heap.top s.heap s.tp.taskList = some heap) :
    Accounts (past++[.discarded (s.heap.walk WorkerTask.next s.heap.top s.tp.taskList)])
      { s with heap := heap, tp := { s.tp with running := false } } rest := by
  set tasks := s.heap.walk WorkerTask.next s.heap.top s.tp.taskList with htasks
  obtain ⟨hadd,htake,hexec,hdisc⟩ : Extends past (.discarded tasks) [] [] [] [tasks] :=
    extends_event past _
  rw [List.append_nil] at hadd htake hexec
  refine ⟨h.few,h.working,?_,?_,?_,?_,?_⟩
  · rw [hadd,htake,hexec,freeTasks_top hh]; exact h.flow
  · intro hrun
    cases hrun
  · intro hrun
    cases hrun
  · rw [hdisc]
    simp
  · rw [hdisc]
    intro l hl
    -- of several calls of `ThreadPoolDestory` only the first one is meant
    obtain ⟨hnone,hl⟩ : discardedLists past = [] ∧ tasks = l := by
      simpa [List.append_eq_singleton_iff] using hl
    have hchain := h.chain (h.running.mpr hnone)
    rw [← hl,htasks,hchain.walk_eq hchain.length_le_top]

/-- Every step keeps the account. -/
theorem step {a : Action} (h : Accounts past s rest)
    (hs : ThreadPool01.step s a = some (t,e)) : ∃ rest', Accounts (past++[e]) t rest' := by
  cases step_moves hs with
  | quiet hv he => exact ⟨rest,(h.of_sameView hv).quiet he⟩
  | prepare hc func arg => exact ⟨rest,(h.prepare hc func arg).quiet quiet_silent⟩
  | link hc ha hv => exact ⟨_,(h.link hc ha).of_sameView hv⟩
  | take hw hrun hp hc =>
    obtain ⟨rest',_,h'⟩ := h.take hw hrun hp hc
    exact ⟨rest',h'⟩
  | execute hw => exact ⟨rest,h.execute hw⟩
  | finish hw hv => exact ⟨rest,((h.finish hw).of_sameView hv).quiet quiet_silent⟩
  | stop hh hv => exact ⟨rest,(h.stop hh).of_sameView hv⟩

end Accounts

theorem accounts_create {num : UInt64} {created : ℕ → Bool} {clients : ℕ} {s : State}
    (h : threadPoolCreate num created clients = some s) : Accounts [] s [] := by
  unfold threadPoolCreate at h
  split_ifs at h
  cases h
  have hclients : (List.replicate clients ClientPc.idle).filterMap ClientPc.task? = [] :=
    Threads.filterMap_eq_nil_of_forall_eq (fun _ hpc => List.eq_of_mem_replicate hpc) rfl
  have hstart : ∀ pc ∈ ((List.range num.toNat).filter created).map fun _ => WorkerPc.loopTest,
      pc = .loopTest := by
    intro pc hpc
    obtain ⟨i,_,rfl⟩ := List.mem_map.mp hpc
    rfl
  have hworkers : (((List.range num.toNat).filter created).map fun _ => WorkerPc.loopTest).filterMap
      WorkerPc.task? = [] := Threads.filterMap_eq_nil_of_forall_eq hstart rfl
  refine ⟨?_,?_,?_,?_,?_,by simp [discardedLists],?_⟩
  · rw [List.length_map]
    refine lt_of_le_of_lt (List.length_filter_le _ _) ?_
    rw [List.length_range]
    exact num.toNat_lt
  · exact (Threads.countP_eq_zero_of_forall_eq hstart rfl).symm
  · rw [hclients,hworkers]
    exact .nil
  · rw [hclients]
    simp
  · intro _
    rfl
  · intro tasks ht
    cases ht

/-- The account holds after every run of a new pool. -/
theorem accounts_run {num : UInt64} {created : ℕ → Bool} {clients : ℕ} {s t : State}
    {actions : List Action} {events : List Event}
    (hs : threadPoolCreate num created clients = some s)
    (h : Machine.run step s actions = some (t,events)) : ∃ rest, Accounts events t rest := by
  have hinv := Machine.run_invariant (fun past s => ∃ rest, Accounts past s rest)
    (fun _ _ _ _ _ hi hs => hi.elim fun _ hacc => hacc.step hs) ⟨[],accounts_create hs⟩ h
  rwa [List.nil_append] at hinv

end CStudy.ThreadPool01
