import CStudy.ThreadPool01.Tasks

/-! Who wakes the threads in `ThreadPoolWait`. Workers signal `finish_cond` when they leave and
when they finish the last task. A signal wakes one thread. As long as the signals after which
there is nothing left to wait for find at most one thread blocked, no thread is left behind. -/
namespace CStudy.ThreadPool01
open CStudy.Foundation

/-- The worker has found `running` cleared at the loop test. -/
def WorkerPc.isLeaving : WorkerPc → Bool
  | .leave => true
  | _ => false

/-- The worker is about to make its last signal without the lock. -/
def WorkerPc.isSignaling : WorkerPc → Bool
  | .leaveSignal => true
  | _ => false

/-- The number of threads blocked on `finish_cond`, to none of which a wake-up is on its way. -/
def blockedCount (s : State) : ℕ := s.clients.countP ClientPc.isBlocked

/-- No worker will signal `finish_cond` again: all of them sleep with nothing to do, or all have
left the pool. -/
def NoFurtherSignal (s : State) : Prop :=
  (s.tp.running = true ∧ s.tp.workingCount = 0 ∧ s.tp.taskList = none ∧
      ∀ pc ∈ s.workers, pc = .waiting) ∨
    (s.tp.running = false ∧ s.tp.threadCount = 0 ∧ s.workers.countP WorkerPc.isSignaling = 0)

/-- A thread is blocked on `finish_cond` although its wait condition is false, and nobody is going
to wake it. -/
def Stranded (s : State) : Prop :=
  0 < blockedCount s ∧ s.tp.mustWait = false ∧ NoFurtherSignal s

/-- The step is a worker's signal of `finish_cond` after which the wait condition is false. -/
def lastSignal (s : State) : Action → Bool
  | .worker w _ =>
    match s.workers[w]? with
    | some .finish => s.tp.running && s.tp.workingCount == 1 && s.tp.taskList.isNone
    | some .acquire => !s.tp.running && s.tp.threadCount == 1
    | some .leaveSignal => s.tp.threadCount == 0
    | _ => false
  | _ => false

/-- More than one thread is blocked when the last signal is made. -/
def wakesTooFew (s : State) (a : Action) : Bool := lastSignal s a && decide (2 ≤ blockedCount s)

/-- Whoever is blocked on `finish_cond` has somebody to wake it. -/
structure Attended (s : State) : Prop where
  staffed : s.tp.running = true → s.tp.threadCount ≠ 0
  staying : s.tp.running = true → s.workers.countP WorkerPc.isLeaving = 0
  working : s.tp.running = true → 0 < blockedCount s → s.tp.workingCount ≠ 0 ∨ s.tp.taskList ≠ none
  leaving : s.tp.running = false → 0 < blockedCount s →
    s.tp.threadCount ≠ 0 ∨ 0 < s.workers.countP WorkerPc.isSignaling

theorem Attended.not_stranded {s : State} (h : Attended s) : ¬ Stranded s := by
  intro hs
  obtain ⟨hb,_,⟨hrun,hw,hl,_⟩ | ⟨hrun,ht,hsig⟩⟩ := hs
  · rcases h.working hrun hb with hne | hne
    · exact hne hw
    · exact hne hl
  · rcases h.leaving hrun hb with hne | hpos
    · exact hne ht
    · omega

/-- A step that touches nothing of this, except that it may wake a thread. -/
structure Calm (s t : State) : Prop where
  tp : t.tp = s.tp
  staying : s.tp.running = true →
    t.workers.countP WorkerPc.isLeaving = s.workers.countP WorkerPc.isLeaving
  signaling : t.workers.countP WorkerPc.isSignaling = s.workers.countP WorkerPc.isSignaling
  blocked : blockedCount t ≤ blockedCount s

section Calm
variable {s t u : State} {w c : ℕ} {wake : Option ℕ}

theorem Calm.trans (h : Calm s t) (h' : Calm t u) : Calm s u where
  tp := h'.tp.trans h.tp
  staying hrun := (h'.staying (h.tp ▸ hrun)).trans (h.staying hrun)
  signaling := h'.signaling.trans h.signaling
  blocked := h'.blocked.trans h.blocked

theorem Attended.of_calm (h : Attended s) (hc : Calm s t) : Attended t := by
  have hb := hc.blocked
  refine ⟨?_,?_,?_,?_⟩
  · rw [hc.tp]
    exact h.staffed
  · rw [hc.tp]
    intro hrun
    exact (hc.staying hrun).trans (h.staying hrun)
  · rw [hc.tp]
    intro hrun hpos
    exact h.working hrun (by omega)
  · rw [hc.tp,hc.signaling]
    intro hrun hpos
    exact h.leaving hrun (by omega)

theorem calm_setWorker {pc pc' : WorkerPc} (hw : s.workers[w]? = some pc)
    (hl : s.tp.running = true → pc'.isLeaving = pc.isLeaving)
    (hs : pc'.isSignaling = pc.isSignaling) : Calm s (s.setWorker w pc') where
  tp := rfl
  staying hrun := Threads.countP_set_of_eq hw (hl hrun)
  signaling := Threads.countP_set_of_eq hw hs
  blocked := le_refl _

theorem blockedCount_setClient {pc pc' : ClientPc} (hc : s.clients[c]? = some pc)
    (hb : pc'.isBlocked = true → pc.isBlocked = true) :
    blockedCount (s.setClient c pc') ≤ blockedCount s := by
  have hset := Threads.countP_set (y := pc') ClientPc.isBlocked hc
  rw [blockedCount,blockedCount,State.setClient]
  dsimp only
  split_ifs at hset with h₁ h₂
  · omega
  · omega
  · next h₂ => exact absurd (hb h₂) h₁
  · omega

theorem calm_setClient {pc pc' : ClientPc} (hc : s.clients[c]? = some pc)
    (hb : pc'.isBlocked = true → pc.isBlocked = true) : Calm s (s.setClient c pc') :=
  ⟨rfl,fun _ => rfl,rfl,blockedCount_setClient hc hb⟩

theorem isBlocked_resume (pc : ClientPc) : pc.resume.isBlocked = false := by cases pc <;> rfl

/-- A signal of `finish_cond` wakes one thread, if any is blocked. -/
theorem signalFinish_blocked (h : signalFinish s wake = some t) :
    t.tp = s.tp ∧ t.workers = s.workers ∧ blockedCount t = blockedCount s-1 := by
  unfold signalFinish at h
  obtain ⟨clients,hc,hr⟩ := Option.bind_eq_some_iff.mp h
  cases hr
  exact ⟨rfl,rfl,Threads.countP_signal (fun x _ => isBlocked_resume x) hc⟩

/-- Waking a worker changes nothing that matters here. -/
theorem map_acquire {β : Type*} {f : WorkerPc → β} (hf : f .acquire = f .waiting) (x : WorkerPc)
    (hx : x.isWaiting = true) : f .acquire = f x := by rw [isWaiting_iff.mp hx,hf]

theorem calm_signalTaskList (h : signalTaskList s wake = some t) : Calm s t := by
  unfold signalTaskList at h
  obtain ⟨workers,hw,hr⟩ := Option.bind_eq_some_iff.mp h
  cases hr
  exact ⟨rfl,fun _ => Threads.countP_eq_of_map (Threads.map_signal (map_acquire rfl) hw),
    Threads.countP_eq_of_map (Threads.map_signal (map_acquire rfl) hw),le_refl _⟩

end Calm

section Step
variable {s t : State} {w c : ℕ} {wake : Option ℕ} {e : Event}

/-- The pool of an acquired task is busy. -/
theorem workingCount_ne_zero {past : List Event} {rest : List Ptr} {task : Option Ptr}
    (hacc : Accounts past t rest) (hw : t.workers[w]? = some (.execute task)) :
    t.tp.workingCount ≠ 0 := by
  have hpos : 0 < t.workers.countP WorkerPc.isBusy :=
    List.countP_pos_iff.mpr ⟨_,List.mem_of_getElem? hw,rfl⟩
  intro hz
  rw [← hacc.working,hz] at hpos
  exact absurd hpos (lt_irrefl _)

theorem acquireTask_attended (h : Attended s) (hw : s.workers[w]? = some .acquire)
    (hfew : wakesTooFew s (.worker w wake) = false) (hs : acquireTask s w wake = some (t,e))
    (hacc : ∃ past rest, Accounts past t rest) : Attended t := by
  unfold acquireTask at hs
  split_ifs at hs with hwait hstop
  · cases hs
    exact h.of_calm (calm_setWorker hw (fun _ => rfl) rfl)
  · have hrun : s.tp.running = false := by simpa using hstop
    obtain ⟨u,hu,hr⟩ := Option.bind_eq_some_iff.mp hs
    cases hr
    obtain ⟨htp,hworkers,hblocked⟩ := signalFinish_blocked hu
    have hsig : (u.workers.set w .done).countP WorkerPc.isSignaling =
        s.workers.countP WorkerPc.isSignaling := by
      rw [hworkers]
      exact Threads.countP_set_of_eq hw rfl
    refine ⟨?_,?_,?_,?_⟩
    · rw [State.setWorker,htp]
      simp [hrun]
    · rw [State.setWorker,htp]
      simp [hrun]
    · rw [State.setWorker,htp]
      simp [hrun]
    · -- the last worker to leave wakes the only thread that is blocked
      intro _ hpos
      rw [State.setWorker,htp,hsig]
      have hb : 0 < blockedCount s-1 := hblocked ▸ hpos
      have hmore : ¬ s.tp.threadCount = 1 := by
        intro hone
        simp [wakesTooFew,lastSignal,hw,hrun,hone] at hfew
        omega
      left
      dsimp only
      grind
  · have hrun : s.tp.running = true := by simpa using hstop
    cases hp : s.tp.taskList with
    | none => simp [hrun,hp] at hwait
    | some p =>
      cases hc : s.heap.read p with
      | none => simp [getWorkerTask,hp,hc] at hs
      | some d =>
        simp only [getWorkerTask,hp,hc] at hs
        cases hs
        obtain ⟨past,rest,hacc⟩ := hacc
        have hlt := (List.getElem?_eq_some_iff.mp hw).1
        have hne := workingCount_ne_zero hacc (List.getElem?_set_self hlt)
        have hleave : (s.workers.set w (.execute (some p))).countP WorkerPc.isLeaving =
            s.workers.countP WorkerPc.isLeaving := Threads.countP_set_of_eq hw rfl
        refine ⟨h.staffed,fun _ => hleave.trans (h.staying hrun),fun _ _ => .inl hne,?_⟩
        intro hfalse
        cases hrun.symm.trans hfalse

theorem finishTask_attended (h : Attended s) (hw : s.workers[w]? = some .finish)
    (hfew : wakesTooFew s (.worker w wake) = false) (hs : finishTask s w wake = some (t,e)) :
    Attended t := by
  have hleave : (s.workers.set w .loopTest).countP WorkerPc.isLeaving =
      s.workers.countP WorkerPc.isLeaving := Threads.countP_set_of_eq hw rfl
  have hsig : (s.workers.set w .loopTest).countP WorkerPc.isSignaling =
      s.workers.countP WorkerPc.isSignaling := Threads.countP_set_of_eq hw rfl
  unfold finishTask at hs
  dsimp only at hs
  split_ifs at hs with hlast
  · obtain ⟨u,hu,hr⟩ := Option.bind_eq_some_iff.mp hs
    cases hr
    obtain ⟨htp,hworkers,hblocked⟩ := signalFinish_blocked hu
    simp only [Bool.and_eq_true,beq_iff_eq,Option.isNone_iff_eq_none] at hlast
    obtain ⟨⟨hrun,hzero⟩,hnone⟩ := hlast
    have hone : s.tp.workingCount = 1 := by grind
    -- the last worker to finish wakes the only thread that is blocked
    have hfree : blockedCount (u.setWorker w .loopTest) = 0 := by
      simp [wakesTooFew,lastSignal,hw,hrun,hone,hnone] at hfew
      have hb : blockedCount (u.setWorker w .loopTest) = blockedCount s-1 := hblocked
      omega
    refine ⟨?_,?_,?_,?_⟩
    · rw [State.setWorker,htp]
      exact h.staffed
    · intro _
      rw [State.setWorker,hworkers]
      exact hleave.trans (h.staying hrun)
    · intro _ hpos
      omega
    · intro _ hpos
      omega
  · cases hs
    simp only [Bool.and_eq_true,beq_iff_eq,Option.isNone_iff_eq_none,not_and] at hlast
    refine ⟨h.staffed,fun hrun => hleave.trans (h.staying hrun),?_,?_⟩
    · intro hrun _
      by_cases hz : s.tp.workingCount-1 = 0
      · exact .inr (hlast ⟨hrun,hz⟩)
      · exact .inl hz
    · intro hrun hpos
      rw [State.setWorker,hsig]
      exact h.leaving hrun hpos

/-- Outside the lock `thread_count` goes first and the signal follows. -/
theorem leave_attended (h : Attended s) (hw : s.workers[w]? = some .leave) :
    Attended ({ s with tp := { s.tp with
      threadCount := s.tp.threadCount-1 } }.setWorker w .leaveSignal) := by
  have hrun : s.tp.running = false := by
    by_contra hne
    have hzero := h.staying (by simpa using hne)
    exact List.countP_eq_zero.mp hzero _ (List.mem_of_getElem? hw) rfl
  have hmem : WorkerPc.leaveSignal ∈ s.workers.set w .leaveSignal :=
    List.mem_set (List.getElem?_eq_some_iff.mp hw).1 _
  refine ⟨?_,?_,?_,fun _ _ => .inr (List.countP_pos_iff.mpr ⟨_,hmem,rfl⟩)⟩
  · simp [State.setWorker,hrun]
  · simp [State.setWorker,hrun]
  · simp [State.setWorker,hrun]

theorem leaveSignal_attended {u : State} (h : Attended s) (hw : s.workers[w]? = some .leaveSignal)
    (hfew : wakesTooFew s (.worker w wake) = false) (hu : signalFinish s wake = some u) :
    Attended (u.setWorker w .done) := by
  obtain ⟨htp,hworkers,hblocked⟩ := signalFinish_blocked hu
  have hleave : (s.workers.set w .done).countP WorkerPc.isLeaving =
      s.workers.countP WorkerPc.isLeaving := Threads.countP_set_of_eq hw rfl
  have hb : blockedCount (u.setWorker w .done) = blockedCount s-1 := hblocked
  refine ⟨?_,?_,?_,?_⟩
  · rw [State.setWorker,htp]
    exact h.staffed
  · rw [State.setWorker,htp,hworkers]
    intro hrun
    exact hleave.trans (h.staying hrun)
  · intro hrun hpos
    rw [State.setWorker,htp] at hrun ⊢
    exact h.working hrun (by omega)
  · intro hrun hpos
    rw [State.setWorker,htp] at hrun ⊢
    left
    intro hzero
    simp [wakesTooFew,lastSignal,hw,hzero] at hfew
    omega

theorem workerStep_attended (h : Attended s) (hfew : wakesTooFew s (.worker w wake) = false)
    (hs : workerStep s w wake = some (t,e)) (hacc : ∃ past rest, Accounts past t rest) :
    Attended t := by
  unfold workerStep at hs
  split at hs
  · next task hw =>
    cases task with
    | none =>
      cases hs
      exact h.of_calm (calm_setWorker hw (fun _ => rfl) rfl)
    | some p =>
      rw [executeTask] at hs
      obtain ⟨d,_,hr⟩ := Option.bind_eq_some_iff.mp hs
      cases hr
      exact h.of_calm ⟨rfl,fun _ => Threads.countP_set_of_eq hw rfl,
        Threads.countP_set_of_eq hw rfl,le_refl _⟩
  · next pc _ hw =>
    split at hs
    · cases hs
    cases pc with
    | loopTest =>
      cases hs
      refine h.of_calm (calm_setWorker hw ?_ ?_)
      · intro hrun
        rw [if_pos hrun]
        rfl
      · split_ifs <;> rfl
    | acquire => exact acquireTask_attended h hw hfew hs hacc
    | waiting => cases hs
    | execute task => cases hs
    | finish => exact finishTask_attended h hw hfew hs
    | leave =>
      cases hs
      exact leave_attended h hw
    | leaveSignal =>
      obtain ⟨u,hu,hr⟩ := Option.bind_eq_some_iff.mp hs
      cases hr
      exact leaveSignal_attended h hw hfew hu
    | done => cases hs
  · cases hs

/-- Only a list that was empty gets a new head. -/
theorem appendTask_taskList {p : Ptr} (ha : appendTask s p = some t)
    (hl : s.tp.taskList ≠ none) : t.tp.taskList ≠ none := by
  unfold appendTask at ha
  obtain ⟨⟨prev,item⟩,_,ha⟩ := Option.bind_eq_some_iff.mp ha
  cases prev with
  | none =>
    cases ha
    simp
  | some q =>
    obtain ⟨heap,_,ha⟩ := Option.bind_eq_some_iff.mp ha
    cases ha
    exact hl

theorem link_attended {p : Ptr} (h : Attended s) (ha : appendTask s p = some t) : Attended t := by
  obtain ⟨hworkers,hclients,_,hcount,hrun⟩ := Accounts.appendTask_frame ha
  have hthread := Accounts.appendTask_threadCount ha
  have hb : blockedCount t = blockedCount s := by rw [blockedCount,blockedCount,hclients]
  refine ⟨?_,?_,?_,?_⟩
  · rw [hrun,hthread]
    exact h.staffed
  · rw [hrun,hworkers]
    exact h.staying
  · rw [hrun,hb,hcount]
    intro hr hpos
    exact (h.working hr hpos).imp_right (appendTask_taskList ha)
  · rw [hrun,hb,hthread,hworkers]
    exact h.leaving

/-- A thread goes to sleep only while there is something to wait for. -/
theorem block_attended {inDestory : Bool} (h : Attended s) (hwait : s.tp.mustWait = true) :
    Attended (s.setClient c (.blocked inDestory)) := by
  simp only [ThreadPool.mustWait,Bool.or_eq_true,Bool.and_eq_true,decide_eq_true_eq,
    Bool.not_eq_true',gt_iff_lt,UInt64.pos_iff_ne_zero] at hwait
  refine ⟨h.staffed,h.staying,?_,?_⟩
  · intro hrun _
    rcases hwait with ⟨_,hne⟩ | ⟨hfalse,_⟩
    · exact .inl hne
    · cases hrun.symm.trans hfalse
  · intro hrun _
    rcases hwait with ⟨htrue,_⟩ | ⟨_,hne⟩
    · cases hrun.symm.trans htrue
    · exact .inl hne

/-- When `running` is cleared, all workers are still there to leave. -/
theorem stop_attended {heap : Heap WorkerTask} (h : Attended s) :
    Attended (broadcastTaskList { s with heap := heap, tp := { s.tp with running := false } }) := by
  have hsig : (Threads.broadcast WorkerPc.isWaiting (fun _ => .acquire) s.workers).countP
      WorkerPc.isSignaling = s.workers.countP WorkerPc.isSignaling :=
    Threads.countP_eq_of_map (Threads.map_broadcast (map_acquire rfl) _)
  refine ⟨?_,?_,?_,?_⟩
  · simp [broadcastTaskList]
  · simp [broadcastTaskList]
  · simp [broadcastTaskList]
  · intro _ hpos
    rw [broadcastTaskList,hsig]
    cases hrun : s.tp.running with
    | true => exact .inl (h.staffed hrun)
    | false => exact h.leaving hrun hpos

theorem clientStep_attended (h : Attended s) (hs : clientStep s c wake = some (t,e)) :
    Attended t := by
  unfold clientStep at hs
  split at hs
  · next task hc =>
    obtain ⟨u,hu,hr⟩ := Option.bind_eq_some_iff.mp hs
    obtain ⟨v,hv,hr⟩ := Option.bind_eq_some_iff.mp hr
    cases hr
    have hclients : v.clients = s.clients := by
      rw [← (Accounts.appendTask_frame hu).2.1]
      unfold signalTaskList at hv
      obtain ⟨workers,_,hr⟩ := Option.bind_eq_some_iff.mp hv
      cases hr
      rfl
    refine ((link_attended h hu).of_calm (calm_signalTaskList hv)).of_calm ?_
    exact calm_setClient (hclients ▸ hc) (by simp [ClientPc.isBlocked])
  · next inDestory hc =>
    split_ifs at hs with hwait
    · cases hs
      exact block_attended h hwait
    · cases hs
      exact h.of_calm (calm_setClient hc (by simp [ClientPc.isBlocked]))
    · cases hs
      exact h.of_calm (calm_setClient hc (by simp [ClientPc.isBlocked]))
  · next hc =>
    obtain ⟨heap,hh,hr⟩ := Option.bind_eq_some_iff.mp hs
    cases hr
    exact (stop_attended h).of_calm (calm_setClient hc (by simp [ClientPc.isBlocked]))
  · next hc =>
    cases hs
    exact h.of_calm ⟨rfl,fun _ => rfl,rfl,
      blockedCount_setClient (s := s) hc (by simp [ClientPc.isBlocked])⟩
  · cases hs

/-- Every step that does not wake too few keeps the waiting threads attended. -/
theorem Attended.step {a : Action} (h : Attended s) (hfew : wakesTooFew s a = false)
    (hs : ThreadPool01.step s a = some (t,e)) (hacc : ∃ past rest, Accounts past t rest) :
    Attended t := by
  cases a with
  | worker w wake => exact workerStep_attended h hfew hs hacc
  | client c wake =>
    rw [ThreadPool01.step] at hs
    split_ifs at hs
    exact clientStep_attended h hs
  | callAddTask c func arg mallocSucceeds =>
    rw [ThreadPool01.step] at hs
    split_ifs at hs with hc
    unfold callAddTask at hs
    split_ifs at hs
    · cases hs
      exact h.of_calm ⟨rfl,fun _ => rfl,rfl,
        blockedCount_setClient (s := s) hc (by simp [ClientPc.isBlocked])⟩
    · cases hs
      exact h
  | callWait c =>
    rw [ThreadPool01.step] at hs
    split_ifs at hs with hc
    cases hs
    exact h.of_calm (calm_setClient hc (by simp [ClientPc.isBlocked]))
  | callDestory c =>
    rw [ThreadPool01.step] at hs
    split_ifs at hs with hc
    cases hs
    exact h.of_calm (calm_setClient hc (by simp [ClientPc.isBlocked]))
  | spuriousWorker w =>
    rw [ThreadPool01.step] at hs
    split_ifs at hs with hw
    cases hs
    exact h.of_calm (calm_setWorker hw (fun _ => rfl) rfl)
  | spuriousClient c =>
    rw [ThreadPool01.step] at hs
    split at hs
    · next inDestory hc =>
      cases hs
      exact h.of_calm (calm_setClient hc (by simp [ClientPc.isBlocked]))
    · cases hs

end Step

theorem attended_create {num : UInt64} {created : ℕ → Bool} {clients : ℕ} {s : State}
    (h : threadPoolCreate num created clients = some s) : Attended s := by
  unfold threadPoolCreate at h
  split_ifs at h with hnum
  cases h
  have hidle : blockedCount (State.mk ⟨none,0,num,true⟩ false Heap.empty
      (((List.range num.toNat).filter created).map fun _ => .loopTest)
      (List.replicate clients .idle)) = 0 :=
    Threads.countP_eq_zero_of_forall_eq (fun _ hpc => List.eq_of_mem_replicate hpc) rfl
  refine ⟨fun _ => hnum,?_,?_,?_⟩
  · intro _
    refine Threads.countP_eq_zero_of_forall_eq (x := .loopTest) ?_ rfl
    intro pc hpc
    obtain ⟨i,_,rfl⟩ := List.mem_map.mp hpc
    rfl
  · intro _ hpos
    omega
  · intro hrun
    cases hrun

/-- In every run in which the last signal of `finish_cond` never finds more than one thread
blocked, no thread is left behind. -/
theorem never_stranded (num : UInt64) (created : ℕ → Bool) (clients : ℕ) (new : State)
    (actions : List Action) (hnew : threadPoolCreate num created clients = some new)
    (hfew : Machine.EachCall step (fun s a => wakesTooFew s a = false) new actions) :
    Machine.Throughout step (fun s => ¬ Stranded s) new actions := by
  refine Machine.throughout_of_eachCall
    (fun s => (∃ past rest, Accounts past s rest) ∧ Attended s) (fun s h => h.2.not_stranded) ?_
    ⟨⟨[],[],accounts_create hnew⟩,attended_create hnew⟩ hfew
  intro s a t e h hP hs
  obtain ⟨⟨past,rest,hacc⟩,hatt⟩ := h
  obtain ⟨rest',hacc'⟩ := hacc.step hs
  exact ⟨⟨past++[e],rest',hacc'⟩,hatt.step hP hs ⟨past++[e],rest',hacc'⟩⟩

/-- One thread waits for one task. -/
theorem never_stranded_test : ∃ new, threadPoolCreate 1 (fun _ => true) 2 = some new ∧
    Machine.EachCall step (fun s a => wakesTooFew s a = false) new
      [.callAddTask 0 0 0 true,.client 0 none,.worker 0 none,.worker 0 none,.callWait 1,
        .client 1 none,.worker 0 none,.worker 0 (some 1),.worker 0 none,.worker 0 none] ∧
    Machine.Throughout step (fun s => ¬ Stranded s) new
      [.callAddTask 0 0 0 true,.client 0 none,.worker 0 none,.worker 0 none,.callWait 1,
        .client 1 none,.worker 0 none,.worker 0 (some 1),.worker 0 none,.worker 0 none] := by
  have hfew : Machine.EachCall step (fun s a => wakesTooFew s a = false)
      (State.mk ⟨none,0,1,true⟩ false Heap.empty [.loopTest] [.idle,.idle])
      [.callAddTask 0 0 0 true,.client 0 none,.worker 0 none,.worker 0 none,.callWait 1,
        .client 1 none,.worker 0 none,.worker 0 (some 1),.worker 0 none,.worker 0 none] := by
    refine Machine.eachCall_of_test (p := fun s a => !wakesTooFew s a) ?_ ?_
    · intro s a h
      simpa using h
    · decide +kernel
  exact ⟨_,rfl,hfew,never_stranded 1 (fun _ => true) 2 _ _ rfl hfew⟩

/-- Two threads wait for one task, and the worker that finishes it wakes one of them. -/
theorem second_waiter_stranded : ∃ new s past, threadPoolCreate 1 (fun _ => true) 2 = some new ∧
    Machine.run step new [.callAddTask 0 0 0 true,.client 0 none,.worker 0 none,.worker 0 none,
      .callWait 0,.client 0 none,.callWait 1,.client 1 none,.worker 0 none,.worker 0 (some 0),
      .worker 0 none,.worker 0 none,.client 0 none] = some (s,past) ∧ Stranded s := by
  refine ⟨_,_,_,rfl,rfl,by decide,rfl,.inl ⟨rfl,rfl,rfl,?_⟩⟩
  intro pc hpc
  exact List.mem_singleton.mp hpc

end CStudy.ThreadPool01
