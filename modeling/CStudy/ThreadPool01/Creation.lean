import CStudy.ThreadPool01.Wakeup

/-! The number of workers that `ThreadPoolDestory` waits for. `ThreadPoolCreate` counts the threads
it asks for, whether they start or not. From then on the count goes down exactly when a worker that
is still counted leaves, so in every run it differs from the number of these workers by the number
of threads that did not start. -/
namespace CStudy.ThreadPool01
open CStudy.Foundation

/-- The worker has not taken itself off `thread_count` yet. -/
def WorkerPc.isCounted : WorkerPc → Bool
  | .leaveSignal => false
  | .done => false
  | _ => true

def countedWorkers (s : State) : ℕ := s.workers.countP WorkerPc.isCounted

/-- The pool is shut down and the count is not zero, but no worker is there to lower it. -/
def WaitsForNobody (s : State) : Prop :=
  s.tp.running = false ∧ s.tp.threadCount ≠ 0 ∧ countedWorkers s = 0

instance (s : State) : Decidable (WaitsForNobody s) := inferInstanceAs (Decidable (_ ∧ _ ∧ _))

/-- The count of a new pool is the number of its workers, and in no run does `ThreadPoolDestory`
come to wait for a worker that does not exist. -/
def AwaitsItsWorkers (new : State) : Prop :=
  new.tp.threadCount.toNat = new.workers.length ∧
    ∀ actions, Machine.Throughout step (fun s => ¬ WaitsForNobody s) new actions

/-- All that a step can do to the count and to the workers it counts. -/
inductive Tally (s t : State) : Prop
  | same (hcount : t.tp.threadCount = s.tp.threadCount)
      (hworkers : countedWorkers t = countedWorkers s)
  | leave (hcount : t.tp.threadCount = s.tp.threadCount-1)
      (hworkers : countedWorkers t+1 = countedWorkers s)

section Step
variable {s t : State} {w c : ℕ} {wake : Option ℕ} {e : Event}

theorem tally_same (hcount : t.tp.threadCount = s.tp.threadCount)
    (hworkers : t.workers.map WorkerPc.isCounted = s.workers.map WorkerPc.isCounted) : Tally s t :=
  .same hcount (Threads.countP_eq_of_map hworkers)

/-- A counted worker takes itself off. -/
theorem tally_leave {pc pc' : WorkerPc} (hw : s.workers[w]? = some pc)
    (hpc : pc.isCounted = true) (hpc' : pc'.isCounted = false)
    (hcount : t.tp.threadCount = s.tp.threadCount-1) (hworkers : t.workers = s.workers.set w pc') :
    Tally s t := by
  have hset := Threads.countP_set (y := pc') WorkerPc.isCounted hw
  rw [hpc,hpc',if_pos rfl,if_neg Bool.false_ne_true,← hworkers] at hset
  exact .leave hcount hset

theorem signalFinish_frame (h : signalFinish s wake = some t) :
    t.tp = s.tp ∧ t.workers = s.workers := by
  obtain ⟨clients,_,hr⟩ := Option.bind_eq_some_iff.mp h
  cases hr
  exact ⟨rfl,rfl⟩

/-- A worker signals and moves on, counted or not as before. -/
theorem tally_signalFinish {u : State} {pc pc' : WorkerPc} (hw : s.workers[w]? = some pc)
    (hu : signalFinish t wake = some u) (hpc : pc'.isCounted = pc.isCounted)
    (hcount : t.tp.threadCount = s.tp.threadCount) (hworkers : t.workers = s.workers) :
    Tally s (u.setWorker w pc') := by
  obtain ⟨htp,hsame⟩ := signalFinish_frame hu
  refine tally_same ?_ ?_
  · change u.tp.threadCount = _
    rw [htp,hcount]
  · change (u.workers.set w pc').map _ = _
    rw [hsame,hworkers]
    exact Threads.map_set_of_eq hw hpc

theorem signalTaskList_frame (h : signalTaskList s wake = some t) :
    t.tp = s.tp ∧ t.workers.map WorkerPc.isCounted = s.workers.map WorkerPc.isCounted := by
  obtain ⟨workers,hw,hr⟩ := Option.bind_eq_some_iff.mp h
  cases hr
  exact ⟨rfl,Threads.map_signal (map_acquire rfl) hw⟩

theorem acquireTask_tally (hw : s.workers[w]? = some .acquire)
    (h : acquireTask s w wake = some (t,e)) : Tally s t := by
  unfold acquireTask at h
  split_ifs at h
  · cases h
    exact tally_same rfl (Threads.map_set_of_eq hw rfl)
  · obtain ⟨u,hu,hr⟩ := Option.bind_eq_some_iff.mp h
    cases hr
    obtain ⟨htp,hworkers⟩ := signalFinish_frame hu
    refine tally_leave hw rfl (rfl : WorkerPc.isCounted .done = false) ?_ ?_
    · change u.tp.threadCount = _
      rw [htp]
    · change u.workers.set w .done = _
      rw [hworkers]
  · obtain ⟨⟨u,task⟩,hu,hr⟩ := Option.bind_eq_some_iff.mp h
    cases hr
    have hframe : u.tp.threadCount = s.tp.threadCount ∧ u.workers = s.workers := by
      unfold getWorkerTask at hu
      split at hu
      · cases hu
        exact ⟨rfl,rfl⟩
      · obtain ⟨d,_,hr⟩ := Option.bind_eq_some_iff.mp hu
        cases hr
        exact ⟨rfl,rfl⟩
    refine tally_same hframe.1 ?_
    change (u.workers.set w (.execute task)).map _ = _
    rw [hframe.2]
    exact Threads.map_set_of_eq hw rfl

theorem finishTask_tally (hw : s.workers[w]? = some .finish)
    (h : finishTask s w wake = some (t,e)) : Tally s t := by
  unfold finishTask at h
  dsimp only at h
  split_ifs at h
  · obtain ⟨u,hu,hr⟩ := Option.bind_eq_some_iff.mp h
    cases hr
    exact tally_signalFinish hw hu rfl rfl rfl
  · cases h
    exact tally_same rfl (Threads.map_set_of_eq hw rfl)

theorem workerStep_tally (h : workerStep s w wake = some (t,e)) : Tally s t := by
  unfold workerStep at h
  split at h
  · next task hw =>
    cases task with
    | none =>
      cases h
      exact tally_same rfl (Threads.map_set_of_eq hw rfl)
    | some p =>
      obtain ⟨d,_,hr⟩ := Option.bind_eq_some_iff.mp h
      cases hr
      exact tally_same rfl (Threads.map_set_of_eq hw rfl)
  · next pc _ hw =>
    split at h
    · cases h
    cases pc with
    | loopTest =>
      cases h
      refine tally_same rfl (Threads.map_set_of_eq hw ?_)
      split_ifs <;> rfl
    | acquire => exact acquireTask_tally hw h
    | waiting => cases h
    | execute task => cases h
    | finish => exact finishTask_tally hw h
    | leave =>
      cases h
      exact tally_leave hw rfl rfl rfl rfl
    | leaveSignal =>
      obtain ⟨u,hu,hr⟩ := Option.bind_eq_some_iff.mp h
      cases hr
      exact tally_signalFinish hw hu rfl rfl rfl
    | done => cases h
  · cases h

theorem clientStep_tally (h : clientStep s c wake = some (t,e)) : Tally s t := by
  unfold clientStep at h
  split at h
  · next task hc =>
    obtain ⟨u,hu,hr⟩ := Option.bind_eq_some_iff.mp h
    obtain ⟨v,hv,hr⟩ := Option.bind_eq_some_iff.mp hr
    cases hr
    obtain ⟨htp,hworkers⟩ := signalTaskList_frame hv
    refine tally_same ?_ ?_
    · change v.tp.threadCount = _
      rw [htp,Accounts.appendTask_threadCount hu]
    · change v.workers.map _ = _
      rw [hworkers,(Accounts.appendTask_frame hu).1]
  · split_ifs at h
    · cases h
      exact .same rfl rfl
    · cases h
      exact .same rfl rfl
    · cases h
      exact .same rfl rfl
  · obtain ⟨heap,_,hr⟩ := Option.bind_eq_some_iff.mp h
    cases hr
    exact tally_same rfl (Threads.map_broadcast (map_acquire rfl) s.workers)
  · cases h
    exact .same rfl rfl
  · cases h

theorem step_tally {a : Action} (h : step s a = some (t,e)) : Tally s t := by
  cases a with
  | worker w wake => exact workerStep_tally h
  | client c wake =>
    rw [step] at h
    split_ifs at h
    exact clientStep_tally h
  | callAddTask c func arg mallocSucceeds =>
    rw [step] at h
    split_ifs at h
    unfold callAddTask at h
    split_ifs at h
    · cases h
      exact .same rfl rfl
    · cases h
      exact .same rfl rfl
  | callWait c =>
    rw [step] at h
    split_ifs at h
    cases h
    exact .same rfl rfl
  | callDestory c =>
    rw [step] at h
    split_ifs at h
    cases h
    exact .same rfl rfl
  | spuriousWorker w =>
    rw [step] at h
    split_ifs at h with hw
    cases h
    exact tally_same rfl (Threads.map_set_of_eq hw rfl)
  | spuriousClient c =>
    rw [step] at h
    split at h
    · cases h
      exact .same rfl rfl
    · cases h

end Step

/-- The surplus of the count over the workers it counts stays the same in every run. -/
theorem run_threadCount {s t : State} {m : ℕ} {actions : List Action} {events : List Event}
    (hs : s.tp.threadCount.toNat = countedWorkers s+m)
    (hrun : Machine.run step s actions = some (t,events)) :
    t.tp.threadCount.toNat = countedWorkers t+m := by
  induction actions generalizing s events with
  | nil =>
    cases hrun
    exact hs
  | cons a actions ih =>
    obtain ⟨u,e,events',hstep,hrun,_⟩ := Machine.run_cons_eq_some.mp hrun
    refine ih ?_ hrun
    cases step_tally hstep with
    | same hcount hworkers => rw [hcount,hworkers,hs]
    | leave hcount hworkers =>
      have hone : (1 : UInt64).toNat = 1 := rfl
      rw [hcount,UInt64.toNat_sub_of_le _ _ (UInt64.le_iff_toNat_le.mpr (by omega))]
      omega

section Creation
variable {num : UInt64} {created : ℕ → Bool} {clients : ℕ} {new : State}

theorem countedWorkers_create (hnew : threadPoolCreate num created clients = some new) :
    countedWorkers new = new.workers.length := by
  unfold threadPoolCreate at hnew
  split_ifs at hnew
  cases hnew
  rw [countedWorkers,List.countP_eq_length]
  intro pc hpc
  obtain ⟨i,_,rfl⟩ := List.mem_map.mp hpc
  rfl

theorem threadCount_create (hnew : threadPoolCreate num created clients = some new) :
    new.tp.threadCount.toNat = countedWorkers new+Threads.notStarted num.toNat created := by
  rw [countedWorkers_create hnew]
  unfold threadPoolCreate at hnew
  split_ifs at hnew
  cases hnew
  rw [List.length_map]
  exact (Threads.length_started_add num.toNat created).symm

theorem awaitsItsWorkers_iff (hnew : threadPoolCreate num created clients = some new) :
    AwaitsItsWorkers new ↔ ∀ i < num.toNat, created i = true := by
  have hcreate := threadCount_create hnew
  rw [← Threads.notStarted_eq_zero_iff]
  constructor
  · rintro ⟨hcount,_⟩
    rw [countedWorkers_create hnew] at hcreate
    omega
  · intro hall
    rw [hall,Nat.add_zero] at hcreate
    refine ⟨hcreate.trans (countedWorkers_create hnew),?_⟩
    rintro actions done _ s past hrun ⟨_,hcount,hnone⟩
    have hs := run_threadCount (m := 0) hcreate hrun
    exact hcount (UInt64.toNat_inj.mp (hs.trans hnone))

/-- With a thread that did not start, the wait of `ThreadPoolDestory` does not end in any run. -/
theorem destory_waits (hnew : threadPoolCreate num created clients = some new)
    (hfailed : ∃ i < num.toNat, created i = false) (actions : List Action) :
    Machine.Throughout step (fun s => s.tp.running = false → s.tp.mustWait = true) new actions := by
  intro done _ s past hrun hstopped
  have hs := run_threadCount (threadCount_create hnew) hrun
  have hmissing : Threads.notStarted num.toNat created ≠ 0 := by
    rw [Ne,Threads.notStarted_eq_zero_iff]
    obtain ⟨i,hi,hfalse⟩ := hfailed
    intro hall
    cases hfalse.symm.trans (hall i hi)
  have hpos : 0 < s.tp.threadCount := by
    rw [UInt64.lt_iff_toNat_lt,hs]
    exact Nat.pos_of_ne_zero (by omega)
  simp [ThreadPool.mustWait,hstopped,hpos]

end Creation

end CStudy.ThreadPool01
