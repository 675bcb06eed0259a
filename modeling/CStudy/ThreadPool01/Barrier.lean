import CStudy.ThreadPool01.Tasks

/-! What `ThreadPoolWait` waits for. While the pool runs it looks at `working_count` only, so when
it returns no worker holds a task, and the tasks that are not executed are those in the list. -/
namespace CStudy.ThreadPool01
open CStudy.Foundation

/-- The task is linked in `task_list`. -/
def Listed (s : State) (p : Ptr) : Prop := s.heap.Reaches WorkerTask.next s.tp.taskList p

section Return
variable {s t : State} {c : ℕ}

theorem workerStep_ne_waitReturned {w : ℕ} {wake : Option ℕ} :
    workerStep s w wake ≠ some (t,.waitReturned c) := by
  intro h
  unfold workerStep at h
  split at h
  · next task _ =>
    cases task with
    | none => cases h
    | some p =>
      obtain ⟨_,_,hr⟩ := Option.bind_eq_some_iff.mp h
      cases hr
  · next pc _ _ =>
    split at h
    · cases h
    cases pc with
    | acquire =>
      simp only [acquireTask] at h
      split_ifs at h
      · cases h
      · obtain ⟨_,_,hr⟩ := Option.bind_eq_some_iff.mp h
        cases hr
      · obtain ⟨⟨u,task⟩,_,hr⟩ := Option.bind_eq_some_iff.mp h
        cases task <;> cases hr
    | finish =>
      simp only [finishTask] at h
      split_ifs at h
      · obtain ⟨_,_,hr⟩ := Option.bind_eq_some_iff.mp h
        cases hr
      · cases h
    | leaveSignal =>
      obtain ⟨_,_,hr⟩ := Option.bind_eq_some_iff.mp h
      cases hr
    | _ => cases h
  · cases h

/-- `ThreadPoolWait` returns from its check of the wait condition. -/
theorem step_waitReturned {a : Action} (h : step s a = some (t,.waitReturned c)) :
    s.tp.mustWait = false ∧ t.tp = s.tp := by
  cases a with
  | worker w wake => exact absurd h workerStep_ne_waitReturned
  | client c' wake =>
    rw [step] at h
    split_ifs at h
    unfold clientStep at h
    split at h
    · obtain ⟨_,_,hr⟩ := Option.bind_eq_some_iff.mp h
      obtain ⟨_,_,hr⟩ := Option.bind_eq_some_iff.mp hr
      cases hr
    · split_ifs at h with hwait hdestory
      · cases h
      · cases h
      · cases h
        exact ⟨by simpa using hwait,rfl⟩
    · obtain ⟨_,_,hr⟩ := Option.bind_eq_some_iff.mp h
      cases hr
    · cases h
    · cases h
  | callAddTask c' func arg mallocSucceeds =>
    simp only [step,callAddTask] at h
    split_ifs at h <;> cases h
  | callWait c' =>
    rw [step] at h
    split_ifs at h
    cases h
  | callDestory c' =>
    rw [step] at h
    split_ifs at h
    cases h
  | spuriousWorker w =>
    rw [step] at h
    split_ifs at h
    cases h
  | spuriousClient c' =>
    rw [step] at h
    split at h <;> cases h

end Return

/-- When no worker is between its two sections, every taken task is executed. -/
theorem Accounts.taken_executed {past : List Event} {s : State} {rest : List Ptr}
    (h : Accounts past s rest)
    (hzero : s.tp.workingCount = 0) : (takenTasks past).Perm (executedTasks past) := by
  have hidle : ∀ pc ∈ s.workers, ¬ pc.isBusy = true := by
    rw [← List.countP_eq_zero,← h.working,hzero]
    rfl
  have hnone : s.workers.filterMap WorkerPc.task? = [] := by
    rw [List.filterMap_eq_nil_iff]
    intro pc hpc
    have hb := hidle pc hpc
    cases pc with
    | execute task => exact absurd rfl hb
    | _ => rfl
  simpa [hnone] using h.flow.accounted

/-- When `ThreadPoolWait` returns and the pool still runs, the tasks added before the call are all
executed exactly if none of them is still in the list. -/
theorem wait_complete_iff (num : UInt64) (created : ℕ → Bool) (clients c : ℕ)
    (new s called waiting returned : State) (before between : List Action) (a : Action)
    (past meanwhile : List Event) (hnew : threadPoolCreate num created clients = some new)
    (hbefore : Machine.run step new before = some (s,past))
    (hcall : step s (.callWait c) = some (called,.waitCalled c))
    (hbetween : Machine.run step called between = some (waiting,meanwhile))
    (hreturn : step waiting a = some (returned,.waitReturned c))
    (hrunning : returned.tp.running = true) :
    (∀ p ∈ addedTasks past, p ∈ executedTasks (past++[.waitCalled c]++meanwhile)) ↔
      ∀ p ∈ addedTasks past, ¬ Listed waiting p := by
  have hrun : Machine.run step new (before++.callWait c::between) =
      some (waiting,past++.waitCalled c::meanwhile) :=
    Machine.run_append.mpr ⟨s,past,_,hbefore,
      Machine.run_cons_eq_some.mpr ⟨called,_,meanwhile,hcall,hbetween,rfl⟩,rfl⟩
  obtain ⟨l,hacc⟩ := accounts_run hnew hrun
  obtain ⟨hwait,htp⟩ := step_waitReturned hreturn
  rw [htp] at hrunning
  have hzero : waiting.tp.workingCount = 0 := by
    have hpos : ¬ waiting.tp.workingCount > 0 := by
      intro hpos
      simp [ThreadPool.mustWait,hrunning,hpos] at hwait
    rw [gt_iff_lt,UInt64.pos_iff_ne_zero,not_not] at hpos
    exact hpos
  have hdone := hacc.taken_executed hzero
  rw [List.append_assoc,List.singleton_append]
  have hsub : ∀ p ∈ addedTasks past, p ∈ takenTasks (past++.waitCalled c::meanwhile)++l := by
    intro p hp
    rw [← hacc.flow.order,addedTasks,List.filterMap_append]
    exact List.mem_append_left _ hp
  apply forall₂_congr
  intro p hp
  rw [← hdone.mem_iff,Listed,(hacc.chain hrunning).reaches_iff]
  constructor
  · exact fun ht => List.disjoint_of_nodup_append hacc.flow.nodup ht
  · intro hnl
    exact (List.mem_append.mp (hsub p hp)).resolve_right hnl

/-- One worker takes and executes the only task before and during the call. -/
theorem wait_complete_iff_test : ∃ new s called waiting returned past meanwhile,
    threadPoolCreate 1 (fun _ => true) 1 = some new ∧
    Machine.run step new [.callAddTask 0 0 0 true,.client 0 none,.worker 0 none,.worker 0 none] =
      some (s,past) ∧
    step s (.callWait 0) = some (called,.waitCalled 0) ∧
    Machine.run step called [.worker 0 none,.worker 0 none] = some (waiting,meanwhile) ∧
    step waiting (.client 0 none) = some (returned,.waitReturned 0) ∧
    returned.tp.running = true ∧
    ((∀ p ∈ addedTasks past, p ∈ executedTasks (past++[.waitCalled 0]++meanwhile)) ↔
      ∀ p ∈ addedTasks past, ¬ Listed waiting p) := by
  refine ⟨_,_,_,_,_,_,_,rfl,rfl,rfl,rfl,rfl,rfl,?_⟩
  exact wait_complete_iff 1 (fun _ => true) 1 0 _ _ _ _ _
    [.callAddTask 0 0 0 true,.client 0 none,.worker 0 none,.worker 0 none]
    [.worker 0 none,.worker 0 none] (.client 0 none) _ _ rfl rfl rfl rfl rfl rfl

/-- `ThreadPoolWait` returns before the worker has looked into the list. -/
theorem wait_incomplete : ∃ new s called returned past,
    threadPoolCreate 1 (fun _ => true) 1 = some new ∧
    Machine.run step new [.callAddTask 0 0 0 true,.client 0 none] = some (s,past) ∧
    step s (.callWait 0) = some (called,.waitCalled 0) ∧
    step called (.client 0 none) = some (returned,.waitReturned 0) ∧
    returned.tp.running = true ∧ addedTasks past = [0] ∧
    executedTasks (past++[.waitCalled 0]) = [] :=
  ⟨_,_,_,_,_,rfl,rfl,rfl,rfl,rfl,rfl,rfl⟩

end CStudy.ThreadPool01
