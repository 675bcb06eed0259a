import CStudy.ThreadPool02.Jobs

/-! Why `ThreadPoolWait` is a barrier. It reads the length of the queue first: when that is zero,
all jobs added so far have been pulled. It then reads `working_threads`: when that is zero too, no
worker is between its increment, which comes before the pull, and its decrement, which comes after
the job, so all jobs pulled so far are executed. -/
namespace CStudy.ThreadPool02
open CStudy.Foundation

section Reading
variable {s t : State} {c : ℕ} {e : Event} {past : List Event} {rest : List Ptr}

/-- A client comes to its second read by reading an empty queue. -/
theorem Moves.reading (h : Moves s t e) (ht : t.clients[c]? = some .waitWorking) :
    s.clients[c]? = some .waitWorking ∨ s.released = false ∧ s.pool.jobQueue.length = 0 := by
  cases h with
  | quiet hv he => exact .inl (hv.reading c ht)
  | prepare hc func arg stale => exact .inl (getElem?_set_waitWorking (by simp) ht)
  | push hr hc hp hv => exact .inl (getElem?_set_waitWorking (by simp) (hv.reading c ht))
  | countIn hw => exact .inl ht
  | pull hr hw hp hv => exact .inl (hv.reading c ht)
  | execute hw => exact .inl ht
  | countOut hw hv => exact .inl (hv.reading c ht)
  | readLength hr hc hl => exact .inr ⟨hr,hl⟩
  | free hc hh => exact .inl (getElem?_set_waitWorking (by simp) ht)

/-- An empty queue has given out all jobs. -/
theorem Accounts.added_eq_pulled (h : Accounts past s rest) (hr : s.released = false)
    (hl : s.pool.jobQueue.length = 0) : addedJobs past = pulledJobs past := by
  have hnil : rest = [] := List.length_eq_zero_iff.mp ((h.queue hr).length.symm.trans hl)
  rw [h.flow.order,hnil,List.append_nil]

/-- When no worker is counted in, all pulled jobs are executed. -/
theorem Accounts.pulled_executed (h : Accounts past s rest) (hz : ¬ s.pool.workingThreads > 0) :
    (pulledJobs past).Perm (executedJobs past) := by
  have hidle : ∀ pc ∈ s.workers, ¬ pc.isBusy = true := by
    rw [← List.countP_eq_zero]
    have := h.working
    omega
  have hnone : s.workers.filterMap WorkerPc.task? = [] := by
    rw [List.filterMap_eq_nil_iff]
    intro pc hpc
    have hb := hidle pc hpc
    cases pc with
    | execute task => exact absurd rfl hb
    | _ => rfl
  simpa [hnone] using h.flow.accounted

/-- The account, and what client `c` knows of the jobs `jobs` between its two reads. -/
def Tracks (c : ℕ) (jobs : List Ptr) (past : List Event) (s : State) : Prop :=
  (∃ rest, Accounts past s rest) ∧ jobs ⊆ addedJobs past ∧
    (s.clients[c]? = some .waitWorking → jobs ⊆ pulledJobs past)

theorem Tracks.step {jobs : List Ptr} {a : Action} (h : Tracks c jobs past s)
    (hs : ThreadPool02.step s a = some (t,e)) : Tracks c jobs (past++[e]) t := by
  obtain ⟨⟨rest,hacc⟩,hsub,hread⟩ := h
  obtain ⟨hadd,hpull,_⟩ := extends_event past e
  refine ⟨hacc.step hs,?_,?_⟩
  · rw [hadd]
    exact List.subset_append_of_subset_left _ hsub
  · intro ht
    rw [hpull]
    apply List.subset_append_of_subset_left
    rcases (step_moves hs).reading ht with hold | ⟨hr,hl⟩
    · exact hread hold
    · rw [← hacc.added_eq_pulled hr hl]
      exact hsub

end Reading

section Return
variable {s t : State} {c : ℕ}

theorem workerStep_ne_waitReturned {w : ℕ} {wake : Option ℕ} :
    workerStep s w wake ≠ some (t,.waitReturned c) := by
  intro h
  unfold workerStep at h
  split at h
  · next task _ =>
    cases task with
    | none => cases h
    | some p =>
      obtain ⟨_,_,hr⟩ := Option.bind_eq_some_iff.mp h
      cases hr
  · next pc _ _ =>
    split at h
    · cases h
    cases pc with
    | start => cases locked_eq_some h
    | countIn => cases locked_eq_some h
    | leave => cases locked_eq_some h
    | pull =>
      obtain ⟨⟨jq,job,posted⟩,_,hr⟩ := Option.bind_eq_some_iff.mp h
      dsimp only at hr
      split_ifs at hr
      · obtain ⟨_,_,hr⟩ := Option.bind_eq_some_iff.mp hr
        cases job <;> cases hr
      · cases job <;> cases hr
    | countOut =>
      have hout := locked_eq_some h
      unfold countOut at hout
      dsimp only at hout
      split_ifs at hout
      · obtain ⟨_,_,hr⟩ := Option.bind_eq_some_iff.mp hout
        cases hr
      · cases hout
    | _ => cases h
  · cases h

/-- `ThreadPoolWait` returns from its second read. -/
theorem step_waitReturned {a : Action} (h : step s a = some (t,.waitReturned c)) :
    s.clients[c]? = some .waitWorking ∧ ¬ s.pool.workingThreads > 0 := by
  cases a with
  | createReturn =>
    rw [step] at h
    split_ifs at h
    cases h
  | worker w wake => exact absurd h workerStep_ne_waitReturned
  | client c' wake =>
    rw [step] at h
    split_ifs at h
    unfold clientStep at h
    split at h
    · obtain ⟨_,_,hr⟩ := Option.bind_eq_some_iff.mp h
      obtain ⟨_,_,hr⟩ := Option.bind_eq_some_iff.mp hr
      cases hr
    · split_ifs at h
      cases h
    · cases h
    · next hc =>
      split_ifs at h with hw
      · cases h
      · cases h
        exact ⟨hc,hw⟩
    · cases h
    · cases h
    · cases h
    · obtain ⟨_,_,hr⟩ := Option.bind_eq_some_iff.mp h
      cases hr
    · cases h
  | callAddTask c' func arg stale mallocSucceeds =>
    simp only [step,callAddTask] at h
    split_ifs at h <;> cases h
  | callWait c' =>
    rw [step] at h
    split_ifs at h
    cases h
  | callDestory c' =>
    rw [step] at h
    split_ifs at h
    cases h
  | spuriousWorker w =>
    rw [step] at h
    split_ifs at h
    cases h
  | spuriousClient c' =>
    rw [step] at h
    split_ifs at h
    cases h

theorem step_waitCalled (h : step s (.callWait c) = some (t,.waitCalled c)) :
    t.clients[c]? ≠ some .waitWorking := by
  rw [step] at h
  split_ifs at h with hc
  cases h
  rw [State.setClient,List.getElem?_set_self (List.getElem?_eq_some_iff.mp hc.2).1]
  simp

end Return

/-- When `ThreadPoolWait` returns, every job added before the call is executed. -/
theorem wait_complete (numThreads : ℕ) (created : ℕ → Bool) (clients c : ℕ)
    (s called waiting returned : State) (before between : List Action) (a : Action)
    (past meanwhile : List Event)
    (hbefore : Machine.run step (threadPoolCreate numThreads created clients) before = some (s,past))
    (hcall : step s (.callWait c) = some (called,.waitCalled c))
    (hbetween : Machine.run step called between = some (waiting,meanwhile))
    (hreturn : step waiting a = some (returned,.waitReturned c)) :
    ∀ p ∈ addedJobs past, p ∈ executedJobs (past++[.waitCalled c]++meanwhile) := by
  have hpast := Machine.run_invariant (fun past s => ∃ rest, Accounts past s rest)
    (fun _ _ _ _ _ hi hs => hi.elim fun _ hacc => hacc.step hs)
    ⟨[],accounts_create numThreads created clients⟩ hbefore
  obtain ⟨rest,hacc⟩ := hpast
  rw [List.nil_append] at hacc
  have hcalled : Tracks c (addedJobs past) (past++[.waitCalled c]) called := by
    refine ⟨hacc.step hcall,?_,fun hc => absurd hc (step_waitCalled hcall)⟩
    rw [(extends_event past _).1]
    exact List.subset_append_left _ _
  obtain ⟨⟨rest',hacc'⟩,_,hread⟩ := Machine.run_invariant (Tracks c (addedJobs past))
    (fun _ _ _ _ _ => Tracks.step) hcalled hbetween
  obtain ⟨hc,hz⟩ := step_waitReturned hreturn
  intro p hp
  exact (hacc'.pulled_executed hz).mem_iff.mp (hread hc hp)

/-- The client finds the queue empty and a worker at work, sleeps, and is woken. -/
theorem wait_complete_test : ∃ s called waiting returned past meanwhile,
    Machine.run step (threadPoolCreate 1 (fun _ => true) 1)
      [.worker 0 none,.createReturn,.callAddTask 0 0 0 none true,.client 0 none] =
        some (s,past) ∧
    step s (.callWait 0) = some (called,.waitCalled 0) ∧
    Machine.run step called [.worker 0 none,.worker 0 none,.worker 0 none,.worker 0 none,
      .worker 0 none,.client 0 none,.client 0 none,.worker 0 none,.client 0 none,.client 0 none,
      .worker 0 (some 0),.client 0 none,.client 0 none] = some (waiting,meanwhile) ∧
    step waiting (.client 0 none) = some (returned,.waitReturned 0) ∧
    addedJobs past = [0] ∧
    ∀ p ∈ addedJobs past, p ∈ executedJobs (past++[.waitCalled 0]++meanwhile) := by
  refine ⟨_,_,_,_,_,_,rfl,rfl,rfl,rfl,rfl,?_⟩
  exact wait_complete 1 (fun _ => true) 1 0 _ _ _ _
    [.worker 0 none,.createReturn,.callAddTask 0 0 0 none true,.client 0 none]
    [.worker 0 none,.worker 0 none,.worker 0 none,.worker 0 none,.worker 0 none,.client 0 none,
      .client 0 none,.worker 0 none,.client 0 none,.client 0 none,.worker 0 (some 0),.client 0 none,
      .client 0 none] (.client 0 none) _ _ rfl rfl rfl rfl

end CStudy.ThreadPool02
