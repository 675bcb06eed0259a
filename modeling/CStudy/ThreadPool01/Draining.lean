import CStudy.ThreadPool01.Custody
import CStudy.Foundation.Progress

/-! The workers of a running pool come to rest, and then every task was executed. `task_list_cond`
loses no wake-up: as long as a task is linked some worker is awake. -/
namespace CStudy.ThreadPool01
open CStudy.Foundation

/-- In the loop of `Worker`, and not past its end. -/
def WorkerPc.inLoop : WorkerPc → Bool
  | .leave => false
  | .leaveSignal => false
  | .done => false
  | .execute none => false
  | _ => true

/-- The steps a worker makes before it sleeps, if it finds no task. -/
def WorkerPc.weight : WorkerPc → ℕ
  | .execute _ => 4
  | .finish => 3
  | .loopTest => 2
  | .acquire => 1
  | _ => 0

/-- Behind `tp->running = false` in `ThreadPoolDestory`. -/
def ClientPc.hasStopped : ClientPc → Bool
  | .wait inDestory => inDestory
  | .blocked inDestory => inDestory
  | .release => true
  | _ => false

def Action.isWorker : Action → Bool
  | .worker _ _ => true
  | _ => false

/-- What the threads of a running pool have in common. -/
structure Fit (s : State) : Prop where
  alive : s.released = false
  clients : ∀ pc ∈ s.clients, pc.hasStopped = false
  workers : ∀ pc ∈ s.workers, pc.inLoop = true
  held : ∀ p ∈ heldTasks s, ∃ c, s.heap.read p = some c
  staffed : s.workers ≠ []
  awake : s.tp.taskList ≠ none → ∃ pc ∈ s.workers, pc.isWaiting = false

/-- The steps of a worker of a running pool. -/
inductive Turned (s : State) (w : ℕ) : State → Event → Prop
  | enter (hw : s.workers[w]? = some .loopTest) : Turned s w (s.setWorker w .acquire) .silent
  | sleep (hw : s.workers[w]? = some .acquire) (hp : s.tp.taskList = none) :
      Turned s w (s.setWorker w .waiting) .silent
  | take {p : Ptr} {c : WorkerTask} (hw : s.workers[w]? = some .acquire)
      (hp : s.tp.taskList = some p) (hc : s.heap.read p = some c) :
      Turned s w ({ s with tp := { s.tp with
        taskList := c.next
        workingCount := s.tp.workingCount+1 } }.setWorker w (.execute (some p))) (.took w p)
  | execute {p : Ptr} (hw : s.workers[w]? = some (.execute (some p))) :
      Turned s w ({ s with heap := s.heap.free p }.setWorker w .finish) (.executed w p)
  | finish {clients : List ClientPc} (hw : s.workers[w]? = some .finish)
      (hclients : ∀ pc ∈ clients, pc.hasStopped = false) :
      Turned s w ({ s with clients := clients, tp := { s.tp with
        workingCount := s.tp.workingCount-1 } }.setWorker w .loopTest) .silent

section Worker
variable {s t : State} {w : ℕ} {wake : Option ℕ} {e : Event}

theorem hasStopped_resume (pc : ClientPc) : pc.resume.hasStopped = pc.hasStopped := by
  cases pc <;> rfl

theorem Fit.inLoop (h : Fit s) {pc : WorkerPc} (hw : s.workers[w]? = some pc) : pc.inLoop = true :=
  h.workers pc (List.mem_of_getElem? hw)

theorem Fit.turned (h : Fit s) (hrun : s.tp.running = true)
    (hs : workerStep s w wake = some (t,e)) : Turned s w t e := by
  unfold workerStep at hs
  split at hs
  · next task hw =>
    cases task with
    | none => cases h.inLoop hw
    | some p =>
      obtain ⟨c,_,hr⟩ := Option.bind_eq_some_iff.mp hs
      cases hr
      exact .execute hw
  · next pc hne hw =>
    rw [h.alive] at hs
    cases pc with
    | loopTest =>
      simp only [Bool.false_eq_true,if_false,hrun,if_true,Option.some.injEq,Prod.mk.injEq] at hs
      obtain ⟨rfl,rfl⟩ := hs
      exact .enter hw
    | acquire =>
      simp only [Bool.false_eq_true,if_false,acquireTask,hrun,Bool.true_and,Bool.not_true] at hs
      split_ifs at hs with hp
      · cases hs
        exact .sleep hw (Option.isNone_iff_eq_none.mp hp)
      · cases hl : s.tp.taskList with
        | none => simp [hl] at hp
        | some p =>
          cases hc : s.heap.read p with
          | none => simp [getWorkerTask,hl,hc] at hs
          | some c =>
            simp only [getWorkerTask,hl,hc] at hs
            cases hs
            exact .take hw hl hc
    | waiting => cases hs
    | execute task => exact (hne task rfl).elim
    | finish =>
      simp only [Bool.false_eq_true,if_false,finishTask] at hs
      split_ifs at hs with hsignal
      · obtain ⟨u,hu,hr⟩ := Option.bind_eq_some_iff.mp hs
        cases hr
        obtain ⟨clients,hc,hr⟩ := Option.bind_eq_some_iff.mp hu
        cases hr
        refine .finish hw (Threads.forall_signal h.clients ?_ hc)
        intro pc hpc
        rw [hasStopped_resume,hpc]
      · cases hs
        exact .finish hw h.clients
    | leave => cases h.inLoop hw
    | leaveSignal => cases h.inLoop hw
    | done => cases h.inLoop hw
  · cases hs

end Worker

/-- The steps the workers can still make. -/
def load (s : State) : ℕ := (s.workers.map WorkerPc.weight).sum+4*(listedTasks s).length

section Run
variable {past : List Event} {s t : State} {w c : ℕ} {wake : Option ℕ} {e : Event} {a : Action}
  {rest : List Ptr}

theorem Accounts.listedTasks_eq (h : Accounts past s rest) (hrun : s.tp.running = true) :
    listedTasks s = rest := (h.chain hrun).walk_eq (h.chain hrun).length_le_top

/-- A task that is taken brings the steps of its execution from the list to the worker. -/
theorem Turned.load_lt (h : Turned s w t e) (hacc : Accounts past s rest)
    (hrun : s.tp.running = true) : load t < load s := by
  cases h with
  | enter hw =>
    have hsum := Threads.sum_set (y := .acquire) WorkerPc.weight hw
    simp only [load,State.setWorker,listedTasks,WorkerPc.weight] at hsum ⊢
    omega
  | sleep hw _ =>
    have hsum := Threads.sum_set (y := .waiting) WorkerPc.weight hw
    simp only [load,State.setWorker,listedTasks,WorkerPc.weight] at hsum ⊢
    omega
  | @take p c hw hp hc =>
    obtain ⟨rest',rfl,hacc'⟩ := hacc.take hw hrun hp hc
    have hsum := Threads.sum_set (y := .execute (some p)) WorkerPc.weight hw
    rw [load,load,hacc.listedTasks_eq hrun,hacc'.listedTasks_eq hrun,State.setWorker,List.length_cons]
    simp only [WorkerPc.weight] at hsum ⊢
    omega
  | execute hw =>
    have hacc' := hacc.execute hw
    have hsum := Threads.sum_set (y := .finish) WorkerPc.weight hw
    rw [load,load,hacc.listedTasks_eq hrun,hacc'.listedTasks_eq hrun,State.setWorker]
    simp only [WorkerPc.weight] at hsum ⊢
    omega
  | finish hw _ =>
    have hsum := Threads.sum_set (y := .loopTest) WorkerPc.weight hw
    simp only [load,State.setWorker,listedTasks,WorkerPc.weight] at hsum ⊢
    omega

theorem Turned.running (h : Turned s w t e) : t.tp.running = s.tp.running := by cases h <;> rfl

theorem Turned.addedTasks (h : Turned s w t e) : ThreadPool01.addedTasks [e] = [] := by
  cases h <;> rfl

/-- A worker is set to a position at which it holds nothing new. -/
theorem held_setWorker {pc : WorkerPc} {p : Ptr} (ht : pc.task? = none)
    (hp : p ∈ heldTasks (s.setWorker w pc)) : p ∈ heldTasks s := by
  obtain ⟨x,hx,hxp⟩ := List.mem_filterMap.mp hp
  rcases List.mem_or_eq_of_mem_set hx with hx | rfl
  · exact List.mem_filterMap.mpr ⟨x,hx,hxp⟩
  · cases ht.symm.trans hxp

theorem Turned.fit (h : Turned s w t e) (hf : Fit s) (hacc : Accounts past s rest) : Fit t := by
  cases h with
  | enter hw =>
    refine ⟨hf.alive,hf.clients,Threads.forall_set hf.workers rfl,fun p hp => ?_,?_,fun _ => ?_⟩
    · exact hf.held p (held_setWorker rfl hp)
    · simp [State.setWorker,hf.staffed]
    · exact ⟨.acquire,Threads.mem_set_self hw,rfl⟩
  | sleep hw htasks =>
    refine ⟨hf.alive,hf.clients,Threads.forall_set hf.workers rfl,fun p hp => ?_,?_,fun h => ?_⟩
    · exact hf.held p (held_setWorker rfl hp)
    · simp [State.setWorker,hf.staffed]
    · exact absurd htasks h
  | @take p c hw hp hc =>
    refine ⟨hf.alive,hf.clients,Threads.forall_set hf.workers rfl,fun q hq => ?_,?_,fun _ => ?_⟩
    · obtain ⟨x,hx,hxq⟩ := List.mem_filterMap.mp hq
      rcases List.mem_or_eq_of_mem_set hx with hx | rfl
      · exact hf.held q (List.mem_filterMap.mpr ⟨x,hx,hxq⟩)
      · cases hxq
        exact ⟨c,hc⟩
    · simp [State.setWorker,hf.staffed]
    · exact ⟨.execute (some p),Threads.mem_set_self hw,rfl⟩
  | @execute p hw =>
    have hperm : (p::(s.workers.set w .finish).filterMap WorkerPc.task?).Perm
        (s.workers.filterMap WorkerPc.task?) := Threads.filterMap_set_perm WorkerPc.task? hw
    have hnodup : (s.workers.filterMap WorkerPc.task?).Nodup :=
      (List.nodup_append.mp (hacc.flow.accounted.nodup_iff.mp
        (List.nodup_append.mp hacc.flow.nodup).1)).2.1
    refine ⟨hf.alive,hf.clients,Threads.forall_set hf.workers rfl,fun q hq => ?_,?_,fun _ => ?_⟩
    · obtain ⟨d,hd⟩ := hf.held q (hperm.mem_iff.mp (List.mem_cons_of_mem p hq))
      have hqp : q ≠ p := by
        rintro rfl
        exact (List.nodup_cons.mp (hperm.nodup_iff.mpr hnodup)).1 hq
      exact ⟨d,(Heap.read_free_of_ne hqp).trans hd⟩
    · simp [State.setWorker,hf.staffed]
    · exact ⟨.finish,Threads.mem_set_self hw,rfl⟩
  | finish hw hclients =>
    refine ⟨hf.alive,hclients,Threads.forall_set hf.workers rfl,fun p hp => ?_,?_,fun _ => ?_⟩
    · exact hf.held p (held_setWorker (s := s) rfl hp)
    · simp [State.setWorker,hf.staffed]
    · exact ⟨.loopTest,Threads.mem_set_self hw,rfl⟩

/-- While a task is linked or a worker is awake, some worker has a next step. -/
theorem Fit.exists_step (hf : Fit s) (hrun : s.tp.running = true) (hacc : Accounts past s rest)
    (hawake : ∃ pc ∈ s.workers, pc.isWaiting = false) :
    ∃ w wake, workerStep s w wake ≠ none := by
  obtain ⟨pc,hpc,hb⟩ := hawake
  obtain ⟨w,hw⟩ := List.mem_iff_getElem?.mp hpc
  have hin := hf.workers pc hpc
  cases pc with
  | loopTest => exact ⟨w,none,by simp [workerStep,hw,hf.alive]⟩
  | acquire =>
    refine ⟨w,none,?_⟩
    cases htasks : s.tp.taskList with
    | none => simp [workerStep,hw,hf.alive,acquireTask,hrun,htasks]
    | some p =>
      have hchain := hacc.chain hrun
      rw [htasks] at hchain
      cases rest with
      | nil => cases hchain
      | cons q rest =>
        obtain ⟨hq,d,hd,_⟩ := hchain
        cases hq
        simp [workerStep,hw,hf.alive,acquireTask,hrun,htasks,getWorkerTask,hd]
  | waiting => cases hb
  | execute task =>
    cases task with
    | none => cases hin
    | some p =>
      obtain ⟨d,hd⟩ := hf.held p (List.mem_filterMap.mpr ⟨_,hpc,rfl⟩)
      exact ⟨w,none,by simp [workerStep,hw,executeTask,hd]⟩
  | finish =>
    obtain ⟨choice,us,hus⟩ := Threads.exists_signal ClientPc.isBlocked ClientPc.resume s.clients
    refine ⟨w,choice,?_⟩
    simp only [workerStep,hw,hf.alive,finishTask,signalFinish,hus,Bool.false_eq_true,if_false]
    split_ifs <;> simp
  | leave => cases hin
  | leaveSignal => cases hin
  | done => cases hin

/-- A pool that was stopped is not started again. -/
theorem running_of_step (hs : step s a = some (t,e)) (hrun : t.tp.running = true) :
    s.tp.running = true := by
  cases step_moves hs with
  | quiet hv _ => rwa [← hv.running]
  | prepare _ _ _ => exact hrun
  | link _ ha hv =>
    rw [← (Accounts.appendTask_frame ha).2.2.2.2]
    rwa [hv.running] at hrun
  | take _ hr _ _ => exact hr
  | execute _ => exact hrun
  | finish _ hv => rwa [hv.running] at hrun
  | stop _ hv =>
    rw [hv.running] at hrun
    cases hrun

/-- A step that sets one client to a position in which nothing was stopped. -/
theorem Fit.setClient {pc : ClientPc} (hf : Fit s) (hpc : pc.hasStopped = false) :
    Fit (s.setClient c pc) :=
  ⟨hf.alive,Threads.forall_set hf.clients hpc,hf.workers,hf.held,hf.staffed,hf.awake⟩

/-- The new task wakes a worker if all of them sleep. -/
theorem Fit.link {p : Ptr} {u : State} (hf : Fit s) (hrun : s.tp.running = true)
    (hacc : Accounts past s rest) (hc : s.clients[c]? = some (.addTask p))
    (ha : appendTask s p = some u) (hs : signalTaskList u wake = some t) :
    Fit (t.setClient c .idle) := by
  obtain ⟨hworkers,hclients,_,_,_⟩ := Accounts.appendTask_frame ha
  have hreleased : u.released = s.released := by
    unfold appendTask at ha
    obtain ⟨⟨prev,item⟩,_,ha⟩ := Option.bind_eq_some_iff.mp ha
    cases prev with
    | none => cases ha; rfl
    | some q =>
      obtain ⟨heap,_,ha⟩ := Option.bind_eq_some_iff.mp ha
      cases ha
      rfl
  have hpend : p ∈ s.clients.filterMap ClientPc.task? :=
    List.mem_filterMap.mpr ⟨_,List.mem_of_getElem? hc,rfl⟩
  obtain ⟨d,hd,hn⟩ := hacc.pending hrun p hpend
  obtain ⟨_,hframe⟩ := Accounts.appendTask_chain (hacc.chain hrun) hd hn
    (hacc.flow.pending_notMem_queue hpend) ha
  have hview := sameView_signalTaskList hs
  obtain ⟨workers,hw,hr⟩ := Option.bind_eq_some_iff.mp hs
  cases hr
  have hlen := Threads.length_signal hw
  rw [hworkers] at hw hlen
  refine Fit.setClient ⟨hreleased.trans hf.alive,?_,?_,?_,?_,fun _ => ?_⟩ rfl
  · dsimp only
    rw [hclients]
    exact hf.clients
  · exact Threads.forall_signal hf.workers (fun _ _ => rfl) hw
  · intro q hq
    have htasks := Threads.filterMap_eq_of_map hview.tasks
    rw [hworkers] at htasks
    have hq' : q ∈ s.workers.filterMap WorkerPc.task? := htasks ▸ hq
    obtain ⟨d',hd'⟩ := hf.held q hq'
    exact ⟨d',(hframe q (hacc.flow.held_notMem_queue hq')).trans hd'⟩
  · rw [← List.length_pos_iff] at *
    exact hlen ▸ List.length_pos_iff.mpr hf.staffed
  · exact Threads.exists_awake_signal (fun _ _ => rfl) hf.staffed hw

theorem Fit.step (hf : Fit s) (hacc : Accounts past s rest)
    (hs : ThreadPool01.step s a = some (t,e)) (hrun : t.tp.running = true) : Fit t := by
  have hrun' := running_of_step hs hrun
  cases a with
  | worker w wake => exact (hf.turned hrun' hs).fit hf hacc
  | client c wake =>
    rw [ThreadPool01.step,hf.alive,if_neg Bool.false_ne_true] at hs
    unfold clientStep at hs
    split at hs
    · next task hc =>
      obtain ⟨u,hu,hr⟩ := Option.bind_eq_some_iff.mp hs
      obtain ⟨v,hv,hr⟩ := Option.bind_eq_some_iff.mp hr
      cases hr
      exact hf.link hrun' hacc hc hu hv
    · next inDestory hc =>
      have hstopped : inDestory = false := hf.clients _ (List.mem_of_getElem? hc)
      subst hstopped
      simp only [Bool.false_eq_true,if_false] at hs
      split_ifs at hs
      · cases hs
        exact hf.setClient rfl
      · cases hs
        exact hf.setClient rfl
    · obtain ⟨heap,_,hr⟩ := Option.bind_eq_some_iff.mp hs
      cases hr
      cases hrun
    · next hc => cases hf.clients _ (List.mem_of_getElem? hc)
    · cases hs
  | callAddTask c func arg mallocSucceeds =>
    rw [ThreadPool01.step] at hs
    split_ifs at hs
    unfold callAddTask at hs
    split_ifs at hs
    · cases hs
      refine Fit.setClient ⟨hf.alive,hf.clients,hf.workers,fun p hp => ?_,hf.staffed,hf.awake⟩ rfl
      obtain ⟨d,hd⟩ := hf.held p hp
      exact ⟨d,(Heap.read_alloc_of_ne (Heap.lt_top hd).ne).trans hd⟩
    · cases hs
      exact hf
  | callWait c =>
    rw [ThreadPool01.step] at hs
    split_ifs at hs
    cases hs
    exact hf.setClient rfl
  | callDestory c =>
    rw [ThreadPool01.step] at hs
    split_ifs at hs
    cases hs
    exact hf.setClient rfl
  | spuriousWorker w =>
    rw [ThreadPool01.step] at hs
    split_ifs at hs with hw
    cases hs
    refine ⟨hf.alive,hf.clients,Threads.forall_set hf.workers rfl,fun p hp => ?_,?_,fun _ => ?_⟩
    · exact hf.held p (held_setWorker rfl hp)
    · simp [State.setWorker,hf.staffed]
    · exact ⟨.acquire,Threads.mem_set_self hw,rfl⟩
  | spuriousClient c =>
    rw [ThreadPool01.step] at hs
    split at hs
    · next inDestory hc =>
      cases hs
      have hstopped : inDestory = false := hf.clients _ (List.mem_of_getElem? hc)
      exact hf.setClient hstopped
    · cases hs

end Run

theorem fit_create {num : UInt64} {created : ℕ → Bool} {clients : ℕ} {s : State}
    (h : threadPoolCreate num created clients = some s)
    (hsome : ∃ i, i < num.toNat ∧ created i = true) : Fit s := by
  unfold threadPoolCreate at h
  split_ifs at h
  cases h
  refine ⟨rfl,?_,?_,?_,?_,fun h => absurd rfl h⟩
  · intro pc hpc
    rw [List.eq_of_mem_replicate hpc]
    rfl
  · intro pc hpc
    obtain ⟨_,_,rfl⟩ := List.mem_map.mp hpc
    rfl
  · intro p hp
    obtain ⟨pc,hpc,hp⟩ := List.mem_filterMap.mp hp
    obtain ⟨_,_,rfl⟩ := List.mem_map.mp hpc
    cases hp
  · obtain ⟨i,hi,hcreated⟩ := hsome
    intro hnil
    have hmem : i ∈ (List.range num.toNat).filter created :=
      List.mem_filter.mpr ⟨List.mem_range.mpr hi,hcreated⟩
    rw [List.map_eq_nil_iff.mp hnil] at hmem
    cases hmem

/-- A running pool with the account of its tasks. -/
def Serving (s : State) : Prop :=
  s.tp.running = true ∧ Fit s ∧ ∃ past rest, Accounts past s rest

theorem serving_lowers :
    Machine.Lowers step Serving (fun a => a.isWorker = true) load := by
  rintro s a t e ⟨hrun,hfit,past,rest,hacc⟩ ha hs
  cases a with
  | worker w wake =>
    have hturn := hfit.turned hrun hs
    obtain ⟨rest',hacc'⟩ := hacc.step hs
    exact ⟨⟨hturn.running.trans hrun,hturn.fit hfit hacc,_,rest',hacc'⟩,hturn.load_lt hacc hrun⟩
  | client c wake => cases ha
  | callAddTask c func arg mallocSucceeds => cases ha
  | callWait c => cases ha
  | callDestory c => cases ha
  | spuriousWorker w => cases ha
  | spuriousClient c => cases ha

theorem weight_le (s : State) : (s.workers.map WorkerPc.weight).sum ≤ 4*s.workers.length := by
  have h := List.sum_le_card_nsmul (s.workers.map WorkerPc.weight) 4 fun x hx => by
    obtain ⟨pc,_,rfl⟩ := List.mem_map.mp hx
    cases pc <;> simp [WorkerPc.weight]
  rw [List.length_map,smul_eq_mul,Nat.mul_comm] at h
  exact h

section Rest
variable {past events : List Event} {s t : State} {more : List Action} {rest : List Ptr}

theorem addedTasks_workers (hs : Serving s) (hmore : ∀ a ∈ more, a.isWorker = true)
    (hrun : Machine.run step s more = some (t,events)) : addedTasks events = [] := by
  induction more generalizing s events with
  | nil =>
    cases hrun
    rfl
  | cons a more ih =>
    obtain ⟨u,e,os,hstep,hrest,rfl⟩ := Machine.run_cons_eq_some.mp hrun
    have ha := hmore a List.mem_cons_self
    have hu := (serving_lowers s a u e hs ha hstep).1
    have hos := ih hu (fun b hb => hmore b (List.mem_cons_of_mem a hb)) hrest
    cases a with
    | worker w wake =>
      have he := (hs.2.1.turned hs.1 hstep).addedTasks
      rw [← List.singleton_append]
      exact (List.filterMap_append).trans (by rw [← addedTasks,← addedTasks,he,hos]; rfl)
    | client c wake => cases ha
    | callAddTask c func arg mallocSucceeds => cases ha
    | callWait c => cases ha
    | callDestory c => cases ha
    | spuriousWorker w => cases ha
    | spuriousClient c => cases ha

/-- Workers with no next step all sleep, and nothing is left to do. -/
theorem Serving.drained (hs : Serving s) (hacc : Accounts past s rest)
    (hend : Machine.Resting step (fun a => a.isWorker = true) s) :
    (executedTasks past).Perm (addedTasks past) ∧ listedTasks s = [] ∧ s.tp.workingCount = 0 ∧
      ∀ pc ∈ s.workers, pc = .waiting := by
  obtain ⟨hrun,hfit,_⟩ := hs
  have hall : ∀ pc ∈ s.workers, pc = .waiting := by
    intro pc hpc
    by_contra hne
    have hb : pc.isWaiting = false := by
      rw [← isWaiting_iff] at hne
      simpa using hne
    obtain ⟨w,wake,hstep⟩ := hfit.exists_step hrun hacc ⟨pc,hpc,hb⟩
    exact hstep (hend (.worker w wake) rfl)
  have hnone : s.tp.taskList = none := by
    by_contra hne
    obtain ⟨pc,hpc,hb⟩ := hfit.awake hne
    rw [hall pc hpc] at hb
    cases hb
  have hrest : rest = [] := by
    have hchain := hacc.chain hrun
    rw [hnone] at hchain
    cases rest with
    | nil => rfl
    | cons p rest => cases hchain.1
  have hheld : s.workers.filterMap WorkerPc.task? = [] :=
    Threads.filterMap_eq_nil_of_forall_eq hall rfl
  have hbusy : s.workers.countP WorkerPc.isBusy = 0 :=
    Threads.countP_eq_zero_of_forall_eq hall rfl
  refine ⟨?_,(hacc.listedTasks_eq hrun).trans hrest,?_,hall⟩
  · have hacc' := hacc.flow.accounted
    rw [hheld,List.append_nil] at hacc'
    rw [hacc.flow.order,hrest,List.append_nil]
    exact hacc'.symm
  · apply UInt64.toNat_inj.mp
    rw [hacc.working,hbusy]
    rfl

end Rest

/-- From every state that a running pool with a worker can reach, the workers alone come to rest
after at most four steps for each of them and each linked task, however they are scheduled; and at
rest every task that was added has been executed. -/
theorem workers_drain (num : UInt64) (created : ℕ → Bool) (clients : ℕ) (new s : State)
    (actions : List Action) (past : List Event)
    (hnew : threadPoolCreate num created clients = some new)
    (hsome : ∃ i, i < num.toNat ∧ created i = true)
    (hpast : Machine.run step new actions = some (s,past)) (hrun : s.tp.running = true) :
    (∀ more t events, (∀ a ∈ more, a.isWorker = true) → Machine.run step s more = some (t,events) →
      more.length ≤ 4*s.workers.length+4*(listedTasks s).length ∧
        (Machine.Resting step (fun a => a.isWorker = true) t →
          (executedTasks (past++events)).Perm (addedTasks past) ∧ listedTasks t = [] ∧
            t.tp.workingCount = 0 ∧ ∀ pc ∈ t.workers, pc = .waiting)) ∧
      ∃ more t events, (∀ a ∈ more, a.isWorker = true) ∧
        Machine.run step s more = some (t,events) ∧
        Machine.Resting step (fun a => a.isWorker = true) t := by
  have hinv := Machine.run_invariant
    (fun past s => (∃ rest, Accounts past s rest) ∧ (s.tp.running = true → Fit s))
    (fun _ _ _ _ _ hi hs => hi.1.elim fun _ hacc => ⟨hacc.step hs,fun hr =>
      (hi.2 (running_of_step hs hr)).step hacc hs hr⟩)
    ⟨⟨[],accounts_create hnew⟩,fun _ => fit_create hnew hsome⟩ hpast
  rw [List.nil_append] at hinv
  obtain ⟨⟨rest,hacc⟩,hfit⟩ := hinv
  have hserving : Serving s := ⟨hrun,hfit hrun,past,rest,hacc⟩
  refine ⟨?_,serving_lowers.exists_resting hserving⟩
  intro more t events hmore hmoreRun
  obtain ⟨ht,hle⟩ := serving_lowers.run hserving hmore hmoreRun
  refine ⟨?_,fun hend => ?_⟩
  · have hweight := weight_le s
    rw [load,load] at hle
    omega
  · have hwhole := Machine.run_append.mpr ⟨s,past,events,hpast,hmoreRun,rfl⟩
    obtain ⟨rest',hacc'⟩ := accounts_run hnew hwhole
    have hadded : addedTasks (past++events) = addedTasks past := by
      rw [addedTasks,List.filterMap_append,← addedTasks,← addedTasks,
        addedTasks_workers hserving hmore hmoreRun,List.append_nil]
    rw [← hadded]
    exact ht.drained hacc' hend

/-- Two tasks wait for one worker, which was asleep when they were added. -/
theorem workers_drain_test : ∃ new s past, threadPoolCreate 1 (fun _ => true) 1 = some new ∧
    (∃ i, i < (1 : UInt64).toNat ∧ true = true) ∧
    Machine.run step new [.worker 0 none,.worker 0 none,.callAddTask 0 0 0 true,.client 0 (some 0),
      .callAddTask 0 0 0 true,.client 0 none] = some (s,past) ∧ s.tp.running = true ∧
    (listedTasks s).length = 2 ∧
    ∃ more t events, (∀ a ∈ more, a.isWorker = true) ∧
      Machine.run step s more = some (t,events) ∧
      Machine.Resting step (fun a => a.isWorker = true) t :=
  ⟨_,_,_,rfl,⟨0,by decide,rfl⟩,rfl,rfl,rfl,(workers_drain 1 (fun _ => true) 1 _ _
    [.worker 0 none,.worker 0 none,.callAddTask 0 0 0 true,.client 0 (some 0),
      .callAddTask 0 0 0 true,.client 0 none] _ rfl ⟨0,by decide,rfl⟩ rfl rfl).2⟩

end CStudy.ThreadPool01
