import CStudy.ThreadPool01.Tasks

/-! Where a task is at any moment. `ThreadPoolDestory` frees the list and leaves `task_list` as it
is: from then on the list is a dangling pointer, and whoever would follow it has no next step. Until
then the tasks that were added and not taken are exactly the linked ones. -/
namespace CStudy.ThreadPool01
open CStudy.Foundation

/-- The tasks linked in `task_list`, in this order. Freed memory holds no tasks. -/
def listedTasks (s : State) : List Ptr := s.heap.walk WorkerTask.next s.heap.top s.tp.taskList

/-- The task of each worker that holds one. -/
def heldTasks (s : State) : List Ptr := s.workers.filterMap WorkerPc.task?

/-- The tasks freed by calls of `ThreadPoolDestory`. -/
def discardedTasks (past : List Event) : List Ptr := (discardedLists past).flatten

/-- The tasks `rest`, added and not taken, are all linked, or they have all been discarded. -/
inductive Custody (past : List Event) (s : State) (rest : List Ptr) : Prop
  | linked (none_discarded : discardedTasks past = [])
      (chain : s.heap.Chain WorkerTask.next s.tp.taskList rest)
      (pending : ∀ p ∈ s.clients.filterMap ClientPc.task?,
        ∃ c, s.heap.read p = some c ∧ c.next = none)
  | freed {p : Ptr} (stopped : s.tp.running = false) (head : s.tp.taskList = some p)
      (below : p < s.heap.top) (dangling : s.heap.read p = none)
      (all_discarded : discardedTasks past = rest)

section Free
variable {fuel : ℕ} {heap heap' : Heap WorkerTask} {a : Option Ptr} {p : Ptr}

theorem freeTasks_read_none (h : freeTasks fuel heap a = some heap') (hp : heap.read p = none) :
    heap'.read p = none := by
  induction fuel generalizing heap a with
  | zero =>
    cases a with
    | none => cases h; exact hp
    | some q => cases h
  | succ fuel ih =>
    cases a with
    | none => cases h; exact hp
    | some q =>
      rw [freeTasks] at h
      split at h
      · cases h
      · refine ih h ?_
        by_cases hpq : p = q
        · exact if_pos hpq
        · rw [Heap.read_free_of_ne hpq,hp]

/-- The first task of the list is freed, and a freed one cannot be freed again. -/
theorem freeTasks_head (h : freeTasks fuel heap (some p) = some heap') :
    (∃ c, heap.read p = some c) ∧ heap'.read p = none := by
  cases fuel with
  | zero => cases h
  | succ fuel =>
    rw [freeTasks] at h
    split at h
    · cases h
    · next c hc => exact ⟨⟨c,hc⟩,freeTasks_read_none h (if_pos rfl)⟩

end Free

theorem discardedTasks_concat (past : List Event) (e : Event) :
    discardedTasks (past++[e]) = discardedTasks past++discardedTasks [e] := by
  rw [discardedTasks,(extends_event past e).2.2.2,List.flatten_append]
  rfl

namespace Custody
variable {past : List Event} {s t : State} {w c : ℕ} {p : Ptr} {e : Event} {rest : List Ptr}

theorem of_sameView (h : Custody past s rest) (hv : SameView s t) : Custody past t rest := by
  have hpend := Threads.filterMap_eq_of_map hv.pending
  cases h with
  | linked hd hl hp =>
    refine .linked hd ?_ ?_
    · rw [hv.heap,hv.taskList]
      exact hl
    · rw [hpend,hv.heap]
      exact hp
  | freed hs hh hb hr hd =>
    refine .freed (hv.running.trans hs) (hv.taskList.trans hh) ?_ ?_ hd
    · rw [hv.heap]
      exact hb
    · rw [hv.heap]
      exact hr

/-- An event that discards nothing. -/
theorem silent (h : Custody past s rest) (he : discardedLists [e] = []) :
    Custody (past++[e]) s rest := by
  have hd : discardedTasks (past++[e]) = discardedTasks past := by
    rw [discardedTasks_concat,discardedTasks,discardedTasks,he,List.flatten_nil,List.append_nil]
  cases h with
  | linked hnone hl hp => exact .linked (hd.trans hnone) hl hp
  | freed hs hh hb hr hall => exact .freed hs hh hb hr (hd.trans hall)

theorem prepare (h : Custody past s rest) (hacc : Accounts past s rest)
    (hc : s.clients[c]? = some .idle) (func arg : Ptr) :
    Custody past ({ s with heap := s.heap.alloc ⟨func,arg,none⟩ }.setClient c
      (.addTask s.heap.top)) rest := by
  have hperm : ((s.clients.set c (.addTask s.heap.top)).filterMap ClientPc.task?).Perm
      (s.heap.top::s.clients.filterMap ClientPc.task?) :=
    Threads.filterMap_set_perm ClientPc.task? hc
  cases h with
  | linked hd hl hp =>
    refine .linked hd (hl.alloc _) ?_
    intro q hq
    rcases List.mem_cons.mp (hperm.mem_iff.mp hq) with rfl | hq
    · exact ⟨_,Heap.read_alloc_top _ _,rfl⟩
    · have hlt := hacc.flow.below q (List.mem_append_right _ hq)
      obtain ⟨d,hd',hn⟩ := hp q hq
      exact ⟨d,(Heap.read_alloc_of_ne hlt.ne).trans hd',hn⟩
  | freed hs hh hb hr hd =>
    exact .freed hs hh (Nat.lt_succ_of_lt hb) ((Heap.read_alloc_of_ne hb.ne).trans hr) hd

/-- A task is linked behind a list that exists; the walk along a freed list has no end. -/
theorem link (h : Custody past s rest) (hacc : Accounts past s rest)
    (hc : s.clients[c]? = some (.addTask p)) (ha : appendTask s p = some t) :
    Custody past (t.setClient c .idle) (rest++[p]) := by
  obtain ⟨_,hclients,_,_,_⟩ := Accounts.appendTask_frame ha
  have hperm : (p::(s.clients.set c .idle).filterMap ClientPc.task?).Perm
      (s.clients.filterMap ClientPc.task?) := Threads.filterMap_set_perm ClientPc.task? hc
  have hpend : p ∈ s.clients.filterMap ClientPc.task? := hperm.mem_iff.mp List.mem_cons_self
  cases h with
  | linked hd hl hp =>
    obtain ⟨d,hread,hn⟩ := hp p hpend
    obtain ⟨hchain,hframe⟩ :=
      Accounts.appendTask_chain hl hread hn (hacc.flow.pending_notMem_queue hpend) ha
    refine .linked hd hchain ?_
    intro q hq
    rw [State.setClient,hclients] at hq
    have hq' := hperm.mem_iff.mp (List.mem_cons_of_mem p hq)
    obtain ⟨d',hd',hn'⟩ := hp q hq'
    exact ⟨d',(hframe q (hacc.flow.pending_notMem_queue hq')).trans hd',hn'⟩
  | freed hs hh hb hr hd =>
    unfold appendTask at ha
    rw [hh] at ha
    cases hfuel : s.heap.top with
    | zero => simp [hfuel,Heap.search] at ha
    | succ fuel => simp [hfuel,Heap.search,hr] at ha

theorem take {d : WorkerTask} {rest' : List Ptr} (h : Custody past s (p::rest'))
    (hrun : s.tp.running = true) (hd : s.heap.read p = some d) :
    Custody past ({ s with tp := { s.tp with
      taskList := d.next
      workingCount := s.tp.workingCount+1 } }.setWorker w (.execute (some p))) rest' := by
  cases h with
  | linked hnone hl hp => exact .linked hnone (hl.of_cons hd) hp
  | freed hs hh hb hr hall => cases hs.symm.trans hrun

theorem execute (h : Custody past s rest) (hacc : Accounts past s rest)
    (hw : s.workers[w]? = some (.execute (some p))) :
    Custody past ({ s with heap := s.heap.free p }.setWorker w .finish) rest := by
  have hheld : p ∈ s.workers.filterMap WorkerPc.task? :=
    List.mem_filterMap.mpr ⟨_,List.mem_of_getElem? hw,rfl⟩
  cases h with
  | linked hd hl hp =>
    refine .linked hd (hl.free (hacc.flow.held_notMem_queue hheld)) ?_
    intro q hq
    obtain ⟨d,hd',hn⟩ := hp q hq
    have hqp : q ≠ p := ne_of_mem_of_not_mem hq (hacc.flow.held_notMem_pending hheld)
    exact ⟨d,(Heap.read_free_of_ne hqp).trans hd',hn⟩
  | freed hs hh hb hr hd =>
    refine .freed hs hh hb ?_ hd
    dsimp only [State.setWorker,Heap.free]
    split_ifs
    · rfl
    · exact hr

theorem finish (h : Custody past s rest) : Custody past ({ s with tp := { s.tp with
    workingCount := s.tp.workingCount-1 } }.setWorker w .loopTest) rest := by
  cases h with
  | linked hd hl hp => exact .linked hd hl hp
  | freed hs hh hb hr hd => exact .freed hs hh hb hr hd

theorem stop {heap : Heap WorkerTask} (h : Custody past s rest)
    (hh : freeTasks s.heap.top s.heap s.tp.taskList = some heap) :
    Custody (past++[.discarded (s.heap.walk WorkerTask.next s.heap.top s.tp.taskList)])
      { s with heap := heap, tp := { s.tp with running := false } } rest := by
  cases h with
  | linked hd hl hp =>
    have hdisc : discardedTasks (past++[.discarded
        (s.heap.walk WorkerTask.next s.heap.top s.tp.taskList)]) = rest := by
      rw [discardedTasks_concat,hd,List.nil_append,hl.walk_eq hl.length_le_top]
      exact List.append_nil rest
    cases rest with
    | nil =>
      rw [show s.tp.taskList = none from hl] at hh
      have hsame : heap = s.heap := by
        cases hfuel : s.heap.top with
        | zero => rw [hfuel] at hh; exact (Option.some.inj hh).symm
        | succ fuel => rw [hfuel] at hh; exact (Option.some.inj hh).symm
      subst hsame
      exact .linked hdisc hl hp
    | cons p l =>
      have hhead := hl.1
      rw [hhead] at hh
      obtain ⟨⟨d,hd'⟩,hnone⟩ := freeTasks_head hh
      refine .freed rfl hhead ?_ hnone hdisc
      rw [Accounts.freeTasks_top hh]
      exact Heap.lt_top hd'
  | freed hs hhead hb hr hd =>
    rw [hhead] at hh
    obtain ⟨⟨d,hd'⟩,_⟩ := freeTasks_head hh
    cases hr.symm.trans hd'

/-- Every step keeps the account and says where the tasks of the list are. -/
theorem step {a : Action} (h : Custody past s rest) (hacc : Accounts past s rest)
    (hs : ThreadPool01.step s a = some (t,e)) :
    ∃ rest', Accounts (past++[e]) t rest' ∧ Custody (past++[e]) t rest' := by
  cases step_moves hs with
  | quiet hv he => exact ⟨rest,(hacc.of_sameView hv).quiet he,(h.of_sameView hv).silent he.2.2.2⟩
  | prepare hc func arg =>
    exact ⟨rest,(hacc.prepare hc func arg).quiet quiet_silent,(h.prepare hacc hc func arg).silent rfl⟩
  | link hc ha hv =>
    exact ⟨_,(hacc.link hc ha).of_sameView hv,((h.link hacc hc ha).of_sameView hv).silent rfl⟩
  | take hw hrun hp hd =>
    obtain ⟨rest',rfl,hacc'⟩ := hacc.take hw hrun hp hd
    exact ⟨rest',hacc',(h.take hrun hd).silent rfl⟩
  | execute hw => exact ⟨rest,hacc.execute hw,(h.execute hacc hw).silent rfl⟩
  | finish hw hv =>
    exact ⟨rest,((hacc.finish hw).of_sameView hv).quiet quiet_silent,
      (h.finish.of_sameView hv).silent rfl⟩
  | stop hh hv => exact ⟨rest,(hacc.stop hh).of_sameView hv,(h.stop hh).of_sameView hv⟩

/-- Each task of the account is in one place. -/
theorem count_eq_one (h : Custody past s rest) (hacc : Accounts past s rest)
    (hp : p ∈ addedTasks past) :
    (listedTasks s).count p+(heldTasks s).count p+(executedTasks past).count p+
      (discardedTasks past).count p = 1 := by
  have hone : (addedTasks past).count p = 1 := by
    rw [hacc.flow.order] at hp ⊢
    exact List.count_eq_one_of_mem hacc.flow.nodup hp
  rw [hacc.flow.order,List.count_append,hacc.flow.accounted.count_eq,List.count_append] at hone
  cases h with
  | linked hd hl _ =>
    rw [listedTasks,heldTasks,hl.walk_eq hl.length_le_top,hd,List.count_nil]
    omega
  | freed _ hh _ hr hd =>
    have hnone : listedTasks s = [] := by
      rw [listedTasks,hh]
      cases s.heap.top with
      | zero => rfl
      | succ fuel => simp [Heap.walk,hr]
    rw [hnone,heldTasks,hd,List.count_nil]
    omega

theorem leave_in_order (h : Custody past s rest) (hacc : Accounts past s rest) :
    takenTasks past++discardedTasks past <+: addedTasks past := by
  rw [hacc.flow.order]
  cases h with
  | linked hd _ _ =>
    rw [hd,List.append_nil]
    exact List.prefix_append _ _
  | freed _ _ _ _ hd => rw [hd]

end Custody

theorem custody_create {num : UInt64} {created : ℕ → Bool} {clients : ℕ} {s : State}
    (h : threadPoolCreate num created clients = some s) : Custody [] s [] := by
  have hacc := accounts_create h
  unfold threadPoolCreate at h
  split_ifs at h
  cases h
  exact .linked rfl rfl (hacc.pending rfl)

/-- At every moment of every run each added task is in one place: linked, held by one worker,
executed or discarded. Tasks leave the list in the order they came, and a discarded task is not
executed. `working_count` is the number of workers between its increment and its decrement. -/
theorem task_in_one_place (num : UInt64) (created : ℕ → Bool) (clients : ℕ) (new s : State)
    (actions : List Action) (past : List Event)
    (hnew : threadPoolCreate num created clients = some new)
    (hrun : Machine.run step new actions = some (s,past)) :
    (∀ p ∈ addedTasks past, (listedTasks s).count p+(heldTasks s).count p+
        (executedTasks past).count p+(discardedTasks past).count p = 1) ∧
      takenTasks past++discardedTasks past <+: addedTasks past ∧
      (∀ p ∈ discardedTasks past, p ∉ executedTasks past) ∧
      (s.tp.running = true → s.tp.workingCount.toNat = s.workers.countP WorkerPc.isBusy) := by
  have hinv := Machine.run_invariant (fun past s => ∃ rest, Accounts past s rest ∧ Custody past s rest)
    (fun _ _ _ _ _ hi hs => hi.elim fun _ h => h.2.step h.1 hs)
    ⟨[],accounts_create hnew,custody_create hnew⟩ hrun
  rw [List.nil_append] at hinv
  obtain ⟨rest,hacc,hcust⟩ := hinv
  have hone := fun p hp => hcust.count_eq_one (p := p) hacc hp
  refine ⟨hone,hcust.leave_in_order hacc,?_,fun _ => hacc.working⟩
  intro p hd hx
  have hadded : p ∈ addedTasks past :=
    (hcust.leave_in_order hacc).subset (List.mem_append_right _ hd)
  have hd' := List.count_pos_iff.mpr hd
  have hx' := List.count_pos_iff.mpr hx
  have := hone p hadded
  omega

/-- One task is taken and executed, the other one is discarded. -/
theorem task_in_one_place_test : ∃ new s past,
    threadPoolCreate 1 (fun _ => true) 2 = some new ∧
    Machine.run step new [.callAddTask 0 0 0 true,.client 0 none,.callAddTask 0 0 0 true,
      .client 0 none,.worker 0 none,.worker 0 none,.callDestory 1,.client 1 none,.worker 0 none] =
        some (s,past) ∧
    addedTasks past = [0,1] ∧ executedTasks past = [0] ∧ discardedTasks past = [1] ∧
    (∀ p ∈ addedTasks past, (listedTasks s).count p+(heldTasks s).count p+
        (executedTasks past).count p+(discardedTasks past).count p = 1) := by
  refine ⟨_,_,_,rfl,rfl,rfl,rfl,rfl,?_⟩
  exact (task_in_one_place 1 (fun _ => true) 2 _ _
    [.callAddTask 0 0 0 true,.client 0 none,.callAddTask 0 0 0 true,
      .client 0 none,.worker 0 none,.worker 0 none,.callDestory 1,.client 1 none,.worker 0 none]
    _ rfl rfl).1

end CStudy.ThreadPool01
