import CStudy.Foundation.Ownership
import CStudy.ThreadPool02.Jobs

/-! The memory of the jobs. A `struct Job` is allocated in `ThreadPoolAddTask`, and freed by the worker
that has executed it or by `JobQueueDestory`. In between it is in the hands of the client, in the
queue, or in the hands of the worker, and in one place only. -/
namespace CStudy.ThreadPool02
open CStudy.Foundation

/-- The jobs in the hands of threads. -/
def State.carried (s : State) : List Ptr :=
  s.workers.filterMap WorkerPc.task?++s.clients.filterMap ClientPc.task?

section Queue
variable {jq jq' : JobQueue} {heap heap' : Heap Job} {l l' : List Ptr} {p : Ptr}

theorem isSome_store {f : Job → Job} (hs : heap.store p f = some heap') (q : Ptr) :
    (heap'.read q).isSome = (heap.read q).isSome := by
  obtain ⟨c,_,rfl⟩ := Option.map_eq_some_iff.mp hs
  by_cases hq : q = p
  · subst hq
    simp
  · rw [Heap.read_modify_of_ne hq]

theorem isSome_jobQueuePush (hp : jobQueuePush jq heap p = some (jq',heap')) (q : Ptr) :
    (heap'.read q).isSome = (heap.read q).isSome := by
  obtain ⟨h₁,hfirst,hp⟩ := Option.bind_eq_some_iff.mp hp
  split_ifs at hp
  · cases hp
    exact isSome_store hfirst q
  · obtain ⟨last,_,hp⟩ := Option.bind_eq_some_iff.mp hp
    obtain ⟨h₂,hsecond,hp⟩ := Option.bind_eq_some_iff.mp hp
    cases hp
    rw [isSome_store hsecond,isSome_store hfirst]

/-- The loop of `JobQueueClear` frees exactly the jobs of the queue. -/
theorem inventory_drainJobs (h : jq.Holds heap l) (hi : heap.Inventory (l++l'))
    (hd : drainJobs l.length jq heap = some (jq',heap')) : heap'.Inventory l' := by
  induction l generalizing jq heap with
  | nil =>
    have hzero : jq.length = 0 := h.length
    simp only [List.length_nil,drainJobs,hzero,if_true] at hd
    cases hd
    exact hi
  | cons p l ih =>
    obtain ⟨jq₁,posted,hp,hq⟩ := h.pull_cons
    have hpl : p ∉ l := (List.nodup_cons.mp h.chain.nodup).1
    have hlen : ¬ jq.length = 0 := by simp [h.length]
    rw [List.length_cons,drainJobs,if_neg hlen,hp] at hd
    refine ih (hq.congr fun q hql => ?_) hi.free hd
    exact Heap.read_free_of_ne (ne_of_mem_of_not_mem hql hpl)

theorem inventory_jobQueueClear (h : jq.Holds heap l) (hi : heap.Inventory (l++l'))
    (hc : jobQueueClear jq heap = some (jq',heap')) : heap'.Inventory l' := by
  obtain ⟨⟨jq₁,h₁⟩,hd,hc⟩ := Option.bind_eq_some_iff.mp hc
  cases hc
  rw [h.length] at hd
  exact inventory_drainJobs h hi hd

end Queue

/-- The allocated jobs are those in the queue, as long as there is one, and those in the hands of
threads. -/
structure Stocked (past : List Event) (s : State) (rest : List Ptr) : Prop where
  accounts : Accounts past s rest
  inventory : s.heap.Inventory ((if s.released then [] else rest)++s.carried)

namespace Stocked
variable {past : List Event} {s t : State} {rest : List Ptr} {e : Event} {a : Action}

theorem carried_of_sameView (hv : SameView s t) : t.carried = s.carried := by
  rw [State.carried,State.carried,Threads.filterMap_eq_of_map hv.tasks,
    Threads.filterMap_eq_of_map hv.pending]

theorem of_sameView (hi : s.heap.Inventory ((if s.released then [] else rest)++s.carried))
    (hv : SameView s t) : t.heap.Inventory ((if t.released then [] else rest)++t.carried) := by
  rw [hv.heap,hv.released,carried_of_sameView hv]
  exact hi

/-- A client frees the pool only while there is one. -/
theorem not_freeing {jq : JobQueue} {heap : Heap Job} {c : ℕ} (hr : s.released = true)
    (hc : s.clients[c]? = some .destoryFree)
    (hs : ThreadPool02.step s a = some ({ s with
      heap := heap
      released := true
      pool := { s.pool with jobQueue := jq } }.setClient c .idle,e)) : False := by
  have hcount := Threads.countP_set (y := .idle) (fun pc => decide (pc = .destoryFree)) hc
  suffices hsame : (s.clients.set c .idle).countP (fun pc => decide (pc = .destoryFree)) =
      s.clients.countP (fun pc => decide (pc = .destoryFree)) by
    rw [hsame] at hcount
    simp at hcount
  generalize ht : ({ s with
    heap := heap
    released := true
    pool := { s.pool with jobQueue := jq } }.setClient c .idle : State) = t at hs
  have hclients : s.clients.set c .idle = t.clients := by rw [← ht]; rfl
  rw [hclients]
  cases a with
  | worker w wake =>
    unfold ThreadPool02.step workerStep at hs
    dsimp only at hs
    split at hs
    · next task hw =>
      cases task with
      | none => cases hs; rfl
      | some p =>
        obtain ⟨_,_,hs⟩ := Option.bind_eq_some_iff.mp hs
        cases hs
        rfl
    · rw [if_pos hr] at hs
      cases hs
    · cases hs
  | client d wake =>
    rw [ThreadPool02.step,if_pos hr] at hs
    cases hs
  | callAddTask d func arg stale mallocSucceeds =>
    rw [ThreadPool02.step] at hs
    split_ifs at hs with hcall
    unfold callAddTask at hs
    split_ifs at hs <;> cases hs
    · exact Threads.countP_set_of_eq hcall.2 rfl
    · rfl
  | callWait d =>
    rw [ThreadPool02.step] at hs
    split_ifs at hs with hcall
    cases hs
    exact Threads.countP_set_of_eq hcall.2 rfl
  | callDestory d =>
    rw [ThreadPool02.step] at hs
    split_ifs at hs with hcall
    cases hcall.2.symm.trans hr
  | spuriousClient d =>
    rw [ThreadPool02.step] at hs
    split_ifs at hs with hd
    cases hs
    exact Threads.countP_set_of_eq hd rfl
  | _ =>
    rw [ThreadPool02.step] at hs
    split_ifs at hs
    cases hs
    rfl

theorem step (h : Stocked past s rest) (hs : ThreadPool02.step s a = some (t,e)) :
    ∃ rest', Stocked (past++[e]) t rest' := by
  obtain ⟨hacc,hi⟩ := h
  cases step_moves hs with
  | quiet hv he => exact ⟨rest,(hacc.of_sameView hv).quiet he,of_sameView hi hv⟩
  | @prepare c hc func arg stale =>
    refine ⟨rest,(hacc.prepare hc func arg stale).quiet quiet_silent,(hi.alloc _).perm ?_⟩
    have hperm : ((s.clients.set c (.addTask s.heap.top)).filterMap ClientPc.task?).Perm
        (s.heap.top::s.clients.filterMap ClientPc.task?) :=
      Threads.filterMap_set_perm ClientPc.task? hc
    refine (((hperm.append_left _).trans List.perm_middle).append_left _).trans List.perm_middle
  | @push c p jq heap t hr hc hp hv =>
    refine ⟨_,(hacc.push hr hc hp).of_sameView hv,of_sameView ?_ hv⟩
    have hperm : (p::(s.clients.set c .idle).filterMap ClientPc.task?).Perm
        (s.clients.filterMap ClientPc.task?) := Threads.filterMap_set_perm ClientPc.task? hc
    simp only [hr,State.setClient,State.carried,Bool.false_eq_true,if_false] at hi ⊢
    refine (hi.congr (isSome_jobQueuePush hp)).perm ?_
    rw [List.append_assoc]
    have hmove : (p::(s.workers.filterMap WorkerPc.task?++
        (s.clients.set c .idle).filterMap ClientPc.task?)).Perm
        (s.workers.filterMap WorkerPc.task?++s.clients.filterMap ClientPc.task?) :=
      List.perm_middle.symm.trans (hperm.append_left _)
    exact hmove.append_left rest
  | @countIn w hw =>
    have htask : (s.workers.set w .pull).filterMap WorkerPc.task? =
        s.workers.filterMap WorkerPc.task? := Threads.filterMap_set_of_eq hw rfl
    refine ⟨rest,(hacc.countIn hw).quiet quiet_silent,?_⟩
    simp only [State.setWorker,State.carried,htask]
    exact hi
  | @pull w p jq posted t hr hw hp hv =>
    obtain ⟨rest',hrest,hacc'⟩ := hacc.pull hr hw hp
    subst hrest
    refine ⟨rest',hacc'.of_sameView hv,of_sameView ?_ hv⟩
    have hperm : ((s.workers.set w (.execute (some p))).filterMap WorkerPc.task?).Perm
        (p::s.workers.filterMap WorkerPc.task?) := Threads.filterMap_set_perm WorkerPc.task? hw
    simp only [hr,State.setWorker,State.carried,Bool.false_eq_true,if_false] at hi ⊢
    refine hi.perm ?_
    exact ((hperm.append_right _).append_left rest').trans List.perm_middle
  | @execute w p hw =>
    have hperm : (p::(s.workers.set w .countOut).filterMap WorkerPc.task?).Perm
        (s.workers.filterMap WorkerPc.task?) := Threads.filterMap_set_perm WorkerPc.task? hw
    refine ⟨rest,hacc.execute hw,Heap.Inventory.free (hi.perm ?_)⟩
    simp only [State.setWorker,State.carried]
    exact List.perm_middle.symm.trans ((hperm.append_right _).append_left _)
  | @countOut w t hw hv =>
    have htask : (s.workers.set w .loopTest).filterMap WorkerPc.task? =
        s.workers.filterMap WorkerPc.task? := Threads.filterMap_set_of_eq hw rfl
    refine ⟨rest,((hacc.countOut hw).of_sameView hv).quiet quiet_silent,of_sameView ?_ hv⟩
    simp only [State.setWorker,State.carried,htask]
    exact hi
  | @readLength c hr hc hl =>
    have hpend : (s.clients.set c .waitWorking).filterMap ClientPc.task? =
        s.clients.filterMap ClientPc.task? := Threads.filterMap_set_of_eq hc rfl
    refine ⟨rest,(hacc.readLength hc).quiet quiet_silent,?_⟩
    simp only [State.setClient,State.carried,hpend]
    exact hi
  | @free c jq heap hc hh =>
    cases hr : s.released with
    | true => exact (not_freeing hr hc hs).elim
    | false =>
      refine ⟨rest,(hacc.free hc hh).quiet quiet_silent,?_⟩
      have hpend : (s.clients.set c .idle).filterMap ClientPc.task? =
          s.clients.filterMap ClientPc.task? := Threads.filterMap_set_of_eq hc rfl
      simp only [hr,Bool.false_eq_true,if_false] at hi
      simp only [State.setClient,State.carried,hpend,if_true,List.nil_append]
      exact inventory_jobQueueClear (hacc.queue hr) hi hh

end Stocked

theorem stocked_create (numThreads : ℕ) (created : ℕ → Bool) (clients : ℕ) :
    Stocked [] (threadPoolCreate numThreads created clients) [] := by
  have hcarried : (threadPoolCreate numThreads created clients).carried = [] := by
    rw [State.carried,List.append_eq_nil_iff]
    refine ⟨Threads.filterMap_eq_nil_of_forall_eq (x := .start) (fun pc hpc => ?_) rfl,
      Threads.filterMap_eq_nil_of_forall_eq (x := .idle) (fun pc hpc => ?_) rfl⟩
    · obtain ⟨_,_,rfl⟩ := List.mem_map.mp hpc
      rfl
    · exact List.eq_of_mem_replicate hpc
  refine ⟨accounts_create numThreads created clients,?_⟩
  rw [hcarried]
  exact Heap.Inventory.empty

theorem stocked_run {numThreads clients : ℕ} {created : ℕ → Bool} {actions : List Action} {s : State}
    {past : List Event} (hrun : Machine.run step (threadPoolCreate numThreads created clients) actions =
      some (s,past)) : ∃ rest, Stocked past s rest :=
  Machine.run_invariant (fun past s => ∃ rest, Stocked past s rest)
    (fun _ _ _ _ _ hi hs => hi.elim fun _ h => h.step hs)
    ⟨[],stocked_create numThreads created clients⟩ hrun

end CStudy.ThreadPool02
