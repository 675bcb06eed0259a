import CStudy.ThreadPool02.JobQueue
import CStudy.Foundation.Machine
import CStudy.Foundation.Threads
import CStudy.Foundation.Flow

/-! The job queue as a queue. Its callers are cut down to what they do with jobs: a client
allocates one and pushes it, a worker pulls one and frees it, and somebody may clear the queue. The
calls come in any order, each as one step, and the linked structure behaves as the list of the jobs
pushed and not yet removed. -/
namespace CStudy.ThreadPool02
open CStudy.Foundation

/-- The queue and the jobs in memory, and the job each client and each worker has in its hands. -/
structure QueueState where
  queue : JobQueue
  heap : Heap Job
  clients : List (Option Ptr)
  workers : List (Option Ptr)

inductive QueueEvent
  | silent
  | pushed (client : ℕ) (job : Ptr)
  /-- what `JobQueuePull` returns -/
  | pulled (worker : ℕ) (job : Option Ptr)
  /-- `JobQueueClear` frees the listed jobs -/
  | cleared (jobs : List Ptr)
  deriving DecidableEq

inductive QueueCall
  /-- `stale` is what the `next` field of the new job held before -/
  | allocate (c : ℕ) (func arg : Ptr) (stale : Option Ptr)
  | push (c : ℕ)
  | pull (w : ℕ)
  | free (w : ℕ)
  | clear
  deriving DecidableEq

def queueCreate (clients workers : ℕ) : QueueState :=
  ⟨jobQueueCreate,Heap.empty,List.replicate clients none,List.replicate workers none⟩

def queueStep : Machine QueueState QueueCall QueueEvent
  | s,.allocate c func arg stale =>
    if s.clients[c]? = some none then
      some ({ s with
        heap := s.heap.alloc ⟨stale,func,arg⟩
        clients := s.clients.set c (some s.heap.top) },.silent)
    else none
  | s,.push c =>
    match s.clients[c]? with
    | some (some job) => do
      let (jq,heap) ← jobQueuePush s.queue s.heap job
      return ({ s with queue := jq, heap := heap, clients := s.clients.set c none },.pushed c job)
    | _ => none
  | s,.pull w =>
    if s.workers[w]? = some none then do
      let (jq,job,_) ← jobQueuePull s.queue s.heap
      return ({ s with queue := jq, workers := s.workers.set w job },.pulled w job)
    else none
  | s,.free w =>
    match s.workers[w]? with
    | some (some job) =>
      some ({ s with heap := s.heap.free job, workers := s.workers.set w none },.silent)
    | _ => none
  | s,.clear => do
    let jobs := s.heap.walk Job.next s.heap.top s.queue.front
    let (jq,heap) ← jobQueueClear s.queue s.heap
    return ({ s with queue := jq, heap := heap },.cleared jobs)

section History

/-- The jobs that were pushed, in this order. -/
def pushedJobs (past : List QueueEvent) : List Ptr := past.flatMap fun
  | .pushed _ p => [p]
  | _ => []

/-- The jobs that calls of `JobQueuePull` returned, in this order. -/
def returnedJobs (past : List QueueEvent) : List Ptr := past.flatMap fun
  | .pulled _ job => job.toList
  | _ => []

/-- The jobs that left the queue by a pull or a clear, in this order. -/
def removedJobs (past : List QueueEvent) : List Ptr := past.flatMap fun
  | .pulled _ job => job.toList
  | .cleared jobs => jobs
  | _ => []

theorem pushedJobs_concat (past : List QueueEvent) (e : QueueEvent) :
    pushedJobs (past++[e]) = pushedJobs past++pushedJobs [e] := List.flatMap_append

theorem removedJobs_concat (past : List QueueEvent) (e : QueueEvent) :
    removedJobs (past++[e]) = removedJobs past++removedJobs [e] := List.flatMap_append

theorem returnedJobs_sublist (past : List QueueEvent) :
    (returnedJobs past).Sublist (removedJobs past) := by
  induction past with
  | nil => exact List.Sublist.refl _
  | cons e past ih =>
    rw [returnedJobs,removedJobs,List.flatMap_cons,List.flatMap_cons]
    refine List.Sublist.append ?_ ih
    cases e with
    | cleared jobs => exact List.nil_sublist jobs
    | _ => exact List.Sublist.refl _

end History

/-- The account of all jobs after the events `past`; the queue holds the jobs `l`. -/
structure QueueAccounts (past : List QueueEvent) (s : QueueState) (l : List Ptr) : Prop where
  holds : s.queue.Holds s.heap l
  flow : ∃ finished, Flow s.heap.top (s.clients.filterMap id) (pushedJobs past) (removedJobs past)
    finished (s.workers.filterMap id) l
  pending : ∀ p ∈ s.clients.filterMap id, ∃ c, s.heap.read p = some c

namespace QueueAccounts
variable {past : List QueueEvent} {s t : QueueState} {c w : ℕ} {e : QueueEvent} {l : List Ptr}
  {p : Ptr}

theorem allocate (h : QueueAccounts past s l) (hc : s.clients[c]? = some none) (job : Job) :
    QueueAccounts (past++[.silent]) { s with
      heap := s.heap.alloc job
      clients := s.clients.set c (some s.heap.top) } l := by
  obtain ⟨finished,hflow⟩ := h.flow
  have hperm : ((s.clients.set c (some s.heap.top)).filterMap id).Perm
      (s.heap.top::s.clients.filterMap id) := Threads.filterMap_set_perm id hc
  refine ⟨?_,⟨finished,?_⟩,?_⟩
  · apply h.holds.congr
    intro q hq
    obtain ⟨d,hd⟩ := h.holds.chain.read_of_mem hq
    exact Heap.read_alloc_of_ne (Heap.lt_top hd).ne
  · rw [pushedJobs_concat,removedJobs_concat]
    simpa [pushedJobs,removedJobs] using hflow.prepare hperm
  · intro q hq
    rcases List.mem_cons.mp (hperm.mem_iff.mp hq) with rfl | hq
    · exact ⟨_,Heap.read_alloc_top _ _⟩
    · obtain ⟨d,hd⟩ := h.pending q hq
      exact ⟨d,(Heap.read_alloc_of_ne (Heap.lt_top hd).ne).trans hd⟩

/-- A push is always defined. -/
theorem push (h : QueueAccounts past s l) (hc : s.clients[c]? = some (some p)) :
    ∃ jq heap, jobQueuePush s.queue s.heap p = some (jq,heap) ∧
      QueueAccounts (past++[.pushed c p]) { s with
        queue := jq, heap := heap, clients := s.clients.set c none } (l++[p]) := by
  obtain ⟨finished,hflow⟩ := h.flow
  have hperm : (p::(s.clients.set c none).filterMap id).Perm (s.clients.filterMap id) :=
    Threads.filterMap_set_perm id hc
  have hpend : p ∈ s.clients.filterMap id := hperm.mem_iff.mp List.mem_cons_self
  obtain ⟨d,hd⟩ := h.pending p hpend
  obtain ⟨jq,heap,hp,hq,htop,hframe⟩ := h.holds.push hd (hflow.pending_notMem_queue hpend)
  have hadd := hflow.add hperm
  refine ⟨jq,heap,hp,hq,⟨finished,?_⟩,?_⟩
  · rw [pushedJobs_concat,removedJobs_concat,htop]
    simpa [pushedJobs,removedJobs] using hadd
  · intro q hqp
    obtain ⟨d',hd'⟩ := h.pending q (hperm.mem_iff.mp (List.mem_cons_of_mem p hqp))
    exact ⟨d',(hframe q (hadd.pending_notMem_queue hqp)).trans hd'⟩

/-- A pull is always defined. It returns the first job, or null if there is none. -/
theorem pull (h : QueueAccounts past s l) (hw : s.workers[w]? = some none) :
    ∃ jq posted, jobQueuePull s.queue s.heap = some (jq,l.head?,posted) ∧
      QueueAccounts (past++[.pulled w l.head?]) { s with
        queue := jq, workers := s.workers.set w l.head? } l.tail := by
  obtain ⟨finished,hflow⟩ := h.flow
  cases l with
  | nil =>
    refine ⟨_,_,h.holds.pull_nil,h.holds,⟨finished,?_⟩,h.pending⟩
    have hsame : (s.workers.set w none).filterMap id = s.workers.filterMap id :=
      Threads.filterMap_set_of_eq hw rfl
    rw [pushedJobs_concat,removedJobs_concat,List.head?_nil,hsame]
    simpa [pushedJobs,removedJobs] using hflow
  | cons p l =>
    obtain ⟨jq,posted,hp,hq⟩ := h.holds.pull_cons
    have hperm : ((s.workers.set w (some p)).filterMap id).Perm (p::s.workers.filterMap id) :=
      Threads.filterMap_set_perm id hw
    refine ⟨jq,posted,hp,hq,⟨finished,?_⟩,h.pending⟩
    rw [pushedJobs_concat,removedJobs_concat]
    simpa [pushedJobs,removedJobs] using hflow.take hperm

theorem free (h : QueueAccounts past s l) (hw : s.workers[w]? = some (some p)) :
    QueueAccounts (past++[.silent]) { s with
      heap := s.heap.free p, workers := s.workers.set w none } l := by
  obtain ⟨finished,hflow⟩ := h.flow
  have hperm : (p::(s.workers.set w none).filterMap id).Perm (s.workers.filterMap id) :=
    Threads.filterMap_set_perm id hw
  have hheld : p ∈ s.workers.filterMap id := hperm.mem_iff.mp List.mem_cons_self
  refine ⟨?_,⟨finished++[p],?_⟩,?_⟩
  · apply h.holds.congr
    intro q hq
    exact Heap.read_free_of_ne (ne_of_mem_of_not_mem hq (hflow.held_notMem_queue hheld))
  · rw [pushedJobs_concat,removedJobs_concat]
    simpa [pushedJobs,removedJobs] using hflow.finish hperm
  · intro q hq
    obtain ⟨d,hd⟩ := h.pending q hq
    have hqp : q ≠ p := ne_of_mem_of_not_mem hq (hflow.held_notMem_pending hheld)
    exact ⟨d,(Heap.read_free_of_ne hqp).trans hd⟩

/-- A clear is always defined, and leaves nothing in the queue. -/
theorem clear (h : QueueAccounts past s l) :
    ∃ heap, jobQueueClear s.queue s.heap = some (jobQueueCreate,heap) ∧
      QueueAccounts (past++[.cleared (s.heap.walk Job.next s.heap.top s.queue.front)])
        { s with queue := jobQueueCreate, heap := heap } [] := by
  obtain ⟨finished,hflow⟩ := h.flow
  obtain ⟨heap,hclear,htop,hframe⟩ := h.holds.clear
  refine ⟨heap,hclear,⟨rfl,rfl,rfl,fun hne => absurd rfl hne⟩,⟨finished++l,?_⟩,?_⟩
  · rw [pushedJobs_concat,removedJobs_concat,htop,
      h.holds.chain.walk_eq h.holds.chain.length_le_top]
    simpa [pushedJobs,removedJobs] using hflow.discard
  · intro q hq
    obtain ⟨d,hd⟩ := h.pending q hq
    exact ⟨d,(hframe q (hflow.pending_notMem_queue hq)).trans hd⟩

/-- Every call keeps the account. -/
theorem step {a : QueueCall} (h : QueueAccounts past s l) (hs : queueStep s a = some (t,e)) :
    ∃ l', QueueAccounts (past++[e]) t l' := by
  cases a with
  | allocate c func arg stale =>
    rw [queueStep] at hs
    split_ifs at hs with hc
    cases hs
    exact ⟨l,h.allocate hc _⟩
  | push c =>
    rw [queueStep] at hs
    split at hs
    · next p hc =>
      obtain ⟨jq,heap,hp,h'⟩ := h.push hc
      rw [hp] at hs
      cases hs
      exact ⟨_,h'⟩
    · cases hs
  | pull w =>
    rw [queueStep] at hs
    split_ifs at hs with hw
    obtain ⟨jq,posted,hp,h'⟩ := h.pull hw
    rw [hp] at hs
    cases hs
    exact ⟨_,h'⟩
  | free w =>
    rw [queueStep] at hs
    split at hs
    · next p hw =>
      cases hs
      exact ⟨l,h.free hw⟩
    · cases hs
  | clear =>
    obtain ⟨heap,hclear,h'⟩ := h.clear
    rw [queueStep,hclear] at hs
    cases hs
    exact ⟨[],h'⟩

end QueueAccounts

theorem queueAccounts_create (clients workers : ℕ) :
    QueueAccounts [] (queueCreate clients workers) [] := by
  have hnone : ∀ n, (List.replicate n (none : Option Ptr)).filterMap id = [] := fun n =>
    Threads.filterMap_eq_nil_of_forall_eq (fun _ hx => List.eq_of_mem_replicate hx) rfl
  refine ⟨JobQueue.holds_create,⟨[],?_⟩,?_⟩
  · rw [queueCreate,hnone,hnone]
    exact .nil
  · rw [queueCreate,hnone]
    simp

/-- The queue is the list `l`: following `next` from `front` visits its jobs and ends at `last`,
and all redundant fields agree with it. -/
structure IsQueueOf (s : QueueState) (l : List Ptr) : Prop where
  chain : s.heap.Chain Job.next s.queue.front l
  distinct : l.Nodup
  last : s.queue.last = l.getLast?
  length : s.queue.length = l.length
  front_null : s.queue.front = none ↔ s.queue.length = 0
  last_null : s.queue.last = none ↔ s.queue.length = 0
  flag : s.queue.length > 0 → s.queue.hasJob.value = true

theorem JobQueue.Holds.isQueueOf {s : QueueState} {l : List Ptr} (h : s.queue.Holds s.heap l) :
    IsQueueOf s l := by
  refine ⟨h.chain,h.chain.nodup,h.last,h.length,?_,?_,?_⟩
  · rw [h.length]
    cases l with
    | nil => simpa using h.chain
    | cons p l => simp [h.chain.1]
  · rw [h.length,h.last]
    simp
  · intro hpos
    apply h.flag
    intro hnil
    rw [h.length,hnil] at hpos
    exact absurd hpos (lt_irrefl _)

/-- In every interleaving of pushes, pulls and clears the queue holds the jobs pushed and not yet
removed, in the order of the pushes. No job is returned twice, jobs are returned in the order of
the pushes, null is returned only when all jobs have been removed, and a clear removes the rest. -/
theorem queue_is_fifo (clients workers : ℕ) (calls : List QueueCall) (s : QueueState)
    (past : List QueueEvent)
    (hrun : Machine.run queueStep (queueCreate clients workers) calls = some (s,past)) :
    (∃ l, IsQueueOf s l ∧ pushedJobs past = removedJobs past++l) ∧
      (returnedJobs past).Nodup ∧ (returnedJobs past).Sublist (pushedJobs past) ∧
      (∀ w t, queueStep s (.pull w) = some (t,.pulled w none) →
        pushedJobs past = removedJobs past) ∧
      ∃ t jobs, queueStep s .clear = some (t,.cleared jobs) ∧ IsQueueOf t [] ∧
        pushedJobs past = removedJobs past++jobs := by
  have hinv := Machine.run_invariant (fun past s => ∃ l, QueueAccounts past s l)
    (fun _ _ _ _ _ hi hs => hi.elim fun _ h => h.step hs)
    ⟨[],queueAccounts_create clients workers⟩ hrun
  rw [List.nil_append] at hinv
  obtain ⟨l,h⟩ := hinv
  obtain ⟨finished,hflow⟩ := h.flow
  have hsub : (returnedJobs past).Sublist (pushedJobs past) := by
    rw [hflow.order]
    exact (returnedJobs_sublist past).trans (List.sublist_append_left _ _)
  have hnodup : (pushedJobs past).Nodup := hflow.order ▸ hflow.nodup
  refine ⟨⟨l,h.holds.isQueueOf,hflow.order⟩,hnodup.sublist hsub,hsub,?_,?_⟩
  · intro w t hs
    rw [queueStep] at hs
    split_ifs at hs with hw
    obtain ⟨jq,posted,hp,_⟩ := h.pull hw
    rw [hp] at hs
    have hnull : l.head? = none := by
      have hevent := congrArg (Option.map Prod.snd) hs
      simpa using hevent
    rw [hflow.order,List.head?_eq_none_iff.mp hnull,List.append_nil]
  · obtain ⟨heap,hclear,h'⟩ := h.clear
    refine ⟨_,l,?_,h'.holds.isQueueOf,hflow.order⟩
    rw [queueStep,hclear,h.holds.chain.walk_eq h.holds.chain.length_le_top]
    rfl

/-- Two clients push, one worker pulls, and the queue is emptied and refilled. -/
theorem queue_is_fifo_test : ∃ s past,
    Machine.run queueStep (queueCreate 2 1) [.allocate 0 0 0 none,.allocate 1 0 0 (some 7),.push 1,
      .push 0,.pull 0,.free 0,.pull 0,.free 0,.allocate 0 0 0 none,.push 0] = some (s,past) ∧
    pushedJobs past = [1,0,2] ∧ returnedJobs past = [1,0] ∧
    (∃ l, IsQueueOf s l ∧ pushedJobs past = removedJobs past++l) := by
  refine ⟨_,_,rfl,rfl,rfl,?_⟩
  exact (queue_is_fifo 2 1 [.allocate 0 0 0 none,.allocate 1 0 0 (some 7),.push 1,
      .push 0,.pull 0,.free 0,.pull 0,.free 0,.allocate 0 0 0 none,.push 0] _ _ rfl).1

end CStudy.ThreadPool02
