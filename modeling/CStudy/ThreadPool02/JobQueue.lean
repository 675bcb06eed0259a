import CStudy.Foundation.Heap

/-! The job queue of `thread_pool02`: a list with pointers to both ends, its length, and a flag
for the workers. Each function is the effect of its section under the queue mutex; the condition
variable of the flag belongs to the threads that wait on it. The length counts live allocations,
so it does not wrap around. -/
namespace CStudy.ThreadPool02
open CStudy.Foundation

structure Job where
  next : Option Ptr
  func : Ptr
  arg : Ptr

structure BinarySemaphore where
  value : Bool

structure JobQueue where
  front : Option Ptr
  last : Option Ptr
  hasJob : BinarySemaphore
  length : ℕ

def binarySemaphoreCreate : BinarySemaphore := ⟨false⟩

/-- The assignment of `BinarySemaphorePost` and `BinarySemaphorePostAll`. -/
def binarySemaphorePost (bs : BinarySemaphore) : BinarySemaphore := { bs with value := true }

def jobQueueCreate : JobQueue := ⟨none,none,binarySemaphoreCreate,0⟩

/-- The job is linked behind the last one, and the flag is posted. -/
def jobQueuePush (jq : JobQueue) (heap : Heap Job) (job : Ptr) : Option (JobQueue × Heap Job) := do
  let heap ← heap.store job fun c => { c with next := none }
  if jq.length = 0 then
    return (⟨some job,some job,binarySemaphorePost jq.hasJob,jq.length+1⟩,heap)
  else
    let last ← jq.last
    let heap ← heap.store last fun c => { c with next := some job }
    return (⟨jq.front,some job,binarySemaphorePost jq.hasJob,jq.length+1⟩,heap)

/-- The first job, if there is one, and whether the flag is posted again. -/
def jobQueuePull (jq : JobQueue) (heap : Heap Job) : Option (JobQueue × Option Ptr × Bool) :=
  if jq.length = 0 then some (jq,none,false)
  else if jq.length = 1 then some (⟨none,none,jq.hasJob,0⟩,jq.front,false)
  else do
    let job ← jq.front
    let c ← heap.read job
    return (⟨c.next,jq.last,binarySemaphorePost jq.hasJob,jq.length-1⟩,some job,true)

/-- `while (jq->length > 0) { free(JobQueuePull(jq)); }` -/
def drainJobs : ℕ → JobQueue → Heap Job → Option (JobQueue × Heap Job)
  | 0,jq,heap => if jq.length = 0 then some (jq,heap) else none
  | fuel+1,jq,heap =>
    if jq.length = 0 then some (jq,heap)
    else do
      let (jq,job,_) ← jobQueuePull jq heap
      drainJobs fuel jq (job.elim heap heap.free)

def jobQueueClear (jq : JobQueue) (heap : Heap Job) : Option (JobQueue × Heap Job) := do
  let (_,heap) ← drainJobs jq.length jq heap
  return (⟨none,none,binarySemaphoreCreate,0⟩,heap)

namespace JobQueue

/-- The queue holds the jobs `l`, and the flag is up while there are any. -/
structure Holds (jq : JobQueue) (heap : Heap Job) (l : List Ptr) : Prop where
  chain : heap.Chain Job.next jq.front l
  last : jq.last = l.getLast?
  length : jq.length = l.length
  flag : l ≠ [] → jq.hasJob.value = true

variable {jq jq' : JobQueue} {heap heap' : Heap Job} {l : List Ptr} {p : Ptr}

theorem holds_create : jobQueueCreate.Holds (Heap.empty : Heap Job) [] :=
  ⟨rfl,rfl,rfl,fun h => absurd rfl h⟩

/-- A push appends, and touches no cell but the new job and those in the queue. -/
theorem Holds.push {c : Job} (h : jq.Holds heap l) (hp : heap.read p = some c) (hpl : p ∉ l) :
    ∃ jq' heap', jobQueuePush jq heap p = some (jq',heap') ∧ jq'.Holds heap' (l++[p]) ∧
      heap'.top = heap.top ∧ (∀ q, q ∉ l++[p] → heap'.read q = heap.read q) := by
  set blank := heap.modify p fun c => { c with next := none } with hblank
  have hnext : blank.read p = some { c with next := none } := by
    rw [hblank,Heap.read_modify_self,hp,Option.map_some]
  have hl : blank.Chain Job.next jq.front l := h.chain.modify_of_notMem hpl _
  rcases List.eq_nil_or_concat l with hnil | ⟨l',q,hcat⟩
  · subst hnil
    refine ⟨⟨some p,some p,binarySemaphorePost jq.hasJob,jq.length+1⟩,blank,?_,?_,rfl,?_⟩
    · simp [jobQueuePush,Heap.store_eq hp,h.length,hblank]
    · exact ⟨⟨rfl,_,hnext,rfl⟩,rfl,by simp [h.length],fun _ => rfl⟩
    · intro q hq
      exact Heap.read_modify_of_ne (by simpa using hq)
  · rw [List.concat_eq_append] at hcat
    subst hcat
    have hpq : p ≠ q := by
      intro hpq
      exact hpl (by simp [hpq])
    obtain ⟨d,hd⟩ := hl.read_of_mem (List.mem_append_right l' (List.mem_singleton_self q))
    refine ⟨⟨jq.front,some p,binarySemaphorePost jq.hasJob,jq.length+1⟩,
      blank.modify q fun c => { c with next := some p },?_,?_,rfl,?_⟩
    · have hlen : ¬ jq.length = 0 := by simp [h.length]
      have hlast : jq.last = some q := h.last.trans List.getLast?_concat
      simp [jobQueuePush,Heap.store_eq hp,hlen,hlast,← hblank,Heap.store_eq hd]
    · refine ⟨hl.link hnext rfl hpq fun _ => rfl,?_,?_,fun _ => rfl⟩
      · rw [List.getLast?_concat]
      · simp [h.length]
    · intro r hr
      simp only [List.mem_append,List.mem_singleton,not_or] at hr
      rw [Heap.read_modify_of_ne hr.1.2,hblank,Heap.read_modify_of_ne hr.2]

theorem Holds.pull_nil (h : jq.Holds heap []) : jobQueuePull jq heap = some (jq,none,false) :=
  if_pos h.length

/-- A pull takes the first job. -/
theorem Holds.pull_cons (h : jq.Holds heap (p::l)) :
    ∃ jq' posted, jobQueuePull jq heap = some (jq',some p,posted) ∧ jq'.Holds heap l := by
  obtain ⟨hfront,c,hc,hl⟩ := h.chain
  have hlen := h.length
  rw [List.length_cons] at hlen
  rw [jobQueuePull,if_neg (by omega)]
  by_cases hone : jq.length = 1
  · obtain rfl : l = [] := List.length_eq_zero_iff.mp (by omega)
    rw [if_pos hone,hfront]
    exact ⟨_,_,rfl,rfl,rfl,rfl,fun h => absurd rfl h⟩
  · rw [if_neg hone,hfront]
    refine ⟨_,true,by simp only [Option.bind_eq_bind,Option.bind_some,hc]; rfl,hl,?_,?_,fun _ => rfl⟩
    · rw [h.last]
      cases l with
      | nil => simp at hlen; omega
      | cons q l => rfl
    · dsimp only
      omega

/-- The queue does not look at cells outside of it. -/
theorem Holds.congr (h : jq.Holds heap l) (hc : ∀ q ∈ l, heap'.read q = heap.read q) :
    jq.Holds heap' l := by
  refine ⟨?_,h.last,h.length,h.flag⟩
  apply h.chain.congr
  intro q hq
  rw [hc q hq]

/-- The loop of `JobQueueClear` ends, having freed the jobs of the queue and nothing else. -/
theorem Holds.drain (h : jq.Holds heap l) :
    ∃ jq' heap', drainJobs l.length jq heap = some (jq',heap') ∧ heap'.top = heap.top ∧
      ∀ q, q ∉ l → heap'.read q = heap.read q := by
  induction l generalizing jq heap with
  | nil => exact ⟨jq,heap,if_pos h.length,rfl,fun _ _ => rfl⟩
  | cons p l ih =>
    obtain ⟨jq₁,posted,hp,hq⟩ := h.pull_cons
    have hpl : p ∉ l := (List.nodup_cons.mp h.chain.nodup).1
    have hfree : jq₁.Holds (heap.free p) l := by
      apply hq.congr
      intro q hql
      exact Heap.read_free_of_ne (ne_of_mem_of_not_mem hql hpl)
    obtain ⟨jq',heap',hd,htop,hframe⟩ := ih hfree
    refine ⟨jq',heap',?_,htop,?_⟩
    · have hlen : ¬ jq.length = 0 := by simp [h.length]
      simp [drainJobs,hlen,hp,hd]
    · intro q hq
      obtain ⟨hqp,hql⟩ := List.ne_and_not_mem_of_not_mem_cons hq
      rw [hframe q hql,Heap.read_free_of_ne hqp]

theorem Holds.clear (h : jq.Holds heap l) :
    ∃ heap', jobQueueClear jq heap = some (jobQueueCreate,heap') ∧ heap'.top = heap.top ∧
      ∀ q, q ∉ l → heap'.read q = heap.read q := by
  obtain ⟨jq',heap',hd,htop,hframe⟩ := h.drain
  refine ⟨heap',?_,htop,hframe⟩
  rw [jobQueueClear,h.length,hd]
  rfl

end JobQueue
end CStudy.ThreadPool02
