import CStudy.ThreadPool02.Draining
import CStudy.ThreadPool02.Memory

/-! The end of a pool. `ThreadPoolDestory` clears the flag `alive` and posts the semaphore until all
workers have left. From the first post on no worker blocks any more, each has a bounded number of
steps left and executes one more job at most, and nothing keeps the pool from being freed. -/
namespace CStudy.ThreadPool02
open CStudy.Foundation

/-- The control flow of `Worker`: where the next step leads, given the flag of the pool, the flag of
the semaphore, and the job that is pulled. -/
def WorkerPc.next (alive flag : Bool) (job : Option Ptr) : WorkerPc → WorkerPc
  | .start => .loopTest
  | .loopTest => if alive then .semaphoreWait else .leave
  | .semaphoreWait => if flag then .aliveTest else .semaphoreBlocked
  | .semaphoreBlocked => .semaphoreBlocked
  | .aliveTest => if alive then .countIn else .loopTest
  | .countIn => .pull
  | .pull => .execute job
  | .execute _ => .countOut
  | .countOut => .loopTest
  | .leave => .done
  | .done => .done

/-- Counted in `alive_threads`. -/
def WorkerPc.isCounted : WorkerPc → Bool
  | .start => false
  | .done => false
  | _ => true

/-- The steps a worker makes in a pool that has been stopped and whose flag is up. -/
def WorkerPc.toGo : WorkerPc → ℕ
  | .countIn => 7
  | .pull => 6
  | .execute _ => 5
  | .semaphoreWait => 4
  | .semaphoreBlocked => 4
  | .countOut => 3
  | .aliveTest => 3
  | .start => 3
  | .loopTest => 2
  | .leave => 1
  | .done => 0

/-- Past the last test of `alive`, with a job to pull or to execute. -/
def WorkerPc.isCommitted : WorkerPc → Bool
  | .countIn => true
  | .pull => true
  | .execute (some _) => true
  | _ => false

/-- What a step of worker `w` does, apart from what it does to jobs. -/
structure Moved (s : State) (w : ℕ) (pc pc' : WorkerPc) (t : State) : Prop where
  here : s.workers[w]? = some pc
  awake : pc.isBlocked = false ∧ pc ≠ .done
  workers : ∃ workers, WorkersWoken s workers ∧ t.workers = workers.set w pc' ∧
    ((∀ x ∈ s.workers, x.isBlocked = false) → ∀ x ∈ workers, x.isBlocked = false)
  clients : ClientsWoken s t.clients
  mutex : t.mutex = s.mutex
  ready : t.ready = s.ready
  released : t.released = s.released
  alive : t.pool.alive = s.pool.alive
  threadNum : t.pool.threadNum = s.pool.threadNum
  flag : s.pool.jobQueue.hasJob.value = true → t.pool.jobQueue.hasJob.value = true
  counted : t.pool.aliveThreads+(if pc.isCounted then 1 else 0) =
    s.pool.aliveThreads+(if pc'.isCounted then 1 else 0)

section Moved
variable {s t : State} {w : ℕ} {wake : Option ℕ} {e : Event} {pc pc' : WorkerPc}

/-- A step that changes nothing else. -/
theorem turn_setWorker (hw : s.workers[w]? = some pc) (hawake : pc.isBlocked = false ∧ pc ≠ .done)
    (hcounted : pc'.isCounted = pc.isCounted) : Moved s w pc pc' (s.setWorker w pc') :=
  ⟨hw,hawake,⟨_,fun _ _ _ => rfl,rfl,id⟩,fun _ _ _ => rfl,rfl,rfl,rfl,rfl,rfl,id,by
    rw [hcounted]
    rfl⟩

theorem pullJob_turn (hw : s.workers[w]? = some .pull) (hs : pullJob s w wake = some (t,e)) :
    ∃ job, Moved s w .pull (.execute job) t ∧ executedJobs [e] = [] ∧ addedJobs [e] = [] := by
  obtain ⟨⟨jq,job,posted⟩,hp,hs⟩ := Option.bind_eq_some_iff.mp hs
  have hflag : s.pool.jobQueue.hasJob.value = true → jq.hasJob.value = true := by
    intro hup
    unfold jobQueuePull at hp
    split_ifs at hp
    · cases hp
      exact hup
    · cases hp
      exact hup
    · obtain ⟨q,_,hp⟩ := Option.bind_eq_some_iff.mp hp
      obtain ⟨c,_,hp⟩ := Option.bind_eq_some_iff.mp hp
      cases hp
      rfl
  have hevent : executedJobs [pullEvent w job] = [] ∧ addedJobs [pullEvent w job] = [] := by
    cases job <;> exact ⟨rfl,rfl⟩
  refine ⟨job,?_⟩
  dsimp only at hs
  split_ifs at hs
  · obtain ⟨u,hu,hs⟩ := Option.bind_eq_some_iff.mp hs
    cases hs
    obtain ⟨workers,hsignal,hu⟩ := Option.bind_eq_some_iff.mp hu
    cases hu
    exact ⟨⟨hw,by decide,⟨workers,fun _ _ hf => Threads.map_signal (map_semaphoreWait hf) hsignal,rfl,
      fun hall => Threads.forall_signal hall (fun _ _ => rfl) hsignal⟩,fun _ _ _ => rfl,rfl,rfl,rfl,rfl,
      rfl,hflag,rfl⟩,hevent⟩
  · cases hs
    exact ⟨⟨hw,by decide,⟨_,fun _ _ _ => rfl,rfl,id⟩,fun _ _ _ => rfl,rfl,rfl,rfl,rfl,rfl,hflag,rfl⟩,
      hevent⟩

theorem countOut_turn (hw : s.workers[w]? = some .countOut) (hs : countOut s w wake = some (t,e)) :
    Moved s w .countOut .loopTest t ∧ executedJobs [e] = [] ∧ addedJobs [e] = [] := by
  unfold countOut at hs
  dsimp only at hs
  split_ifs at hs
  · obtain ⟨u,hu,hr⟩ := Option.bind_eq_some_iff.mp hs
    cases hr
    obtain ⟨clients,rfl,hclients⟩ := clientsWoken_signalPool hu
    exact ⟨⟨hw,by decide,⟨_,fun _ _ _ => rfl,rfl,id⟩,hclients,rfl,rfl,rfl,rfl,rfl,id,rfl⟩,rfl,rfl⟩
  · cases hs
    exact ⟨⟨hw,by decide,⟨_,fun _ _ _ => rfl,rfl,id⟩,fun _ _ _ => rfl,rfl,rfl,rfl,rfl,rfl,id,rfl⟩,rfl,
      rfl⟩

/-- Every step of a worker follows the text of `Worker`, and executes the job it has, if any. -/
theorem workerStep_turn (hs : workerStep s w wake = some (t,e)) :
    ∃ pc job, Moved s w pc (pc.next s.pool.alive s.pool.jobQueue.hasJob.value job) t ∧
      (executedJobs [e]).length = (if pc.task?.isSome then 1 else 0) ∧ addedJobs [e] = [] := by
  unfold workerStep at hs
  split at hs
  · next task hw =>
    refine ⟨.execute task,none,?_⟩
    cases task with
    | none =>
      cases hs
      exact ⟨turn_setWorker hw (by simp [WorkerPc.isBlocked]) rfl,rfl,rfl⟩
    | some p =>
      obtain ⟨c,_,hr⟩ := Option.bind_eq_some_iff.mp hs
      cases hr
      exact ⟨⟨hw,by simp [WorkerPc.isBlocked],⟨_,fun _ _ _ => rfl,rfl,id⟩,fun _ _ _ => rfl,rfl,rfl,rfl,
        rfl,rfl,id,rfl⟩,rfl,rfl⟩
  · next pc hne hw =>
    split at hs
    · cases hs
    cases pc with
    | start =>
      cases locked_eq_some hs
      exact ⟨.start,none,⟨hw,by decide,⟨_,fun _ _ _ => rfl,rfl,id⟩,fun _ _ _ => rfl,rfl,rfl,rfl,rfl,rfl,
        id,by simp [State.setWorker,WorkerPc.next,WorkerPc.isCounted]⟩,rfl,rfl⟩
    | loopTest =>
      cases hs
      refine ⟨.loopTest,none,turn_setWorker hw (by decide) ?_,rfl,rfl⟩
      cases s.pool.alive <;> rfl
    | semaphoreWait =>
      cases hs
      refine ⟨.semaphoreWait,none,turn_setWorker hw (by decide) ?_,rfl,rfl⟩
      cases s.pool.jobQueue.hasJob.value <;> rfl
    | semaphoreBlocked => cases hs
    | aliveTest =>
      cases hs
      refine ⟨.aliveTest,none,turn_setWorker hw (by decide) ?_,rfl,rfl⟩
      cases s.pool.alive <;> rfl
    | countIn =>
      cases locked_eq_some hs
      exact ⟨.countIn,none,⟨hw,by decide,⟨_,fun _ _ _ => rfl,rfl,id⟩,fun _ _ _ => rfl,rfl,rfl,rfl,rfl,
        rfl,id,rfl⟩,rfl,rfl⟩
    | pull =>
      obtain ⟨job,hturn,he⟩ := pullJob_turn hw hs
      exact ⟨.pull,job,hturn,by rw [he.1]; rfl,he.2⟩
    | execute task => exact (hne task rfl).elim
    | countOut =>
      obtain ⟨hturn,he⟩ := countOut_turn hw (locked_eq_some hs)
      exact ⟨.countOut,none,hturn,by rw [he.1]; rfl,he.2⟩
    | leave =>
      cases locked_eq_some hs
      exact ⟨.leave,none,⟨hw,by decide,⟨_,fun _ _ _ => rfl,rfl,id⟩,fun _ _ _ => rfl,rfl,rfl,rfl,rfl,
        rfl,id,by simp [State.setWorker,WorkerPc.next,WorkerPc.isCounted]⟩,rfl,rfl⟩
    | done => cases hs
  · cases hs

theorem next_ne_start (alive flag : Bool) (job : Option Ptr) (pc : WorkerPc) :
    pc.next alive flag job ≠ .start := by
  cases pc <;> cases alive <;> cases flag <;> simp [WorkerPc.next]

namespace Moved

/-- The workers seen through a property that waking up does not change. -/
theorem map {β : Type} (h : Moved s w pc pc' t) (f : WorkerPc → β)
    (hf : f .semaphoreWait = f .semaphoreBlocked) :
    t.workers.map f = (s.workers.map f).set w (f pc') := by
  obtain ⟨workers,hworkers,ht,_⟩ := h.workers
  rw [ht,List.map_set,hworkers β f hf]

theorem countP (h : Moved s w pc pc' t) (f : WorkerPc → Bool)
    (hf : f .semaphoreWait = f .semaphoreBlocked) :
    t.workers.countP f+(if f pc then 1 else 0) = s.workers.countP f+(if f pc' then 1 else 0) := by
  have hset : (s.workers.set w pc').map f = t.workers.map f := by rw [h.map f hf,List.map_set]
  rw [← Threads.countP_eq_of_map hset]
  exact Threads.countP_set f h.here

theorem forall_eq {β : Type} (h : Moved s w pc pc' t) (f : WorkerPc → β)
    (hf : f .semaphoreWait = f .semaphoreBlocked) {b : β} (hall : ∀ x ∈ s.workers, f x = b)
    (hpc : f pc' = b) : ∀ x ∈ t.workers, f x = b := by
  have hset : t.workers.map f = (s.workers.set w pc').map f := by rw [h.map f hf,List.map_set]
  exact forall_of_map hset (Threads.forall_set hall hpc)

end Moved

end Moved

/-- What is true of the threads of every pool. -/
structure Manned (s : State) : Prop where
  counted : s.pool.aliveThreads = s.workers.countP WorkerPc.isCounted
  few : s.workers.length ≤ s.pool.threadNum
  begun : s.ready = true → ∀ pc ∈ s.workers, pc ≠ .start
  owner : Owner s.mutex s.clients
  stopping : ∀ pc ∈ s.clients, pc.hasStopped = true → s.ready = true ∧ s.pool.alive = false
  finished : .destoryFree ∈ s.clients ∨ s.released = true → ∀ pc ∈ s.workers, pc = .done

namespace Manned
variable {s t : State} {w c : ℕ} {wake : Option ℕ} {e : Event} {pc pc' : WorkerPc} {a : Action}

theorem turn (h : Manned s) (ht : Moved s w pc pc' t) (hstart : pc' ≠ .start) : Manned t := by
  have hnotDone : ¬ ∀ x ∈ s.workers, x = .done := fun hall =>
    ht.awake.2 (hall pc (List.mem_of_getElem? ht.here))
  have hclient : ∀ f : ClientPc → Bool, f .waitLock = f .waitBlocked →
      ∀ x ∈ t.clients, ∃ y ∈ s.clients, f y = f x := by
    intro f hf x hx
    have hmem : f x ∈ s.clients.map f := ht.clients Bool f hf ▸ List.mem_map_of_mem hx
    exact List.mem_map.mp hmem
  refine ⟨?_,?_,fun hready x hx => ?_,?_,fun x hx hstop => ?_,fun hfin => absurd ?_ hnotDone⟩
  · have hcount := ht.countP WorkerPc.isCounted rfl
    have halive := ht.counted
    have hold := h.counted
    split_ifs at hcount halive <;> omega
  · have hlength := congrArg List.length (ht.map (fun _ => ()) rfl)
    simp only [List.length_map,List.length_set] at hlength
    rw [hlength,ht.threadNum]
    exact h.few
  · have hbegun := h.begun (ht.ready.symm.trans hready)
    have hall := ht.forall_eq (fun pc => decide (pc = .start)) rfl
      (fun x hx => decide_eq_false (hbegun x hx)) (decide_eq_false hstart)
    exact of_decide_eq_false (hall x hx)
  · rw [Owner,ht.mutex,ht.clients Bool ClientPc.inLock rfl]
    exact h.owner
  · obtain ⟨y,hy,heq⟩ := hclient ClientPc.hasStopped rfl x hx
    rw [ht.ready,ht.alive]
    exact h.stopping y hy (heq.trans hstop)
  · refine h.finished (hfin.imp (fun hmem => ?_) fun hr => ht.released.symm.trans hr)
    obtain ⟨y,hy,heq⟩ := hclient (fun pc => decide (pc = .destoryFree)) rfl _ hmem
    have hyf : y = .destoryFree := by simpa using heq
    exact hyf ▸ hy

/-- A step that leaves the workers where they are, but for a wake-up. -/
theorem of_woken (h : Manned s) (hworkers : WorkersWoken s t.workers)
    (hthreads : t.pool.aliveThreads = s.pool.aliveThreads)
    (hnum : t.pool.threadNum = s.pool.threadNum) (hready : t.ready = s.ready)
    (howner : Owner t.mutex t.clients)
    (hstopping : ∀ pc ∈ t.clients, pc.hasStopped = true → t.ready = true ∧ t.pool.alive = false)
    (hfinished : .destoryFree ∈ t.clients ∨ t.released = true → ∀ pc ∈ s.workers, pc = .done) :
    Manned t := by
  refine ⟨?_,?_,fun hr x hx => ?_,howner,hstopping,fun hfin x hx => ?_⟩
  · rw [hthreads,h.counted,Threads.countP_eq_of_map (hworkers Bool WorkerPc.isCounted rfl)]
  · have hlength : t.workers.length = s.workers.length := by
      simpa using congrArg List.length (hworkers Unit (fun _ => ()) rfl)
    rw [hlength,hnum]
    exact h.few
  · have hall := forall_of_map (hworkers Bool (fun pc => decide (pc = .start)) rfl)
      fun y hy => decide_eq_false (h.begun (hready.symm.trans hr) y hy)
    exact of_decide_eq_false (hall x hx)
  · have hall := forall_of_map (hworkers Bool (fun pc => decide (pc = .done)) rfl)
      fun y hy => decide_eq_true (hfinished hfin y hy)
    exact of_decide_eq_true (hall x hx)

/-- A client goes on to where it is not about to free the pool. -/
theorem client {x x' : ClientPc} (h : Manned s) (hc : s.clients[c]? = some x)
    (hworkers : WorkersWoken s t.workers) (hthreads : t.pool.aliveThreads = s.pool.aliveThreads)
    (hnum : t.pool.threadNum = s.pool.threadNum) (hready : t.ready = s.ready)
    (halive : t.pool.alive = s.pool.alive) (hreleased : t.released = s.released)
    (hclients : t.clients = s.clients.set c x') (howner : Owner t.mutex (s.clients.set c x'))
    (hfree : x' ≠ .destoryFree) (hstop : x'.hasStopped = true → x.hasStopped = true) : Manned t := by
  refine h.of_woken hworkers hthreads hnum hready (hclients ▸ howner) ?_ ?_
  · rw [hclients,hready,halive]
    exact Threads.forall_set h.stopping fun hx =>
      h.stopping x (List.mem_of_getElem? hc) (hstop hx)
  · rw [hclients,hreleased]
    rintro (hmem | hr)
    · rcases List.mem_or_eq_of_mem_set hmem with hmem | heq
      · exact h.finished (.inl hmem)
      · exact absurd heq.symm hfree
    · exact h.finished (.inr hr)

/-- The count of a pool that has been stopped falls to zero only when all workers have left. -/
theorem all_done (h : Manned s) (hready : s.ready = true) (hzero : ¬ s.pool.aliveThreads > 0) :
    ∀ pc ∈ s.workers, pc = .done := by
  have hcount : s.workers.countP WorkerPc.isCounted = 0 := by
    have hcounted := h.counted
    omega
  intro pc hpc
  have hnot := List.countP_eq_zero.mp hcount pc hpc
  have hstart := h.begun hready pc hpc
  cases pc <;> simp_all [WorkerPc.isCounted]

theorem clientStep (h : Manned s)
    (hs : ThreadPool02.clientStep s c wake = some (t,e)) : Manned t := by
  have hsame : WorkersWoken s s.workers := fun _ _ _ => rfl
  unfold ThreadPool02.clientStep at hs
  split at hs
  · next task hc =>
    obtain ⟨⟨jq,heap⟩,_,hs⟩ := Option.bind_eq_some_iff.mp hs
    obtain ⟨u,hu,hs⟩ := Option.bind_eq_some_iff.mp hs
    cases hs
    obtain ⟨workers,rfl,hworkers⟩ := workersWoken_signalSemaphore hu
    exact h.client hc hworkers rfl rfl rfl rfl rfl rfl (h.owner.set hc rfl) (by simp) id
  · next hc =>
    split_ifs at hs with hm
    cases hs
    exact h.client hc hsame rfl rfl rfl rfl rfl rfl
      (h.owner.lock hc (by simpa using hm) rfl) (by simp) id
  · next hc =>
    cases hs
    split_ifs
    · exact h.client hc hsame rfl rfl rfl rfl rfl rfl (h.owner.set hc rfl) (by simp) id
    · exact h.client hc hsame rfl rfl rfl rfl rfl rfl (h.owner.set hc rfl) (by simp) id
  · next hc =>
    split_ifs at hs
    · cases hs
      exact h.client hc hsame rfl rfl rfl rfl rfl rfl (h.owner.set hc rfl) (by simp) id
    · cases hs
      exact h.client hc hsame rfl rfl rfl rfl rfl rfl (h.owner.unlock hc rfl rfl) (by simp) id
  · next hc =>
    cases hs
    exact h.client hc hsame rfl rfl rfl rfl rfl rfl (h.owner.unlock hc rfl rfl) (by simp) id
  · next hc =>
    cases hs
    have hstopped := h.stopping _ (List.mem_of_getElem? hc) rfl
    split_ifs with hthreads
    · exact h.client hc hsame rfl rfl rfl rfl rfl rfl (h.owner.set hc rfl) (by simp) id
    · refine h.of_woken hsame rfl rfl rfl (h.owner.set hc rfl) ?_ fun _ =>
        h.all_done hstopped.1 hthreads
      exact Threads.forall_set h.stopping fun _ => hstopped
  · next hc =>
    cases hs
    refine h.client hc (fun _ f hf => ?_) rfl rfl rfl rfl rfl rfl (h.owner.set hc rfl) (by simp) id
    exact Threads.map_broadcast (map_semaphoreWait hf) s.workers
  · next hc =>
    obtain ⟨⟨jq,heap⟩,_,hs⟩ := Option.bind_eq_some_iff.mp hs
    cases hs
    refine h.of_woken hsame rfl rfl rfl (h.owner.set hc rfl) ?_ fun _ =>
      h.finished (.inl (List.mem_of_getElem? hc))
    exact Threads.forall_set h.stopping fun hx => by cases hx
  · cases hs

theorem step (h : Manned s) (hs : ThreadPool02.step s a = some (t,e)) : Manned t := by
  have hsame : WorkersWoken s s.workers := fun _ _ _ => rfl
  cases a with
  | createReturn =>
    rw [ThreadPool02.step] at hs
    split_ifs at hs with hall
    cases hs
    refine ⟨h.counted,h.few,fun _ pc hpc => ?_,h.owner,fun pc hpc hstop => ?_,h.finished⟩
    · -- all workers are counted in
      have hcount : s.workers.countP WorkerPc.isCounted = s.workers.length := by
        have hcounted := h.counted
        have hfew := h.few
        have hle := List.countP_le_length (p := WorkerPc.isCounted) (l := s.workers)
        omega
      have hcounted := List.countP_eq_length.mp hcount pc hpc
      rintro rfl
      cases hcounted
    · exact ⟨rfl,(h.stopping pc hpc hstop).2⟩
  | worker w wake =>
    obtain ⟨pc,job,hturn,_⟩ := workerStep_turn hs
    exact h.turn hturn (next_ne_start _ _ _ _)
  | client c wake =>
    rw [ThreadPool02.step] at hs
    split_ifs at hs
    exact h.clientStep hs
  | callAddTask c func arg stale mallocSucceeds =>
    rw [ThreadPool02.step] at hs
    split_ifs at hs with hc
    unfold callAddTask at hs
    split_ifs at hs
    · cases hs
      exact h.client hc.2 hsame rfl rfl rfl rfl rfl rfl (h.owner.set hc.2 rfl) (by simp) id
    · cases hs
      exact h
  | callWait c =>
    rw [ThreadPool02.step] at hs
    split_ifs at hs with hc
    cases hs
    exact h.client hc.2 hsame rfl rfl rfl rfl rfl rfl (h.owner.set hc.2 rfl) (by simp) id
  | callDestory c =>
    rw [ThreadPool02.step] at hs
    split_ifs at hs with hc
    cases hs
    refine h.of_woken hsame rfl rfl rfl (h.owner.set hc.1.2 rfl) ?_ ?_
    · exact fun _ _ _ => ⟨hc.1.1,rfl⟩
    · rintro (hmem | hr)
      · rcases List.mem_or_eq_of_mem_set hmem with hmem | heq
        · exact h.finished (.inl hmem)
        · cases heq
      · exact h.finished (.inr hr)
  | spuriousWorker w =>
    rw [ThreadPool02.step] at hs
    split_ifs at hs with hw
    cases hs
    exact h.of_woken (fun _ f hf => Threads.map_set_of_eq hw hf) rfl rfl rfl h.owner h.stopping
      h.finished
  | spuriousClient c =>
    rw [ThreadPool02.step] at hs
    split_ifs at hs with hc
    cases hs
    exact h.client hc hsame rfl rfl rfl rfl rfl rfl (h.owner.set hc rfl) (by simp) id

end Manned

theorem manned_create (numThreads : ℕ) (created : ℕ → Bool) (clients : ℕ) :
    Manned (threadPoolCreate numThreads created clients) := by
  refine ⟨?_,?_,fun h => (by cases h),?_,?_,?_⟩
  · have hzero : (threadPoolCreate numThreads created clients).workers.countP WorkerPc.isCounted = 0 :=
      Threads.countP_eq_zero_of_forall_eq (x := .start)
        (fun pc hpc => by obtain ⟨_,_,rfl⟩ := List.mem_map.mp hpc; rfl) rfl
    rw [hzero]
    rfl
  · have hle := List.length_filter_le created (List.range numThreads)
    simpa [threadPoolCreate] using hle
  · intro c
    simp only [threadPoolCreate,List.map_replicate,List.getElem?_replicate]
    split_ifs <;> simp [ClientPc.inLock]
  · intro pc hpc hstop
    rw [List.eq_of_mem_replicate hpc] at hstop
    cases hstop
  · rintro (hmem | hr)
    · cases List.eq_of_mem_replicate hmem
    · cases hr

/-- The steps worker `w` makes in a pool that has been stopped and whose flag is up. -/
def toGoOf (s : State) (w : ℕ) : ℕ := (s.workers[w]?).elim 0 WorkerPc.toGo

/-- The flag is up, or the pool is gone with all its workers. -/
def State.isPosted (s : State) : Prop :=
  s.pool.jobQueue.hasJob.value = true ∨ s.released = true

section Stopped
variable {s t : State} {w c v : ℕ} {wake : Option ℕ} {e : Event} {pc : WorkerPc} {a : Action}
  {events : List Event} {more : List Action}

theorem toGo_next (hblocked : pc.isBlocked = false) (hdone : pc ≠ .done) (job : Option Ptr) :
    (pc.next false true job).toGo < pc.toGo := by
  cases pc <;> simp_all [WorkerPc.next,WorkerPc.toGo,WorkerPc.isBlocked]

theorem isCommitted_next (flag : Bool) (job : Option Ptr) :
    (if (pc.next false flag job).isCommitted then 1 else 0)+(if pc.task?.isSome then 1 else 0) ≤
      if pc.isCommitted then 1 else 0 := by
  cases pc with
  | pull => cases job <;> simp [WorkerPc.next,WorkerPc.isCommitted,WorkerPc.task?]
  | execute task => cases task <;> simp [WorkerPc.next,WorkerPc.isCommitted,WorkerPc.task?]
  | semaphoreWait => cases flag <;> simp [WorkerPc.next,WorkerPc.isCommitted,WorkerPc.task?]
  | _ => simp [WorkerPc.next,WorkerPc.isCommitted,WorkerPc.task?]

theorem jobQueuePush_flag {jq jq' : JobQueue} {heap heap' : Heap Job} {p : Ptr}
    (hp : jobQueuePush jq heap p = some (jq',heap')) : jq'.hasJob.value = true := by
  obtain ⟨h₁,_,hp⟩ := Option.bind_eq_some_iff.mp hp
  split_ifs at hp
  · cases hp
    rfl
  · obtain ⟨last,_,hp⟩ := Option.bind_eq_some_iff.mp hp
    obtain ⟨h₂,_,hp⟩ := Option.bind_eq_some_iff.mp hp
    cases hp
    rfl

/-- A client or another call does not move the workers, and does not take the flag down. -/
theorem step_keeps (hs : step s a = some (t,e)) (hworker : ∀ w wake, a ≠ .worker w wake) :
    WorkersWoken s t.workers ∧ executedJobs [e] = [] ∧ (s.isPosted → t.isPosted) := by
  have hsame : WorkersWoken s s.workers := fun _ _ _ => rfl
  cases a with
  | worker w wake => exact absurd rfl (hworker w wake)
  | client c wake =>
    rw [step] at hs
    split_ifs at hs
    unfold clientStep at hs
    split at hs
    · obtain ⟨⟨jq,heap⟩,hp,hs⟩ := Option.bind_eq_some_iff.mp hs
      obtain ⟨u,hu,hs⟩ := Option.bind_eq_some_iff.mp hs
      cases hs
      obtain ⟨workers,rfl,hworkers⟩ := workersWoken_signalSemaphore hu
      exact ⟨hworkers,rfl,fun _ => .inl (jobQueuePush_flag hp)⟩
    · split_ifs at hs
      cases hs
      exact ⟨hsame,rfl,id⟩
    · cases hs; exact ⟨hsame,rfl,id⟩
    · split_ifs at hs <;> cases hs <;> exact ⟨hsame,rfl,id⟩
    · cases hs; exact ⟨hsame,rfl,id⟩
    · cases hs; exact ⟨hsame,rfl,id⟩
    · cases hs
      refine ⟨fun _ f hf => ?_,rfl,fun _ => .inl rfl⟩
      exact Threads.map_broadcast (map_semaphoreWait hf) s.workers
    · obtain ⟨⟨jq,heap⟩,_,hs⟩ := Option.bind_eq_some_iff.mp hs
      cases hs
      exact ⟨hsame,rfl,fun _ => .inr rfl⟩
    · cases hs
  | callAddTask c func arg stale mallocSucceeds =>
    rw [step] at hs
    split_ifs at hs
    unfold callAddTask at hs
    split_ifs at hs <;> cases hs <;> exact ⟨hsame,rfl,id⟩
  | spuriousWorker w =>
    rw [step] at hs
    split_ifs at hs with hw
    cases hs
    exact ⟨fun _ f hf => Threads.map_set_of_eq hw hf,rfl,id⟩
  | _ =>
    rw [step] at hs
    split_ifs at hs
    cases hs
    exact ⟨hsame,rfl,id⟩

theorem alive_eq_false_of_step (hs : step s a = some (t,e)) (hstop : s.pool.alive = false) :
    t.pool.alive = false := by
  cases halive : t.pool.alive with
  | false => rfl
  | true => exact absurd (alive_of_step hs halive) (by simp [hstop])

/-- In a pool that has been stopped no worker takes up another job. -/
theorem committed_step (hs : step s a = some (t,e)) (hstop : s.pool.alive = false) :
    (executedJobs [e]).length+t.workers.countP WorkerPc.isCommitted ≤
      s.workers.countP WorkerPc.isCommitted := by
  by_cases hworker : ∃ w wake, a = .worker w wake
  · obtain ⟨w,wake,rfl⟩ := hworker
    obtain ⟨pc,job,hturn,he,_⟩ := workerStep_turn hs
    have hcount := hturn.countP WorkerPc.isCommitted rfl
    rw [hstop] at hcount
    have hnext := @isCommitted_next pc s.pool.jobQueue.hasJob.value job
    omega
  · push Not at hworker
    obtain ⟨hwoken,he,_⟩ := step_keeps hs hworker
    rw [he,Threads.countP_eq_of_map (hwoken Bool WorkerPc.isCommitted rfl)]
    simp

theorem toGoOf_congr (hmap : t.workers.map WorkerPc.toGo = s.workers.map WorkerPc.toGo) (v : ℕ) :
    toGoOf t v = toGoOf s v := by
  have hget := congrArg (fun l : List ℕ => (l[v]?).elim 0 id) hmap
  simp only [List.getElem?_map] at hget
  unfold toGoOf
  cases hs : s.workers[v]? <;> cases ht : t.workers[v]? <;> simp_all

theorem toGoOf_step (hm : Manned s) (hs : step s a = some (t,e)) (hstop : s.pool.alive = false)
    (hposted : s.isPosted) :
    t.isPosted ∧ ∀ v, toGoOf t v+(if a.isStepOf v then 1 else 0) ≤ toGoOf s v := by
  by_cases hworker : ∃ w wake, a = .worker w wake
  · obtain ⟨w,wake,rfl⟩ := hworker
    obtain ⟨pc,job,hturn,_⟩ := workerStep_turn hs
    have hup : s.pool.jobQueue.hasJob.value = true := by
      refine hposted.resolve_right fun hr => hturn.awake.2 ?_
      exact hm.finished (.inr hr) pc (List.mem_of_getElem? hturn.here)
    refine ⟨.inl (hturn.flag hup),fun v => ?_⟩
    have hlt := toGo_next hturn.awake.1 hturn.awake.2 job
    have hmap := congrArg (fun l : List ℕ => (l[v]?).elim 0 id) (hturn.map WorkerPc.toGo rfl)
    rw [hstop,hup] at hmap
    have hsv : toGoOf s v = ((s.workers.map WorkerPc.toGo)[v]?).elim 0 id := by
      rw [toGoOf,List.getElem?_map]
      cases s.workers[v]? <;> rfl
    have htv : toGoOf t v = ((t.workers.map WorkerPc.toGo)[v]?).elim 0 id := by
      rw [toGoOf,List.getElem?_map]
      cases t.workers[v]? <;> rfl
    by_cases hv : v = w
    · subst hv
      have hlen : v < (s.workers.map WorkerPc.toGo).length := by
        simpa using (List.getElem?_eq_some_iff.mp hturn.here).1
      rw [List.getElem?_set_self hlen] at hmap
      have hhere : toGoOf s v = pc.toGo := by rw [toGoOf,hturn.here]; rfl
      rw [htv,hmap,hhere,Action.isStepOf,beq_self_eq_true,if_pos rfl]
      exact hlt
    · rw [List.getElem?_set_ne (Ne.symm hv)] at hmap
      have hnot : (Action.worker w wake).isStepOf v = false := by
        simpa [Action.isStepOf] using Ne.symm hv
      rw [htv,hmap,← hsv,hnot]
      simp
  · push Not at hworker
    obtain ⟨hwoken,_,hkeep⟩ := step_keeps hs hworker
    refine ⟨hkeep hposted,fun v => ?_⟩
    have hnot : a.isStepOf v = false := by
      cases a with
      | worker w wake => exact absurd rfl (hworker w wake)
      | _ => rfl
    rw [toGoOf_congr (hwoken ℕ WorkerPc.toGo rfl),hnot]
    simp

theorem committed_run (hrun : Machine.run step s more = some (t,events))
    (hstop : s.pool.alive = false) :
    (executedJobs events).length+t.workers.countP WorkerPc.isCommitted ≤
      s.workers.countP WorkerPc.isCommitted := by
  induction more generalizing s events with
  | nil =>
    cases hrun
    simp [executedJobs]
  | cons a more ih =>
    obtain ⟨u,e,os,hs,hrest,rfl⟩ := Machine.run_cons_eq_some.mp hrun
    have hone := committed_step hs hstop
    have hmany := ih hrest (alive_eq_false_of_step hs hstop)
    rw [← List.singleton_append,executedJobs,List.filterMap_append,List.length_append,← executedJobs,
      ← executedJobs]
    omega

theorem toGoOf_run (hm : Manned s) (hrun : Machine.run step s more = some (t,events))
    (hstop : s.pool.alive = false) (hposted : s.isPosted) (v : ℕ) :
    toGoOf t v+more.countP (Action.isStepOf v) ≤ toGoOf s v := by
  induction more generalizing s events with
  | nil =>
    cases hrun
    simp
  | cons a more ih =>
    obtain ⟨u,e,os,hs,hrest,rfl⟩ := Machine.run_cons_eq_some.mp hrun
    obtain ⟨hposted',hone⟩ := toGoOf_step hm hs hstop hposted
    have hmany := ih (hm.step hs) hrest (alive_eq_false_of_step hs hstop) hposted'
    have hv := hone v
    rw [List.countP_cons]
    omega

end Stopped

/-- The threads in the pool can bring it about that it is freed, with no other job being added. -/
def CanFree (s : State) : Prop :=
  ∃ more t events, (∀ a ∈ more, a.isStep = true) ∧ Machine.run step s more = some (t,events) ∧
    addedJobs events = [] ∧ t.released = true

/-- Client `d` is in the loop of `ThreadPoolDestory`, and has posted. -/
structure Closing (d : ℕ) (s : State) : Prop where
  released : s.released = false
  stopped : s.pool.alive = false
  posted : s.pool.jobQueue.hasJob.value = true
  awake : ∀ pc ∈ s.workers, pc.isBlocked = false
  here : s.clients[d]? = some .destoryTest

/-- The steps until all workers have left and no client has the pool mutex. -/
def endLoad (s : State) : ℕ := (s.workers.map WorkerPc.toGo).sum+(s.clients.map ClientPc.distance).sum

section Closing
variable {s t : State} {w d : ℕ} {wake : Option ℕ} {e : Event} {a : Action} {past : List Event}
  {rest : List Ptr}

theorem CanFree.cons (ha : a.isStep = true) (hs : step s a = some (t,e)) (he : addedJobs [e] = [])
    (h : CanFree t) : CanFree s := by
  obtain ⟨more,u,events,hmore,hrun,hadded,hr⟩ := h
  refine ⟨a::more,u,e::events,?_,?_,?_,hr⟩
  · intro b hb
    rcases List.mem_cons.mp hb with rfl | hb
    · exact ha
    · exact hmore b hb
  · rw [Machine.run_cons hs,hrun]
    rfl
  · rw [← List.singleton_append,addedJobs,List.filterMap_append,← addedJobs,← addedJobs,he,hadded]
    rfl

theorem Stocked.held (h : Stocked past s rest) :
    ∀ p ∈ s.workers.filterMap WorkerPc.task?, ∃ c, s.heap.read p = some c := fun _ hp =>
  h.inventory.read (List.mem_append_right _ (List.mem_append_left _ hp))

theorem canFree_of_destoryFree (hst : Stocked past s rest) (hr : s.released = false)
    (hd : s.clients[d]? = some .destoryFree) : CanFree s := by
  obtain ⟨heap,hclear,_⟩ := (hst.accounts.queue hr).clear
  have hs : step s (.client d none) = some ({ s with
      heap := heap
      released := true
      pool := { s.pool with jobQueue := jobQueueCreate } }.setClient d .idle,.silent) := by
    simp [step,hr,clientStep,hd,hclear]
  exact CanFree.cons rfl hs rfl ⟨[],_,[],by simp,rfl,rfl,rfl⟩

/-- `while (pool->alive_threads > 0)` ends when all workers have left. -/
theorem canFree_of_destoryTest (hst : Stocked past s rest) (hr : s.released = false)
    (hd : s.clients[d]? = some .destoryTest) (hzero : ¬ s.pool.aliveThreads > 0) : CanFree s := by
  have hs : step s (.client d none) = some (s.setClient d .destoryFree,.silent) := by
    simp only [step,hr,clientStep,hd,if_neg hzero]
    rfl
  obtain ⟨rest',hst'⟩ := hst.step hs
  have hd' : (s.setClient d .destoryFree).clients[d]? = some .destoryFree :=
    List.getElem?_set_self (List.getElem?_eq_some_iff.mp hd).1
  exact CanFree.cons rfl hs rfl (canFree_of_destoryFree hst' hr hd')

namespace Closing

/-- A step of a worker that has not left brings the end closer. -/
theorem turn {pc pc' : WorkerPc} (h : Closing d s) (ht : Moved s w pc pc' t)
    (hpc : pc'.isBlocked = false) (hlt : pc'.toGo < pc.toGo) :
    Closing d t ∧ endLoad t < endLoad s := by
  refine ⟨⟨ht.released.trans h.released,ht.alive.trans h.stopped,ht.flag h.posted,?_,?_⟩,?_⟩
  · obtain ⟨workers,_,hset,hawake⟩ := ht.workers
    rw [hset]
    exact Threads.forall_set (hawake h.awake) hpc
  · have hmap := congrArg (fun l : List Bool => l[d]?)
      (ht.clients Bool (fun pc => decide (pc = .destoryTest)) (by decide))
    simp only [List.getElem?_map,h.here,Option.map_some,Option.map_eq_some_iff] at hmap
    obtain ⟨x,hx,heq⟩ := hmap
    rw [hx,show x = .destoryTest by simpa using heq]
  · have hsum := Threads.sum_set (y := pc'.toGo) id
      (List.getElem?_map.trans (congrArg (Option.map WorkerPc.toGo) ht.here))
    simp only [List.map_id,id] at hsum
    rw [endLoad,endLoad,ht.clients ℕ ClientPc.distance rfl,ht.map WorkerPc.toGo rfl]
    omega

theorem progress (h : Closing d s) (hm : Manned s) (hst : Stocked past s rest)
    (hbusy : ∃ pc ∈ s.workers, pc ≠ .done) :
    ∃ a t e, a.isStep = true ∧ step s a = some (t,e) ∧ addedJobs [e] = [] ∧ Closing d t ∧
      endLoad t < endLoad s := by
  cases hmutex : s.mutex with
  | some c =>
    obtain ⟨t,e,pc',hs,he,hpool,hr,hworkers,hclients,hlt⟩ :=
      holder_step hm.owner h.released hmutex
    have hcd : c ≠ d := by
      rintro rfl
      have hlock := (hm.owner c).mp hmutex
      rw [List.getElem?_map,h.here] at hlock
      cases hlock
    refine ⟨.client c none,t,e,rfl,hs,he,⟨hr.trans h.released,?_,?_,?_,?_⟩,?_⟩
    · rw [hpool]
      exact h.stopped
    · rw [hpool]
      exact h.posted
    · rw [hworkers]
      exact h.awake
    · rw [hclients,List.getElem?_set_ne hcd]
      exact h.here
    · rw [endLoad,endLoad,hworkers]
      omega
  | none =>
    obtain ⟨pc,hpc,hdone⟩ := hbusy
    obtain ⟨w,hw⟩ := List.mem_iff_getElem?.mp hpc
    obtain ⟨wake,t,e,hs⟩ := exists_workerStep h.released hst.held hst.accounts hmutex hw
      (h.awake pc hpc) hdone
    obtain ⟨pc₁,job,hturn,_,he⟩ := workerStep_turn hs
    rw [h.stopped,h.posted] at hturn
    have hawake : (pc₁.next false true job).isBlocked = false := by
      have hblocked := hturn.awake.1
      cases pc₁ <;> simp_all [WorkerPc.next,WorkerPc.isBlocked]
    exact ⟨.worker w wake,t,e,rfl,hs,he,
      h.turn hturn hawake (toGo_next hturn.awake.1 hturn.awake.2 job)⟩

theorem canFree (h : Closing d s) (hm : Manned s) (hst : Stocked past s rest) : CanFree s := by
  induction hload : endLoad s using Nat.strong_induction_on generalizing s past rest with
  | _ m ih =>
    by_cases hbusy : ∃ pc ∈ s.workers, pc ≠ .done
    · obtain ⟨a,t,e,ha,hs,he,ht,hlt⟩ := h.progress hm hst hbusy
      obtain ⟨rest',hst'⟩ := hst.step hs
      exact CanFree.cons ha hs he (ih (endLoad t) (hload ▸ hlt) ht (hm.step hs) hst' rfl)
    · push Not at hbusy
      have hzero : s.workers.countP WorkerPc.isCounted = 0 :=
        List.countP_eq_zero.mpr fun pc hpc => by simp [hbusy pc hpc,WorkerPc.isCounted]
      have hcounted := hm.counted
      exact canFree_of_destoryTest hst h.released h.here (by omega)

end Closing

theorem canFree_of_destoryPost (hm : Manned s) (hst : Stocked past s rest) (hr : s.released = false)
    (hstop : s.pool.alive = false) (hd : s.clients[d]? = some .destoryPost) : CanFree s := by
  obtain ⟨t,hs,ht⟩ : ∃ t, step s (.client d none) = some (t,.silent) ∧ Closing d t := by
    refine ⟨(broadcastSemaphore { s with pool := { s.pool with jobQueue := { s.pool.jobQueue with
      hasJob := binarySemaphorePost s.pool.jobQueue.hasJob } } }).setClient d .destoryTest,?_,
      hr,hstop,rfl,?_,?_⟩
    · simp only [step,hr,clientStep,hd,Bool.false_eq_true,if_false]
    · intro pc hpc
      obtain ⟨x,_,rfl⟩ := List.mem_map.mp hpc
      split_ifs with hx
      · rfl
      · simpa using hx
    · exact List.getElem?_set_self (List.getElem?_eq_some_iff.mp hd).1
  obtain ⟨rest',hst'⟩ := hst.step hs
  exact CanFree.cons rfl hs rfl (ht.canFree (hm.step hs) hst')

theorem canFree_of_hasStopped {pc : ClientPc} (hm : Manned s) (hst : Stocked past s rest)
    (hr : s.released = false) (hd : s.clients[d]? = some pc) (hpc : pc.hasStopped = true) :
    CanFree s := by
  have hstop := (hm.stopping pc (List.mem_of_getElem? hd) hpc).2
  cases pc with
  | destoryFree => exact canFree_of_destoryFree hst hr hd
  | destoryPost => exact canFree_of_destoryPost hm hst hr hstop hd
  | destoryTest =>
    by_cases hthreads : s.pool.aliveThreads > 0
    · have hs : step s (.client d none) = some (s.setClient d .destoryPost,.silent) := by
        simp only [step,hr,clientStep,hd,if_pos hthreads]
        rfl
      obtain ⟨rest',hst'⟩ := hst.step hs
      have hd' : (s.setClient d .destoryPost).clients[d]? = some .destoryPost :=
        List.getElem?_set_self (List.getElem?_eq_some_iff.mp hd).1
      exact CanFree.cons rfl hs rfl (canFree_of_destoryPost (hm.step hs) hst' hr hstop hd')
    · exact canFree_of_destoryTest hst hr hd hthreads
  | _ => cases hpc

end Closing

/-- From the moment `ThreadPoolDestory` has cleared `alive`, whatever the threads do, no more jobs are
executed than workers have already gone for, and from the first post on each worker has at most
seven steps left. As long as the pool has not been freed, the threads in it can get it freed; then
all workers have left, an initial part of the added jobs has been executed, and of all jobs only
those are still allocated that clients are about to push. -/
theorem destory_finishes (numThreads : ℕ) (created : ℕ → Bool) (clients d : ℕ) (pc : ClientPc)
    (actions : List Action) (s : State) (past : List Event)
    (hpast : Machine.run step (threadPoolCreate numThreads created clients) actions = some (s,past))
    (hd : s.clients[d]? = some pc) (hpc : pc.hasStopped = true) (hr : s.released = false) :
    (∀ more t events, Machine.run step s more = some (t,events) →
      (executedJobs events).length ≤ s.workers.countP WorkerPc.isCommitted ∧
      (s.pool.jobQueue.hasJob.value = true → ∀ w, more.countP (Action.isStepOf w) ≤ 7)) ∧
    ∃ more t events, (∀ a ∈ more, a.isStep = true) ∧ Machine.run step s more = some (t,events) ∧
      addedJobs events = [] ∧ t.released = true ∧ (∀ pc ∈ t.workers, pc = .done) ∧
      (∃ served dropped, addedJobs past = served++dropped ∧
        (executedJobs (past++events)).Perm served) ∧
      ∀ p, (t.heap.read p).isSome ↔ p ∈ t.clients.filterMap ClientPc.task? := by
  have hinv : ∀ {s past actions}, Machine.run step (threadPoolCreate numThreads created clients)
      actions = some (s,past) → Manned s := fun hrun =>
    Machine.run_keeps Manned (fun _ _ _ _ hi hs => hi.step hs)
      (manned_create numThreads created clients) hrun
  have hm := hinv hpast
  obtain ⟨rest,hst⟩ := stocked_run hpast
  have hstop := (hm.stopping pc (List.mem_of_getElem? hd) hpc).2
  refine ⟨fun more t events hrun => ⟨?_,fun hup w => ?_⟩,?_⟩
  · have hle := committed_run hrun hstop
    omega
  · have hle := toGoOf_run hm hrun hstop (.inl hup) w
    have hseven : toGoOf s w ≤ 7 := by
      unfold toGoOf
      cases s.workers[w]? with
      | none => exact Nat.zero_le _
      | some x => cases x <;> simp [WorkerPc.toGo]
    omega
  · obtain ⟨more,t,events,hmore,hrun,hadded,hreleased⟩ := canFree_of_hasStopped hm hst hr hd hpc
    have hwhole := Machine.run_append.mpr ⟨s,past,events,hpast,hrun,rfl⟩
    have hdone := (hinv hwhole).finished (.inr hreleased)
    obtain ⟨rest',hacc,hi⟩ := stocked_run hwhole
    have hheld : t.workers.filterMap WorkerPc.task? = [] :=
      Threads.filterMap_eq_nil_of_forall_eq hdone rfl
    refine ⟨more,t,events,hmore,hrun,hadded,hreleased,hdone,
      ⟨pulledJobs (past++events),rest',?_,?_⟩,fun p => ?_⟩
    · have horder := hacc.flow.order
      rwa [addedJobs,List.filterMap_append,← addedJobs,← addedJobs,hadded,List.append_nil] at horder
    · have haccounted := hacc.flow.accounted
      rw [hheld,List.append_nil] at haccounted
      exact haccounted.symm
    · rw [hi.live,hreleased,State.carried,hheld]
      rfl

/-- The pool is stopped while its only worker has gone for the first of two jobs. -/
theorem destory_finishes_test : ∃ s past more t events,
    Machine.run step (threadPoolCreate 1 (fun _ => true) 1)
      ([.worker 0 none,.createReturn,.callAddTask 0 0 0 none true,.client 0 none,
        .callAddTask 0 0 0 none true,.client 0 none]++List.replicate 4 (.worker 0 none)++
        [.callDestory 0]) = some (s,past) ∧
    Machine.run step s more = some (t,events) ∧ t.released = true ∧
    (executedJobs events).length ≤ 1 ∧ ∀ p, t.heap.read p = none ↔
      p ∉ t.clients.filterMap ClientPc.task? := by
  have hview : (Machine.run step (threadPoolCreate 1 (fun _ => true) 1)
      ([.worker 0 none,.createReturn,.callAddTask 0 0 0 none true,.client 0 none,
        .callAddTask 0 0 0 none true,.client 0 none]++List.replicate 4 (.worker 0 none)++
        [.callDestory 0])).map (fun r => (r.1.clients[0]?,r.1.released,
          r.1.workers.countP WorkerPc.isCommitted)) = some (some .destoryTest,false,1) := rfl
  obtain ⟨⟨s,past⟩,hrun,hs⟩ := Option.map_eq_some_iff.mp hview
  obtain ⟨hd,hs⟩ := Prod.mk.inj hs
  obtain ⟨hr,hcommitted⟩ := Prod.mk.inj hs
  obtain ⟨hbound,more,t,events,_,hmore,_,hreleased,_,_,hlive⟩ :=
    destory_finishes 1 (fun _ => true) 1 0 .destoryTest _ s past hrun hd rfl hr
  refine ⟨s,past,more,t,events,hrun,hmore,hreleased,?_,fun p => ?_⟩
  · have hle := (hbound more t events hmore).1
    rwa [hcommitted] at hle
  · rw [← hlive p,← Option.not_isSome_iff_eq_none]

end CStudy.ThreadPool02
