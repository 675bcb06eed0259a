import CStudy.ThreadPool02.Jobs
import CStudy.ThreadPool02.Semaphore

/-! How the pool uses its semaphore. As long as `ThreadPoolDestory` does not come to
`BinarySemaphorePostAll`, every run of the pool is a run of the semaphore on its own, whose threads
are the workers followed by the clients. A push posts once, and a pull posts when it leaves a job
behind. -/
namespace CStudy.ThreadPool02.Semaphore
open CStudy.Foundation

/-- Where a worker of the pool is in the functions of the semaphore. -/
def workerPc : WorkerPc → Pc
  | .semaphoreWait => .wait
  | .semaphoreBlocked => .blocked
  | _ => .outside

/-- What the semaphore sees of the pool. -/
def view (s : ThreadPool02.State) : State :=
  ⟨s.pool.jobQueue.hasJob,s.workers.map workerPc++List.replicate s.clients.length .outside⟩

/-- The steps of the semaphore in a step of a worker. -/
def workerUses (s : ThreadPool02.State) (w : ℕ) (wake : Option ℕ) : List Action :=
  match s.workers[w]? with
  | some .loopTest => if s.pool.alive then [.callWait w] else []
  | some .semaphoreWait => [.wait w]
  | some .pull => if 2 ≤ s.pool.jobQueue.length then [.callPost w,.post w wake] else []
  | _ => []

/-- And in a step of a client, which is the thread behind all workers. -/
def clientUses (s : ThreadPool02.State) (c : ℕ) (wake : Option ℕ) : List Action :=
  match s.clients[c]? with
  | some (.addTask _) => [.callPost (s.workers.length+c),.post (s.workers.length+c) wake]
  | _ => []

def uses (s : ThreadPool02.State) : ThreadPool02.Action → List Action
  | .worker w wake => workerUses s w wake
  | .client c wake => clientUses s c wake
  | .spuriousWorker w => [.spurious w]
  | _ => []

/-- The step is one of `ThreadPoolDestory` on the semaphore. -/
def shutsDown (s : ThreadPool02.State) : ThreadPool02.Action → Bool
  | .client c _ => s.clients[c]? == some .destoryPost || s.clients[c]? == some .destoryFree
  | _ => false

def usesAlong : ThreadPool02.State → List ThreadPool02.Action → List Action
  | _,[] => []
  | s,a::actions => uses s a++
    match ThreadPool02.step s a with
    | some (t,_) => usesAlong t actions
    | none => []

section Posts
variable {s : State} {i : ℕ} {wake : Option ℕ} {threads : List Pc}

/-- A call of `BinarySemaphorePost` that is not interrupted. -/
theorem run_post (hi : s.threads[i]? = some .outside)
    (hsignal : Threads.signal Pc.isBlocked (fun _ => .wait) s.threads wake = some threads) :
    Machine.run step s [.callPost i,.post i wake] =
      some (⟨binarySemaphorePost s.semaphore,threads.set i .outside⟩,[.postCalled i,.silent]) := by
  have hcall : step s (.callPost i) = some (s.setThread i .post,.postCalled i) := if_pos hi
  have hlt := (List.getElem?_eq_some_iff.mp hi).1
  have hat : (s.setThread i .post).threads[i]? = some .post := by
    simp [State.setThread,hlt]
  have hset : Threads.signal Pc.isBlocked (fun _ => .wait) (s.setThread i .post).threads wake =
      some (threads.set i .post) := Threads.signal_set hi rfl rfl hsignal
  have hpost : step (s.setThread i .post) (.post i wake) =
      some (⟨binarySemaphorePost s.semaphore,threads.set i .outside⟩,.silent) := by
    rw [step,if_pos hat,postSection,hset]
    simp [State.setThread]
  rw [Machine.run_cons hcall,Machine.run_cons hpost]
  rfl

end Posts

section View
variable {s t : ThreadPool02.State} {w c : ℕ} {wake : Option ℕ} {pc pc' : WorkerPc}

theorem view_thread (hw : s.workers[w]? = some pc) : (view s).threads[w]? = some (workerPc pc) := by
  have hlt := (List.getElem?_eq_some_iff.mp hw).1
  rw [view,List.getElem?_append_left (by simpa using hlt),List.getElem?_map,hw,Option.map_some]

theorem view_setWorker (hlt : w < s.workers.length) :
    view (s.setWorker w pc') = (view s).setThread w (workerPc pc') := by
  simp [view,ThreadPool02.State.setWorker,State.setThread,hlt]

theorem view_same (hjob : t.pool.jobQueue.hasJob = s.pool.jobQueue.hasJob)
    (hworkers : t.workers.map workerPc = s.workers.map workerPc)
    (hclients : t.clients.length = s.clients.length) : view t = view s := by
  rw [view,view,hjob,hworkers,hclients]

theorem view_setClient (s : ThreadPool02.State) (c : ℕ) (pc : ClientPc) :
    view (s.setClient c pc) = view s := view_same rfl rfl List.length_set

/-- The signal reaches the same worker. -/
theorem view_signalSemaphore (h : signalSemaphore s wake = some t) :
    Threads.signal Pc.isBlocked (fun _ => .wait) (view s).threads wake = some (view t).threads ∧
      (view t).semaphore = (view s).semaphore := by
  obtain ⟨workers,hw,hr⟩ := Option.bind_eq_some_iff.mp h
  cases hr
  refine ⟨Threads.signal_append ?_ (Threads.signal_map ?_ ?_ hw),rfl⟩
  · intro x hx
    rw [List.eq_of_mem_replicate hx]
    rfl
  · intro x
    cases x <;> rfl
  · intro x _
    rfl

theorem view_client (hc : c < s.clients.length) :
    (view s).threads[s.workers.length+c]? = some .outside := by
  have hlen : (s.workers.map workerPc).length = s.workers.length := List.length_map workerPc
  rw [view,List.getElem?_append_right (by omega),hlen,Nat.add_sub_cancel_left,
    List.getElem?_replicate,if_pos hc]

end View

/-- The semaphore can take these steps when the pool goes from `s` to `t`. -/
def Follows (s t : ThreadPool02.State) (used : List Action) : Prop :=
  ∃ past, Machine.run step (view s) used = some (view t,past)

section Steps
variable {s t u v : ThreadPool02.State} {w c i : ℕ} {wake : Option ℕ} {e : ThreadPool02.Event}

theorem follows_same (h : view t = view s) : Follows s t [] := by
  refine ⟨[],?_⟩
  rw [h,Machine.run_nil]

theorem follows_one {a : Action} {event : Event} (h : step (view s) a = some (view t,event)) :
    Follows s t [a] := by
  refine ⟨[event],?_⟩
  rw [Machine.run_cons h,Machine.run_nil]
  rfl

/-- The queue posts, and the thread `i` that has called it goes on. -/
theorem follows_post (hi : (view s).threads[i]? = some .outside)
    (hpost : view u = ⟨binarySemaphorePost (view s).semaphore,(view s).threads⟩)
    (hsignal : signalSemaphore u wake = some v)
    (ht : view t = (view v).setThread i .outside) :
    Follows s t [.callPost i,.post i wake] := by
  obtain ⟨hthreads,hsemaphore⟩ := view_signalSemaphore hsignal
  rw [hpost] at hthreads hsemaphore
  have hrun := run_post hi hthreads
  refine ⟨[.postCalled i,.silent],?_⟩
  rw [hrun,ht,State.setThread,hsemaphore]

theorem pullJob_hasJob {jq jq' : JobQueue} {heap : Heap Job} {job : Option Ptr} {posted : Bool}
    (h : jobQueuePull jq heap = some (jq',job,posted)) :
    posted = decide (2 ≤ jq.length) ∧
      jq'.hasJob = if posted then binarySemaphorePost jq.hasJob else jq.hasJob := by
  unfold jobQueuePull at h
  split_ifs at h with hzero hone
  · cases h
    exact ⟨(decide_eq_false (by omega)).symm,rfl⟩
  · cases h
    exact ⟨(decide_eq_false (by omega)).symm,rfl⟩
  · obtain ⟨p,_,h⟩ := Option.bind_eq_some_iff.mp h
    obtain ⟨d,_,h⟩ := Option.bind_eq_some_iff.mp h
    cases h
    exact ⟨(decide_eq_true (by omega)).symm,rfl⟩

theorem jobQueuePush_hasJob {jq jq' : JobQueue} {heap heap' : Heap Job} {job : Ptr}
    (h : jobQueuePush jq heap job = some (jq',heap')) :
    jq'.hasJob = binarySemaphorePost jq.hasJob := by
  obtain ⟨heap₁,_,h⟩ := Option.bind_eq_some_iff.mp h
  split_ifs at h
  · cases h
    rfl
  · obtain ⟨last,_,h⟩ := Option.bind_eq_some_iff.mp h
    obtain ⟨heap₂,_,h⟩ := Option.bind_eq_some_iff.mp h
    cases h
    rfl

theorem pullJob_follows (hw : s.workers[w]? = some .pull)
    (h : pullJob s w wake = some (t,e)) :
    Follows s t (if 2 ≤ s.pool.jobQueue.length then [.callPost w,.post w wake] else []) := by
  obtain ⟨⟨jq,job,posted⟩,hpull,h⟩ := Option.bind_eq_some_iff.mp h
  obtain ⟨hlen,hjob⟩ := pullJob_hasJob hpull
  have hlt := (List.getElem?_eq_some_iff.mp hw).1
  dsimp only at h
  split_ifs at h with hposted
  · obtain ⟨v,hv,h⟩ := Option.bind_eq_some_iff.mp h
    cases h
    rw [hposted] at hlen hjob
    rw [if_pos (of_decide_eq_true hlen.symm)]
    refine follows_post (view_thread hw) ?_ hv ?_
    · simp only [view,hjob]
      rfl
    · exact view_setWorker (by rw [(signalSemaphore_frame hv).2.1]; exact hlt)
  · cases h
    rw [Bool.eq_false_of_not_eq_true hposted] at hlen hjob
    rw [if_neg (of_decide_eq_false hlen.symm)]
    exact follows_same (view_same hjob (Threads.map_set_of_eq hw rfl) rfl)

theorem countOut_follows (hw : s.workers[w]? = some .countOut)
    (h : countOut s w wake = some (t,e)) : Follows s t [] := by
  unfold countOut at h
  dsimp only at h
  split_ifs at h
  · obtain ⟨u,hu,h⟩ := Option.bind_eq_some_iff.mp h
    cases h
    obtain ⟨hpool,_,hworkers,hclients⟩ := signalPool_frame hu
    refine follows_same (view_same ?_ ?_ hclients)
    · change u.pool.jobQueue.hasJob = _
      rw [hpool]
    · change (u.workers.set w .loopTest).map workerPc = _
      rw [hworkers]
      exact Threads.map_set_of_eq hw rfl
  · cases h
    exact follows_same (view_same rfl (Threads.map_set_of_eq hw rfl) rfl)

/-- A worker comes to the semaphore, or sees that the pool is shut down. -/
theorem loopTest_follows (hw : s.workers[w]? = some .loopTest) :
    Follows s (s.setWorker w (if s.pool.alive then .semaphoreWait else .leave))
      (if s.pool.alive then [.callWait w] else []) := by
  have hlt := (List.getElem?_eq_some_iff.mp hw).1
  have hat : (view s).threads[w]? = some .outside := view_thread hw
  split_ifs
  · apply follows_one
    rw [step,if_pos hat,view_setWorker hlt]
    rfl
  · exact follows_same (view_same rfl (Threads.map_set_of_eq hw rfl) rfl)

/-- The test of the flag. -/
theorem semaphoreWait_follows (hw : s.workers[w]? = some .semaphoreWait) :
    Follows s (s.setWorker w (if s.pool.jobQueue.hasJob.value then .aliveTest
      else .semaphoreBlocked)) [.wait w] := by
  have hlt := (List.getElem?_eq_some_iff.mp hw).1
  have hwait : step (view s) (.wait w) = some (waitSection (view s) w) := if_pos (view_thread hw)
  have hflag : (view s).semaphore = s.pool.jobQueue.hasJob := rfl
  split_ifs with hvalue
  · apply follows_one
    rw [hwait,waitSection,hflag,if_pos hvalue,view_setWorker hlt]
    rfl
  · apply follows_one
    rw [hwait,waitSection,hflag,if_neg hvalue,view_setWorker hlt]
    rfl

theorem workerStep_follows (h : workerStep s w wake = some (t,e)) :
    Follows s t (workerUses s w wake) := by
  unfold workerStep at h
  unfold workerUses
  split at h
  · next task hw =>
    rw [hw]
    cases task with
    | none =>
      cases h
      exact follows_same (view_same rfl (Threads.map_set_of_eq hw rfl) rfl)
    | some p =>
      obtain ⟨d,_,h⟩ := Option.bind_eq_some_iff.mp h
      cases h
      exact follows_same (view_same rfl (Threads.map_set_of_eq hw rfl) rfl)
  · next pc _ hw =>
    rw [hw]
    split at h
    · cases h
    cases pc with
    | start | countIn | leave =>
      have hbody := locked_eq_some h
      cases hbody
      exact follows_same (view_same rfl (Threads.map_set_of_eq hw rfl) rfl)
    | loopTest =>
      cases h
      exact loopTest_follows hw
    | semaphoreWait =>
      cases h
      exact semaphoreWait_follows hw
    | aliveTest =>
      cases h
      refine follows_same (view_same rfl (Threads.map_set_of_eq hw ?_) rfl)
      split_ifs <;> rfl
    | pull => exact pullJob_follows hw h
    | countOut => exact countOut_follows hw (locked_eq_some h)
    | semaphoreBlocked | execute | done => cases h
  · cases h

theorem set_outside {threads : List Pc} (hi : threads[i]? = some .outside) :
    threads.set i .outside = threads := by
  obtain ⟨hlt,hat⟩ := List.getElem?_eq_some_iff.mp hi
  rw [← hat,List.set_getElem_self]

theorem clientStep_follows (hnot : shutsDown s (.client c wake) = false)
    (h : clientStep s c wake = some (t,e)) : Follows s t (clientUses s c wake) := by
  unfold clientStep at h
  unfold clientUses
  split at h
  · next task hc =>
    rw [hc]
    obtain ⟨⟨jq,heap⟩,hpush,h⟩ := Option.bind_eq_some_iff.mp h
    obtain ⟨v,hv,h⟩ := Option.bind_eq_some_iff.mp h
    cases h
    have hlt := (List.getElem?_eq_some_iff.mp hc).1
    obtain ⟨_,hworkers,hclients⟩ := signalSemaphore_frame hv
    refine follows_post (view_client hlt) ?_ hv ?_
    · simp only [view,jobQueuePush_hasJob hpush]
    · have hat : (view v).threads[s.workers.length+c]? = some .outside := by
        have hcaller := view_client (s := v) (c := c) (by rw [hclients]; exact hlt)
        rwa [hworkers] at hcaller
      rw [view_setClient,State.setThread,set_outside hat]
  · next hc =>
    rw [hc]
    split_ifs at h
    cases h
    exact follows_same (view_setClient _ c _)
  · next hc =>
    rw [hc]
    cases h
    exact follows_same (view_setClient _ c _)
  · next hc =>
    rw [hc]
    split_ifs at h
    · cases h
      exact follows_same (view_setClient _ c _)
    · cases h
      exact follows_same (view_setClient _ c _)
  · next hc =>
    rw [hc]
    cases h
    exact follows_same (view_setClient _ c _)
  · next hc =>
    rw [hc]
    cases h
    exact follows_same (view_setClient _ c _)
  · next hc => simp [shutsDown,hc] at hnot
  · next hc => simp [shutsDown,hc] at hnot
  · cases h

/-- A step of the pool is no step of the semaphore, or one, or a whole call of
`BinarySemaphorePost`. -/
theorem step_follows {a : ThreadPool02.Action} (hnot : shutsDown s a = false)
    (h : ThreadPool02.step s a = some (t,e)) : Follows s t (uses s a) := by
  cases a with
  | createReturn =>
    rw [ThreadPool02.step] at h
    split_ifs at h
    cases h
    exact follows_same rfl
  | worker w wake => exact workerStep_follows h
  | client c wake =>
    rw [ThreadPool02.step] at h
    split_ifs at h
    exact clientStep_follows hnot h
  | callAddTask c func arg stale mallocSucceeds =>
    rw [ThreadPool02.step] at h
    split_ifs at h
    unfold callAddTask at h
    split_ifs at h
    · cases h
      exact follows_same (view_setClient _ c _)
    · cases h
      exact follows_same rfl
  | callWait c | callDestory c | spuriousClient c =>
    rw [ThreadPool02.step] at h
    split_ifs at h
    cases h
    exact follows_same (view_setClient _ c _)
  | spuriousWorker w =>
    rw [ThreadPool02.step] at h
    split_ifs at h with hw
    cases h
    have hlt := (List.getElem?_eq_some_iff.mp hw).1
    have hat : (view s).threads[w]? = some .blocked := view_thread hw
    apply follows_one
    rw [step,if_pos hat,view_setWorker hlt]
    rfl

end Steps

/-- Every run of the pool that does not shut the semaphore down is a run of the semaphore. -/
theorem run_follows {s t : ThreadPool02.State} {actions : List ThreadPool02.Action}
    {events : List ThreadPool02.Event}
    (hnot : Machine.EachCall ThreadPool02.step (fun s a => shutsDown s a = false) s actions)
    (hrun : Machine.run ThreadPool02.step s actions = some (t,events)) :
    Follows s t (usesAlong s actions) := by
  induction actions generalizing s events with
  | nil =>
    cases hrun
    exact follows_same rfl
  | cons a actions ih =>
    obtain ⟨u,e,events',hstep,hrest,_⟩ := Machine.run_cons_eq_some.mp hrun
    obtain ⟨hfirst,hnot⟩ := (Machine.eachCall_cons _ hstep).mp hnot
    obtain ⟨past,hpast⟩ := step_follows hfirst hstep
    obtain ⟨later,hlater⟩ := ih hnot hrest
    refine ⟨past++later,?_⟩
    rw [usesAlong,hstep]
    exact Machine.run_append.mpr ⟨view u,past,later,hpast,hlater,rfl⟩

theorem view_create (numThreads : ℕ) (created : ℕ → Bool) (clients : ℕ) :
    view (threadPoolCreate numThreads created clients) =
      create (((List.range numThreads).filter created).length+clients) := by
  rw [view,create,← List.replicate_append_replicate]
  simp only [threadPoolCreate,List.map_map,List.length_replicate]
  congr 1
  rw [← List.map_const']
  rfl

/-- How often the workers of a pool have passed the semaphore, and how often it was posted, told
from the schedule: from the first post on no worker that comes to the semaphore is held. -/
theorem pool_passes (numThreads : ℕ) (created : ℕ → Bool) (clients : ℕ)
    (actions : List ThreadPool02.Action) (t : ThreadPool02.State)
    (events : List ThreadPool02.Event)
    (hnot : Machine.EachCall ThreadPool02.step (fun s a => shutsDown s a = false)
      (threadPoolCreate numThreads created clients) actions)
    (hrun : Machine.run ThreadPool02.step (threadPoolCreate numThreads created clients) actions =
      some (t,events)) :
    ∃ past, Machine.run step (create (((List.range numThreads).filter created).length+clients))
        (usesAlong (threadPoolCreate numThreads created clients) actions) = some (view t,past) ∧
      past.countP Event.isWaitReturned =
        waitsAfterPost (usesAlong (threadPoolCreate numThreads created clients) actions) ∧
      past.countP Event.isPostCalled =
        (usesAlong (threadPoolCreate numThreads created clients) actions).countP
          Action.isCallPost := by
  obtain ⟨past,hpast⟩ := run_follows hnot hrun
  rw [view_create] at hpast
  exact ⟨past,hpast,countP_waitReturned_of_down rfl hpast,countP_postCalled hpast⟩

end CStudy.ThreadPool02.Semaphore
