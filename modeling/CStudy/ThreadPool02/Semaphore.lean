import CStudy.ThreadPool02.Model

/-! The semaphore of `thread_pool02` on its own, with any threads that call its functions. A section
under its mutex is one step. Nothing takes the flag down again, so from the first post on every
thread that comes to the test of `BinarySemaphoreWait` passes it. -/
namespace CStudy.ThreadPool02.Semaphore
open CStudy.Foundation

/-- Where a thread is in the functions of the semaphore. -/
inductive Pc
  | outside
  /-- before the lock in `BinarySemaphorePost` -/
  | post
  /-- before the lock in `BinarySemaphoreWait`, or woken and about to lock again -/
  | wait
  /-- in `pthread_cond_wait` -/
  | blocked
  deriving DecidableEq

structure State where
  semaphore : BinarySemaphore
  threads : List Pc

inductive Event
  | silent
  | postCalled (thread : ℕ)
  | waitReturned (thread : ℕ)
  deriving DecidableEq

/-- Who moves. The section of `BinarySemaphorePost` signals the thread `wake`. -/
inductive Action
  | callPost (i : ℕ)
  | callWait (i : ℕ)
  | post (i : ℕ) (wake : Option ℕ)
  | wait (i : ℕ)
  | spurious (i : ℕ)
  deriving DecidableEq

def Pc.isBlocked : Pc → Bool
  | .blocked => true
  | _ => false

def State.setThread (s : State) (i : ℕ) (pc : Pc) : State := { s with threads := s.threads.set i pc }

/-- The section of `BinarySemaphorePost`. -/
def postSection (s : State) (i : ℕ) (wake : Option ℕ) : Option State := do
  let threads ← Threads.signal Pc.isBlocked (fun _ => .wait) s.threads wake
  return State.setThread ⟨binarySemaphorePost s.semaphore,threads⟩ i .outside

/-- `while (!bs->value)` with the lock: the thread returns, or goes to sleep. -/
def waitSection (s : State) (i : ℕ) : State × Event :=
  if s.semaphore.value then (s.setThread i .outside,.waitReturned i)
  else (s.setThread i .blocked,.silent)

def step : Machine State Action Event
  | s,.callPost i =>
    if s.threads[i]? = some .outside then some (s.setThread i .post,.postCalled i) else none
  | s,.callWait i =>
    if s.threads[i]? = some .outside then some (s.setThread i .wait,.silent) else none
  | s,.post i wake =>
    if s.threads[i]? = some .post then (postSection s i wake).map fun t => (t,.silent) else none
  | s,.wait i => if s.threads[i]? = some .wait then some (waitSection s i) else none
  | s,.spurious i =>
    if s.threads[i]? = some .blocked then some (s.setThread i .wait,.silent) else none

/-- A new semaphore, and threads that have not called it yet. -/
def create (threads : ℕ) : State := ⟨binarySemaphoreCreate,List.replicate threads .outside⟩

def Event.isPostCalled : Event → Bool
  | .postCalled _ => true
  | _ => false

def Event.isWaitReturned : Event → Bool
  | .waitReturned _ => true
  | _ => false

def Action.isCallPost : Action → Bool
  | .callPost _ => true
  | _ => false

def Action.isPost : Action → Bool
  | .post _ _ => true
  | _ => false

def Action.isWait : Action → Bool
  | .wait _ => true
  | _ => false

/-- The sections of `BinarySemaphoreWait` from the first section of `BinarySemaphorePost` on. -/
def waitsAfterPost (actions : List Action) : ℕ :=
  (actions.dropWhile fun a => !a.isPost).countP Action.isWait

section Runs
variable {s t : State} {a : Action} {e : Event} {actions : List Action} {events : List Event}

/-- What a step does to the flag, and which event it is. -/
theorem step_flag (h : step s a = some (t,e)) :
    t.semaphore.value = (s.semaphore.value || a.isPost) ∧
      e.isWaitReturned = (s.semaphore.value && a.isWait) ∧ e.isPostCalled = a.isCallPost := by
  cases a with
  | callPost i =>
    rw [step,Option.ite_none_right_eq_some] at h
    cases h.2
    exact ⟨(Bool.or_false _).symm,(Bool.and_false _).symm,rfl⟩
  | callWait i =>
    rw [step,Option.ite_none_right_eq_some] at h
    cases h.2
    exact ⟨(Bool.or_false _).symm,(Bool.and_false _).symm,rfl⟩
  | post i wake =>
    rw [step,Option.ite_none_right_eq_some] at h
    obtain ⟨u,hu,he⟩ := Option.map_eq_some_iff.mp h.2
    obtain ⟨threads,_,hu⟩ := Option.bind_eq_some_iff.mp hu
    cases hu
    cases he
    exact ⟨(Bool.or_true _).symm,(Bool.and_false _).symm,rfl⟩
  | wait i =>
    rw [step,Option.ite_none_right_eq_some,waitSection,Option.some.injEq] at h
    have hs := h.2
    split_ifs at hs with hvalue
    · cases hs
      exact ⟨(Bool.or_false _).symm,by rw [hvalue]; rfl,rfl⟩
    · cases hs
      exact ⟨(Bool.or_false _).symm,by rw [Bool.eq_false_of_not_eq_true hvalue]; rfl,rfl⟩
  | spurious i =>
    rw [step,Option.ite_none_right_eq_some] at h
    cases h.2
    exact ⟨(Bool.or_false _).symm,(Bool.and_false _).symm,rfl⟩

theorem countP_postCalled (h : Machine.run step s actions = some (t,events)) :
    events.countP Event.isPostCalled = actions.countP Action.isCallPost := by
  induction actions generalizing s events with
  | nil =>
    cases h
    rfl
  | cons a actions ih =>
    obtain ⟨u,e,events',ha,hrun,rfl⟩ := Machine.run_cons_eq_some.mp h
    rw [List.countP_cons,List.countP_cons,ih hrun,(step_flag ha).2.2]

/-- With the flag up, every section of `BinarySemaphoreWait` returns. -/
theorem countP_waitReturned_of_up (hs : s.semaphore.value = true)
    (h : Machine.run step s actions = some (t,events)) :
    events.countP Event.isWaitReturned = actions.countP Action.isWait := by
  induction actions generalizing s events with
  | nil =>
    cases h
    rfl
  | cons a actions ih =>
    obtain ⟨u,e,events',ha,hrun,rfl⟩ := Machine.run_cons_eq_some.mp h
    obtain ⟨hvalue,hreturned,_⟩ := step_flag ha
    rw [hs,Bool.true_or] at hvalue
    rw [hs,Bool.true_and] at hreturned
    rw [List.countP_cons,List.countP_cons,ih hvalue hrun,hreturned]

/-- And with the flag down, none does before the first post. -/
theorem countP_waitReturned_of_down (hs : s.semaphore.value = false)
    (h : Machine.run step s actions = some (t,events)) :
    events.countP Event.isWaitReturned = waitsAfterPost actions := by
  induction actions generalizing s events with
  | nil =>
    cases h
    rfl
  | cons a actions ih =>
    obtain ⟨u,e,events',ha,hrun,rfl⟩ := Machine.run_cons_eq_some.mp h
    obtain ⟨hvalue,hreturned,_⟩ := step_flag ha
    rw [hs,Bool.false_or] at hvalue
    rw [hs,Bool.false_and] at hreturned
    rw [List.countP_cons,hreturned,if_neg Bool.false_ne_true,Nat.add_zero,waitsAfterPost]
    by_cases hpost : a.isPost = true
    · -- the run goes on with the flag up, and the post itself is no wait
      have hwait : ¬ a.isWait = true := by
        cases a <;> simp_all [Action.isPost,Action.isWait]
      rw [hpost] at hvalue
      rw [List.dropWhile_cons_of_neg (by simp [hpost]),List.countP_cons_of_neg hwait]
      exact countP_waitReturned_of_up hvalue hrun
    · rw [Bool.not_eq_true] at hpost
      rw [hpost] at hvalue
      rw [List.dropWhile_cons_of_pos (by simp [hpost])]
      exact ih hvalue hrun

end Runs

/-- For every number of threads and every run: at all times at most as many waits have returned as
posts were called, exactly if at all times at most that many sections of `BinarySemaphoreWait` were
scheduled from the first section of `BinarySemaphorePost` on. -/
theorem waitReturned_le_postCalled_iff (threads : ℕ) (actions : List Action) (t : State)
    (events : List Event) (hrun : Machine.run step (create threads) actions = some (t,events)) :
    (∀ done, done <+: actions → ∀ s past, Machine.run step (create threads) done = some (s,past) →
        past.countP Event.isWaitReturned ≤ past.countP Event.isPostCalled) ↔
      ∀ done, done <+: actions → waitsAfterPost done ≤ done.countP Action.isCallPost := by
  constructor
  · rintro h done ⟨rest,rfl⟩
    obtain ⟨s,past,_,hdone,_⟩ := Machine.run_append.mp hrun
    rw [← countP_waitReturned_of_down rfl hdone,← countP_postCalled hdone]
    exact h done (List.prefix_append done rest) s past hdone
  · intro h done hd s past hdone
    rw [countP_waitReturned_of_down rfl hdone,countP_postCalled hdone]
    exact h done hd

/-- A post before every wait. -/
def alternating : List Action :=
  [.callPost 0,.post 0 none,.callWait 1,.wait 1,.callPost 0,.post 0 none,.callWait 1,.wait 1]

theorem waitReturned_le_postCalled_alternating :
    ∃ t events, Machine.run step (create 2) alternating = some (t,events) ∧
      ∀ done, done <+: alternating → ∀ s past,
        Machine.run step (create 2) done = some (s,past) →
          past.countP Event.isWaitReturned ≤ past.countP Event.isPostCalled := by
  refine ⟨_,_,rfl,(waitReturned_le_postCalled_iff 2 alternating _ _ rfl).mpr ?_⟩
  intro done hd
  rw [← List.mem_inits] at hd
  revert done
  decide

/-- One post, and a thread that waits twice. -/
def twoWaits : List Action := [.callPost 0,.post 0 none,.callWait 1,.wait 1,.callWait 1,.wait 1]

/-- A pool with one worker: one job is pushed, and the worker passes the semaphore. -/
def firstPass : List ThreadPool02.Action :=
  [.worker 0 none,.createReturn,.callAddTask 0 10 20 none true,.client 0 none,.worker 0 none,
    .worker 0 none]

/-- The worker executes the job and comes to the semaphore again. -/
def secondPass : List ThreadPool02.Action := List.replicate 7 (.worker 0 none)

/-- Two waits return after one post, and for the one job that is ever pushed, the worker passes the
semaphore twice. -/
theorem waitReturned_gt_postCalled :
    (Machine.run step (create 2) twoWaits).map Prod.snd =
      some [.postCalled 0,.silent,.silent,.waitReturned 1,.silent,.waitReturned 1] ∧
    (Machine.run ThreadPool02.step (threadPoolCreate 1 (fun _ => true) 1) firstPass).map
        (fun r => (r.1.workers,r.2)) =
      some ([.aliveTest],[.silent,.silent,.silent,.added 0 0,.silent,.silent]) ∧
    (Machine.run ThreadPool02.step (threadPoolCreate 1 (fun _ => true) 1) (firstPass++secondPass)).map
        (fun r => (r.1.workers,r.2)) =
      some ([.aliveTest],[.silent,.silent,.silent,.added 0 0,.silent,.silent,.silent,.silent,
        .pulled 0 0,.executed 0 0,.silent,.silent,.silent]) := by
  refine ⟨rfl,rfl,rfl⟩

end CStudy.ThreadPool02.Semaphore
