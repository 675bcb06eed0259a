import CStudy.ThreadPool02.Statements

/-! The shutdown of `thread_pool02`. `alive_threads` counts the workers from their first section to
the decrement in their last one. `ThreadPoolDestory` reads it without the mutex, so when it has read
zero a worker may still have to unlock, and nothing else is left to do for any worker. -/
namespace CStudy.ThreadPool02.Statements
open CStudy.Foundation

/-- How far a worker has come with respect to `alive_threads`. -/
inductive Stage
  /-- not counted yet -/
  | starting
  | alive
  /-- no longer counted, but about to unlock -/
  | leaving
  | returned
  deriving DecidableEq

def WorkerStmt.stage : WorkerStmt → Stage
  | .start | .lockStart | .countStart => .starting
  | .unlockExit => .leaving
  | .returned => .returned
  | _ => .alive

namespace Position

def isWorker : Position → Bool
  | .worker _ => true
  | .client _ => false

def isAt (stage : Stage) : Position → Bool
  | .worker stmt => decide (stmt.stage = stage)
  | .client _ => false

/-- The poll of `ThreadPoolDestory` is over. -/
def isPast : Position → Bool
  | .client .readDestory | .client .clearTest | .client (.clearPull _) | .client (.clearFree _) => true
  | .client .clearFront | .client .clearLast | .client .resetMutex | .client .resetValue => true
  | .client .clearLength | .client .destroySemaphoreMutex | .client .destroySemaphoreCond => true
  | .client .freeSemaphore | .client .destroyQueueMutex | .client .freeQueue => true
  | .client (.threadTest _) | .client (.freeThread _) | .client .freeThreads => true
  | .client .freePool => true
  | _ => false

def inDestory : Position → Bool
  | .client .clearAlive | .client .pollAlive | .client .readSemaphore | .client (.postAll _) => true
  | pc => pc.isPast

end Position

/-- Once the pool is freed, no worker is about to use any of its memory. -/
def SafelyReleased (s : Config Position Shared) : Prop :=
  s.shared.freed .pool = true →
    ∀ (i : ℕ) (stmt : WorkerStmt), s.threads[i]? = some (.worker stmt) → stmt.uses i = []

/-- The pool is freed while a worker has still to unlock the mutex. -/
def freesEarly (s : Config Position Shared) (a : Turn Call) : Bool :=
  decide (s.threads[a.thread]? = some (.client .freePool)) &&
    s.threads.any (Position.isAt .leaving)

section Primitives
variable {α β : Type} {g g' : Shared} {m : Mutex} {i : ℕ} {next : α} {notice : Notice Cond}

/-- What the shutdown depends on is not touched. -/
structure Keeps (g g' : Shared) : Prop where
  threadNum : g'.pool.threadNum = g.pool.threadNum
  aliveThreads : g'.pool.aliveThreads = g.pool.aliveThreads
  ready : g'.ready = g.ready
  freed : g'.freed = g.freed

theorem Keeps.rfl : Keeps g g := ⟨Eq.refl _,Eq.refl _,Eq.refl _,Eq.refl _⟩

theorem keeps_setQueue (g : Shared) (f : JobQueue → JobQueue) : Keeps g (g.setQueue f) :=
  ⟨Eq.refl _,Eq.refl _,Eq.refl _,Eq.refl _⟩

theorem lock_eq_some {pc : α} (h : lock g m i next = some (pc,g',notice)) :
    pc = next ∧ Keeps g g' := by
  unfold lock at h
  split_ifs at h
  cases h
  exact ⟨Eq.refl _,Eq.refl _,Eq.refl _,Eq.refl _,Eq.refl _⟩

theorem unlock_eq_some {pc : α} (h : unlock g m i next = some (pc,g',notice)) :
    pc = next ∧ Keeps g g' := by
  unfold unlock at h
  split_ifs at h
  cases h
  exact ⟨Eq.refl _,Eq.refl _,Eq.refl _,Eq.refl _,Eq.refl _⟩

theorem within_eq_some {f : α → β} {r : Outcome α} {pc : β}
    (h : r.within f = some (pc,g',notice)) : ∃ x, r = some (x,g',notice) ∧ f x = pc := by
  obtain ⟨⟨x,g₁,n⟩,hr,he⟩ := Option.map_eq_some_iff.mp h
  cases he
  exact ⟨x,hr,Eq.refl _⟩

end Primitives

section Calls
variable {g g' : Shared} {i : ℕ} {notice : Notice Cond}

theorem execPost_keeps {all : Bool} {pc : PostStmt} {next : Option PostStmt}
    (h : execPost i g all pc = some (next,g',notice)) : Keeps g g' := by
  cases pc with
  | lock => exact (lock_eq_some h).2
  | raise => cases h; exact keeps_setQueue g _
  | notify =>
    simp only [execPost] at h
    split_ifs at h
    all_goals
      cases h
      exact .rfl
  | unlock => exact (unlock_eq_some h).2

theorem execWait_keeps {pc : WaitStmt} {next : Option WaitStmt}
    (h : execWait i g pc = some (next,g',notice)) : Keeps g g' := by
  cases pc with
  | lock => exact (lock_eq_some h).2
  | test => cases h; exact .rfl
  | sleep => exact (unlock_eq_some h).2
  | asleep => cases h
  | relock => exact (lock_eq_some h).2
  | unlock => exact (unlock_eq_some h).2

theorem execPush_keeps {job : Ptr} {pc : PushStmt} {next : Option PushStmt}
    (h : execPush i g job pc = some (next,g',notice)) : Keeps g g' := by
  cases pc with
  | lock => exact (lock_eq_some h).2
  | clearNext =>
    obtain ⟨heap,_,he⟩ := Option.map_eq_some_iff.mp h
    cases he
    exact ⟨rfl,rfl,rfl,rfl⟩
  | lengthTest => cases h; exact .rfl
  | setFront => cases h; exact keeps_setQueue g _
  | linkLast =>
    obtain ⟨last,_,h⟩ := Option.bind_eq_some_iff.mp h
    obtain ⟨heap,_,he⟩ := Option.map_eq_some_iff.mp h
    cases he
    exact ⟨rfl,rfl,rfl,rfl⟩
  | setLast => cases h; exact keeps_setQueue g _
  | addLength => cases h; exact keeps_setQueue g _
  | post stmt =>
    rw [execPush] at h
    obtain ⟨x,hx,_⟩ := within_eq_some h
    exact execPost_keeps hx
  | unlock => exact (unlock_eq_some h).2

theorem execPull_keeps {pc : PullStmt} {next : PullStmt ⊕ Option Ptr}
    (h : execPull i g pc = some (next,g',notice)) : Keeps g g' := by
  cases pc with
  | lock => exact (lock_eq_some h).2
  | emptyTest => cases h; exact .rfl
  | singleTest => cases h; exact .rfl
  | takeOnly => cases h; exact .rfl
  | clearEnds job => cases h; exact keeps_setQueue g _
  | zeroLength job => cases h; exact keeps_setQueue g _
  | takeFirst =>
    obtain ⟨job,_,he⟩ := Option.map_eq_some_iff.mp h
    cases he
    exact .rfl
  | setFront job =>
    obtain ⟨c,_,he⟩ := Option.map_eq_some_iff.mp h
    cases he
    exact keeps_setQueue g _
  | subLength job => cases h; exact keeps_setQueue g _
  | post job stmt =>
    rw [execPull] at h
    obtain ⟨x,hx,_⟩ := within_eq_some h
    exact execPost_keeps hx
  | unlock job => exact (unlock_eq_some h).2

end Calls

section Effects
variable {g g' : Shared} {i : ℕ} {notice : Notice Cond}

/-- The stage of a worker and `alive_threads`, before and after a statement of the worker. -/
inductive Advance : Stage → ℤ → Stage → ℤ → Prop
  | stay {stage : Stage} (n : ℤ) (h : stage = .starting ∨ stage = .alive) : Advance stage n stage n
  | arrive (n : ℤ) : Advance .starting n .alive (n+1)
  | leave (n : ℤ) : Advance .alive n .leaving (n-1)
  | finish (n : ℤ) : Advance .leaving n .returned n

/-- What the shutdown can see of a statement of a worker. -/
structure WorkerEffect (pc : WorkerStmt) (g : Shared) (pc' : WorkerStmt) (g' : Shared) : Prop where
  threadNum : g'.pool.threadNum = g.pool.threadNum
  ready : g'.ready = g.ready
  freed : g'.freed = g.freed
  advance : Advance pc.stage g.pool.aliveThreads pc'.stage g'.pool.aliveThreads

theorem WorkerEffect.of_keeps {pc pc' : WorkerStmt} (h : Keeps g g')
    (hpc : pc.stage = .starting ∨ pc.stage = .alive) (hstage : pc'.stage = pc.stage) :
    WorkerEffect pc g pc' g' := by
  refine ⟨h.threadNum,h.ready,h.freed,?_⟩
  rw [hstage,h.aliveThreads]
  exact .stay _ hpc

theorem WorkerEffect.of_lock {pc next pc' : WorkerStmt} {m : Mutex}
    (h : lock g m i next = some (pc',g',notice))
    (hpc : pc.stage = .starting ∨ pc.stage = .alive) (hstage : next.stage = pc.stage) :
    WorkerEffect pc g pc' g' := by
  obtain ⟨rfl,hk⟩ := lock_eq_some h
  exact .of_keeps hk hpc hstage

theorem WorkerEffect.of_unlock {pc next pc' : WorkerStmt} {m : Mutex}
    (h : unlock g m i next = some (pc',g',notice))
    (hpc : pc.stage = .starting ∨ pc.stage = .alive) (hstage : next.stage = pc.stage) :
    WorkerEffect pc g pc' g' := by
  obtain ⟨rfl,hk⟩ := unlock_eq_some h
  exact .of_keeps hk hpc hstage

theorem execWorker_effect {pc pc' : WorkerStmt} (h : execWorker i g pc = some (pc',g',notice)) :
    WorkerEffect pc g pc' g' := by
  cases pc with
  | start => cases h; exact .of_keeps .rfl (.inl rfl) rfl
  | lockStart => exact .of_lock h (.inl rfl) rfl
  | countStart => cases h; exact ⟨rfl,rfl,rfl,.arrive _⟩
  | unlockStart => exact .of_unlock h (.inr rfl) rfl
  | loopTest =>
    cases h
    refine .of_keeps .rfl (.inr rfl) ?_
    split_ifs <;> rfl
  | readSemaphore => cases h; exact .of_keeps .rfl (.inr rfl) rfl
  | wait stmt =>
    rw [execWorker] at h
    obtain ⟨x,hx,hpc⟩ := within_eq_some h
    subst hpc
    refine .of_keeps (execWait_keeps hx) (.inr rfl) ?_
    cases x <;> rfl
  | aliveTest =>
    cases h
    refine .of_keeps .rfl (.inr rfl) ?_
    split_ifs <;> rfl
  | lockIn => exact .of_lock h (.inr rfl) rfl
  | countIn => cases h; exact .of_keeps ⟨rfl,rfl,rfl,rfl⟩ (.inr rfl) rfl
  | unlockIn => exact .of_unlock h (.inr rfl) rfl
  | readQueue => cases h; exact .of_keeps .rfl (.inr rfl) rfl
  | pull stmt =>
    rw [execWorker] at h
    obtain ⟨x,hx,hpc⟩ := within_eq_some h
    subst hpc
    refine .of_keeps (execPull_keeps hx) (.inr rfl) ?_
    cases x <;> rfl
  | taskTest task =>
    cases h
    refine .of_keeps .rfl (.inr rfl) ?_
    cases task <;> rfl
  | runTask p =>
    obtain ⟨c,_,he⟩ := Option.map_eq_some_iff.mp h
    cases he
    exact .of_keeps .rfl (.inr rfl) rfl
  | freeTask p => cases h; exact .of_keeps ⟨rfl,rfl,rfl,rfl⟩ (.inr rfl) rfl
  | lockOut => exact .of_lock h (.inr rfl) rfl
  | countOut => cases h; exact .of_keeps ⟨rfl,rfl,rfl,rfl⟩ (.inr rfl) rfl
  | outTest =>
    cases h
    refine .of_keeps .rfl (.inr rfl) ?_
    split_ifs <;> rfl
  | signalOut => cases h; exact .of_keeps .rfl (.inr rfl) rfl
  | unlockOut => exact .of_unlock h (.inr rfl) rfl
  | lockExit => exact .of_lock h (.inr rfl) rfl
  | countExit => cases h; exact ⟨rfl,rfl,rfl,.leave _⟩
  | unlockExit =>
    obtain ⟨hpc,hk⟩ := unlock_eq_some h
    cases hpc
    refine ⟨hk.threadNum,hk.ready,hk.freed,?_⟩
    rw [hk.aliveThreads]
    exact .finish _
  | returned => cases h

/-- What the shutdown can see of a statement of a client. -/
structure ClientEffect (pc : ClientStmt) (g : Shared) (pc' : ClientStmt) (g' : Shared) : Prop where
  threadNum : g'.pool.threadNum = g.pool.threadNum
  aliveThreads : g'.pool.aliveThreads = g.pool.aliveThreads
  ready : g'.ready = true → g.ready = true ∨ g.pool.aliveThreads = g.pool.threadNum
  kept : g.ready = true → g'.ready = true
  called : Position.inDestory (.client pc') = true →
    Position.inDestory (.client pc) = true ∨ g.ready = true
  past : Position.isPast (.client pc') = true →
    Position.isPast (.client pc) = true ∨ (pc = .pollAlive ∧ g.pool.aliveThreads ≤ 0)
  freed : g'.freed .pool = true → g.freed .pool = true ∨ pc = .freePool

/-- A statement of a client that is no turning point of the shutdown. -/
theorem ClientEffect.of_keeps {pc pc' : ClientStmt} (h : Keeps g g')
    (hcall : Position.inDestory (.client pc') = Position.inDestory (.client pc))
    (hpast : Position.isPast (.client pc') = Position.isPast (.client pc)) :
    ClientEffect pc g pc' g' := by
  refine ⟨h.threadNum,h.aliveThreads,?_,?_,?_,?_,?_⟩
  · intro hr
    exact .inl (h.ready ▸ hr)
  · intro hr
    exact h.ready.trans hr
  · intro hd
    exact .inl (hcall ▸ hd)
  · intro hp
    exact .inl (hpast ▸ hp)
  · intro hf
    exact .inl (h.freed ▸ hf)

/-- A block other than the pool is freed. -/
theorem ClientEffect.of_free {pc pc' : ClientStmt} {block : Block} (hblock : .pool ≠ block)
    (hcall : Position.inDestory (.client pc') = Position.inDestory (.client pc))
    (hpast : Position.isPast (.client pc') = Position.isPast (.client pc)) :
    ClientEffect pc g pc' (g.free block) := by
  refine ⟨rfl,rfl,.inl,id,fun hd => .inl (hcall ▸ hd),fun hp => .inl (hpast ▸ hp),?_⟩
  intro hf
  left
  simpa [Shared.free,hblock] using hf

theorem ClientEffect.of_lock {pc next pc' : ClientStmt} {m : Mutex}
    (h : lock g m i next = some (pc',g',notice))
    (hcall : Position.inDestory (.client next) = Position.inDestory (.client pc))
    (hpast : Position.isPast (.client next) = Position.isPast (.client pc)) :
    ClientEffect pc g pc' g' := by
  obtain ⟨rfl,hk⟩ := lock_eq_some h
  exact .of_keeps hk hcall hpast

theorem ClientEffect.of_unlock {pc next pc' : ClientStmt} {m : Mutex}
    (h : unlock g m i next = some (pc',g',notice))
    (hcall : Position.inDestory (.client next) = Position.inDestory (.client pc))
    (hpast : Position.isPast (.client next) = Position.isPast (.client pc)) :
    ClientEffect pc g pc' g' := by
  obtain ⟨rfl,hk⟩ := unlock_eq_some h
  exact .of_keeps hk hcall hpast

theorem execClient_effect {pc pc' : ClientStmt} (h : execClient i g pc = some (pc',g',notice)) :
    ClientEffect pc g pc' g' := by
  cases pc with
  | createTest =>
    simp only [execClient] at h
    split_ifs at h with hall
    · cases h
      exact ⟨rfl,rfl,fun _ => .inr hall,fun _ => rfl,fun hd => .inl hd,fun hp => .inl hp,.inl⟩
    · cases h
      exact .of_keeps .rfl rfl rfl
  | idle => cases h
  | readQueue job => cases h; exact .of_keeps .rfl rfl rfl
  | push job stmt =>
    rw [execClient] at h
    obtain ⟨x,hx,hpc⟩ := within_eq_some h
    subst hpc
    refine .of_keeps (execPush_keeps hx) ?_ ?_
    all_goals cases x <;> rfl
  | lockWait => exact .of_lock h rfl rfl
  | lengthWait =>
    cases h
    refine .of_keeps .rfl ?_ ?_
    all_goals split_ifs <;> rfl
  | workingWait =>
    cases h
    refine .of_keeps .rfl ?_ ?_
    all_goals split_ifs <;> rfl
  | sleepWait => exact .of_unlock h rfl rfl
  | asleepWait => cases h
  | relockWait => exact .of_lock h rfl rfl
  | unlockWait => exact .of_unlock h rfl rfl
  | clearAlive => cases h; exact .of_keeps ⟨rfl,rfl,rfl,rfl⟩ rfl rfl
  | pollAlive =>
    cases h
    by_cases hpos : g.pool.aliveThreads > 0
    · rw [if_pos hpos]
      exact .of_keeps .rfl rfl rfl
    · rw [if_neg hpos]
      exact ⟨rfl,rfl,.inl,id,fun _ => .inl rfl,fun _ => .inr ⟨rfl,not_lt.mp hpos⟩,.inl⟩
  | readSemaphore => cases h; exact .of_keeps .rfl rfl rfl
  | postAll stmt =>
    rw [execClient] at h
    obtain ⟨x,hx,hpc⟩ := within_eq_some h
    subst hpc
    refine .of_keeps (execPost_keeps hx) ?_ ?_
    all_goals cases x <;> rfl
  | readDestory => cases h; exact .of_keeps .rfl rfl rfl
  | clearTest =>
    cases h
    refine .of_keeps .rfl ?_ ?_
    all_goals split_ifs <;> rfl
  | clearPull stmt =>
    rw [execClient] at h
    obtain ⟨x,hx,hpc⟩ := within_eq_some h
    subst hpc
    refine .of_keeps (execPull_keeps hx) ?_ ?_
    all_goals cases x <;> rfl
  | clearFree job => cases h; exact .of_keeps ⟨rfl,rfl,rfl,rfl⟩ rfl rfl
  | clearFront => cases h; exact .of_keeps (keeps_setQueue g _) rfl rfl
  | clearLast => cases h; exact .of_keeps (keeps_setQueue g _) rfl rfl
  | resetMutex => cases h; exact .of_keeps ⟨rfl,rfl,rfl,rfl⟩ rfl rfl
  | resetValue => cases h; exact .of_keeps (keeps_setQueue g _) rfl rfl
  | clearLength => cases h; exact .of_keeps (keeps_setQueue g _) rfl rfl
  | destroySemaphoreMutex => cases h; exact .of_keeps ⟨rfl,rfl,rfl,rfl⟩ rfl rfl
  | destroySemaphoreCond => cases h; exact .of_keeps .rfl rfl rfl
  | freeSemaphore => cases h; exact .of_free (by simp) rfl rfl
  | destroyQueueMutex => cases h; exact .of_keeps ⟨rfl,rfl,rfl,rfl⟩ rfl rfl
  | freeQueue => cases h; exact .of_free (by simp) rfl rfl
  | threadTest id =>
    cases h
    refine .of_keeps .rfl ?_ ?_
    all_goals split_ifs <;> rfl
  | freeThread id => cases h; exact .of_free (by simp) rfl rfl
  | freeThreads => cases h; exact .of_free (by simp) rfl rfl
  | freePool =>
    cases h
    exact ⟨rfl,rfl,.inl,id,fun _ => .inl rfl,fun _ => .inl rfl,fun _ => .inr rfl⟩

theorem exec_eq_some {pc pc' : Position} (h : exec i pc g = some (pc',g',notice)) :
    (∃ stmt stmt', pc = .worker stmt ∧ pc' = .worker stmt' ∧
        execWorker i g stmt = some (stmt',g',notice)) ∨
      ∃ stmt stmt', pc = .client stmt ∧ pc' = .client stmt' ∧
        execClient i g stmt = some (stmt',g',notice) := by
  unfold exec at h
  split_ifs at h
  cases pc with
  | worker stmt =>
    obtain ⟨stmt',hr,hpc⟩ := within_eq_some h
    exact .inl ⟨stmt,stmt',rfl,hpc.symm,hr⟩
  | client stmt =>
    obtain ⟨stmt',hr,hpc⟩ := within_eq_some h
    exact .inr ⟨stmt,stmt',rfl,hpc.symm,hr⟩

theorem does_effect {a : Turn Call} {pc pc' : Position} (h : program.Does a pc g pc' g') :
    (∃ stmt stmt', pc = .worker stmt ∧ pc' = .worker stmt' ∧ WorkerEffect stmt g stmt' g') ∨
      ∃ stmt stmt', pc = .client stmt ∧ pc' = .client stmt' ∧ ClientEffect stmt g stmt' g' := by
  cases h with
  | exec h =>
    rcases exec_eq_some h with ⟨stmt,stmt',hpc,hpc',hr⟩ | ⟨stmt,stmt',hpc,hpc',hr⟩
    · exact .inl ⟨stmt,stmt',hpc,hpc',execWorker_effect hr⟩
    · exact .inr ⟨stmt,stmt',hpc,hpc',execClient_effect hr⟩
  | enter h =>
    change enter _ pc g = _ at h
    unfold enter at h
    split_ifs at h with hready
    obtain ⟨hready,rfl⟩ := hready
    have hcall : ∀ stmt' g', Keeps g g' → Position.isPast (.client stmt') = false →
        ClientEffect .idle g stmt' g' := by
      intro stmt' g' hk hpast
      refine ⟨hk.threadNum,hk.aliveThreads,fun _ => .inl hready,fun hr => hk.ready.trans hr,
        fun _ => .inr hready,?_,fun hf => .inl (hk.freed ▸ hf)⟩
      intro hp
      cases hpast.symm.trans hp
    split at h <;> cases h <;> refine .inr ⟨_,_,rfl,rfl,hcall _ _ ?_ rfl⟩
    · exact ⟨rfl,rfl,rfl,rfl⟩
    all_goals exact .rfl
  | wake h =>
    change (asleep pc).isSome = true at h
    unfold asleep at h
    split at h
    · exact .inl ⟨_,_,rfl,rfl,.of_keeps .rfl (.inr rfl) rfl⟩
    · exact .inr ⟨_,_,rfl,rfl,.of_keeps .rfl rfl rfl⟩
    · cases h

end Effects

/-- Waking up leads from two positions to two others. -/
theorem stable_of {f : Position → Bool}
    (hw : f (.worker (.wait .relock)) = f (.worker (.wait .asleep)))
    (hc : f (.client .relockWait) = f (.client .asleepWait)) : program.Stable f := by
  intro pc h
  change (asleep pc).isSome = true at h
  unfold asleep at h
  split at h
  · exact hw
  · exact hc
  · cases h

theorem stable_isWorker : program.Stable Position.isWorker := stable_of rfl rfl

theorem stable_isAt (stage : Stage) : program.Stable (Position.isAt stage) := stable_of rfl rfl

theorem stable_isPast : program.Stable Position.isPast := stable_of rfl rfl

theorem stable_inDestory : program.Stable Position.inDestory := stable_of rfl rfl

/-- `alive_threads` is right, and who is past the poll has seen it at zero. -/
structure Orderly (s : Config Position Shared) : Prop where
  counted : s.shared.pool.aliveThreads = s.threads.countP (Position.isAt .alive)
  staff : s.shared.pool.threadNum = s.threads.countP Position.isWorker
  started : s.shared.ready = true → s.threads.countP (Position.isAt .starting) = 0
  called : 0 < s.threads.countP Position.inDestory ∨ s.shared.freed .pool = true →
    s.shared.ready = true
  left : 0 < s.threads.countP Position.isPast ∨ s.shared.freed .pool = true →
    s.threads.countP (Position.isAt .alive) = 0
  unlocked : s.shared.freed .pool = true → s.threads.countP (Position.isAt .leaving) = 0

theorem inDestory_of_isPast {pc : Position} (h : pc.isPast = true) : pc.inDestory = true := by
  unfold Position.inDestory
  split
  any_goals rfl
  exact h

/-- A worker is at one stage at a time. -/
theorem countP_starting_add_alive_le (l : List Position) :
    l.countP (Position.isAt .starting)+l.countP (Position.isAt .alive) ≤
      l.countP Position.isWorker := by
  induction l with
  | nil => simp
  | cons pc l ih =>
    simp only [List.countP_cons]
    cases pc with
    | client stmt =>
      simp only [Position.isAt,Position.isWorker,Bool.false_eq_true,if_false]
      omega
    | worker stmt =>
      simp only [Position.isAt,Position.isWorker,if_true,decide_eq_true_eq]
      generalize stmt.stage = stage
      cases stage <;> simp <;> omega

theorem safelyReleased_of_orderly {s : Config Position Shared} (h : Orderly s) :
    SafelyReleased s := by
  intro hfreed i stmt hpc
  have hmem := List.mem_of_getElem? hpc
  have hready := h.called (.inr hfreed)
  have hstarting := List.countP_eq_zero.mp (h.started hready) _ hmem
  have halive := List.countP_eq_zero.mp (h.left (.inr hfreed)) _ hmem
  have hleaving := List.countP_eq_zero.mp (h.unlocked hfreed) _ hmem
  cases stmt <;> first | rfl | simp [Position.isAt,WorkerStmt.stage] at hstarting halive hleaving

section Step
variable {s t : Config Position Shared} {i : ℕ}

theorem Orderly.ready_of_past (h : Orderly s)
    (hpast : 0 < s.threads.countP Position.isPast ∨ s.shared.freed .pool = true) :
    s.shared.ready = true := by
  apply h.called
  refine hpast.imp_left fun hpos => ?_
  rw [List.countP_pos_iff] at hpos ⊢
  obtain ⟨pc,hmem,hp⟩ := hpos
  exact ⟨pc,hmem,inDestory_of_isPast hp⟩

/-- How many workers are at the stages, after a statement of a worker. -/
theorem Advance.counts {stmt stmt' : WorkerStmt} {n n' : ℤ} (h : Advance stmt.stage n stmt'.stage n')
    (hpc : s.threads[i]? = some (.worker stmt))
    (hmap : ∀ f, program.Stable f →
      t.threads.map f = (s.threads.set i (.worker stmt')).map f) :
    n'-n = t.threads.countP (Position.isAt .alive)-s.threads.countP (Position.isAt .alive) ∧
      t.threads.countP (Position.isAt .starting) ≤ s.threads.countP (Position.isAt .starting) ∧
      (s.threads.countP (Position.isAt .starting) = 0 →
        s.threads.countP (Position.isAt .alive) = 0 →
        t.threads.countP (Position.isAt .alive) = 0 ∧
          t.threads.countP (Position.isAt .leaving) ≤ s.threads.countP (Position.isAt .leaving)) := by
  have hpos : 0 < s.threads.countP (Position.isAt stmt.stage) :=
    Program.countP_pos_of_getElem? hpc (decide_eq_true rfl)
  have hstarting := Program.countP_step hpc (hmap _ (stable_isAt .starting))
  have halive := Program.countP_step hpc (hmap _ (stable_isAt .alive))
  have hleaving := Program.countP_step hpc (hmap _ (stable_isAt .leaving))
  simp only [Position.isAt,decide_eq_true_eq] at hstarting halive hleaving
  generalize stmt.stage = stage at h hpos hstarting halive hleaving
  generalize stmt'.stage = stage' at h hstarting halive hleaving
  cases h with
  | stay n hstage => rcases hstage with rfl | rfl <;> simp at hstarting halive hleaving <;> omega
  | arrive n => simp at hstarting halive hleaving; omega
  | leave n => simp at hstarting halive hleaving; omega
  | finish n => simp at hstarting halive hleaving; omega

theorem Orderly.worker_step {stmt stmt' : WorkerStmt} (h : Orderly s)
    (hpc : s.threads[i]? = some (.worker stmt)) (heff : WorkerEffect stmt s.shared stmt' t.shared)
    (hmap : ∀ f, program.Stable f →
      t.threads.map f = (s.threads.set i (.worker stmt')).map f) : Orderly t := by
  have hstaff : t.threads.countP Position.isWorker = s.threads.countP Position.isWorker := by
    have hcount := Program.countP_step hpc (hmap _ stable_isWorker)
    exact Nat.add_right_cancel hcount
  have hcall : t.threads.countP Position.inDestory = s.threads.countP Position.inDestory :=
    Program.countP_step hpc (hmap _ stable_inDestory)
  have hpast : t.threads.countP Position.isPast = s.threads.countP Position.isPast :=
    Program.countP_step hpc (hmap _ stable_isPast)
  obtain ⟨halive,hstarting,hgone⟩ := heff.advance.counts hpc hmap
  refine ⟨?_,?_,?_,?_,?_,?_⟩
  · have hcounted := h.counted
    omega
  · rw [heff.threadNum,hstaff]
    exact h.staff
  · intro hready
    have hnone := h.started (heff.ready ▸ hready)
    omega
  · rw [hcall,heff.freed,heff.ready]
    exact h.called
  · rw [hpast,heff.freed]
    intro hleft
    exact (hgone (h.started (h.ready_of_past hleft)) (h.left hleft)).1
  · rw [heff.freed]
    intro hfreed
    have hleaving := hgone (h.started (h.ready_of_past (.inr hfreed))) (h.left (.inr hfreed))
    have hnone := h.unlocked hfreed
    omega

theorem Orderly.client_step {stmt stmt' : ClientStmt} (h : Orderly s)
    (hpc : s.threads[i]? = some (.client stmt)) (heff : ClientEffect stmt s.shared stmt' t.shared)
    (hmap : ∀ f, program.Stable f →
      t.threads.map f = (s.threads.set i (.client stmt')).map f)
    (hfree : stmt = .freePool → s.threads.countP (Position.isAt .leaving) = 0) : Orderly t := by
  have hstaff : t.threads.countP Position.isWorker = s.threads.countP Position.isWorker :=
    Program.countP_step hpc (hmap _ stable_isWorker)
  have hstage : ∀ stage, t.threads.countP (Position.isAt stage) =
      s.threads.countP (Position.isAt stage) :=
    fun stage => Program.countP_step hpc (hmap _ (stable_isAt stage))
  have hcounted := h.counted
  refine ⟨?_,?_,?_,?_,?_,?_⟩
  · rw [heff.aliveThreads,hstage]
    exact hcounted
  · rw [heff.threadNum,hstaff]
    exact h.staff
  · intro hready
    rw [hstage]
    rcases heff.ready hready with hold | hall
    · exact h.started hold
    · have hle := countP_starting_add_alive_le s.threads
      have hnum := h.staff
      omega
  · intro hcall
    rcases hcall with hpos | hfreed
    · rcases Program.countP_pos_step hpc (hmap _ stable_inDestory) hpos with hold | hnew
      · exact heff.kept (h.called (.inl hold))
      · rcases heff.called hnew with hold | hready
        · exact heff.kept (h.called (.inl (Program.countP_pos_of_getElem? hpc hold)))
        · exact heff.kept hready
    · rcases heff.freed hfreed with hold | hpool
      · exact heff.kept (h.called (.inr hold))
      · subst hpool
        exact heff.kept (h.called (.inl (Program.countP_pos_of_getElem? hpc rfl)))
  · intro hleft
    rw [hstage]
    -- a client that was past the poll already, or one that has just read zero
    rcases hleft with hpos | hfreed
    · rcases Program.countP_pos_step hpc (hmap _ stable_isPast) hpos with hold | hnew
      · exact h.left (.inl hold)
      · rcases heff.past hnew with hold | ⟨_,hzero⟩
        · exact h.left (.inl (Program.countP_pos_of_getElem? hpc hold))
        · omega
    · rcases heff.freed hfreed with hold | hpool
      · exact h.left (.inr hold)
      · subst hpool
        exact h.left (.inl (Program.countP_pos_of_getElem? hpc rfl))
  · intro hfreed
    rw [hstage]
    rcases heff.freed hfreed with hold | hpool
    · exact h.unlocked hold
    · exact hfree hpool

theorem orderly_step {a : Turn Call} (h : Orderly s) (hlate : freesEarly s a = false)
    (hs : program.step s a = some (t,())) : Orderly t := by
  obtain ⟨pc,pc',hpc,hdoes,hmap⟩ := Program.step_does hs
  rcases does_effect hdoes with ⟨stmt,stmt',hw,hw',heff⟩ | ⟨stmt,stmt',hc,hc',heff⟩
  · subst hw
    subst hw'
    exact h.worker_step hpc heff hmap
  · subst hc
    subst hc'
    refine h.client_step hpc heff hmap ?_
    intro hpool
    subst hpool
    rw [List.countP_eq_zero]
    simpa [freesEarly,hpc] using hlate

theorem does_freePool {a : Turn Call} {g g' : Shared} {pc' : Position}
    (h : program.Does a (.client .freePool) g pc' g') :
    pc' = .client .idle ∧ g'.freed .pool = true := by
  cases h with
  | exec h =>
    change exec _ _ _ = _ at h
    unfold exec at h
    split_ifs at h
    cases h
    exact ⟨rfl,rfl⟩
  | enter h =>
    change enter _ _ _ = _ at h
    unfold enter at h
    split_ifs at h with hidle
    cases hidle.2
  | wake h => cases h

/-- When the pool is freed early, the worker that has to unlock is about to use it. -/
theorem not_safelyReleased_of_freesEarly {a : Turn Call} (hearly : freesEarly s a = true)
    (hs : program.step s a = some (t,())) : ¬ SafelyReleased t := by
  intro hsafe
  simp only [freesEarly,Bool.and_eq_true,decide_eq_true_eq,List.any_eq_true] at hearly
  obtain ⟨hpc,leaver,hmem,hleaving⟩ := hearly
  obtain ⟨pc,pc',hpc₁,hdoes,hmap⟩ := Program.step_does hs
  cases hpc.symm.trans hpc₁
  obtain ⟨rfl,hfreed⟩ := does_freePool hdoes
  have hcount : t.threads.countP (Position.isAt .leaving) =
      s.threads.countP (Position.isAt .leaving) :=
    Program.countP_step hpc (hmap _ (stable_isAt .leaving))
  have hpos : 0 < t.threads.countP (Position.isAt .leaving) := by
    rw [hcount,List.countP_pos_iff]
    exact ⟨leaver,hmem,hleaving⟩
  obtain ⟨pc,hmem,hat⟩ := List.countP_pos_iff.mp hpos
  obtain ⟨j,hj⟩ := List.mem_iff_getElem?.mp hmem
  cases pc with
  | client stmt => cases hat
  | worker stmt =>
    have hunlock : stmt = .unlockExit := by
      cases stmt <;> first | rfl | cases hat
    subst hunlock
    have huses := hsafe hfreed j _ hj
    cases huses

end Step

theorem orderly_create (numThreads clients : ℕ) : Orderly (threadPoolCreate numThreads clients) := by
  refine ⟨?_,?_,?_,?_,?_,?_⟩
  all_goals
    simp [threadPoolCreate,List.countP_append,List.countP_replicate,Position.isAt,
      Position.isWorker,Position.isPast,Position.inDestory,WorkerStmt.stage]

/-- In every run the workers are done with the pool when it is freed, exactly if it is not freed
while one of them has still to unlock after its decrement of `alive_threads`. -/
theorem safelyReleased_iff (numThreads clients : ℕ) (s : Config Position Shared)
    (turns : List (Turn Call)) (replies : List Unit)
    (hrun : Machine.run program.step (threadPoolCreate numThreads clients) turns =
      some (s,replies)) :
    Machine.Throughout program.step SafelyReleased (threadPoolCreate numThreads clients) turns ↔
      Machine.EachCall program.step (fun s a => freesEarly s a = false)
        (threadPoolCreate numThreads clients) turns := by
  refine Machine.throughout_iff_eachCall_of_run Orderly (fun s h => safelyReleased_of_orderly h)
    ?_ ?_ (orderly_create numThreads clients) hrun
  · intro s a t o h hlate hs
    exact orderly_step h hlate hs
  · intro s a t o h hearly hs
    exact not_safelyReleased_of_freesEarly (by simpa using hearly) hs

/-- A worker waits at the semaphore, is told to stop, returns, and everything is freed. -/
def stopAtSemaphore : List (Turn Call) :=
  [.exec 0 none,.exec 0 none,.exec 0 none,.exec 0 none,.exec 1 none,.exec 0 none,.exec 0 none,
    .exec 0 none,.exec 0 none,.exec 0 none,.enter 1 .destory,.exec 1 none,.exec 1 none,
    .exec 1 none,.exec 1 none,.exec 1 none,.exec 1 none,.exec 1 none,.exec 0 none,.exec 0 none,
    .exec 0 none,.exec 0 none,.exec 0 none,.exec 0 none,.exec 0 none,.exec 0 none,
    .exec 1 none,.exec 1 none,.exec 1 none,.exec 1 none,.exec 1 none,.exec 1 none,.exec 1 none,
    .exec 1 none,.exec 1 none,.exec 1 none,.exec 1 none,.exec 1 none,.exec 1 none,.exec 1 none,
    .exec 1 none,.exec 1 none,.exec 1 none,.exec 1 none]

theorem safelyReleased_iff_test : ∃ s replies,
    Machine.run program.step (threadPoolCreate 1 0) stopAtSemaphore = some (s,replies) ∧
    s.shared.freed .pool = true ∧
    (Machine.Throughout program.step SafelyReleased (threadPoolCreate 1 0) stopAtSemaphore ↔
      Machine.EachCall program.step (fun s a => freesEarly s a = false) (threadPoolCreate 1 0)
        stopAtSemaphore) :=
  ⟨_,_,rfl,rfl,safelyReleased_iff 1 0 _ stopAtSemaphore _ rfl⟩

/-- The poll reads zero between the decrement and the unlock of the worker, and everything is freed
before the unlock. -/
theorem freed_before_unlock : ∃ s replies,
    Machine.run program.step (threadPoolCreate 1 0)
      [.exec 0 none,.exec 0 none,.exec 0 none,.exec 0 none,.exec 1 none,.enter 1 .destory,
        .exec 1 none,.exec 0 none,.exec 0 none,.exec 0 none,
        .exec 1 none,.exec 1 none,.exec 1 none,.exec 1 none,.exec 1 none,.exec 1 none,.exec 1 none,
        .exec 1 none,.exec 1 none,.exec 1 none,.exec 1 none,.exec 1 none,.exec 1 none,.exec 1 none,
        .exec 1 none,.exec 1 none,.exec 1 none,.exec 1 none] = some (s,replies) ∧
    ¬ SafelyReleased s := by
  refine ⟨_,_,rfl,?_⟩
  intro h
  have huses := h rfl 0 .unlockExit rfl
  cases huses

end CStudy.ThreadPool02.Statements
