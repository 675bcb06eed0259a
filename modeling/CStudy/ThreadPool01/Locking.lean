import CStudy.ThreadPool01.Statements

/-! The lock discipline of `thread_pool01`. A worker that leaves its loop by `break` has the lock,
one that leaves it by the loop test has not, and both go on to the same statements. As long as no
worker leaves by the test, the owner of the mutex is the one thread at a locked position. -/
namespace CStudy.ThreadPool01.Statements
open CStudy.Foundation

/-- The statement belongs to a section under the mutex. The last three of a worker do so if it has
left its loop by `break`. -/
def WorkerStmt.isLocked : WorkerStmt → Bool
  | .waitTest | .waitTask | .stopTest | .readTask | .unlinkTask _ | .countIn _ | .unlockLoop _ => true
  | .countOut | .finishTest | .signalFinish | .unlockFinish => true
  | .leaveCount | .leaveSignal | .leaveUnlock => true
  | _ => false

def ClientStmt.isLocked : ClientStmt → Bool
  | .readAdd _ | .setAdd _ | .walkAdd _ _ | .linkAdd _ _ | .signalAdd | .unlockAdd => true
  | .testWait _ | .sleepWait _ | .unlockWait _ => true
  | .readStop | .nextStop _ | .freeStop _ _ | .clearStop | .broadcastStop | .unlockStop => true
  | _ => false

def Position.isLocked : Position → Bool
  | .worker stmt => stmt.isLocked
  | .client stmt => stmt.isLocked

/-- The statement unlocks the mutex, or changes `task_list`, `working_count`, `thread_count` or
`running`. -/
def Position.needsMutex : Position → Bool
  | .worker (.unlockLoop _) | .worker .unlockFinish | .worker .leaveUnlock => true
  | .worker (.unlinkTask _) | .worker (.countIn _) | .worker .countOut | .worker .leaveCount => true
  | .client .unlockAdd | .client (.unlockWait _) | .client .unlockStop => true
  | .client (.setAdd _) | .client (.linkAdd _ _) | .client .clearStop => true
  | _ => false

theorem isLocked_of_needsMutex {pc : Position} (h : pc.needsMutex = true) : pc.isLocked = true := by
  cases pc with
  | worker stmt => cases stmt <;> first | rfl | cases h
  | client stmt => cases stmt <;> first | rfl | cases h

/-- Whoever is about to unlock the mutex or to change the pool holds the mutex. -/
def Disciplined (s : Config Position Shared) : Prop :=
  ∀ i pc, s.threads[i]? = some pc → pc.needsMutex = true → s.shared.mutex = some i

/-- A worker finds `running` cleared at the loop test. -/
def leavesByTest (s : Config Position Shared) : Turn Call → Bool
  | .exec i _ => decide (s.threads[i]? = some (.worker .loopTest)) && !s.shared.tp.running
  | _ => false

section Moves
variable {α : Type} {g g' : Shared} {i : ℕ} {notice : Notice Cond}

theorem lock_eq_some {next : α} {r : α × Shared × Notice Cond} (h : lock g i next = some r) :
    g.mutex = none ∧ r = (next,{ g with mutex := some i },.nothing) := by
  unfold lock at h
  split_ifs at h with hm
  exact ⟨hm.2,(Option.some.inj h).symm⟩

theorem unlock_eq_some {next : α} {r : α × Shared × Notice Cond} (h : unlock g i next = some r) :
    g.mutex = some i ∧ r = (next,{ g with mutex := none },.nothing) := by
  unfold unlock at h
  split_ifs at h with hm
  exact ⟨hm.2,(Option.some.inj h).symm⟩

theorem notify_eq_some {next : α} {n : Notice Cond} {r : α × Shared × Notice Cond}
    (h : notify g next n = some r) : r = (next,g,n) := by
  unfold notify at h
  split_ifs at h
  exact (Option.some.inj h).symm

variable {locked : α → Bool} {pc next pc' : α}

theorem lock_move (hl : locked next = true) (h : lock g i next = some (pc',g',notice)) :
    Program.LockMove Shared.mutex locked i pc g pc' g' := by
  obtain ⟨hm,he⟩ := lock_eq_some h
  cases he
  exact .inr (.inl ⟨hm,rfl,hl⟩)

theorem unlock_move (hl : locked next = false) (h : unlock g i next = some (pc',g',notice)) :
    Program.LockMove Shared.mutex locked i pc g pc' g' := by
  obtain ⟨hm,he⟩ := unlock_eq_some h
  cases he
  exact .inr (.inr ⟨hm,rfl,hl⟩)

theorem notify_move {n : Notice Cond} (h : notify g next n = some (pc',g',notice))
    (hl : locked next = locked pc) :
    Program.LockMove Shared.mutex locked i pc g pc' g' := by
  cases notify_eq_some h
  exact .inl ⟨rfl,hl⟩

end Moves

/-- Waking up leads from two kinds of positions to two others. -/
theorem stable_of {f : Position → Bool} (hw : f (.worker .relock) = f (.worker .asleep))
    (hc : ∀ d, f (.client (.relockWait d)) = f (.client (.asleepWait d))) : program.Stable f := by
  intro pc h
  change (asleep pc).isSome = true at h
  unfold asleep at h
  split at h
  · exact hw
  · exact hc _
  · cases h

theorem stable_isLocked : program.Stable Position.isLocked := stable_of rfl fun _ => rfl

section Step
variable {g g' : Shared} {i : ℕ} {notice : Notice Cond}

theorem exec_eq_some {pc pc' : Position} (h : exec i pc g = some (pc',g',notice)) :
    (∃ stmt stmt', pc = .worker stmt ∧ pc' = .worker stmt' ∧
        execWorker i g stmt = some (stmt',g',notice)) ∨
      ∃ stmt stmt', pc = .client stmt ∧ pc' = .client stmt' ∧
        execClient i g stmt = some (stmt',g',notice) := by
  cases pc with
  | worker stmt =>
    change (if g.released && stmt.usesPool then none else _) = _ at h
    split_ifs at h
    obtain ⟨⟨stmt',g₁,n⟩,hr,he⟩ := Option.map_eq_some_iff.mp h
    cases he
    exact .inl ⟨stmt,stmt',rfl,rfl,hr⟩
  | client stmt =>
    change (if g.released && stmt.usesPool then none else _) = _ at h
    split_ifs at h
    obtain ⟨⟨stmt',g₁,n⟩,hr,he⟩ := Option.map_eq_some_iff.mp h
    cases he
    exact .inr ⟨stmt,stmt',rfl,rfl,hr⟩

theorem execWorker_move {pc pc' : WorkerStmt} (hstay : pc = .loopTest → g.tp.running = true)
    (h : execWorker i g pc = some (pc',g',notice)) :
    Program.LockMove Shared.mutex WorkerStmt.isLocked i pc g pc' g' := by
  cases pc with
  | loopTest =>
    cases h
    rw [hstay rfl]
    exact .inl ⟨rfl,rfl⟩
  | lockLoop => exact lock_move rfl h
  | waitTest =>
    cases h
    refine .inl ⟨rfl,?_⟩
    split_ifs <;> rfl
  | waitTask => exact unlock_move rfl h
  | asleep => cases h
  | relock => exact lock_move rfl h
  | stopTest =>
    cases h
    refine .inl ⟨rfl,?_⟩
    split_ifs <;> rfl
  | readTask =>
    cases h
    refine .inl ⟨rfl,?_⟩
    cases g.tp.taskList <;> rfl
  | unlinkTask p =>
    obtain ⟨c,_,hr⟩ := Option.bind_eq_some_iff.mp h
    cases hr
    exact .inl ⟨rfl,rfl⟩
  | countIn task => cases h; exact .inl ⟨rfl,rfl⟩
  | unlockLoop task => exact unlock_move rfl h
  | taskTest task =>
    cases h
    refine .inl ⟨rfl,?_⟩
    cases task <;> rfl
  | runTask p =>
    obtain ⟨c,_,hr⟩ := Option.bind_eq_some_iff.mp h
    cases hr
    exact .inl ⟨rfl,rfl⟩
  | freeTask p => cases h; exact .inl ⟨rfl,rfl⟩
  | lockFinish => exact lock_move rfl h
  | countOut => cases h; exact .inl ⟨rfl,rfl⟩
  | finishTest =>
    cases h
    refine .inl ⟨rfl,?_⟩
    split_ifs <;> rfl
  | signalFinish => exact notify_move h rfl
  | unlockFinish => exact unlock_move rfl h
  | leaveCount => cases h; exact .inl ⟨rfl,rfl⟩
  | leaveSignal => exact notify_move h rfl
  | leaveUnlock => exact unlock_move rfl h
  | returned => cases h

theorem execClient_move {pc pc' : ClientStmt} (h : execClient i g pc = some (pc',g',notice)) :
    Program.LockMove Shared.mutex ClientStmt.isLocked i pc g pc' g' := by
  cases pc with
  | idle => cases h
  | lockAdd task => exact lock_move rfl h
  | readAdd task =>
    cases h
    refine .inl ⟨rfl,?_⟩
    cases g.tp.taskList <;> rfl
  | setAdd task => cases h; exact .inl ⟨rfl,rfl⟩
  | walkAdd task p =>
    obtain ⟨c,_,hr⟩ := Option.bind_eq_some_iff.mp h
    cases hr
    refine .inl ⟨rfl,?_⟩
    cases c.next <;> rfl
  | linkAdd task prev =>
    obtain ⟨heap,_,hr⟩ := Option.bind_eq_some_iff.mp h
    cases hr
    exact .inl ⟨rfl,rfl⟩
  | signalAdd => exact notify_move h rfl
  | unlockAdd => exact unlock_move rfl h
  | lockWait d => exact lock_move rfl h
  | testWait d =>
    cases h
    refine .inl ⟨rfl,?_⟩
    split_ifs <;> rfl
  | sleepWait d => exact unlock_move rfl h
  | asleepWait d => cases h
  | relockWait d => exact lock_move rfl h
  | unlockWait d => exact unlock_move (by cases d <;> rfl) h
  | lockStop => exact lock_move rfl h
  | readStop =>
    cases h
    refine .inl ⟨rfl,?_⟩
    cases g.tp.taskList <;> rfl
  | nextStop p =>
    obtain ⟨c,_,hr⟩ := Option.bind_eq_some_iff.mp h
    cases hr
    exact .inl ⟨rfl,rfl⟩
  | freeStop p next =>
    cases h
    refine .inl ⟨rfl,?_⟩
    cases next <;> rfl
  | clearStop => cases h; exact .inl ⟨rfl,rfl⟩
  | broadcastStop => exact notify_move h rfl
  | unlockStop => exact unlock_move rfl h
  | destroyMutex => cases h; exact .inl ⟨rfl,rfl⟩
  | destroyTaskCond => cases h; exact .inl ⟨rfl,rfl⟩
  | destroyFinishCond => cases h; exact .inl ⟨rfl,rfl⟩
  | freePool => cases h; exact .inl ⟨rfl,rfl⟩

/-- A thread that does not leave by the loop test keeps to the mutex. -/
theorem does_move {a : Turn Call} {pc pc' : Position}
    (hstay : ∀ i wake, a = .exec i wake → pc = .worker .loopTest → g.tp.running = true)
    (h : program.Does a pc g pc' g') :
    Program.LockMove Shared.mutex Position.isLocked a.thread pc g pc' g' := by
  cases h with
  | exec h =>
    rcases exec_eq_some h with ⟨stmt,stmt',rfl,rfl,hr⟩ | ⟨stmt,stmt',rfl,rfl,hr⟩
    · exact execWorker_move (fun hs => hstay _ _ rfl (congrArg _ hs)) hr
    · exact execClient_move hr
  | enter h =>
    change enter _ pc g = _ at h
    unfold enter at h
    split at h <;> cases h <;> exact .inl ⟨rfl,rfl⟩
  | wake h =>
    refine .inl ⟨rfl,?_⟩
    exact stable_isLocked pc h

end Step

/-- As long as no worker leaves by the loop test, the owner of the mutex is the one thread at a
locked position. -/
theorem owned_step {s t : Config Position Shared} {a : Turn Call}
    (h : Program.Owned Shared.mutex Position.isLocked s) (hstay : leavesByTest s a = false)
    (hs : program.step s a = some (t,())) : Program.Owned Shared.mutex Position.isLocked t := by
  obtain ⟨pc,pc',hpc,hdoes,hmap⟩ := Program.step_does hs
  refine h.step hpc (does_move ?_ hdoes) (hmap _ stable_isLocked)
  intro i wake ha hloop
  subst ha
  subst hloop
  simpa [leavesByTest,show s.threads[i]? = _ from hpc] using hstay

theorem disciplined_of_owned {s : Config Position Shared}
    (h : Program.Owned Shared.mutex Position.isLocked s) : Disciplined s := by
  intro i pc hpc hneeds
  exact (h.locked_iff hpc).mpr (isLocked_of_needsMutex hneeds)

/-- A worker that leaves by the test is about to change `thread_count` without the mutex. -/
theorem not_disciplined_of_leavesByTest {s t : Config Position Shared} {a : Turn Call}
    (h : Program.Owned Shared.mutex Position.isLocked s) (hleave : leavesByTest s a = true)
    (hs : program.step s a = some (t,())) : ¬ Disciplined t := by
  intro hd
  cases a with
  | enter i call => cases hleave
  | spurious i => cases hleave
  | exec i wake =>
    simp only [leavesByTest,Bool.and_eq_true,decide_eq_true_eq,Bool.not_eq_true'] at hleave
    obtain ⟨hpc,hrun⟩ := hleave
    have hfree : s.shared.mutex ≠ some i := fun hm => by
      have hlocked := (h.locked_iff hpc).mp hm
      cases hlocked
    obtain ⟨pc,hpc',hs⟩ := Option.bind_eq_some_iff.mp hs
    cases hpc.symm.trans hpc'
    obtain ⟨⟨pc',g,notice⟩,hexec,hs⟩ := Option.bind_eq_some_iff.mp hs
    obtain ⟨threads,hn,hs⟩ := Option.bind_eq_some_iff.mp hs
    cases hs
    change (if s.shared.released && WorkerStmt.loopTest.usesPool then none else _) = _ at hexec
    split_ifs at hexec
    simp only [execWorker,goOn,hrun] at hexec
    cases hexec
    cases hn
    refine hfree (hd i (.worker .leaveCount) ?_ rfl)
    exact List.getElem?_set_self (List.getElem?_eq_some_iff.mp hpc).1

theorem owned_create {num : UInt64} {clients : ℕ} {s : Config Position Shared}
    (h : threadPoolCreate num clients = some s) :
    Program.Owned Shared.mutex Position.isLocked s := by
  unfold threadPoolCreate at h
  split_ifs at h
  cases h
  intro i
  constructor
  · intro hm
    cases hm
  · intro hi
    have hmem := List.mem_of_getElem? hi
    simp [Position.isLocked,WorkerStmt.isLocked,ClientStmt.isLocked] at hmem

/-- In every run the lock discipline is kept exactly if no worker leaves its loop by the test. -/
theorem disciplined_iff (num : UInt64) (clients : ℕ) (new s : Config Position Shared)
    (turns : List (Turn Call)) (replies : List Unit)
    (hnew : threadPoolCreate num clients = some new)
    (hrun : Machine.run program.step new turns = some (s,replies)) :
    Machine.Throughout program.step Disciplined new turns ↔
      Machine.EachCall program.step (fun s a => leavesByTest s a = false) new turns := by
  refine Machine.throughout_iff_eachCall_of_run (Program.Owned Shared.mutex Position.isLocked)
    (fun s h => disciplined_of_owned h) ?_ ?_ (owned_create hnew) hrun
  · intro s a t o h hstay hs
    exact owned_step h hstay hs
  · intro s a t o h hleave hs
    exact not_disciplined_of_leavesByTest h (by simpa using hleave) hs

/-- A worker takes and executes a task while a client waits for it. -/
theorem disciplined_iff_test : ∃ new s replies, threadPoolCreate 1 1 = some new ∧
    Machine.run program.step new [.enter 1 (.addTask 0 0 true),.exec 1 none,.exec 1 none,
      .exec 1 none,.exec 1 none,.exec 1 none,.exec 0 none,.exec 0 none,.enter 1 .wait] =
        some (s,replies) ∧
    (Machine.Throughout program.step Disciplined new [.enter 1 (.addTask 0 0 true),.exec 1 none,
        .exec 1 none,.exec 1 none,.exec 1 none,.exec 1 none,.exec 0 none,.exec 0 none,
        .enter 1 .wait] ↔
      Machine.EachCall program.step (fun s a => leavesByTest s a = false) new
        [.enter 1 (.addTask 0 0 true),.exec 1 none,.exec 1 none,.exec 1 none,.exec 1 none,
          .exec 1 none,.exec 0 none,.exec 0 none,.enter 1 .wait]) :=
  ⟨_,_,_,rfl,rfl,disciplined_iff 1 1 _ _ _ _ rfl rfl⟩

/-- `running` is cleared before the worker has come to its loop test. -/
theorem leaves_without_mutex : ∃ new s replies, threadPoolCreate 1 1 = some new ∧
    Machine.run program.step new [.enter 1 .destory,.exec 1 none,.exec 1 none,.exec 1 none,
      .exec 0 none] = some (s,replies) ∧ ¬ Disciplined s := by
  refine ⟨_,_,_,rfl,rfl,?_⟩
  intro h
  have hm := h 0 (.worker .leaveCount) rfl rfl
  cases hm

end CStudy.ThreadPool01.Statements
