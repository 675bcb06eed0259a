import CStudy.ThreadPool01.Locking

/-! The shutdown of `thread_pool01`. `thread_count` counts the workers that have not yet taken
themselves off it. `ThreadPoolDestory` goes on from its wait when the count is zero and it holds
the mutex; a worker that left its loop by `break` holds the mutex from its decrement to its last
use of the pool, so by then all workers have returned. A worker that left by the loop test may
still be about to signal. -/
namespace CStudy.ThreadPool01.Statements
open CStudy.Foundation

/-- The worker is counted in `thread_count`. -/
def Position.isStaff : Position → Bool
  | .worker .leaveSignal | .worker .leaveUnlock | .worker .returned => false
  | .worker _ => true
  | .client _ => false

def Position.isActive : Position → Bool
  | .worker stmt => decide (stmt ≠ .returned)
  | .client _ => false

/-- The client has cleared `running`. -/
def Position.isStopping : Position → Bool
  | .client .broadcastStop | .client .unlockStop => true
  | .client (.lockWait d) | .client (.testWait d) | .client (.sleepWait d) => d
  | .client (.asleepWait d) | .client (.relockWait d) | .client (.unlockWait d) => d
  | .client .destroyMutex | .client .destroyTaskCond | .client .destroyFinishCond => true
  | .client .freePool => true
  | _ => false

/-- The wait of `ThreadPoolDestory` is over. -/
def Position.isPast : Position → Bool
  | .client (.unlockWait d) => d
  | .client .destroyMutex | .client .destroyTaskCond | .client .destroyFinishCond => true
  | .client .freePool => true
  | _ => false

/-- Once the pool is freed, no worker is about to use it. -/
def SafelyReleased (s : Config Position Shared) : Prop :=
  s.shared.released = true → ∀ stmt, .worker stmt ∈ s.threads → stmt.usesPool = false

/-- `thread_count` is right, and who is past the wait has seen it at zero. -/
structure Orderly (s : Config Position Shared) : Prop where
  owned : Program.Owned Shared.mutex Position.isLocked s
  counted : s.shared.tp.threadCount.toNat = s.threads.countP Position.isStaff
  stopped : 0 < s.threads.countP Position.isStopping → s.shared.tp.running = false
  left : 0 < s.threads.countP Position.isPast ∨ s.shared.released = true →
    s.threads.countP Position.isActive = 0

theorem safelyReleased_of_orderly {s : Config Position Shared} (h : Orderly s) :
    SafelyReleased s := by
  intro hrel stmt hmem
  have hactive := List.countP_eq_zero.mp (h.left (.inr hrel)) _ hmem
  simp only [Position.isActive,decide_eq_true_eq,not_not] at hactive
  rw [hactive]
  rfl

theorem stable_isStaff : program.Stable Position.isStaff := stable_of rfl fun _ => rfl

theorem stable_isActive : program.Stable Position.isActive := stable_of rfl fun _ => rfl

theorem stable_isStopping : program.Stable Position.isStopping := stable_of rfl fun _ => rfl

theorem stable_isPast : program.Stable Position.isPast := stable_of rfl fun _ => rfl

section Effects
variable {α : Type} {g g' : Shared} {i : ℕ} {notice : Notice Cond}

/-- What the shutdown depends on is not touched. -/
structure Keeps (g g' : Shared) : Prop where
  threadCount : g'.tp.threadCount = g.tp.threadCount
  running : g'.tp.running = g.tp.running
  released : g'.released = g.released

theorem Keeps.rfl : Keeps g g := ⟨Eq.refl _,Eq.refl _,Eq.refl _⟩

theorem keeps_lock {next pc' : α} (h : lock g i next = some (pc',g',notice)) :
    pc' = next ∧ Keeps g g' := by
  cases (lock_eq_some h).2
  exact ⟨rfl,rfl,rfl,rfl⟩

theorem keeps_unlock {next pc' : α} (h : unlock g i next = some (pc',g',notice)) :
    pc' = next ∧ Keeps g g' := by
  cases (unlock_eq_some h).2
  exact ⟨rfl,rfl,rfl,rfl⟩

theorem keeps_notify {next pc' : α} {n : Notice Cond} (h : notify g next n = some (pc',g',notice)) :
    pc' = next ∧ Keeps g g' := by
  cases notify_eq_some h
  exact ⟨rfl,.rfl⟩

/-- What the shutdown can see of a statement of a worker. -/
structure WorkerEffect (pc : WorkerStmt) (g : Shared) (pc' : WorkerStmt) (g' : Shared) : Prop where
  active : pc ≠ .returned
  running : g'.tp.running = g.tp.running
  released : g'.released = g.released
  count : (g'.tp.threadCount = g.tp.threadCount ∧
      Position.isStaff (.worker pc') = Position.isStaff (.worker pc)) ∨
    (g'.tp.threadCount = g.tp.threadCount-1 ∧ Position.isStaff (.worker pc) = true ∧
      Position.isStaff (.worker pc') = false)

theorem WorkerEffect.of_keeps {pc pc' : WorkerStmt} (h : Keeps g g') (hactive : pc ≠ .returned)
    (hstaff : Position.isStaff (.worker pc') = Position.isStaff (.worker pc)) :
    WorkerEffect pc g pc' g' :=
  ⟨hactive,h.running,h.released,.inl ⟨h.threadCount,hstaff⟩⟩

theorem execWorker_effect {pc pc' : WorkerStmt} (h : execWorker i g pc = some (pc',g',notice)) :
    WorkerEffect pc g pc' g' := by
  cases pc with
  | loopTest =>
    cases h
    refine .of_keeps .rfl (by simp) ?_
    split_ifs <;> rfl
  | lockLoop =>
    obtain ⟨rfl,hk⟩ := keeps_lock h
    exact .of_keeps hk (by simp) rfl
  | waitTest =>
    cases h
    refine .of_keeps .rfl (by simp) ?_
    split_ifs <;> rfl
  | waitTask =>
    obtain ⟨rfl,hk⟩ := keeps_unlock h
    exact .of_keeps hk (by simp) rfl
  | asleep => cases h
  | relock =>
    obtain ⟨rfl,hk⟩ := keeps_lock h
    exact .of_keeps hk (by simp) rfl
  | stopTest =>
    cases h
    refine .of_keeps .rfl (by simp) ?_
    split_ifs <;> rfl
  | readTask =>
    cases h
    refine .of_keeps .rfl (by simp) ?_
    cases g.tp.taskList <;> rfl
  | unlinkTask p =>
    obtain ⟨c,_,hr⟩ := Option.bind_eq_some_iff.mp h
    cases hr
    exact .of_keeps ⟨rfl,rfl,rfl⟩ (by simp) rfl
  | countIn task => cases h; exact .of_keeps ⟨rfl,rfl,rfl⟩ (by simp) rfl
  | unlockLoop task =>
    obtain ⟨rfl,hk⟩ := keeps_unlock h
    exact .of_keeps hk (by simp) rfl
  | taskTest task =>
    cases h
    refine .of_keeps .rfl (by simp) ?_
    cases task <;> rfl
  | runTask p =>
    obtain ⟨c,_,hr⟩ := Option.bind_eq_some_iff.mp h
    cases hr
    exact .of_keeps .rfl (by simp) rfl
  | freeTask p => cases h; exact .of_keeps ⟨rfl,rfl,rfl⟩ (by simp) rfl
  | lockFinish =>
    obtain ⟨rfl,hk⟩ := keeps_lock h
    exact .of_keeps hk (by simp) rfl
  | countOut => cases h; exact .of_keeps ⟨rfl,rfl,rfl⟩ (by simp) rfl
  | finishTest =>
    cases h
    refine .of_keeps .rfl (by simp) ?_
    split_ifs <;> rfl
  | signalFinish =>
    obtain ⟨rfl,hk⟩ := keeps_notify h
    exact .of_keeps hk (by simp) rfl
  | unlockFinish =>
    obtain ⟨rfl,hk⟩ := keeps_unlock h
    exact .of_keeps hk (by simp) rfl
  | leaveCount => cases h; exact ⟨by simp,rfl,rfl,.inr ⟨rfl,rfl,rfl⟩⟩
  | leaveSignal =>
    obtain ⟨rfl,hk⟩ := keeps_notify h
    exact .of_keeps hk (by simp) rfl
  | leaveUnlock =>
    obtain ⟨rfl,hk⟩ := keeps_unlock h
    exact .of_keeps hk (by simp) rfl
  | returned => cases h

/-- What the shutdown can see of a statement of a client. -/
structure ClientEffect (pc : ClientStmt) (g : Shared) (pc' : ClientStmt) (g' : Shared) : Prop where
  count : g'.tp.threadCount = g.tp.threadCount
  running : g.tp.running = false → g'.tp.running = false
  stopping : Position.isStopping (.client pc') = true →
    Position.isStopping (.client pc) = true ∨ g'.tp.running = false
  released : g'.released = true → g.released = true ∨ Position.isPast (.client pc) = true
  past : Position.isPast (.client pc') = true →
    Position.isPast (.client pc) = true ∨ (pc = .testWait true ∧ g.tp.mustWait = false)

/-- A statement of a client that is no turning point of the shutdown. -/
theorem ClientEffect.of_keeps {pc pc' : ClientStmt} (h : Keeps g g')
    (hstop : Position.isStopping (.client pc') = Position.isStopping (.client pc))
    (hpast : Position.isPast (.client pc') = Position.isPast (.client pc)) :
    ClientEffect pc g pc' g' := by
  refine ⟨h.threadCount,?_,?_,?_,?_⟩
  · intro hrun
    exact h.running.trans hrun
  · intro hs
    exact .inl (hstop ▸ hs)
  · intro hr
    exact .inl (h.released ▸ hr)
  · intro hp
    exact .inl (hpast ▸ hp)

theorem execClient_effect {pc pc' : ClientStmt} (h : execClient i g pc = some (pc',g',notice)) :
    ClientEffect pc g pc' g' := by
  cases pc with
  | idle => cases h
  | lockAdd task =>
    obtain ⟨rfl,hk⟩ := keeps_lock h
    exact .of_keeps hk rfl rfl
  | readAdd task =>
    cases h
    cases g.tp.taskList <;> exact .of_keeps .rfl rfl rfl
  | setAdd task => cases h; exact .of_keeps ⟨rfl,rfl,rfl⟩ rfl rfl
  | walkAdd task p =>
    obtain ⟨c,_,hr⟩ := Option.bind_eq_some_iff.mp h
    cases hr
    cases c.next <;> exact .of_keeps .rfl rfl rfl
  | linkAdd task prev =>
    obtain ⟨heap,_,hr⟩ := Option.bind_eq_some_iff.mp h
    cases hr
    exact .of_keeps ⟨rfl,rfl,rfl⟩ rfl rfl
  | signalAdd =>
    obtain ⟨rfl,hk⟩ := keeps_notify h
    exact .of_keeps hk rfl rfl
  | unlockAdd =>
    obtain ⟨rfl,hk⟩ := keeps_unlock h
    exact .of_keeps hk rfl rfl
  | lockWait d =>
    obtain ⟨rfl,hk⟩ := keeps_lock h
    exact .of_keeps hk rfl rfl
  | testWait d =>
    cases h
    cases hwait : g.tp.mustWait with
    | true => exact .of_keeps .rfl rfl rfl
    | false =>
      refine ⟨rfl,id,fun hd => .inl hd,fun hr => .inl hr,fun hd => .inr ⟨?_,hwait⟩⟩
      exact congrArg _ hd
  | sleepWait d =>
    obtain ⟨rfl,hk⟩ := keeps_unlock h
    exact .of_keeps hk rfl rfl
  | asleepWait d => cases h
  | relockWait d =>
    obtain ⟨rfl,hk⟩ := keeps_lock h
    exact .of_keeps hk rfl rfl
  | unlockWait d =>
    obtain ⟨rfl,hk⟩ := keeps_unlock h
    cases d <;> exact .of_keeps hk rfl rfl
  | lockStop =>
    obtain ⟨rfl,hk⟩ := keeps_lock h
    exact .of_keeps hk rfl rfl
  | readStop =>
    cases h
    cases g.tp.taskList <;> exact .of_keeps .rfl rfl rfl
  | nextStop p =>
    obtain ⟨c,_,hr⟩ := Option.bind_eq_some_iff.mp h
    cases hr
    exact .of_keeps .rfl rfl rfl
  | freeStop p next =>
    cases h
    cases next <;> exact .of_keeps ⟨rfl,rfl,rfl⟩ rfl rfl
  | clearStop =>
    cases h
    exact ⟨rfl,fun _ => rfl,fun _ => .inr rfl,fun hr => .inl hr,fun hp => (by cases hp)⟩
  | broadcastStop =>
    obtain ⟨rfl,hk⟩ := keeps_notify h
    exact .of_keeps hk rfl rfl
  | unlockStop =>
    obtain ⟨rfl,hk⟩ := keeps_unlock h
    exact .of_keeps hk rfl rfl
  | destroyMutex => cases h; exact .of_keeps ⟨rfl,rfl,rfl⟩ rfl rfl
  | destroyTaskCond => cases h; exact .of_keeps .rfl rfl rfl
  | destroyFinishCond => cases h; exact .of_keeps .rfl rfl rfl
  | freePool =>
    cases h
    exact ⟨rfl,id,fun hs => (by cases hs),fun _ => .inr rfl,fun hp => (by cases hp)⟩

theorem does_effect {a : Turn Call} {pc pc' : Position} (h : program.Does a pc g pc' g') :
    (∃ stmt stmt', pc = .worker stmt ∧ pc' = .worker stmt' ∧ WorkerEffect stmt g stmt' g') ∨
      ∃ stmt stmt', pc = .client stmt ∧ pc' = .client stmt' ∧ ClientEffect stmt g stmt' g' := by
  cases h with
  | exec h =>
    rcases exec_eq_some h with ⟨stmt,stmt',hpc,hpc',hr⟩ | ⟨stmt,stmt',hpc,hpc',hr⟩
    · exact .inl ⟨stmt,stmt',hpc,hpc',execWorker_effect hr⟩
    · exact .inr ⟨stmt,stmt',hpc,hpc',execClient_effect hr⟩
  | enter h =>
    change enter _ pc g = _ at h
    unfold enter at h
    split at h <;> cases h <;> exact .inr ⟨_,_,rfl,rfl,.of_keeps ⟨rfl,rfl,rfl⟩ rfl rfl⟩
  | wake h =>
    change (asleep pc).isSome = true at h
    unfold asleep at h
    split at h
    · exact .inl ⟨_,_,rfl,rfl,.of_keeps .rfl (by simp) rfl⟩
    · exact .inr ⟨_,_,rfl,rfl,.of_keeps .rfl rfl rfl⟩
    · cases h

end Effects

section Step
variable {s t : Config Position Shared} {i : ℕ}

/-- When `ThreadPoolDestory` ends its wait, all workers have returned. -/
theorem Orderly.all_returned (h : Orderly s) (hpc : s.threads[i]? = some (.client (.testWait true)))
    (hwait : s.shared.tp.mustWait = false) : s.threads.countP Position.isActive = 0 := by
  have hstop := h.stopped (Program.countP_pos_of_getElem? hpc rfl)
  have hzero : s.shared.tp.threadCount = 0 := by
    simpa [ThreadPool.mustWait,hstop] using hwait
  have hcount := h.counted
  rw [hzero] at hcount
  have hstaff := List.countP_eq_zero.mp hcount.symm
  have hmutex := (h.owned.locked_iff hpc).mpr rfl
  rw [List.countP_eq_zero]
  intro pc hmem hactive
  obtain ⟨j,hj⟩ := List.mem_iff_getElem?.mp hmem
  cases pc with
  | client stmt => cases hactive
  | worker stmt =>
    have hunlocked : WorkerStmt.isLocked stmt ≠ true := by
      intro hlocked
      have hown := (h.owned.locked_iff hj).mpr hlocked
      cases Option.some.inj (hown.symm.trans hmutex)
      cases hj.symm.trans hpc
    have hout := hstaff _ hmem
    cases stmt <;> simp_all [Position.isStaff,Position.isActive,WorkerStmt.isLocked]

theorem Orderly.worker_step {stmt stmt' : WorkerStmt} (h : Orderly s)
    (hpc : s.threads[i]? = some (.worker stmt)) (heff : WorkerEffect stmt s.shared stmt' t.shared)
    (hmap : ∀ f, program.Stable f →
      t.threads.map f = (s.threads.set i (.worker stmt')).map f)
    (howned : Program.Owned Shared.mutex Position.isLocked t) : Orderly t := by
  have hstaff := Program.countP_step hpc (hmap _ stable_isStaff)
  have hstop : t.threads.countP Position.isStopping = s.threads.countP Position.isStopping :=
    Program.countP_step hpc (hmap _ stable_isStopping)
  have hpast : t.threads.countP Position.isPast = s.threads.countP Position.isPast :=
    Program.countP_step hpc (hmap _ stable_isPast)
  have hactive : 0 < s.threads.countP Position.isActive :=
    Program.countP_pos_of_getElem? hpc (decide_eq_true heff.active)
  refine ⟨howned,?_,?_,?_⟩
  · have hcount := h.counted
    rcases heff.count with ⟨hsame,hs⟩ | ⟨hless,hin,hout⟩
    · rw [hs] at hstaff
      rw [hsame,hcount]
      omega
    · have hpos := Program.countP_pos_of_getElem? hpc hin
      rw [hin,hout] at hstaff
      have hone : (1 : UInt64) ≤ s.shared.tp.threadCount := by
        rw [UInt64.le_iff_toNat_le,hcount]
        exact hpos
      rw [hless,UInt64.toNat_sub_of_le _ _ hone,hcount]
      simp only [if_true,Bool.false_eq_true,if_false,UInt64.toNat_one] at hstaff ⊢
      omega
  · intro hpos
    rw [heff.running]
    exact h.stopped (hstop ▸ hpos)
  · intro hleft
    rw [hpast,heff.released] at hleft
    have hnone := h.left hleft
    omega

theorem Orderly.client_step {stmt stmt' : ClientStmt} (h : Orderly s)
    (hpc : s.threads[i]? = some (.client stmt)) (heff : ClientEffect stmt s.shared stmt' t.shared)
    (hmap : ∀ f, program.Stable f →
      t.threads.map f = (s.threads.set i (.client stmt')).map f)
    (howned : Program.Owned Shared.mutex Position.isLocked t) : Orderly t := by
  have hstaff : t.threads.countP Position.isStaff = s.threads.countP Position.isStaff :=
    Program.countP_step hpc (hmap _ stable_isStaff)
  have hactive : t.threads.countP Position.isActive = s.threads.countP Position.isActive :=
    Program.countP_step hpc (hmap _ stable_isActive)
  refine ⟨howned,?_,?_,?_⟩
  · rw [heff.count,hstaff]
    exact h.counted
  · intro hpos
    rcases Program.countP_pos_step hpc (hmap _ stable_isStopping) hpos with hold | hnew
    · exact heff.running (h.stopped hold)
    · rcases heff.stopping hnew with hold | hrun
      · exact heff.running (h.stopped (Program.countP_pos_of_getElem? hpc hold))
      · exact hrun
  · intro hleft
    rw [hactive]
    -- a client that was past the wait already, or one that has just come past it
    have hcases : (0 < s.threads.countP Position.isPast ∨ s.shared.released = true) ∨
        (stmt = .testWait true ∧ s.shared.tp.mustWait = false) := by
      rcases hleft with hpos | hrel
      · rcases Program.countP_pos_step hpc (hmap _ stable_isPast) hpos with hold | hnew
        · exact .inl (.inl hold)
        · rcases heff.past hnew with hold | htest
          · exact .inl (.inl (Program.countP_pos_of_getElem? hpc hold))
          · exact .inr htest
      · rcases heff.released hrel with hold | hpast
        · exact .inl (.inr hold)
        · exact .inl (.inl (Program.countP_pos_of_getElem? hpc hpast))
    rcases hcases with hold | ⟨htest,hwait⟩
    · exact h.left hold
    · subst htest
      exact h.all_returned hpc hwait

theorem orderly_step {a : Turn Call} (h : Orderly s) (hstay : leavesByTest s a = false)
    (hs : program.step s a = some (t,())) : Orderly t := by
  have howned := owned_step h.owned hstay hs
  obtain ⟨pc,pc',hpc,hdoes,hmap⟩ := Program.step_does hs
  rcases does_effect hdoes with ⟨stmt,stmt',hw,hw',heff⟩ | ⟨stmt,stmt',hc,hc',heff⟩
  · subst hw
    subst hw'
    exact h.worker_step hpc heff hmap howned
  · subst hc
    subst hc'
    exact h.client_step hpc heff hmap howned

end Step

theorem orderly_create {num : UInt64} {clients : ℕ} {s : Config Position Shared}
    (h : threadPoolCreate num clients = some s) : Orderly s := by
  have howned := owned_create h
  unfold threadPoolCreate at h
  split_ifs at h
  cases h
  refine ⟨howned,?_,?_,?_⟩
  · simp [List.countP_replicate,Position.isStaff]
  · simp [List.countP_replicate,Position.isStopping]
  · simp [List.countP_replicate,Position.isPast]

/-- As long as no worker leaves its loop by the test, no worker uses the pool after it is freed. -/
theorem released_after_workers (num : UInt64) (clients : ℕ) (new : Config Position Shared)
    (turns : List (Turn Call)) (hnew : threadPoolCreate num clients = some new)
    (hstay : Machine.EachCall program.step (fun s a => leavesByTest s a = false) new turns) :
    Machine.Throughout program.step SafelyReleased new turns := by
  refine Machine.throughout_of_eachCall Orderly (fun s h => safelyReleased_of_orderly h) ?_
    (orderly_create hnew) hstay
  intro s a t o h hP hs
  exact orderly_step h hP hs

/-- A worker sleeps, is told to stop, returns, and the pool is freed. -/
def stopAsleep : List (Turn Call) :=
  [.exec 0 none,.exec 0 none,.exec 0 none,.exec 0 none,.enter 1 .destory,
    .exec 1 none,.exec 1 none,.exec 1 none,.exec 1 none,.exec 1 none,
    .exec 0 none,.exec 0 none,.exec 0 none,.exec 0 none,.exec 0 none,.exec 0 none,
    .exec 1 none,.exec 1 none,.exec 1 none,.exec 1 none,.exec 1 none,.exec 1 none,.exec 1 none]

theorem released_after_workers_test : ∃ new, threadPoolCreate 1 1 = some new ∧
    (Machine.run program.step new stopAsleep).map (fun r => r.1.shared.released) = some true ∧
    Machine.Throughout program.step SafelyReleased new stopAsleep := by
  refine ⟨_,rfl,by decide +kernel,released_after_workers 1 1 _ stopAsleep rfl ?_⟩
  refine Machine.eachCall_of_test (p := fun s a => !leavesByTest s a) ?_ (by decide +kernel)
  intro s a h
  simpa using h

/-- The worker leaves by the loop test, and the pool is freed between its decrement and its
signal. -/
theorem released_before_signal : ∃ new s replies, threadPoolCreate 1 1 = some new ∧
    Machine.run program.step new [.enter 1 .destory,
      .exec 1 none,.exec 1 none,.exec 1 none,.exec 1 none,.exec 1 none,.exec 0 none,.exec 0 none,
      .exec 1 none,.exec 1 none,.exec 1 none,.exec 1 none,.exec 1 none,.exec 1 none,.exec 1 none] =
        some (s,replies) ∧
    ¬ SafelyReleased s := by
  refine ⟨_,_,_,rfl,rfl,?_⟩
  intro h
  have huses := h rfl .leaveSignal (by decide)
  cases huses

end CStudy.ThreadPool01.Statements
