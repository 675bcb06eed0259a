import CStudy.Foundation.Machine
import CStudy.Foundation.Threads

/-! Threads that execute the statements of a program on shared memory, one at a time and in any
order. A position stands for the statement that comes next, together with the local variables of
the thread. A statement may wake threads that sleep on a condition variable. A mutex is a field of
the shared memory that holds the number of its owner. -/
namespace CStudy.Foundation

/-- The wake-up a statement makes. -/
inductive Notice (κ : Type)
  | nothing
  | signal (cond : κ)
  | broadcast (cond : κ)

structure Program (π σ κ ι : Type) where
  /-- the statement at a position, executed by the thread with this number -/
  exec : ℕ → π → σ → Option (π × σ × Notice κ)
  /-- a call made by a thread that is free to make one -/
  enter : ι → π → σ → Option (π × σ)
  /-- the condition variable on which a position sleeps -/
  asleep : π → Option κ
  /-- where a woken thread goes on -/
  resume : π → π

structure Config (π σ : Type) where
  shared : σ
  threads : List π

/-- Who moves. Where a statement makes a signal, `wake` is the thread it wakes. -/
inductive Turn (ι : Type)
  | exec (i : ℕ) (wake : Option ℕ)
  | enter (i : ℕ) (call : ι)
  | spurious (i : ℕ)

def Turn.thread {ι : Type} : Turn ι → ℕ
  | .exec i _ => i
  | .enter i _ => i
  | .spurious i => i

namespace Program
variable {π σ κ ι : Type} [DecidableEq κ] (P : Program π σ κ ι)

def sleepsOn (cond : κ) (pc : π) : Bool := decide (P.asleep pc = some cond)

def notify (threads : List π) (wake : Option ℕ) : Notice κ → Option (List π)
  | .nothing => some threads
  | .signal cond => Threads.signal (P.sleepsOn cond) P.resume threads wake
  | .broadcast cond => some (Threads.broadcast (P.sleepsOn cond) P.resume threads)

def step : Machine (Config π σ) (Turn ι) Unit
  | s,.exec i wake => do
    let pc ← s.threads[i]?
    let (pc,shared,notice) ← P.exec i pc s.shared
    let threads ← P.notify (s.threads.set i pc) wake notice
    return (⟨shared,threads⟩,())
  | s,.enter i call => do
    let pc ← s.threads[i]?
    let (pc,shared) ← P.enter call pc s.shared
    return (⟨shared,s.threads.set i pc⟩,())
  | s,.spurious i => do
    let pc ← s.threads[i]?
    if (P.asleep pc).isSome then return (⟨s.shared,s.threads.set i (P.resume pc)⟩,()) else none

/-- What the thread whose turn it is does, whatever becomes of the others. -/
inductive Does : Turn ι → π → σ → π → σ → Prop
  | exec {i : ℕ} {wake : Option ℕ} {pc pc' : π} {g g' : σ} {notice : Notice κ}
      (h : P.exec i pc g = some (pc',g',notice)) : Does (.exec i wake) pc g pc' g'
  | enter {i : ℕ} {call : ι} {pc pc' : π} {g g' : σ} (h : P.enter call pc g = some (pc',g')) :
      Does (.enter i call) pc g pc' g'
  | wake {i : ℕ} {pc : π} {g : σ} (h : (P.asleep pc).isSome = true) :
      Does (.spurious i) pc g (P.resume pc) g

/-- A property of positions that waking up does not change. -/
def Stable (f : π → Bool) : Prop := ∀ pc, (P.asleep pc).isSome = true → f (P.resume pc) = f pc

variable {P} {s t : Config π σ} {a : Turn ι} {f : π → Bool}

theorem map_notify (hf : P.Stable f) {ts us : List π} {wake : Option ℕ} {notice : Notice κ}
    (h : P.notify ts wake notice = some us) : us.map f = ts.map f := by
  have hwake : ∀ cond x, P.sleepsOn cond x = true → f (P.resume x) = f x := by
    intro cond x hx
    exact hf x (by rw [of_decide_eq_true hx]; rfl)
  cases notice with
  | nothing => cases h; rfl
  | signal cond => exact Threads.map_signal (hwake cond) h
  | broadcast cond => cases h; exact Threads.map_broadcast (hwake cond) ts

/-- A step is a step of one thread, and wakes some of the others. -/
theorem step_does (h : P.step s a = some (t,())) :
    ∃ pc pc', s.threads[a.thread]? = some pc ∧ P.Does a pc s.shared pc' t.shared ∧
      ∀ f, P.Stable f → t.threads.map f = (s.threads.set a.thread pc').map f := by
  cases a with
  | exec i wake =>
    obtain ⟨pc,hpc,h⟩ := Option.bind_eq_some_iff.mp h
    obtain ⟨⟨pc',g,notice⟩,hexec,h⟩ := Option.bind_eq_some_iff.mp h
    obtain ⟨threads,hn,h⟩ := Option.bind_eq_some_iff.mp h
    cases h
    exact ⟨pc,pc',hpc,.exec hexec,fun f hf => map_notify hf hn⟩
  | enter i call =>
    obtain ⟨pc,hpc,h⟩ := Option.bind_eq_some_iff.mp h
    obtain ⟨⟨pc',g⟩,henter,h⟩ := Option.bind_eq_some_iff.mp h
    cases h
    exact ⟨pc,pc',hpc,.enter henter,fun f hf => rfl⟩
  | spurious i =>
    obtain ⟨pc,hpc,h⟩ := Option.bind_eq_some_iff.mp h
    split_ifs at h with hs
    cases h
    exact ⟨pc,P.resume pc,hpc,.wake hs,fun f hf => rfl⟩

/-- The number of threads with a property changes by the thread that moves. -/
theorem countP_step {pc pc' : π} {i : ℕ} (hpc : s.threads[i]? = some pc)
    (hmap : t.threads.map f = (s.threads.set i pc').map f) :
    t.threads.countP f+(if f pc then 1 else 0) = s.threads.countP f+(if f pc' then 1 else 0) := by
  rw [Threads.countP_eq_of_map hmap]
  exact Threads.countP_set f hpc

theorem countP_pos_of_getElem? {pc : π} {i : ℕ} (hpc : s.threads[i]? = some pc)
    (hf : f pc = true) : 0 < s.threads.countP f := by
  rw [List.countP_pos_iff]
  exact ⟨pc,List.mem_of_getElem? hpc,hf⟩

/-- Where a property is new, the thread that moved has it. -/
theorem countP_pos_step {pc pc' : π} {i : ℕ} (hpc : s.threads[i]? = some pc)
    (hmap : t.threads.map f = (s.threads.set i pc').map f) (hpos : 0 < t.threads.countP f) :
    0 < s.threads.countP f ∨ f pc' = true := by
  have hcount := countP_step hpc hmap
  cases hf : f pc' with
  | true => exact .inr rfl
  | false =>
    simp only [hf,Bool.false_eq_true,if_false] at hcount
    left
    omega

section Mutex
variable (owner : σ → Option ℕ) (locked : π → Bool)

/-- The owner of the mutex is the one thread at a locked position. -/
def Owned (s : Config π σ) : Prop :=
  ∀ i, owner s.shared = some i ↔ (s.threads.map locked)[i]? = some true

/-- Thread `i` leaves the mutex alone, takes it when it is free, or gives it back. -/
def LockMove (i : ℕ) (pc : π) (g : σ) (pc' : π) (g' : σ) : Prop :=
  (owner g' = owner g ∧ locked pc' = locked pc) ∨
    (owner g = none ∧ owner g' = some i ∧ locked pc' = true) ∨
    (owner g = some i ∧ owner g' = none ∧ locked pc' = false)

variable {owner locked}

theorem Owned.locked_iff (h : Owned owner locked s) {i : ℕ} {pc : π} (hpc : s.threads[i]? = some pc) :
    owner s.shared = some i ↔ locked pc = true := by
  rw [h i,List.getElem?_map,hpc,Option.map_some,Option.some.injEq]

theorem Owned.step {i : ℕ} {pc pc' : π} (h : Owned owner locked s) (hpc : s.threads[i]? = some pc)
    (hmove : LockMove owner locked i pc s.shared pc' t.shared)
    (hmap : t.threads.map locked = (s.threads.set i pc').map locked) : Owned owner locked t := by
  have hlt : i < (s.threads.map locked).length := by
    rw [List.length_map]
    exact (List.getElem?_eq_some_iff.mp hpc).1
  intro j
  rw [hmap,List.map_set,List.getElem?_set]
  have hself := h.locked_iff hpc
  have hother := h j
  rcases hmove with ⟨hsame,hl⟩ | ⟨hnone,hsome,hl⟩ | ⟨hsome,hnone,hl⟩
  · rw [hsame]
    split_ifs with hij
    · subst hij
      rw [hself,hl,Option.some.injEq]
    · exact hother
  · rw [hsome]
    split_ifs with hij
    · simp [hij,hl]
    · rw [hnone] at hother
      constructor
      · intro hji
        exact absurd (Option.some.inj hji) hij
      · intro hj
        cases hother.mpr hj
  · rw [hnone]
    split_ifs with hij
    · simp [hl]
    · constructor
      · intro hj
        cases hj
      · intro hj
        exact absurd (Option.some.inj (hsome.symm.trans (hother.mpr hj))) hij

end Mutex
end Program
end CStudy.Foundation
