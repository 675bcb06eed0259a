import Mathlib.Data.List.Perm.Basic
import Mathlib.Tactic

/-! Threads that run the same program text, given by the list of their positions in it. A step
of one thread replaces its position; a condition variable moves blocked threads on. What the
threads hold together changes only by what the thread that steps takes or gives up. -/
namespace CStudy.Foundation.Threads
variable {π β : Type*} {ts us : List π} {i : ℕ} {x y : π}

/-- A signal wakes the chosen thread, which has to be a blocked one; nothing is chosen only if
no thread is blocked. -/
def signal (blocked : π → Bool) (resume : π → π) (ts : List π) : Option ℕ → Option (List π)
  | none => if ts.any blocked then none else some ts
  | some i =>
    match ts[i]? with
    | some x => if blocked x then some (ts.set i (resume x)) else none
    | none => none

/-- A broadcast wakes all blocked threads. -/
def broadcast (blocked : π → Bool) (resume : π → π) (ts : List π) : List π :=
  ts.map fun x => if blocked x then resume x else x

theorem map_set_of_eq {f : π → β} (hx : ts[i]? = some x) (hf : f y = f x) :
    (ts.set i y).map f = ts.map f := by
  obtain ⟨hi,rfl⟩ := List.getElem?_eq_some_iff.mp hx
  rw [List.map_set,hf,← List.getElem_map f (h := by simpa using hi),List.set_getElem_self]

/-- What all threads hold, before and after a step of thread `i` from `x` to `y`. -/
theorem filterMap_set_perm (f : π → Option β) (hx : ts[i]? = some x) :
    ((f x).toList++(ts.set i y).filterMap f).Perm ((f y).toList++ts.filterMap f) := by
  induction ts generalizing i with
  | nil => simp at hx
  | cons z ts ih =>
    cases i with
    | zero =>
      obtain rfl : z = x := by simpa using hx
      rw [List.set_cons_zero]
      cases hfx : f z <;> cases hfy : f y <;> simp [hfx,hfy]
      exact List.Perm.swap _ _ _
    | succ i =>
      rw [List.set_cons_succ]
      have h := ih (i := i) (by simpa using hx)
      cases hz : f z with
      | none => simpa [hz] using h
      | some b =>
        simp only [List.filterMap_cons,hz]
        exact List.perm_middle.trans ((h.cons b).trans List.perm_middle.symm)

theorem countP_set (p : π → Bool) (hx : ts[i]? = some x) :
    (ts.set i y).countP p+(if p x then 1 else 0) = ts.countP p+(if p y then 1 else 0) := by
  induction ts generalizing i with
  | nil => simp at hx
  | cons z ts ih =>
    cases i with
    | zero =>
      obtain rfl : z = x := by simpa using hx
      rw [List.set_cons_zero,List.countP_cons,List.countP_cons]
      omega
    | succ i =>
      have h := ih (i := i) (by simpa using hx)
      rw [List.set_cons_succ,List.countP_cons,List.countP_cons]
      omega

section Condition
variable {blocked : π → Bool} {resume : π → π}

/-- A property of positions that waking up does not change is kept by a signal. -/
theorem map_signal {f : π → β} (hf : ∀ x, blocked x → f (resume x) = f x) {choice : Option ℕ}
    (h : signal blocked resume ts choice = some us) : us.map f = ts.map f := by
  unfold signal at h
  split at h
  · split_ifs at h
    cases h
    rfl
  · split at h
    · next hx =>
      split_ifs at h with hb
      cases h
      exact map_set_of_eq hx (hf _ hb)
    · cases h

theorem map_broadcast {f : π → β} (hf : ∀ x, blocked x → f (resume x) = f x) (ts : List π) :
    (broadcast blocked resume ts).map f = ts.map f := by
  rw [broadcast,List.map_map]
  apply List.map_congr_left
  intro x _
  dsimp only [Function.comp_apply]
  split_ifs with hb
  · exact hf x hb
  · rfl

/-- A signal takes one thread off those blocked, if there are any. -/
theorem countP_signal (hf : ∀ x, blocked x → blocked (resume x) = false) {choice : Option ℕ}
    (h : signal blocked resume ts choice = some us) :
    us.countP blocked = ts.countP blocked-1 := by
  unfold signal at h
  split at h
  · split_ifs at h with hany
    cases h
    rw [List.countP_eq_zero.mpr]
    intro x hx hb
    exact hany (List.any_eq_true.mpr ⟨x,hx,hb⟩)
  · split at h
    · next x hx =>
      split_ifs at h with hb
      cases h
      have hset := countP_set (y := resume x) blocked hx
      rw [hb,hf x hb] at hset
      simpa using Nat.eq_sub_of_add_eq hset
    · cases h

/-- A signal seen through a map of the positions that keeps what is blocked. -/
theorem signal_map {ρ : Type*} {f : π → ρ} {blocked' : ρ → Bool} {resume' : ρ → ρ}
    (hblocked : ∀ x, blocked' (f x) = blocked x)
    (hresume : ∀ x, blocked x = true → resume' (f x) = f (resume x)) {choice : Option ℕ}
    (h : signal blocked resume ts choice = some us) :
    signal blocked' resume' (ts.map f) choice = some (us.map f) := by
  cases choice with
  | none =>
    rw [signal] at h ⊢
    split_ifs at h with hany
    cases h
    have hcomp : blocked' ∘ f = blocked := funext hblocked
    rw [List.any_map,hcomp,if_neg hany]
  | some i =>
    rw [signal] at h ⊢
    rw [List.getElem?_map]
    cases hx : ts[i]? with
    | none => simp [hx] at h
    | some x =>
      simp only [hx,Option.map_some,hblocked] at h ⊢
      split_ifs at h with hb
      cases h
      rw [if_pos hb,hresume x hb,List.map_set]

/-- Threads that are not blocked are not signalled. -/
theorem signal_append {rest : List π} (hrest : ∀ x ∈ rest, blocked x = false) {choice : Option ℕ}
    (h : signal blocked resume ts choice = some us) :
    signal blocked resume (ts++rest) choice = some (us++rest) := by
  cases choice with
  | none =>
    rw [signal] at h ⊢
    split_ifs at h with hany
    cases h
    have hfree : ¬ rest.any blocked = true := by
      rw [List.any_eq_true]
      rintro ⟨x,hx,hb⟩
      exact Bool.false_ne_true ((hrest x hx).symm.trans hb)
    rw [List.any_append,if_neg (by simp [hany,hfree])]
  | some i =>
    rw [signal] at h ⊢
    cases hx : ts[i]? with
    | none => simp [hx] at h
    | some x =>
      have hi := (List.getElem?_eq_some_iff.mp hx).1
      rw [List.getElem?_append_left hi]
      simp only [hx] at h ⊢
      split_ifs at h with hb
      cases h
      rw [if_pos hb,List.set_append_left i _ hi]

/-- Where a thread that is not blocked stands makes no difference to a signal. -/
theorem signal_set (hx : ts[i]? = some x) (hbx : blocked x = false) (hby : blocked y = false)
    {choice : Option ℕ} (h : signal blocked resume ts choice = some us) :
    signal blocked resume (ts.set i y) choice = some (us.set i y) := by
  cases choice with
  | none =>
    rw [signal] at h ⊢
    split_ifs at h with hany
    cases h
    rw [if_neg]
    rw [List.any_eq_true] at hany ⊢
    rintro ⟨z,hz,hbz⟩
    rcases List.mem_or_eq_of_mem_set hz with hold | rfl
    · exact hany ⟨z,hold,hbz⟩
    · exact Bool.false_ne_true (hby.symm.trans hbz)
  | some j =>
    rw [signal] at h ⊢
    cases hj : ts[j]? with
    | none => simp [hj] at h
    | some z =>
      simp only [hj] at h
      split_ifs at h with hbz
      cases h
      have hij : i ≠ j := by
        rintro rfl
        cases hx.symm.trans hj
        exact Bool.false_ne_true (hbx.symm.trans hbz)
      rw [List.getElem?_set_ne hij,hj]
      simp only [hbz,if_true]
      rw [List.set_comm _ _ hij]

theorem length_signal {choice : Option ℕ} (h : signal blocked resume ts choice = some us) :
    us.length = ts.length := by
  have hmap := map_signal (f := fun _ => ()) (fun _ _ => rfl) h
  simpa using congrArg List.length hmap

end Condition

theorem filterMap_eq_of_map {f : π → Option β} (h : us.map f = ts.map f) :
    us.filterMap f = ts.filterMap f := by
  have hid := congrArg (List.filterMap id) h
  rwa [List.filterMap_map,List.filterMap_map,Function.id_comp] at hid

theorem countP_eq_of_map {p : π → Bool} (h : us.map p = ts.map p) : us.countP p = ts.countP p := by
  have hid := congrArg (List.countP id) h
  rwa [List.countP_map,List.countP_map,Function.id_comp] at hid

theorem filterMap_set_of_eq {f : π → Option β} (hx : ts[i]? = some x) (hf : f y = f x) :
    (ts.set i y).filterMap f = ts.filterMap f := filterMap_eq_of_map (map_set_of_eq hx hf)

theorem countP_set_of_eq {p : π → Bool} (hx : ts[i]? = some x) (hp : p y = p x) :
    (ts.set i y).countP p = ts.countP p := countP_eq_of_map (map_set_of_eq hx hp)

section Start
variable (hall : ∀ y ∈ ts, y = x)
include hall

/-- Threads that all stand where nothing is held hold nothing together. -/
theorem filterMap_eq_nil_of_forall_eq {f : π → Option β} (hf : f x = none) :
    ts.filterMap f = [] := by
  rw [List.filterMap_eq_nil_iff]
  intro y hy
  rw [hall y hy,hf]

theorem countP_eq_zero_of_forall_eq {p : π → Bool} (hp : p x = false) : ts.countP p = 0 := by
  rw [List.countP_eq_zero]
  intro y hy
  simp [hall y hy,hp]

end Start

/-- Of `n` threads that are to be started, those that do not start. -/
def notStarted (n : ℕ) (created : ℕ → Bool) : ℕ := (List.range n).countP fun i => !created i

theorem notStarted_eq_zero_iff {n : ℕ} {created : ℕ → Bool} :
    notStarted n created = 0 ↔ ∀ i < n, created i = true := by
  simp [notStarted,List.countP_eq_zero]

theorem length_started_add (n : ℕ) (created : ℕ → Bool) :
    ((List.range n).filter created).length+notStarted n created = n := by
  have hsplit := List.length_eq_countP_add_countP created (l := List.range n)
  simp only [List.length_range,Bool.not_eq_true,Bool.decide_eq_false] at hsplit
  rw [← List.countP_eq_length_filter]
  exact hsplit.symm

end CStudy.Foundation.Threads
