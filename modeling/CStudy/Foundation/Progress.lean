import CStudy.Foundation.Machine
import CStudy.Foundation.Threads

/-! Runs that come to an end. Where each call of a kind lowers a number, a run of such calls is no
longer than that number, and it can be carried on until none of them is defined. -/
namespace CStudy.Foundation

namespace Machine
variable {σ ι ο : Type*} {step : Machine σ ι ο} {Inv : σ → Prop} {allowed : ι → Prop} {μ : σ → ℕ}
  {s t : σ} {cs : List ι} {os : List ο}

/-- An allowed call from a state in `Inv` leads to one in `Inv` where `μ` is lower. -/
def Lowers (step : Machine σ ι ο) (Inv : σ → Prop) (allowed : ι → Prop) (μ : σ → ℕ) : Prop :=
  ∀ s c t o, Inv s → allowed c → step s c = some (t,o) → Inv t ∧ μ t < μ s

/-- No allowed call is defined. -/
def Resting (step : Machine σ ι ο) (allowed : ι → Prop) (s : σ) : Prop :=
  ∀ c, allowed c → step s c = none

theorem Lowers.run (h : Lowers step Inv allowed μ) (hs : Inv s) (hcs : ∀ c ∈ cs, allowed c)
    (hr : Machine.run step s cs = some (t,os)) : Inv t ∧ μ t+cs.length ≤ μ s := by
  induction cs generalizing s os with
  | nil =>
    cases hr
    exact ⟨hs,le_rfl⟩
  | cons c cs ih =>
    obtain ⟨u,o,os',hc,hrest,rfl⟩ := run_cons_eq_some.mp hr
    obtain ⟨hu,hlt⟩ := h s c u o hs (hcs c List.mem_cons_self) hc
    obtain ⟨ht,hle⟩ := ih hu (fun d hd => hcs d (List.mem_cons_of_mem c hd)) hrest
    refine ⟨ht,?_⟩
    rw [List.length_cons]
    omega

theorem Lowers.exists_resting (h : Lowers step Inv allowed μ) (hs : Inv s) :
    ∃ cs t os, (∀ c ∈ cs, allowed c) ∧ Machine.run step s cs = some (t,os) ∧
      Resting step allowed t := by
  induction hm : μ s using Nat.strong_induction_on generalizing s with
  | _ m ih =>
    by_cases hrest : Resting step allowed s
    · exact ⟨[],s,[],by simp,rfl,hrest⟩
    · simp only [Resting,not_forall] at hrest
      obtain ⟨c,hc,hstep⟩ := hrest
      obtain ⟨⟨u,o⟩,hu⟩ := Option.ne_none_iff_exists'.mp hstep
      obtain ⟨hInv,hlt⟩ := h s c u o hs hc hu
      obtain ⟨cs,t,os,hcs,hrun,hend⟩ := ih (μ u) (hm ▸ hlt) hInv rfl
      refine ⟨c::cs,t,o::os,?_,?_,hend⟩
      · intro d hd
        rcases List.mem_cons.mp hd with rfl | hd
        · exact hc
        · exact hcs d hd
      · rw [run_cons hu,hrun]
        rfl

end Machine

namespace Threads
variable {π : Type*} {ts us : List π} {i : ℕ} {x y z : π}

theorem forall_set {P : π → Prop} (hall : ∀ x ∈ ts, P x) (hy : P y) : ∀ x ∈ ts.set i y, P x := by
  intro x hx
  rcases List.mem_or_eq_of_mem_set hx with hx | rfl
  · exact hall x hx
  · exact hy

theorem mem_set_self (hx : ts[i]? = some x) : y ∈ ts.set i y := by
  obtain ⟨hi,_⟩ := List.getElem?_eq_some_iff.mp hx
  exact List.mem_of_getElem? (List.getElem?_set_self hi)

/-- A sum over all threads, before and after a step of one of them. -/
theorem sum_set (f : π → ℕ) (hx : ts[i]? = some x) :
    ((ts.set i y).map f).sum+f x = (ts.map f).sum+f y := by
  induction ts generalizing i with
  | nil => simp at hx
  | cons z ts ih =>
    cases i with
    | zero =>
      obtain rfl : z = x := by simpa using hx
      simp only [List.set_cons_zero,List.map_cons,List.sum_cons]
      omega
    | succ i =>
      have h := ih (i := i) (by simpa using hx)
      simp only [List.set_cons_succ,List.map_cons,List.sum_cons]
      omega

section Condition
variable {blocked : π → Bool} {resume : π → π}

/-- Whatever the threads are doing, a signal can be given. -/
theorem exists_signal (blocked : π → Bool) (resume : π → π) (ts : List π) :
    ∃ choice us, signal blocked resume ts choice = some us := by
  by_cases hany : ts.any blocked
  · obtain ⟨x,hx,hb⟩ := List.any_eq_true.mp hany
    obtain ⟨i,hi⟩ := List.mem_iff_getElem?.mp hx
    exact ⟨some i,ts.set i (resume x),by simp [signal,hi,hb]⟩
  · exact ⟨none,ts,if_neg hany⟩

theorem forall_signal {P : π → Prop} (hall : ∀ x ∈ ts, P x)
    (hresume : ∀ x, P x → P (resume x)) {choice : Option ℕ}
    (h : signal blocked resume ts choice = some us) : ∀ x ∈ us, P x := by
  unfold signal at h
  split at h
  · split_ifs at h
    cases h
    exact hall
  · split at h
    · next z hz =>
      split_ifs at h
      cases h
      exact forall_set hall (hresume z (hall z (List.mem_of_getElem? hz)))
    · cases h

/-- After a signal some thread is not blocked. -/
theorem exists_awake_signal (hresume : ∀ x, blocked x = true → blocked (resume x) = false)
    (hne : ts ≠ []) {choice : Option ℕ} (h : signal blocked resume ts choice = some us) :
    ∃ x ∈ us, blocked x = false := by
  unfold signal at h
  split at h
  · split_ifs at h with hany
    cases h
    obtain ⟨x,hx⟩ := List.exists_mem_of_ne_nil ts hne
    refine ⟨x,hx,?_⟩
    rw [List.any_eq_true] at hany
    cases hb : blocked x with
    | false => rfl
    | true => exact absurd ⟨x,hx,hb⟩ hany
  · split at h
    · next z hz =>
      split_ifs at h with hb
      cases h
      exact ⟨resume z,mem_set_self hz,hresume z hb⟩
    · cases h

end Condition

end Threads

end CStudy.Foundation
