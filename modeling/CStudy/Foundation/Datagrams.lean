import Mathlib.Data.Multiset.MapFold
import Mathlib.Data.Multiset.AddSub
import Mathlib.Tactic

/-! Datagrams in flight to numbered ports. They arrive in any order; the network may lose one or
deliver it again. What is bound for a port is a multiset, of which each step takes or adds one. -/
namespace CStudy.Foundation

structure Datagram (β : Type*) where
  port : ℕ
  bytes : β

namespace Datagram
variable {β : Type*} {net : List (Datagram β)} {d : Datagram β} {i k : ℕ}

/-- The part of one datagram in what is bound for port `k`. -/
def own (k : ℕ) (d : Datagram β) : Multiset β := if d.port = k then {d.bytes} else 0

/-- All that is bound for port `k`. -/
def bound (k : ℕ) (net : List (Datagram β)) : Multiset β := (net.map (own k)).sum

@[simp] theorem own_self : own d.port d = {d.bytes} := if_pos rfl

theorem own_of_ne (h : d.port ≠ k) : own k d = 0 := if_neg h

@[simp] theorem bound_nil : bound k ([] : List (Datagram β)) = 0 := rfl

@[simp] theorem bound_concat : bound k (net++[d]) = own k d+bound k net := by
  simp [bound,add_comm]

/-- One datagram is taken out of the network. -/
theorem bound_eraseIdx (h : net[i]? = some d) : bound k net = own k d+bound k (net.eraseIdx i) := by
  induction net generalizing i with
  | nil => simp at h
  | cons e net ih =>
    cases i with
    | zero =>
      obtain rfl : e = d := by simpa using h
      simp [bound]
    | succ i =>
      have hrest := ih (i := i) (by simpa using h)
      simp only [bound,List.eraseIdx_cons_succ,List.map_cons,List.sum_cons] at hrest ⊢
      rw [hrest]
      exact add_left_comm _ _ _

theorem length_eraseIdx_add (h : net[i]? = some d) : (net.eraseIdx i).length+1 = net.length := by
  have hlt := (List.getElem?_eq_some_iff.mp h).1
  rw [List.length_eraseIdx,if_pos hlt]
  omega

/-- Where something is bound for a port there is a datagram to it. -/
theorem exists_of_bound (h : bound k net ≠ 0) : ∃ (i : ℕ) (d : Datagram β),
    net[i]? = some d ∧ d.port = k := by
  have hmem : ∃ d ∈ net, d.port = k := by
    by_contra hnone
    push Not at hnone
    apply h
    rw [bound,List.sum_eq_zero]
    intro x hx
    obtain ⟨d,hd,rfl⟩ := List.mem_map.mp hx
    exact own_of_ne (hnone d hd)
  obtain ⟨d,hd,hport⟩ := hmem
  obtain ⟨i,hi⟩ := List.mem_iff_getElem?.mp hd
  exact ⟨i,d,hi,hport⟩

end Datagram

end CStudy.Foundation
