import CStudy.Foundation.Heap
import Mathlib.Data.List.Perm.Basic

/-! Cells on their way through a queue and a group of threads. A cell is allocated and pending
until it is added to the queue; it is taken from the front, held by the thread that took it, and
finished in whatever order the threads come to it. None is lost on the way and none is met twice. -/
namespace CStudy.Foundation

/-- All cells below `top`: those `pending`, those `added` so far and `taken` so far, the
`finished` and the `held` ones among these, and the `queue` of the others. -/
structure Flow (top : Ptr) (pending added taken finished held queue : List Ptr) : Prop where
  order : added = taken++queue
  accounted : taken.Perm (finished++held)
  fresh : (added++pending).Nodup
  below : ∀ p ∈ added++pending, p < top

namespace Flow
variable {top p : Ptr} {pending pending' added taken finished held held' queue : List Ptr}

theorem nil : Flow 0 [] [] [] [] [] [] :=
  ⟨rfl,List.Perm.refl _,List.nodup_nil,fun _ h => absurd h List.not_mem_nil⟩

/-- A new cell becomes pending. -/
theorem prepare (h : Flow top pending added taken finished held queue)
    (hp : pending'.Perm (top::pending)) : Flow (top+1) pending' added taken finished held queue := by
  have hall := (hp.append_left added).trans List.perm_middle
  refine ⟨h.order,h.accounted,?_,?_⟩
  · rw [hall.nodup_iff,List.nodup_cons]
    exact ⟨fun hm => lt_irrefl _ (h.below _ hm),h.fresh⟩
  · intro p hp
    rcases List.mem_cons.mp (hall.mem_iff.mp hp) with rfl | hp
    · exact Nat.lt_succ_self _
    · exact Nat.lt_succ_of_lt (h.below p hp)

/-- A pending cell is added at the end of the queue. -/
theorem add (h : Flow top pending added taken finished held queue)
    (hp : (p::pending').Perm pending) :
    Flow top pending' (added++[p]) taken finished held (queue++[p]) := by
  have hall : (added++[p]++pending').Perm (added++pending) := by
    rw [List.append_assoc]
    exact hp.append_left added
  refine ⟨?_,h.accounted,hall.nodup_iff.mpr h.fresh,?_⟩
  · rw [h.order,List.append_assoc]
  · intro q hq
    exact h.below q (hall.mem_iff.mp hq)

/-- The first cell of the queue is taken. -/
theorem take (h : Flow top pending added taken finished held (p::queue))
    (hh : held'.Perm (p::held)) : Flow top pending added (taken++[p]) finished held' queue := by
  refine ⟨?_,?_,h.fresh,h.below⟩
  · rw [h.order,List.append_assoc,List.singleton_append]
  · refine (h.accounted.append_right [p]).trans ?_
    rw [List.append_assoc]
    exact ((List.perm_append_singleton p held).trans hh.symm).append_left finished

/-- A held cell is finished. -/
theorem finish (h : Flow top pending added taken finished held queue)
    (hh : (p::held').Perm held) : Flow top pending added taken (finished++[p]) held' queue := by
  refine ⟨h.order,?_,h.fresh,h.below⟩
  rw [List.append_assoc]
  exact h.accounted.trans (hh.symm.append_left finished)

/-- The whole queue is taken and finished at once. -/
theorem discard (h : Flow top pending added taken finished held queue) :
    Flow top pending added (taken++queue) (finished++queue) held [] := by
  refine ⟨?_,?_,h.fresh,h.below⟩
  · rw [h.order,List.append_nil]
  · refine (h.accounted.append_right queue).trans ?_
    rw [List.append_assoc,List.append_assoc]
    exact List.perm_append_comm.append_left finished

theorem nodup (h : Flow top pending added taken finished held queue) : (taken++queue).Nodup :=
  h.order ▸ (List.nodup_append.mp h.fresh).1

theorem mem_taken_of_held (h : Flow top pending added taken finished held queue) (hp : p ∈ held) :
    p ∈ taken := h.accounted.mem_iff.mpr (List.mem_append_right finished hp)

theorem pending_notMem_queue (h : Flow top pending added taken finished held queue)
    (hp : p ∈ pending) : p ∉ queue := by
  intro hq
  refine List.disjoint_of_nodup_append h.fresh ?_ hp
  rw [h.order]
  exact List.mem_append_right taken hq

theorem held_notMem_queue (h : Flow top pending added taken finished held queue) (hp : p ∈ held) :
    p ∉ queue := List.disjoint_of_nodup_append h.nodup (h.mem_taken_of_held hp)

theorem held_notMem_pending (h : Flow top pending added taken finished held queue)
    (hp : p ∈ held) : p ∉ pending := by
  refine List.disjoint_of_nodup_append h.fresh ?_
  rw [h.order]
  exact List.mem_append_left queue (h.mem_taken_of_held hp)

end Flow
end CStudy.Foundation
