import Mathlib.Data.List.Rotate

/-! Rings of slots with a current one. What lies before the current slot and what lies behind it are
told as one list, which begins with the slot that is next. -/
namespace CStudy.Foundation.Ring
variable {α : Type*}

/-- The slot at `i` holds `x`, and the others hold `others`, from the next one on. -/
def At (slots : List α) (i : ℕ) (others : List α) (x : α) : Prop :=
  ∃ front back, slots = front++x::back ∧ front.length = i ∧ others = back++front

variable {slots others : List α} {i : ℕ} {x y : α}

theorem at_zero (x : α) (l : List α) : At (x::l) 0 l x := ⟨[],l,rfl,rfl,by simp⟩

theorem At.getElem? (h : At slots i others x) : slots[i]? = some x := by
  obtain ⟨front,back,rfl,rfl,rfl⟩ := h
  simp

theorem At.set (h : At slots i others x) (y : α) : At (slots.set i y) i others y := by
  obtain ⟨front,back,rfl,rfl,rfl⟩ := h
  exact ⟨front,back,by simp,rfl,rfl⟩

theorem At.length (h : At slots i others x) : slots.length = others.length+1 := by
  obtain ⟨front,back,rfl,rfl,rfl⟩ := h
  simp only [List.length_append,List.length_cons]
  omega

/-- One slot further. The one that was current becomes the last of the others. -/
theorem At.next (h : At slots i (y::others) x) :
    At slots ((i+1)%slots.length) (others++[x]) y := by
  have hlen := h.length
  obtain ⟨front,back,rfl,rfl,hothers⟩ := h
  cases back with
  | nil =>
    rw [List.nil_append] at hothers
    subst hothers
    refine ⟨[],others++[x],rfl,?_,by simp⟩
    rw [hlen,Nat.mod_self]
    rfl
  | cons z back =>
    obtain ⟨rfl,rfl⟩ := List.cons.inj hothers
    refine ⟨front++[x],back,by simp,?_,by simp⟩
    rw [Nat.mod_eq_of_lt]
    · simp
    · simp

/-- The slots in their own order. -/
theorem At.eq_append {front back : List α} (h : At slots i (back++front) x)
    (hfront : front.length = i) : slots = front++x::back := by
  obtain ⟨front',back',rfl,hlen,hothers⟩ := h
  obtain ⟨rfl,rfl⟩ := List.append_inj' hothers (hfront.trans hlen.symm)
  rfl

theorem At.rotate (h : At slots i others x) : slots.rotate (i+1) = others++[x] := by
  obtain ⟨front,back,rfl,rfl,rfl⟩ := h
  have hlen : front.length+1 = (front++[x]).length := by simp
  rw [hlen,List.append_cons,List.rotate_append_length_eq,List.append_assoc]

end CStudy.Foundation.Ring
