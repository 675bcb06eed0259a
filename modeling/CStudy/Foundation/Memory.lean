import Mathlib.Data.List.Basic
import Mathlib.Tactic

/-! A block of memory as a list of its elements. A write beyond its end is undefined. -/
namespace CStudy.Foundation.Memory
variable {α : Type*}

/-- `memory[i] = x` -/
def write (memory : List α) (i : ℕ) (x : α) : Option (List α) :=
  if i < memory.length then some (memory.set i x) else none

/-- Writes at `i` and behind it, one after another. -/
def copy (memory : List α) (i : ℕ) : List α → Option (List α)
  | [] => some memory
  | x::xs => (write memory i x).bind fun memory => copy memory (i+1) xs

section Writing
variable {front back : List α} {x y : α} {i : ℕ}

theorem write_append_cons (hi : i = front.length) :
    write (front++y::back) i x = some (front++x::back) := by
  subst hi
  simp [write]

/-- A write behind what has been written already. -/
theorem write_append (hi : i = front.length) (hback : back ≠ []) :
    write (front++back) i x = some (front++x::back.drop 1) := by
  cases back with
  | nil => exact absurd rfl hback
  | cons y back => exact write_append_cons hi

theorem copy_append {xs : List α} (hi : i = front.length) (hxs : xs.length ≤ back.length) :
    copy (front++back) i xs = some (front++xs++back.drop xs.length) := by
  induction xs generalizing front back i with
  | nil => simp [copy]
  | cons x xs ih =>
    rw [List.length_cons] at hxs
    have hback : back ≠ [] := List.ne_nil_of_length_pos (by omega)
    have hnext : i+1 = (front++[x]).length := by simp [hi]
    have hroom : xs.length ≤ (back.drop 1).length := by
      rw [List.length_drop]
      omega
    rw [copy,write_append hi hback,Option.bind_some,List.append_cons,ih hnext hroom,
      List.drop_drop,List.append_assoc front [x] xs,List.singleton_append,List.length_cons,
      Nat.add_comm 1]

end Writing

section Strings

/-- The string at the beginning of a block, which has to have a terminator in it. -/
def string (memory : List UInt8) : Option (List UInt8) :=
  if 0 ∈ memory then some (memory.takeWhile fun c => decide (c ≠ 0)) else none

theorem string_append_cons {s back : List UInt8} (hs : 0 ∉ s) : string (s++0::back) = some s := by
  have hall : ∀ c ∈ s, decide (c ≠ 0) = true := by
    intro c hc
    exact decide_eq_true fun h => hs (h ▸ hc)
  rw [string,if_pos (by simp),List.takeWhile_append_of_pos hall]
  simp

end Strings

end CStudy.Foundation.Memory
