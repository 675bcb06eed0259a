import Mathlib.Tactic

/-! Steps that mix the bits of a word and lose nothing: a right shift that is xored in, and the
multiplication by a word that has an inverse. -/
namespace CStudy.Foundation.Mixing
variable {w k : ℕ}

/-- `x ^= x >> k` -/
def xorShift (k : ℕ) (x : BitVec w) : BitVec w := x ^^^ (x >>> k)

/-- The way back, where the word has at most `3*k` bits. -/
def undoShift (k : ℕ) (x : BitVec w) : BitVec w := x ^^^ (x >>> k) ^^^ (x >>> (k+k))

theorem shift_eq_zero {n : ℕ} (h : w ≤ n) (x : BitVec w) : x >>> n = 0#w := by
  apply BitVec.eq_of_getLsbD_eq
  intro i hi
  rw [BitVec.getLsbD_ushiftRight,BitVec.getLsbD_of_ge _ _ (by omega),BitVec.getLsbD_zero]

theorem undoShift_xorShift (h : w ≤ k+k+k) (x : BitVec w) : undoShift k (xorShift k x) = x := by
  simp only [undoShift,xorShift,BitVec.ushiftRight_xor_distrib,← BitVec.shiftRight_add]
  rw [← Nat.add_assoc,shift_eq_zero h,BitVec.xor_zero]
  simp [BitVec.xor_assoc]

theorem xorShift_undoShift (h : w ≤ k+k+k) (x : BitVec w) : xorShift k (undoShift k x) = x := by
  simp only [undoShift,xorShift,BitVec.ushiftRight_xor_distrib,← BitVec.shiftRight_add]
  rw [shift_eq_zero h,BitVec.xor_zero,BitVec.xor_assoc x,BitVec.xor_assoc x,BitVec.xor_self,
    BitVec.xor_zero]

theorem xorShift_eq_iff (h : w ≤ k+k+k) {x y : BitVec w} : xorShift k x = y ↔ x = undoShift k y := by
  constructor
  · rintro rfl
    rw [undoShift_xorShift h]
  · rintro rfl
    exact xorShift_undoShift h y

theorem undoShift_inj (h : w ≤ k+k+k) {x y : BitVec w} : undoShift k x = undoShift k y ↔ x = y :=
  (Function.LeftInverse.injective (xorShift_undoShift h)).eq_iff

theorem mul_eq_iff {m n : BitVec w} (h : m*n = 1#w) {x y : BitVec w} : x*m = y ↔ x = y*n := by
  constructor
  · rintro rfl
    rw [BitVec.mul_assoc,h,BitVec.mul_one]
  · rintro rfl
    rw [BitVec.mul_assoc,BitVec.mul_comm n m,h,BitVec.mul_one]

theorem mul_inj {m n : BitVec w} (h : m*n = 1#w) {x y : BitVec w} : x*n = y*n ↔ x = y := by
  rw [← mul_eq_iff h,BitVec.mul_assoc,BitVec.mul_comm n m,h,BitVec.mul_one,eq_comm]

/-- The highest bit of a number is in none of its shifts. -/
theorem eq_zero_of_eq_xor {a i j : ℕ} (hi : 0 < i) (hj : 0 < j) (h : a = (a >>> i) ^^^ (a >>> j)) :
    a = 0 := by
  by_contra hne
  have hlow : ∀ n, 0 < n → a >>> n < 2^a.log2 := by
    intro n hn
    rw [Nat.shiftRight_eq_div_pow,Nat.div_lt_iff_lt_mul (by positivity),← pow_add]
    exact Nat.lt_log2_self.trans_le (Nat.pow_le_pow_right (by omega) (by omega))
  have hlt := Nat.xor_lt_two_pow (hlow i hi) (hlow j hj)
  rw [← h] at hlt
  exact absurd (Nat.log2_self_le hne) (not_le.mpr hlt)

/-- Undoing a shift by `k` and one by `k+1` is the same only where nothing is shifted in. -/
theorem undoShift_succ_eq_iff (hk : 0 < k) (h : w ≤ k+1+(k+1)) (x : BitVec w) :
    undoShift (k+1) x = undoShift k x ↔ x.toNat < 2^k := by
  have hshifts : undoShift (k+1) x = undoShift k x ↔
      x.toNat >>> k >>> 1 = (x.toNat >>> k) ^^^ (x.toNat >>> k >>> k) := by
    rw [undoShift,undoShift,shift_eq_zero h,BitVec.xor_zero,BitVec.xor_assoc,BitVec.xor_right_inj,
      ← BitVec.toNat_inj]
    simp only [BitVec.toNat_xor,BitVec.toNat_ushiftRight,Nat.shiftRight_add]
  have hlt : x.toNat < 2^k ↔ x.toNat >>> k = 0 := by
    rw [Nat.shiftRight_eq_div_pow,Nat.div_eq_zero_iff]
    simp
  rw [hshifts,hlt]
  constructor
  · intro heq
    refine eq_zero_of_eq_xor one_pos hk ?_
    rw [heq,Nat.xor_assoc,Nat.xor_self,Nat.xor_zero]
  · intro hzero
    simp [hzero]

end CStudy.Foundation.Mixing
