import CStudy.Foundation.Mixing
import CStudy.LruCache.Model
import Mathlib.Data.Nat.Digits.Defs

/-! The hash of the keys against the 32-bit MurmurHash2 that it is taken from. The last shift is by
16 where the reference has 15, and the bytes behind the last whole word are signed. Apart from the
bytes, both are the same start followed by steps that can be undone, so that it can be told from the
reference hash whether the two agree. -/
namespace CStudy.LruCache
open CStudy.Foundation

namespace Murmur

/-- A word of unsigned bytes, the lowest first. -/
def littleEndian (bytes : List UInt8) : UInt32 :=
  UInt32.ofNat (Nat.ofDigits 256 (bytes.map UInt8.toNat))

/-- The loop of the reference over whole words, with the bytes it leaves over. -/
def words (m r : UInt32) : UInt32 → List UInt8 → UInt32 × List UInt8
  | h,a::b::c::d::data =>
    let k := littleEndian [a,b,c,d]
    let k := k*m
    let k := k ^^^ (k >>> r)
    let k := k*m
    words m r ((h*m) ^^^ k) data
  | h,data => (h,data)

/-- The bytes left over, which are unsigned. -/
def tail (m : UInt32) : UInt32 × List UInt8 → UInt32
  | (h,[a,b,c]) => (h ^^^ (c.toUInt32 <<< 16) ^^^ (b.toUInt32 <<< 8) ^^^ a.toUInt32)*m
  | (h,[a,b]) => (h ^^^ (b.toUInt32 <<< 8) ^^^ a.toUInt32)*m
  | (h,[a]) => (h ^^^ a.toUInt32)*m
  | (h,_) => h

end Murmur

/-- The reference. -/
def murmurHash2 (data : List UInt8) (seed : UInt32) : UInt32 :=
  let m : UInt32 := 0x5bd1e995
  let r : UInt32 := 24
  let h := seed ^^^ UInt32.ofNat data.length
  let h := Murmur.tail m (Murmur.words m r h data)
  let h := h ^^^ (h >>> 13)
  let h := h*m
  h ^^^ (h >>> 15)

section Parts
variable {m r h : UInt32}

theorem or_shiftLeft {x i : ℕ} (h : x < 2^i) (y : ℕ) : x ||| y <<< i = x+2^i*y := by
  rw [Nat.or_comm,← Nat.shiftLeft_add_eq_or_of_lt h,Nat.shiftLeft_eq,Nat.mul_comm,Nat.add_comm]

theorem toNat_byte_shiftLeft (b : UInt8) {i : UInt32} (hi : i.toNat ≤ 24) :
    (b.toUInt32 <<< i).toNat = b.toNat <<< i.toNat := by
  have hb := b.toNat_lt
  have hlt : b.toNat <<< i.toNat < 2^32 := by
    rw [Nat.shiftLeft_eq]
    calc b.toNat*2^i.toNat < 2^8*2^i.toNat := by gcongr
      _ ≤ 2^8*2^24 := by gcongr; omega
      _ = 2^32 := rfl
  rw [UInt32.toNat_shiftLeft,UInt8.toNat_toUInt32,Nat.mod_eq_of_lt (by omega : i.toNat < 32),
    Nat.mod_eq_of_lt hlt]

/-- The machine reads the word that the reference has. -/
theorem readWord_eq (a b c d : UInt8) : readWord a b c d = Murmur.littleEndian [a,b,c,d] := by
  have ha := a.toNat_lt
  have hb := b.toNat_lt
  have hc := c.toNat_lt
  have hd := d.toNat_lt
  apply UInt32.toNat_inj.mp
  rw [readWord,UInt32.toNat_or,UInt32.toNat_or,UInt32.toNat_or,toNat_byte_shiftLeft b (by decide),
    toNat_byte_shiftLeft c (by decide),toNat_byte_shiftLeft d (by decide),UInt8.toNat_toUInt32]
  change a.toNat ||| b.toNat <<< 8 ||| c.toNat <<< 16 ||| d.toNat <<< 24 = _
  rw [or_shiftLeft ha b.toNat,or_shiftLeft (by omega) c.toNat,or_shiftLeft (by omega) d.toNat,
    Murmur.littleEndian,UInt32.toNat_ofNat']
  simp only [List.map_cons,List.map_nil,Nat.ofDigits_cons,Nat.ofDigits_nil]
  omega

theorem hashWords_eq (m r h : UInt32) (data : List UInt8) :
    hashWords m r h data = Murmur.words m r h data := by
  fun_induction hashWords m r h data with
  | case1 h a b c d data k k₁ k₂ k₃ ih =>
    rw [Murmur.words,ih]
    simp only [k₃,k₂,k₁,k,readWord_eq]
  | case2 h data hdata =>
    rw [Murmur.words]
    exact hdata

/-- The sign of a byte, in the bits above it. -/
def sign (b : UInt8) : UInt32 := if b < 128 then 0 else 0xffffff00

/-- What the signs of the bytes left over come to. -/
def signBits : List UInt8 → UInt32
  | [a,b,c] => (sign c <<< 16) ^^^ (sign b <<< 8) ^^^ sign a
  | [a,b] => (sign b <<< 8) ^^^ sign a
  | [a] => sign a
  | _ => 0

theorem charToUInt32_eq (b : UInt8) : charToUInt32 b = b.toUInt32 ^^^ sign b := by
  have hall : ∀ b : BitVec 8, charToUInt32 (UInt8.ofBitVec b) =
      (UInt8.ofBitVec b).toUInt32 ^^^ sign (UInt8.ofBitVec b) := by decide
  exact hall b.toBitVec

theorem xor_xor_comm (x y z w : UInt32) : (x ^^^ y) ^^^ (z ^^^ w) = (x ^^^ z) ^^^ (y ^^^ w) := by
  ac_rfl

/-- Before the multiplication, the two differ by the signs. -/
theorem hashTail_mul {m n : UInt32} (hn : m*n = 1) (p : UInt32 × List UInt8) :
    hashTail m p*n = (Murmur.tail m p*n) ^^^ signBits p.2 := by
  have hmul : ∀ x : UInt32, x*m*n = x := by
    intro x
    rw [UInt32.mul_assoc,hn,UInt32.mul_one]
  fun_cases hashTail m p with
  | case1 h a b c =>
    rw [Murmur.tail,signBits,hmul,hmul,charToUInt32_eq a,charToUInt32_eq b,charToUInt32_eq c,
      UInt32.shiftLeft_xor,UInt32.shiftLeft_xor,← UInt32.xor_assoc h,
      xor_xor_comm (h ^^^ c.toUInt32 <<< 16),xor_xor_comm]
  | case2 h a b =>
    rw [Murmur.tail,signBits,hmul,hmul,charToUInt32_eq a,charToUInt32_eq b,UInt32.shiftLeft_xor,
      ← UInt32.xor_assoc h,xor_xor_comm]
  | case3 h a => rw [Murmur.tail,signBits,hmul,hmul,charToUInt32_eq a,UInt32.xor_assoc]
  | case4 h data hthree htwo hone =>
    rw [Murmur.tail,signBits,UInt32.xor_zero] <;> assumption

def multiplier : UInt32 := 0x5bd1e995

def multiplierInverse : UInt32 := 0xe59b19bd

theorem multiplier_mul_inverse : multiplier.toBitVec*multiplierInverse.toBitVec = 1#32 := by decide

theorem multiplier_mul : multiplier*multiplierInverse = 1 := by decide

/-- The mixing at the end, with its last shift. -/
def finish (shift h : UInt32) : UInt32 :=
  let h := h ^^^ (h >>> 13)
  let h := h*multiplier
  h ^^^ (h >>> shift)

/-- The way back. -/
def unfinish (shift : ℕ) (h : UInt32) : UInt32 :=
  UInt32.ofBitVec (Mixing.undoShift 13
    (Mixing.undoShift shift h.toBitVec*multiplierInverse.toBitVec))

theorem toBitVec_shiftRight_of_lt {x i : UInt32} (hi : i.toNat < 32) :
    (x >>> i).toBitVec = x.toBitVec >>> i.toNat := by
  apply BitVec.eq_of_toNat_eq
  rw [UInt32.toNat_toBitVec,UInt32.toNat_shiftRight,Nat.mod_eq_of_lt hi,BitVec.toNat_ushiftRight,
    UInt32.toNat_toBitVec]

theorem toBitVec_finish {shift : UInt32} (hshift : shift.toNat < 32) (h : UInt32) :
    (finish shift h).toBitVec =
      Mixing.xorShift shift.toNat (Mixing.xorShift 13 h.toBitVec*multiplier.toBitVec) := by
  have hfirst : (h >>> 13).toBitVec = h.toBitVec >>> 13 := toBitVec_shiftRight_of_lt (by decide)
  simp only [finish,Mixing.xorShift,UInt32.toBitVec_xor,UInt32.toBitVec_mul,hfirst,
    toBitVec_shiftRight_of_lt hshift]

theorem finish_eq_iff {shift : UInt32} (hlow : 11 ≤ shift.toNat) (hshift : shift.toNat < 32)
    {h x : UInt32} : finish shift h = x ↔ h = unfinish shift.toNat x := by
  rw [← UInt32.toBitVec_inj,toBitVec_finish hshift,Mixing.xorShift_eq_iff (by omega),
    Mixing.mul_eq_iff multiplier_mul_inverse,Mixing.xorShift_eq_iff (by omega),← UInt32.toBitVec_inj]
  rfl

theorem finish_fifteen_eq_iff {h x : UInt32} : finish 15 h = x ↔ h = unfinish 15 x :=
  finish_eq_iff (by decide : 11 ≤ (15 : UInt32).toNat) (by decide)

theorem finish_sixteen_eq_iff {h x : UInt32} : finish 16 h = x ↔ h = unfinish 16 x :=
  finish_eq_iff (by decide : 11 ≤ (16 : UInt32).toNat) (by decide)

/-- What was there before the bytes left over were multiplied in, told from the hash. -/
def origin (shift : ℕ) (x : UInt32) : UInt32 := unfinish shift x*multiplierInverse

theorem mul_inverse_inj {x y : UInt32} : x*multiplierInverse = y*multiplierInverse ↔ x = y := by
  rw [← UInt32.toBitVec_inj,UInt32.toBitVec_mul,UInt32.toBitVec_mul,
    Mixing.mul_inj multiplier_mul_inverse,UInt32.toBitVec_inj]

/-- A shift by 16 and one by 15 have the same origin only for a small hash. -/
theorem origin_eq_iff (x : UInt32) : origin 16 x = origin 15 x ↔ x.toNat < 2^15 := by
  rw [origin,origin,mul_inverse_inj,unfinish,unfinish,← UInt32.toBitVec_inj]
  change Mixing.undoShift 13 _ = Mixing.undoShift 13 _ ↔ _
  rw [Mixing.undoShift_inj (by omega),Mixing.mul_inj multiplier_mul_inverse]
  exact Mixing.undoShift_succ_eq_iff (by omega) (by omega) x.toBitVec

end Parts

section Comparison
variable {seed : Int64} {key : CString}

/-- The bytes behind the last whole word. -/
def tailBytes (data : List UInt8) : List UInt8 := data.drop (data.length/4*4)

theorem words_snd (m r h : UInt32) (data : List UInt8) :
    (Murmur.words m r h data).2 = tailBytes data := by
  fun_induction Murmur.words m r h data with
  | case1 h a b c d data k k₁ k₂ k₃ ih =>
    have hlen : (a::b::c::d::data).length/4*4 = data.length/4*4+4 := by
      simp only [List.length_cons]
      omega
    rw [ih,tailBytes,tailBytes,hlen]
    rfl
  | case2 h data hdata =>
    have hlen : data.length < 4 := by
      match data,hdata with
      | [],_ | [_],_ | [_,_],_ | [_,_,_],_ => simp
      | a::b::c::d::data,hdata => exact absurd rfl (hdata a b c d data)
    rw [tailBytes,Nat.div_eq_of_lt hlen,Nat.zero_mul,List.drop_zero]

/-- The state before the bytes left over. -/
def wordState (seed : UInt32) (data : List UInt8) : UInt32 × List UInt8 :=
  Murmur.words multiplier 24 (seed ^^^ UInt32.ofNat data.length) data

theorem murmurHash2_eq (data : List UInt8) (seed : UInt32) :
    murmurHash2 data seed = finish 15 (Murmur.tail multiplier (wordState seed data)) := rfl

theorem hashKey_eq (seed : Int64) (key : CString) :
    hashKey seed key = finish 16 (hashTail multiplier (wordState seed.toUInt64.toUInt32 key.val)) := by
  have hstart : (seed.toUInt64 ^^^ UInt64.ofNat (strlen key)).toUInt32 =
      seed.toUInt64.toUInt32 ^^^ UInt32.ofNat key.val.length := by
    rw [UInt64.toUInt32_xor,UInt64.toUInt32_ofNat',strlen]
  rw [wordState,← hashWords_eq,← hstart]
  rfl

theorem xor_eq_iff (x y z : UInt32) : x ^^^ y = z ↔ z ^^^ x = y := by
  constructor
  · rintro rfl
    rw [UInt32.xor_comm x y,UInt32.xor_assoc,UInt32.xor_self,UInt32.xor_zero]
  · rintro rfl
    rw [UInt32.xor_comm z x,← UInt32.xor_assoc,UInt32.xor_self,UInt32.zero_xor]

/-- The hashes agree where the signs make up for the other shift. -/
theorem hashKey_eq_iff (seed : Int64) (key : CString) :
    hashKey seed key = murmurHash2 key.val seed.toUInt64.toUInt32 ↔
      origin 16 (murmurHash2 key.val seed.toUInt64.toUInt32) ^^^
        origin 15 (murmurHash2 key.val seed.toUInt64.toUInt32) = signBits (tailBytes key.val) := by
  have hx := murmurHash2_eq key.val seed.toUInt64.toUInt32
  have hsigns := hashTail_mul multiplier_mul (wordState seed.toUInt64.toUInt32 key.val)
  generalize murmurHash2 key.val seed.toUInt64.toUInt32 = x at hx ⊢
  rw [finish_fifteen_eq_iff.mp hx.symm,wordState,words_snd] at hsigns
  rw [hashKey_eq,finish_sixteen_eq_iff,← mul_inverse_inj,wordState,hsigns,xor_eq_iff]
  rfl

theorem signBits_eq_zero {tail : List UInt8} (h : ∀ b ∈ tail, b < 128) : signBits tail = 0 := by
  have hsign : ∀ b ∈ tail, sign b = 0 := fun b hb => if_pos (h b hb)
  fun_cases signBits tail with
  | case1 a b c =>
    rw [hsign a (by simp),hsign b (by simp),hsign c (by simp)]
    decide
  | case2 a b =>
    rw [hsign a (by simp),hsign b (by simp)]
    decide
  | case3 a => exact hsign a (by simp)
  | case4 => rfl

/-- Told from the reference hash and the bytes left over: no byte has a sign and the hash is small,
or the signs happen to make up for the other shift. -/
def Matches (x : UInt32) (tail : List UInt8) : Prop :=
  ((∀ b ∈ tail, b < 128) ∧ x.toNat < 2^15) ∨
    ((∃ b ∈ tail, ¬ b < 128) ∧ origin 16 x ^^^ origin 15 x = signBits tail)

theorem matches_iff (x : UInt32) (tail : List UInt8) :
    Matches x tail ↔ origin 16 x ^^^ origin 15 x = signBits tail := by
  by_cases h : ∀ b ∈ tail, b < 128
  · have hnone : ¬ ∃ b ∈ tail, ¬ b < 128 := by
      rintro ⟨b,hb,hsign⟩
      exact hsign (h b hb)
    rw [Matches,and_iff_right h,← origin_eq_iff,signBits_eq_zero h,UInt32.xor_eq_zero_iff]
    simp only [hnone,false_and,or_false]
  · have hsome : ∃ b ∈ tail, ¬ b < 128 := by simpa using h
    rw [Matches,and_iff_right hsome,or_iff_right]
    exact fun hall => h hall.1

end Comparison

theorem hashIndex_of_pos {cache : LRUCache} {key : CString} (h : 1 ≤ cache.hashTableSize) :
    lruCacheGetHashIndex cache key = some ((hashKey cache.seed key).toNat%cache.hashTableSize) :=
  if_neg (by omega)

/-- A cache without items. -/
def emptyCache (size : ℕ) (seed : Int64) : LRUCache := ⟨fun _ => none,size,size,0,0,seed⟩

/-- For every key and seed: in tables of all sizes the index is the one from the reference hash,
exactly if this hash and the bytes left over match. -/
theorem hashIndex_eq_murmurHash2_iff (seed : Int64) (key : CString) :
    (∀ cache : LRUCache, cache.seed = seed → 1 ≤ cache.hashTableSize →
        lruCacheGetHashIndex cache key =
          some ((murmurHash2 key.val seed.toUInt64.toUInt32).toNat%cache.hashTableSize)) ↔
      Matches (murmurHash2 key.val seed.toUInt64.toUInt32) (tailBytes key.val) := by
  rw [matches_iff,← hashKey_eq_iff]
  constructor
  · intro h
    -- in a table of this size the index is the hash itself
    have hlarge := h (emptyCache (2^32) seed) rfl (by rw [emptyCache]; norm_num)
    rw [hashIndex_of_pos (by rw [emptyCache]; norm_num),Option.some.injEq] at hlarge
    change _%2^32 = _%2^32 at hlarge
    rw [Nat.mod_eq_of_lt (UInt32.toNat_lt _),Nat.mod_eq_of_lt (UInt32.toNat_lt _)] at hlarge
    exact UInt32.toNat_inj.mp hlarge
  · rintro h cache rfl hsize
    rw [hashIndex_of_pos hsize,h]

/-- The key of the one byte 128, and the key `"a"`, in a table of 16 buckets. -/
theorem hashIndex_ne_murmurHash2 :
    lruCacheGetHashIndex (emptyCache 16 0) ⟨[128],by decide⟩ = some 11 ∧
      (murmurHash2 [128] 0).toNat%16 = 0 ∧
      lruCacheGetHashIndex (emptyCache 16 0) ⟨[97],by decide⟩ = some 5 ∧
      (murmurHash2 [97] 0).toNat%16 = 14 := by decide

end CStudy.LruCache
