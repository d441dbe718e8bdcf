import Mathlib.Data.Nat.Bitwise
import Mathlib.Tactic.Ring
import Mathlib.Data.String.Basic

/-! MSB-first bit strings. The reader hands out bits most significant first, so a byte, a
big-endian load or a value returned by `getBits` is spelled here as such a string:
`natBits w v` is the `w`-bit spelling of `v`, and `bitsVal` reads a string back. -/

namespace RawSpeed

/-- The low `w` bits of `v`, most significant first. -/
def natBits (w v : Nat) : List Bool := (List.range w).map fun i => v.testBit (w - 1 - i)

/-- The number an MSB-first bit string spells. -/
def bitsVal : List Bool → Nat
  | [] => 0
  | b :: l => b.toNat * 2 ^ l.length + bitsVal l

/-- A byte, most significant bit first. -/
def byteBits (b : UInt8) : List Bool := natBits 8 b.toNat

/-- A byte string, each byte most significant bit first. -/
def bytesBits (bs : List UInt8) : List Bool := bs.flatMap byteBits

@[simp] theorem length_natBits (w v : Nat) : (natBits w v).length = w := by simp [natBits]

theorem getElem_natBits {w v i : Nat} (h : i < (natBits w v).length) :
    (natBits w v)[i] = v.testBit (w - 1 - i) := by simp [natBits]

@[simp] theorem bytesBits_nil : bytesBits [] = [] := rfl

@[simp] theorem bytesBits_cons (b : UInt8) (bs : List UInt8) :
    bytesBits (b :: bs) = byteBits b ++ bytesBits bs := rfl

@[simp] theorem bytesBits_append (bs cs : List UInt8) :
    bytesBits (bs ++ cs) = bytesBits bs ++ bytesBits cs := by simp [bytesBits]

@[simp] theorem length_byteBits (b : UInt8) : (byteBits b).length = 8 := length_natBits _ _

@[simp] theorem length_bytesBits (bs : List UInt8) : (bytesBits bs).length = 8 * bs.length := by
  induction bs with
  | nil => rfl
  | cons b bs ih =>
    rw [bytesBits_cons, List.length_append, ih, length_byteBits, List.length_cons]
    omega

theorem natBits_succ (w v : Nat) : natBits (w + 1) v = v.testBit w :: natBits w v := by
  simp only [natBits, List.range_succ_eq_map, List.map_cons, List.map_map]
  congr 2
  funext i
  simp only [Function.comp, Nat.succ_eq_add_one]
  congr 1
  omega

theorem natBits_mul_add {a w v b : Nat} (hb : b < 2 ^ w) :
    natBits (a + w) (2 ^ w * v + b) = natBits a v ++ natBits w b := by
  refine List.ext_getElem (by simp) fun i h₁ _ => ?_
  rw [getElem_natBits, Nat.testBit_mul_pow_two_add _ hb]
  simp only [length_natBits] at h₁
  by_cases hi : i < a
  · rw [List.getElem_append_left (by simpa using hi), getElem_natBits, if_neg (by omega)]
    congr 1
    omega
  · rw [List.getElem_append_right (by simpa using hi), getElem_natBits, if_pos (by omega)]
    simp only [length_natBits]
    congr 1
    omega

theorem bitsVal_append (l₁ l₂ : List Bool) :
    bitsVal (l₁ ++ l₂) = bitsVal l₁ * 2 ^ l₂.length + bitsVal l₂ := by
  induction l₁ with
  | nil => simp [bitsVal]
  | cons b l ih =>
    show bitsVal (b :: (l ++ l₂)) = _
    rw [bitsVal, bitsVal, ih, List.length_append, Nat.pow_add]
    ring

theorem bitsVal_lt (l : List Bool) : bitsVal l < 2 ^ l.length := by
  induction l with
  | nil => simp [bitsVal]
  | cons b l ih =>
    have : b.toNat * 2 ^ l.length ≤ 2 ^ l.length := by
      simpa using Nat.mul_le_mul_right (2 ^ l.length) (Bool.toNat_le b)
    rw [bitsVal, List.length_cons, Nat.pow_succ]
    omega

theorem toNat_testBit (v i : Nat) : (v.testBit i).toNat = v / 2 ^ i % 2 := by
  rw [Nat.testBit_to_div_mod]
  rcases Nat.mod_two_eq_zero_or_one (v / 2 ^ i) with h | h <;> simp [h]

theorem bitsVal_natBits (w v : Nat) : bitsVal (natBits w v) = v % 2 ^ w := by
  induction w with
  | zero => simp [natBits, bitsVal, Nat.mod_one]
  | succ w ih =>
    rw [natBits_succ, bitsVal, ih, length_natBits, toNat_testBit, Nat.mod_pow_succ]
    ring

theorem natBits_bitsVal (l : List Bool) : natBits l.length (bitsVal l) = l := by
  induction l with
  | nil => rfl
  | cons b l ih =>
    rw [List.length_cons, bitsVal, Nat.add_comm l.length 1, Nat.mul_comm,
      natBits_mul_add (bitsVal_lt l), ih]
    cases b <;> rfl

@[simp] theorem natBits_zero (w : Nat) : natBits w 0 = List.replicate w false := by
  simp only [natBits, Nat.zero_testBit]
  exact (List.map_const _ false).trans (by simp)

theorem bitsVal_byteBits (b : UInt8) : bitsVal (byteBits b) = b.toNat := by
  rw [byteBits, bitsVal_natBits, Nat.mod_eq_of_lt (UInt8.toNat_lt b)]

theorem byteBits_injective : Function.Injective byteBits := fun x y h =>
  UInt8.toNat.inj (by rw [← bitsVal_byteBits x, ← bitsVal_byteBits y, h])

theorem bytesBits_injective : Function.Injective bytesBits := by
  intro a b h
  induction a generalizing b with
  | nil =>
    cases b with
    | nil => rfl
    | cons y b => exact absurd (congrArg List.length h) (by simp; omega)
  | cons x a ih =>
    cases b with
    | nil => exact absurd (congrArg List.length h) (by simp)
    | cons y b =>
      obtain ⟨h₁, h₂⟩ := List.append_inj h (by simp)
      rw [byteBits_injective h₁, ih h₂]

theorem bytesBits_replicate_zero (r : Nat) :
    bytesBits (List.replicate r 0) = List.replicate (8 * r) false := by
  induction r with
  | zero => rfl
  | succ r ih =>
    rw [List.replicate_succ, bytesBits_cons, ih, show byteBits 0 = List.replicate 8 false from rfl,
      List.append_replicate_replicate]
    congr 1
    omega

end RawSpeed
