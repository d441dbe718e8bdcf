import RawSpeed.Spec.Bits

/-! The reader's bit cache, `BitStreamerCacheRightInLeftOut`: a 64-bit register whose
`fillLevel` high bits are the pending input, pushed in from the right and read from the
left. `bits` reads the pending bits back as a list, and each operation gets one lemma
saying what it does to that list, so the reader proofs never look at the register. -/

namespace RawSpeed

/-- Modelled from the spec: `BitStreamerCacheRightInLeftOut` (io/BitStreamer.h is not part of
the sources). `cache` is the 64-bit register, `fillLevel` the number of valid high bits. -/
structure BitStreamerCacheRightInLeftOut where
  cache : BitVec 64
  fillLevel : Nat
deriving DecidableEq, Repr

namespace BitStreamerCacheRightInLeftOut

variable {c c' : BitStreamerCacheRightInLeftOut}

/-- Modelled from the spec: `push(bits, count)` puts the `count` low bits of `bits` right
below the valid ones. `none` is a failed assertion: the bits must fit, and a full cache
takes nothing. The `count = 0` branch is the source's guard against a shift by 64. -/
def push (c : BitStreamerCacheRightInLeftOut) (bits count : Nat) :
    Option BitStreamerCacheRightInLeftOut :=
  if count + c.fillLevel ≤ 64 ∧ c.fillLevel < 64 then
    let emptyBitsGap := 64 - c.fillLevel - count
    some { cache := if count = 0 then c.cache
                    else c.cache ||| BitVec.ofNat 64 bits <<< emptyBitsGap
           fillLevel := c.fillLevel + count }
  else none

/-- Modelled from the spec: `peek(count)`, the `count` high bits, at most `MaxGetBits`. -/
def peek (c : BitStreamerCacheRightInLeftOut) (count : Nat) : Option Nat :=
  if count ≤ 32 ∧ count ≤ c.fillLevel then some (c.cache >>> (64 - count)).toNat else none

/-- Modelled from the spec: `skip(count)` drops the `count` high bits. -/
def skip (c : BitStreamerCacheRightInLeftOut) (count : Nat) :
    Option BitStreamerCacheRightInLeftOut :=
  if count ≤ 64 ∧ count ≤ c.fillLevel then
    some { cache := c.cache <<< count, fillLevel := c.fillLevel - count }
  else none

/-- The pending bits, in the order the reader hands them out. -/
def bits (c : BitStreamerCacheRightInLeftOut) : List Bool :=
  (List.range c.fillLevel).map c.cache.getMsbD

/-- The cache's invariant: at most 64 valid bits, and the register is zero below them. -/
structure Valid (c : BitStreamerCacheRightInLeftOut) : Prop where
  fillLevel_le : c.fillLevel ≤ 64
  low_zero : ∀ i, c.fillLevel ≤ i → c.cache.getMsbD i = false

theorem valid_empty : (⟨0, 0⟩ : BitStreamerCacheRightInLeftOut).Valid :=
  ⟨by decide, fun i _ => by simp⟩

@[simp] theorem length_bits (c : BitStreamerCacheRightInLeftOut) :
    c.bits.length = c.fillLevel := by simp [bits]

theorem getElem_bits {i : Nat} (h : i < c.bits.length) : c.bits[i] = c.cache.getMsbD i := by
  simp [bits]

theorem eq_of_bits (hv : c.Valid) (hv' : c'.Valid) (h : c.bits = c'.bits) : c = c' := by
  have hf : c.fillLevel = c'.fillLevel := by simpa using congrArg List.length h
  have hc : c.cache = c'.cache := BitVec.eq_of_getMsbD_eq fun i => by
    by_cases hi : i.val < c.fillLevel
    · have := List.getElem_of_eq h (by simpa using hi)
      rwa [getElem_bits, getElem_bits] at this
    · rw [hv.low_zero _ (by omega), hv'.low_zero _ (by omega)]
  cases c; cases c'
  simp_all

theorem getMsbD_ofNat (v j : Nat) :
    (BitVec.ofNat 64 v).getMsbD j = (decide (j < 64) && v.testBit (63 - j)) := by
  simp only [BitVec.getMsbD_eq_getLsbD, BitVec.getLsbD_ofNat]
  by_cases hj : j < 64 <;> simp only [hj, decide_True, decide_False, Bool.true_and,
    Bool.false_and, show 64 - 1 - j < 64 by omega, Nat.reduceSub]

theorem getMsbD_pushed {x : BitVec 64} {fl bits count i : Nat} (h : count + fl ≤ 64)
    (hb : bits < 2 ^ count) :
    (if count = 0 then x else x ||| BitVec.ofNat 64 bits <<< (64 - fl - count)).getMsbD i =
      (x.getMsbD i ||
        (decide (fl ≤ i ∧ i < fl + count) && bits.testBit (fl + count - 1 - i))) := by
  split
  · subst count
    rw [decide_eq_false (by omega), Bool.false_and, Bool.or_false]
  · rw [BitVec.getMsbD_or, BitVec.getMsbD_shiftLeft, getMsbD_ofNat]
    congr 1
    by_cases hi : fl ≤ i
    · rw [show 63 - (i + (64 - fl - count)) = fl + count - 1 - i by omega]
      exact congrArg (· && _) (decide_eq_decide.mpr (by omega))
    · have : bits.testBit (63 - (i + (64 - fl - count))) = false :=
        Nat.testBit_lt_two_pow (lt_of_lt_of_le hb (Nat.pow_le_pow_right (by omega) (by omega)))
      rw [this, decide_eq_false (show ¬(fl ≤ i ∧ i < fl + count) by omega), Bool.and_false,
        Bool.false_and]

theorem push_spec (c : BitStreamerCacheRightInLeftOut) (bits count : Nat)
    (h : count + c.fillLevel ≤ 64) (h' : c.fillLevel < 64) :
    ∃ c', c.push bits count = some c' ∧ c'.fillLevel = c.fillLevel + count ∧
      (c.Valid → bits < 2 ^ count → c'.Valid ∧ c'.bits = c.bits ++ natBits count bits) := by
  refine ⟨_, if_pos ⟨h, h'⟩, rfl, fun hv hb => ⟨⟨by simp; omega, fun i hi => ?_⟩, ?_⟩⟩
  · have hi : c.fillLevel + count ≤ i := hi
    rw [getMsbD_pushed h hb, hv.low_zero i (by omega), Bool.false_or, decide_eq_false (by omega),
      Bool.false_and]
  · refine List.ext_getElem (by simp) fun i h₁ _ => ?_
    simp only [length_bits] at h₁
    rw [getElem_bits, getMsbD_pushed h hb]
    by_cases hi : i < c.fillLevel
    · rw [List.getElem_append_left (by simpa using hi), getElem_bits, decide_eq_false (by omega),
        Bool.false_and, Bool.or_false]
    · rw [List.getElem_append_right (by simpa using hi), getElem_natBits, hv.low_zero i (by omega),
        Bool.false_or, decide_eq_true (by omega), Bool.true_and, length_bits]
      congr 1
      omega

theorem shiftRight_eq_two_mul_add (y k : Nat) :
    y >>> k = 2 * (y >>> (k + 1)) + (y.testBit k).toNat := by
  rw [Nat.shiftRight_eq_div_pow, Nat.shiftRight_eq_div_pow, toNat_testBit, Nat.pow_succ,
    ← Nat.div_div_eq_div_mul]
  omega

theorem toNat_ushiftRight_eq_bitsVal (x : BitVec 64) {n : Nat} (hn : n ≤ 64) :
    (x >>> (64 - n)).toNat = bitsVal ((List.range n).map x.getMsbD) := by
  induction n with
  | zero => simp [bitsVal, Nat.shiftRight_eq_div_pow, Nat.div_eq_of_lt x.isLt]
  | succ n ih =>
    rw [BitVec.toNat_ushiftRight, show 64 - (n + 1) = 63 - n by omega,
      shiftRight_eq_two_mul_add, show 63 - n + 1 = 64 - n by omega, ← BitVec.toNat_ushiftRight,
      ih (by omega), List.range_succ, List.map_append, bitsVal_append]
    simp [bitsVal, BitVec.getMsbD_eq_getLsbD, show n < 64 by omega, Nat.mul_comm]
    rfl

theorem peek_spec {count : Nat} (h : count ≤ 32) (h' : count ≤ c.fillLevel) :
    c.peek count = some (bitsVal (c.bits.take count)) := by
  rw [peek, if_pos ⟨h, h'⟩, toNat_ushiftRight_eq_bitsVal _ (by omega), bits, ← List.map_take,
    List.take_range, Nat.min_eq_left h']

theorem skip_spec {count : Nat} (hv : c.Valid) (h : count ≤ c.fillLevel) :
    ∃ c', c.skip count = some c' ∧ c'.Valid ∧ c'.fillLevel = c.fillLevel - count ∧
      c'.bits = c.bits.drop count := by
  have := hv.fillLevel_le
  refine ⟨_, if_pos ⟨by omega, h⟩, ⟨by simp; omega, fun i hi => ?_⟩,
    rfl, List.ext_getElem (by simp) fun i _ _ => ?_⟩
  · simp only [BitVec.getMsbD_shiftLeft]
    exact hv.low_zero _ (by simp at hi; omega)
  · simp [bits, Nat.add_comm]

theorem Valid.of_skip {count : Nat} (hv : c.Valid) (h : c.skip count = some c') : c'.Valid := by
  by_cases hc : count ≤ c.fillLevel
  · obtain ⟨c'', hs, hv', -⟩ := skip_spec hv hc
    rw [hs, Option.some_inj] at h
    exact h ▸ hv'
  · simp [skip, hc] at h

/-- Masking the register to its `f` high bits and declaring it full, as the marker path of
the JPEG `fillCache` does: the bits past `f` read as zeros. -/
theorem masked_spec {f : Nat} (h : f ≤ c.fillLevel) (h64 : f ≤ 64) :
    let c' : BitStreamerCacheRightInLeftOut :=
      { cache := c.cache &&& ~~~(~~~(0 : BitVec 64) >>> f), fillLevel := 64 }
    c'.Valid ∧ c'.bits = c.bits.take f ++ List.replicate (64 - f) false := by
  have key : ∀ i, (c.cache &&& ~~~(~~~(0 : BitVec 64) >>> f)).getMsbD i =
      (c.cache.getMsbD i && decide (i < f)) := by
    intro i
    by_cases hi : i < 64
    · rw [BitVec.ofNat_eq_ofNat, BitVec.not_zero]
      simp only [BitVec.getMsbD_eq_getLsbD, BitVec.getLsbD_and, BitVec.getLsbD_not,
        BitVec.getLsbD_ushiftRight, BitVec.getLsbD_allOnes, hi]
      by_cases hf : i < f <;> simp [hf] <;> omega
    · simp [BitVec.getMsbD_ge _ _ (show 64 ≤ i by omega)]
  refine ⟨⟨le_refl _, fun i hi => BitVec.getMsbD_ge _ _ hi⟩, ?_⟩
  refine List.ext_getElem (by simp; omega) fun i h₁ _ => ?_
  simp only [getElem_bits, key]
  simp only [length_bits] at h₁
  by_cases hi : i < f
  · rw [List.getElem_append_left (by simp [Nat.min_eq_left h, hi]), List.getElem_take,
      getElem_bits]
    simp [hi]
  · rw [List.getElem_append_right (by simp [Nat.min_eq_left h]; omega), List.getElem_replicate]
    simp [hi]

end BitStreamerCacheRightInLeftOut

end RawSpeed
