import RawSpeed.Proofs.MSB16

/-! Rebasing an MSB16 reader (BitStreamPosition.h, through its test). A position that
`getAsByteStreamPosition` converts names the same stream bit on a word boundary, and a fresh
reader there that skips the bits it gives reads on as the original reader. -/

namespace RawSpeed

open BitStreamer BitStreamerMSB16

theorem roundUp_bounds (n : Nat) {m : Nat} (hm : 0 < m) :
    n ≤ (n + m - 1) / m * m ∧ (n + m - 1) / m * m < n + m ∧ (n + m - 1) / m * m % m = 0 := by
  have hlo := Nat.lt_div_mul_add (a := n + m - 1) hm
  have hhi := Nat.div_mul_le_self (n + m - 1) m
  exact ⟨by omega, by omega, Nat.mul_mod_left _ _⟩

/-- Whenever `getAsByteStreamPosition` succeeds, for any load step `m`, the byte position is a
multiple of `m`, and it and the bits to skip there name the reader's position less its pending
bits. Fewer than `8 * m` bits are skipped: with `m = 2` that can be more than a byte. -/
theorem getAsByteStreamPosition_preserves_bitPos {m : Nat} (hm : 0 < m)
    {state : BitStreamPosition} {p : ByteStreamPosition}
    (h : getAsByteStreamPosition m state = some p) :
    p.bytePos % m = 0 ∧ 8 * p.bytePos + p.numBitsToSkip = 8 * state.pos - state.fillLevel ∧
      p.numBitsToSkip < 8 * m := by
  obtain ⟨hlo, hhi, hmod⟩ := roundUp_bounds ((state.fillLevel + 7) / 8) hm
  simp only [getAsByteStreamPosition] at h
  split_ifs at h with hc
  obtain rfl := Option.some.inj h
  dsimp only
  exact ⟨Nat.sub_mod_eq_zero_of_mod_eq (hc.1.trans hmod.symm), by omega, by omega⟩

theorem getAsByteStreamPosition_preserves_bitPos_one_pending :
    4 % MinLoadStepByteMultiple = 0 ∧ 8 * 4 + 15 = 8 * 6 - 1 ∧ 15 < 8 * MinLoadStepByteMultiple :=
  getAsByteStreamPosition_preserves_bitPos (by decide)
    (show getAsByteStreamPosition MinLoadStepByteMultiple ⟨6, 1⟩ = some ⟨4, 15⟩ from rfl)

/-- Rebasing a reader: after any legal run the position `getAsByteStreamPosition` gives is on a
word boundary, and a fresh reader there, over the same padded buffer, that skips
`numBitsToSkip` bits returns what the original returns on any legal continuation. Both readers
load up to 32 bits ahead, the fresh one from a position two bytes further on at worst, so the
calls leave three bytes of the data unread. -/
theorem getAsByteStreamPosition_rebases (bytes pad : List UInt8)
    (hpad : MaxProcessBytes ≤ pad.length) (pre ops : List Op) (hpre : legal 0 pre = true)
    (hops : legal 0 ops = true) (hk : consumed pre + consumed ops + 24 ≤ 8 * bytes.length) :
    ∃ bs out p out', (BitStreamer.init bytes pad).run tag pre = some (bs, out) ∧
      getAsByteStreamPosition MinLoadStepByteMultiple ⟨bs.pos, bs.cache.fillLevel⟩ = some p ∧
      p.bytePos % MinLoadStepByteMultiple = 0 ∧
      (bs.run tag ops).map Prod.snd = some out' ∧
      ((BitStreamer.init (bytes.drop p.bytePos) pad).run tag
        (.skipBits p.numBitsToSkip :: ops)).map Prod.snd = some out' := by
  have hS := simulation_msb16 bytes hpad
  obtain ⟨bs, hr, hI, -⟩ := hS.run_spec pre inv16_init (Nat.zero_le _) hpre (by omega)
  rw [Nat.zero_add] at hI
  obtain ⟨bs', hr', -⟩ := hS.run_spec ops hI (Nat.zero_le _) hops (by omega)
  have hpos := hI.pos
  have he := hI.aligned
  have hfl := hI.valid.fillLevel_le
  -- the bytes still in the cache, rounded up to a whole word
  obtain ⟨t, ht, hlo, hhi, hev⟩ : ∃ t, ((bs.cache.fillLevel + 7) / 8 + 2 - 1) / 2 * 2 = t ∧
      bs.cache.fillLevel ≤ 8 * t ∧ 8 * t < bs.cache.fillLevel + 16 ∧ t % 2 = 0 :=
    ⟨_, rfl, by omega, by omega, by omega⟩
  have hget : getAsByteStreamPosition MinLoadStepByteMultiple ⟨bs.pos, bs.cache.fillLevel⟩ =
      if bs.pos % 2 = 0 ∧ t ≤ bs.pos then some ⟨bs.pos - t, 8 * t - bs.cache.fillLevel⟩
      else none := by
    simp only [getAsByteStreamPosition, MinLoadStepByteMultiple, ht]
  clear ht
  rw [if_pos (by omega)] at hget
  obtain ⟨q, hq⟩ : ∃ q, bs.pos - t = 2 * q := ⟨(bs.pos - t) / 2, by omega⟩
  rw [hq] at hget
  obtain ⟨bs'', hr'', -⟩ := (simulation_msb16 (bytes.drop (2 * q)) hpad).run_spec
    (.skipBits (8 * t - bs.cache.fillLevel) :: ops) inv16_init (Nat.zero_le _)
    (by simp only [legal, Op.allowed, Op.guaranteed, Nat.zero_max, Nat.sub_self, hops,
      Bool.and_true, decide_eq_true_eq]; omega)
    (by simp only [consumed, Op.consumes, List.length_drop]; omega)
  refine ⟨bs, _, _, _, hr, hget, by simp [MinLoadStepByteMultiple], by rw [hr']; rfl, ?_⟩
  simp only [hr'', Option.map_some', specRun, Op.specOut, Op.consumes, List.nil_append,
    ← List.drop_append_of_le_length (show 2 * q ≤ bytes.length by omega), swap16_drop,
    specRun_drop, Option.some.injEq]
  congr 1
  omega

theorem getAsByteStreamPosition_rebases_after_skip :
    ∃ bs out p out', (BitStreamer.init [0, 1, 2, 3, 4, 5, 6, 7, 8, 9, 10, 11]
        [0xAA, 0xBB, 0xCC, 0xDD]).run tag [.fill 32, .skipBits 20] = some (bs, out) ∧
      getAsByteStreamPosition MinLoadStepByteMultiple ⟨bs.pos, bs.cache.fillLevel⟩ = some p ∧
      p.bytePos % MinLoadStepByteMultiple = 0 ∧
      (bs.run tag [.getBits 8, .skipManyBits 40]).map Prod.snd = some out' ∧
      ((BitStreamer.init ([0, 1, 2, 3, 4, 5, 6, 7, 8, 9, 10, 11].drop p.bytePos)
          [0xAA, 0xBB, 0xCC, 0xDD]).run tag
        (.skipBits p.numBitsToSkip :: [.getBits 8, .skipManyBits 40])).map Prod.snd = some out' :=
  getAsByteStreamPosition_rebases _ _ (by decide) _ _ (by decide) (by decide) (by decide)

end RawSpeed
