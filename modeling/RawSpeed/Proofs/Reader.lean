import RawSpeed.Proofs.FillCache
import RawSpeed.Proofs.Simulation

/-! The JPEG reader over stuffed data and a marker simulates the abstract reader of
`Reference.Reader`. `Inv` ties a reader to a count of consumed bits; `fill` keeps it
(`fill_spec`), and so does dropping bits from the cache, so the reader is an instance of
`Simulation`. The input position is always the stuffed length of a prefix of the data, so it
never passes the marker, and once the consumed and pending bits reach past the data it sits
on the marker. Through `entropySegment` this holds of any buffer that has a marker. -/

namespace RawSpeed

open BitStreamerCacheRightInLeftOut BitStreamer

/-- The reader over `stuff d ++ 0xFF :: m :: r` and padding of any content, `k` bits into the
destuffed stream. Its pending bits are the next stream bits, and its input position is the
stuffed length of the first `j` data bytes, whose bits the consumed and pending ones cover,
exactly while data remains. -/
structure Inv (d : List UInt8) (m : UInt8) (r : List UInt8) (bs : BitStreamer) (k : Nat) :
    Prop where
  input : bs.input = stuff d ++ 0xFF :: m :: r
  padded : BitStreamerJPEG.MaxProcessBytes ≤ bs.padding.length
  valid : bs.cache.Valid
  bits : bs.cache.bits = slice d k bs.cache.fillLevel
  at_prefix : ∃ j ≤ d.length, bs.pos = (stuff (d.take j)).length ∧
    8 * j ≤ k + bs.cache.fillLevel ∧ (j < d.length → k + bs.cache.fillLevel = 8 * j)

section Simulation

variable {d r : List UInt8} {m : UInt8} {bs : BitStreamer} {k : Nat}

theorem stuff_take_append_drop (d : List UInt8) (j : Nat) :
    stuff d = stuff (d.take j) ++ stuff (d.drop j) := by
  rw [← stuff_append, List.take_append_drop]

theorem inv_init {pad : List UInt8} (hpad : BitStreamerJPEG.MaxProcessBytes ≤ pad.length) :
    Inv d m r (init (stuff d ++ 0xFF :: m :: r) pad) 0 :=
  ⟨rfl, hpad, valid_empty, by simp [BitStreamerCacheRightInLeftOut.bits, slice, init],
    ⟨0, by simp, by simp [init], by simp [init], by simp [init]⟩⟩

theorem Inv.pos_le (hI : Inv d m r bs k) : bs.pos ≤ (stuff d).length := by
  obtain ⟨j, -, hpos, -⟩ := hI.at_prefix
  rw [hpos, stuff_take_append_drop d j, List.length_append]
  omega

theorem Inv.pos_eq (hI : Inv d m r bs k) (h : 8 * d.length ≤ k + bs.cache.fillLevel) :
    bs.pos = (stuff d).length := by
  obtain ⟨j, hj, hpos, -, hex⟩ := hI.at_prefix
  obtain rfl : j = d.length := by
    by_contra hne
    have := hex (by omega)
    omega
  rw [hpos, List.take_length]

theorem Inv.pos_loaded (hI : Inv d m r bs k) (h : k + bs.cache.fillLevel < 8 * d.length) :
    (k + bs.cache.fillLevel) % 8 = 0 ∧
      bs.pos = (stuff (d.take ((k + bs.cache.fillLevel) / 8))).length := by
  obtain ⟨j, hj, hpos, hlo, hex⟩ := hI.at_prefix
  rw [hex (by omega), hpos, Nat.mul_div_cancel_left j (by decide)]
  exact ⟨by omega, rfl⟩

theorem destuff_window (hm : m ≠ 0) (hin : bs.input = stuff d ++ 0xFF :: m :: r) {j : Nat}
    (hpos : bs.pos = (stuff (d.take j)).length) :
    destuff (((bs.input ++ bs.padding).drop bs.pos).take BitStreamerJPEG.tag.MaxProcessBytes) 4 =
      ⟨(d.drop j).take 4, (stuff ((d.drop j).take 4)).length,
        decide ((d.drop j).length < 4)⟩ := by
  have hdrop : (bs.input ++ bs.padding).drop bs.pos =
      stuff (d.drop j) ++ 0xFF :: m :: (r ++ bs.padding) := by
    rw [hin, hpos, stuff_take_append_drop d j, List.append_assoc, List.append_assoc,
      List.drop_left, List.cons_append, List.cons_append]
  rw [destuff_take _ (by decide), hdrop, destuff_stuff_marker hm, List.length_drop]

theorem Refills.bits_eq_slice {c c' : BitStreamerCacheRightInLeftOut} {ys : List UInt8}
    {mk : Bool} (hR : Refills c ys mk c') (hc : c.bits = slice d k c.fillLevel)
    (hys : slice d (k + c.fillLevel) (8 * ys.length) = bytesBits ys)
    (hz : c'.fillLevel = c.fillLevel + 8 * ys.length ∨
      8 * d.length ≤ k + c.fillLevel + 8 * ys.length) :
    c'.bits = slice d k c'.fillLevel := by
  have hlen := congrArg List.length hR.bits
  simp only [length_bits, List.length_append, length_bytesBits, List.length_replicate] at hlen
  obtain ⟨e, he⟩ : ∃ e, c'.fillLevel = c.fillLevel + 8 * ys.length + e :=
    ⟨_, (Nat.add_sub_cancel' (by omega)).symm⟩
  rw [hR.bits, hc, he, slice_add, slice_add, hys, Nat.sub_sub, Nat.add_sub_cancel_left]
  rcases hz with hz | hz
  · obtain rfl : e = 0 := by omega
    simp [slice]
  · rw [slice_past d (k := k + (c.fillLevel + 8 * ys.length)) _ (by omega)]

theorem fillCache_window (hm : m ≠ 0) (hin : bs.input = stuff d ++ 0xFF :: m :: r)
    (hp : BitStreamerJPEG.MaxProcessBytes ≤ bs.padding.length) (hv : bs.cache.Valid)
    (hf : bs.cache.fillLevel ≤ 31) {j : Nat} (hpos : bs.pos = (stuff (d.take j)).length) :
    ∃ c', (bs.getInput BitStreamerJPEG.tag).bind (BitStreamerJPEG.tag.fillCache bs.cache) =
        some (c', (stuff ((d.drop j).take 4)).length) ∧
      Refills bs.cache ((d.drop j).take 4) (decide ((d.drop j).length < 4)) c' := by
  have hle : bs.pos ≤ bs.input.length := by
    rw [hpos, hin, stuff_take_append_drop d j, List.length_append, List.length_append]
    omega
  obtain ⟨c', hfc, hR⟩ := fillCache_destuffs (length_window BitStreamerJPEG.tag hle hp) hv hf
  rw [destuff_window hm hin hpos] at hfc hR
  exact ⟨c', by rwa [getInput_of_le BitStreamerJPEG.tag hle, Option.some_bind], hR⟩

theorem stuff_take_add (d : List UInt8) (j : Nat) :
    (stuff (d.take j)).length + (stuff ((d.drop j).take 4)).length =
      (stuff (d.take (j + ((d.drop j).take 4).length))).length := by
  have htake : d.take (j + 4) = d.take (j + ((d.drop j).take 4).length) :=
    List.take_eq_take.mpr (by rw [List.length_take, List.length_drop]; omega)
  rw [← List.length_append, ← stuff_append, ← List.take_add, htake]

theorem fill_spec (hm : m ≠ 0) (hI : Inv d m r bs k) {nbits : Nat} (hn : nbits ≤ 32) :
    ∃ bs', bs.fill BitStreamerJPEG.tag nbits = some bs' ∧ Inv d m r bs' k ∧
      nbits ≤ bs'.cache.fillLevel ∧ bs.cache.fillLevel ≤ bs'.cache.fillLevel := by
  by_cases hle : nbits ≤ bs.cache.fillLevel
  · exact ⟨bs, by simp [fill, hn, hle], hI, hle, le_rfl⟩
  obtain ⟨j, hj, hpos, hlo, hex⟩ := hI.at_prefix
  obtain ⟨c', hfc, hR⟩ := fillCache_window hm hI.input hI.padded hI.valid (by omega) hpos
  -- four data bytes, or the rest of the data and then the marker
  have hcases : (c'.fillLevel = 64 ∧ ((d.drop j).take 4).length = d.length - j ∧
        d.length < j + 4) ∨
      (c'.fillLevel = bs.cache.fillLevel + 32 ∧ ((d.drop j).take 4).length = 4 ∧
        j + 4 ≤ d.length) := by
    have hfl := hR.fillLevel
    simp only [List.length_drop, List.length_take] at hfl ⊢
    by_cases hmk : d.length - j < 4
    · exact .inl ⟨by rwa [if_pos (decide_eq_true hmk)] at hfl, by omega, by omega⟩
    · exact .inr ⟨by rw [if_neg (by simpa using hmk)] at hfl; omega, by omega, by omega⟩
  have hys : slice d (k + bs.cache.fillLevel) (8 * ((d.drop j).take 4).length) =
      bytesBits ((d.drop j).take 4) := by
    rcases Nat.lt_or_ge j d.length with h | h
    · rw [hex h]
      exact slice_drop_take d j 4
    · simp [List.drop_of_length_le h, slice]
  have hfl₀ := hI.valid.fillLevel_le
  refine ⟨{ bs with cache := c', pos := bs.pos + (stuff ((d.drop j).take 4)).length },
    fill_of_refill _ hn hle hfc (by omega),
    ⟨hI.input, hI.padded, hR.valid, hR.bits_eq_slice hI.bits hys (by omega),
      j + ((d.drop j).take 4).length, by omega, by simp only [hpos, stuff_take_add],
      by simp only; omega⟩,
    by simp only; omega, by simp only; omega⟩

theorem Inv.skip (hI : Inv d m r bs k) {n : Nat} {c : BitStreamerCacheRightInLeftOut}
    (h : n ≤ bs.cache.fillLevel) (hv : c.Valid) (hfl : c.fillLevel = bs.cache.fillLevel - n)
    (hbits : c.bits = slice d (k + n) c.fillLevel) : Inv d m r { bs with cache := c } (k + n) := by
  obtain ⟨j, hj, hpos, hlo, hex⟩ := hI.at_prefix
  exact ⟨hI.input, hI.padded, hv, hbits, j, hj, hpos, by simp only; omega⟩

/-- The JPEG reader reads the data under `Inv`, however many bits it consumes: it never reads
past the marker. -/
theorem simulation_jpeg (hm : m ≠ 0) (B : Nat) : Simulation BitStreamerJPEG.tag d (Inv d m r) B :=
  ⟨Inv.valid, Inv.bits, fun hI hn _ => fill_spec hm hI hn,
    fun hI h hv hfl hb => hI.skip h hv hfl hb⟩

end Simulation

/-- Over stuffed data and a marker, and padding of any content, a legal run of calls returns
what the abstract reader returns: the bits of the data, then zeros. The pending bits are the
next stream bits. -/
theorem run_reads_destuffed (d : List UInt8) {m : UInt8} (hm : m ≠ 0) (r pad : List UInt8)
    (hpad : BitStreamerJPEG.MaxProcessBytes ≤ pad.length) (ops : List Op)
    (hl : legal 0 ops = true) :
    ∃ bs, (init (stuff d ++ 0xFF :: m :: r) pad).run BitStreamerJPEG.tag ops =
        some (bs, specRun d 0 ops) ∧
      bs.cache.bits = slice d (consumed ops) bs.cache.fillLevel := by
  obtain ⟨bs, hr, hI, -⟩ :=
    (simulation_jpeg hm _).run_spec ops (inv_init hpad) (Nat.zero_le _) hl le_rfl
  exact ⟨bs, hr, by simpa using hI.bits⟩

theorem run_reads_destuffed_past_marker :
    ∃ bs, (init (stuff [0x12, 0xFF, 0x34] ++ 0xFF :: 0xD9 :: [0xAB]) (List.replicate 8 0xFF)).run
        BitStreamerJPEG.tag
        [.getBits 4, .peekBits 12, .skipBits 8, .getBitsNoFill 4, .skipManyBits 40, .getBits 32] =
        some (bs, specRun [0x12, 0xFF, 0x34] 0
          [.getBits 4, .peekBits 12, .skipBits 8, .getBitsNoFill 4, .skipManyBits 40,
            .getBits 32]) ∧
      bs.cache.bits = slice [0x12, 0xFF, 0x34]
        (consumed [.getBits 4, .peekBits 12, .skipBits 8, .getBitsNoFill 4, .skipManyBits 40,
          .getBits 32]) bs.cache.fillLevel :=
  run_reads_destuffed _ (by decide) _ _ (by decide) _ (by decide)

/-- In a legal run the stream position never passes the marker's `0xFF`; from a call that
fills past the end of the data on, it is that `0xFF`'s offset. -/
theorem run_stops_at_marker (d : List UInt8) {m : UInt8} (hm : m ≠ 0) (r pad : List UInt8)
    (hpad : BitStreamerJPEG.MaxProcessBytes ≤ pad.length) (ops : List Op)
    (hl : legal 0 ops = true) :
    (∀ pre, pre <+: ops → ∃ bs out,
      (init (stuff d ++ 0xFF :: m :: r) pad).run BitStreamerJPEG.tag pre = some (bs, out) ∧
        BitStreamerJPEG.getStreamPosition bs ≤ (stuff d).length) ∧
    (∀ pre op post, pre ++ op :: post <+: ops →
      (∃ fr ∈ op.fills (consumed pre), 8 * d.length < fr.1 + fr.2) → ∃ bs out,
        (init (stuff d ++ 0xFF :: m :: r) pad).run BitStreamerJPEG.tag (pre ++ op :: post) =
          some (bs, out) ∧ BitStreamerJPEG.getStreamPosition bs = (stuff d).length) := by
  have hS : ∀ B, Simulation BitStreamerJPEG.tag d (Inv d m r) B := simulation_jpeg hm
  constructor
  · intro pre hp
    obtain ⟨bs, hr, hI, -⟩ :=
      (hS _).run_spec pre (inv_init hpad) (Nat.zero_le _) (legal_of_isPrefix hp hl) le_rfl
    exact ⟨bs, _, hr, hI.pos_le⟩
  · rintro pre op post hp ⟨fr, hfr, hlt⟩
    obtain ⟨hl₁, hl₂⟩ := legal_append (legal_of_isPrefix hp hl)
    simp only [legal, Bool.and_eq_true] at hl₂
    obtain ⟨bs₁, hr₁, hI₁, hg₁, -⟩ := (hS _).run_spec pre (inv_init hpad) (Nat.zero_le _) hl₁ le_rfl
    rw [Nat.zero_add] at hI₁
    obtain ⟨bs₂, hs₂, hI₂, hg₂, -, hfills⟩ := (hS _).step_spec hI₁ hg₁ hl₂.1 le_rfl
    obtain ⟨bs₃, hr₃, hI₃, -, hp₃⟩ := (hS _).run_spec post hI₂ hg₂ hl₂.2 le_rfl
    refine ⟨bs₃, _, by simp [run_append, hr₁, run, hs₂, hr₃]; rfl, hI₃.pos_eq ?_⟩
    have := hfills fr hfr
    omega

theorem run_stops_at_marker_two_bytes :
    (∀ pre, pre <+: [.getBits 8, .fill 16, .getBits 16, .skipManyBits 40] → ∃ bs out,
      (init (stuff [0x12, 0xFF] ++ 0xFF :: 0xD9 :: []) (List.replicate 8 0xFF)).run
          BitStreamerJPEG.tag pre =
        some (bs, out) ∧ BitStreamerJPEG.getStreamPosition bs ≤ (stuff [0x12, 0xFF]).length) ∧
    (∀ pre op post,
      pre ++ op :: post <+: [.getBits 8, .fill 16, .getBits 16, .skipManyBits 40] →
      (∃ fr ∈ op.fills (consumed pre), 8 * [(0x12 : UInt8), 0xFF].length < fr.1 + fr.2) →
      ∃ bs out, (init (stuff [0x12, 0xFF] ++ 0xFF :: 0xD9 :: []) (List.replicate 8 0xFF)).run
          BitStreamerJPEG.tag (pre ++ op :: post) = some (bs, out) ∧
        BitStreamerJPEG.getStreamPosition bs = (stuff [0x12, 0xFF]).length) :=
  run_stops_at_marker _ (by decide) _ _ (by decide) _ (by decide)

/-- On any buffer whose entropy-coded segment ends at a marker, a legal run returns the bits of
the segment, then zeros. The position never passes the marker's `0xFF`, and while data remains
it is the raw offset of the first data byte not yet loaded into the cache. -/
theorem run_reads_entropySegment (w pad : List UInt8) {d r : List UInt8} {m : UInt8}
    (hpad : BitStreamerJPEG.MaxProcessBytes ≤ pad.length)
    (hw : entropySegment w = some (d, m, r)) (ops : List Op) (hl : legal 0 ops = true) :
    ∃ bs, (init w pad).run BitStreamerJPEG.tag ops = some (bs, specRun d 0 ops) ∧
      BitStreamerJPEG.getStreamPosition bs ≤ (stuff d).length ∧
      (consumed ops + bs.cache.fillLevel < 8 * d.length →
        (consumed ops + bs.cache.fillLevel) % 8 = 0 ∧
        BitStreamerJPEG.getStreamPosition bs =
          (stuff (d.take ((consumed ops + bs.cache.fillLevel) / 8))).length) := by
  obtain ⟨hm, rfl⟩ := eq_stuff_of_entropySegment hw
  obtain ⟨bs, hr, hI, -⟩ :=
    (simulation_jpeg hm _).run_spec ops (inv_init hpad) (Nat.zero_le _) hl le_rfl
  rw [Nat.zero_add] at hI
  exact ⟨bs, hr, hI.pos_le, hI.pos_loaded⟩

theorem run_reads_entropySegment_restart :
    ∃ bs, (init [0x12, 0xFF, 0x00, 0x34, 0x56, 0xFF, 0xD0, 0xAB] (List.replicate 8 0xFF)).run
        BitStreamerJPEG.tag
        [.getBits 8, .getBits 4] =
        some (bs, specRun [0x12, 0xFF, 0x34, 0x56] 0 [.getBits 8, .getBits 4]) ∧
      BitStreamerJPEG.getStreamPosition bs ≤ (stuff [0x12, 0xFF, 0x34, 0x56]).length ∧
      (consumed [.getBits 8, .getBits 4] + bs.cache.fillLevel <
          8 * [(0x12 : UInt8), 0xFF, 0x34, 0x56].length →
        (consumed [.getBits 8, .getBits 4] + bs.cache.fillLevel) % 8 = 0 ∧
        BitStreamerJPEG.getStreamPosition bs = (stuff ([0x12, 0xFF, 0x34, 0x56].take
          ((consumed [.getBits 8, .getBits 4] + bs.cache.fillLevel) / 8))).length) :=
  run_reads_entropySegment _ _ (by decide)
    (show entropySegment [0x12, 0xFF, 0x00, 0x34, 0x56, 0xFF, 0xD0, 0xAB] =
      some ([0x12, 0xFF, 0x34, 0x56], 0xD0, [0xAB]) by decide) _ (by decide)

end RawSpeed
