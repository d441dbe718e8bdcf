import RawSpeed.Spec.MSB16
import RawSpeed.Proofs.Simulation

/-! The MSB16 reader reads the word-swapped bytes (`swap16`) of its padded buffer as the
abstract reader does: `Inv16` ties a reader to a count of consumed bits of the swapped stream,
its `fill` keeps it while the bits consumed stay within the whole 32-bit loads of the data,
and so the reader is an instance of `Simulation`. -/

namespace RawSpeed

open BitStreamerCacheRightInLeftOut BitStreamer BitStreamerMSB16

/-- The bytes in stream order: the high byte of each little-endian word first. A last odd
byte is the low byte of a word whose high byte is the zero padding. -/
def swap16 : List UInt8 → List UInt8
  | b₀ :: b₁ :: bs => b₁ :: b₀ :: swap16 bs
  | [b₀] => [0, b₀]
  | [] => []

theorem getD_swap16 (l : List UInt8) (q : Nat) :
    (swap16 l).getD (2 * q) 0 = l.getD (2 * q + 1) 0 ∧
      (swap16 l).getD (2 * q + 1) 0 = l.getD (2 * q) 0 := by
  induction l using swap16.induct generalizing q with
  | case1 b₀ b₁ bs ih =>
    cases q with
    | zero => exact ⟨rfl, rfl⟩
    | succ q => exact ih q
  | case2 b₀ => cases q <;> exact ⟨rfl, rfl⟩
  | case3 => exact ⟨rfl, rfl⟩

theorem swap16_drop (l : List UInt8) (q : Nat) :
    swap16 (l.drop (2 * q)) = (swap16 l).drop (2 * q) := by
  induction l using swap16.induct generalizing q with
  | case1 b₀ b₁ bs ih =>
    cases q with
    | zero => rfl
    | succ q => exact ih q
  | case2 b₀ => cases q <;> simp [swap16, Nat.mul_succ]
  | case3 => simp [swap16]

theorem getLE16_bits (p : List UInt8) (i : Nat) :
    getLE16 p i < 2 ^ 16 ∧
      natBits 16 (getLE16 p i) = bytesBits [p.getD (i + 1) 0, p.getD i 0] := by
  have h₀ := UInt8.toNat_lt (p.getD i 0)
  have h₁ := UInt8.toNat_lt (p.getD (i + 1) 0)
  refine ⟨by simp only [getLE16]; omega, ?_⟩
  rw [getLE16, show (p.getD i 0).toNat + 256 * (p.getD (i + 1) 0).toNat =
    2 ^ 8 * (p.getD (i + 1) 0).toNat + (p.getD i 0).toNat by ring, natBits_mul_add h₀]
  simp [byteBits]

theorem window_bits (l : List UInt8) {pos : Nat} (he : pos % 2 = 0) :
    bytesBits [((l.drop pos).take 4).getD 1 0, ((l.drop pos).take 4).getD 0 0] ++
      bytesBits [((l.drop pos).take 4).getD 3 0, ((l.drop pos).take 4).getD 2 0] =
        slice (swap16 l) (8 * pos) (8 * 4) := by
  obtain ⟨q, rfl⟩ : ∃ q, pos = 2 * q := ⟨pos / 2, by omega⟩
  have h₀ := getD_swap16 l q
  have h₁ := getD_swap16 l (q + 1)
  rw [show 2 * (q + 1) = 2 * q + 2 by ring, show 2 * q + 2 + 1 = 2 * q + 3 by ring] at h₁
  rw [slice_getD]
  simp only [List.getD_eq_getElem?_getD, List.getElem?_take, List.getElem?_drop,
    List.range_succ, List.range_zero] at h₀ h₁ ⊢
  simp [Nat.mul_succ, h₀, h₁, Nat.add_assoc]

/-- The MSB16 reader over `bytes` and the padding `pad`, `k` bits into the swapped stream of
both: its pending bits are the next stream bits, and its input position is a whole number of
32-bit loads that ends the consumed and pending bits. -/
structure Inv16 (bytes pad : List UInt8) (bs : BitStreamer) (k : Nat) : Prop where
  input : bs.input = bytes
  padding : bs.padding = pad
  valid : bs.cache.Valid
  bits : bs.cache.bits = slice (swap16 (bytes ++ pad)) k bs.cache.fillLevel
  pos : 8 * bs.pos = k + bs.cache.fillLevel
  aligned : bs.pos % 4 = 0

section Reader

variable {bytes pad : List UInt8} {bs : BitStreamer} {k : Nat}

theorem inv16_init : Inv16 bytes pad (init bytes pad) 0 :=
  ⟨rfl, rfl, valid_empty, by simp [BitStreamerCacheRightInLeftOut.bits, slice, init], rfl, rfl⟩

theorem Inv16.fill (hI : Inv16 bytes pad bs k) (hpad : MaxProcessBytes ≤ pad.length) {n : Nat}
    (hn : n ≤ 32) (hk : k ≤ 32 * (bytes.length / 4)) :
    ∃ bs', bs.fill tag n = some bs' ∧ Inv16 bytes pad bs' k ∧ n ≤ bs'.cache.fillLevel ∧
      bs.cache.fillLevel ≤ bs'.cache.fillLevel := by
  by_cases hle : n ≤ bs.cache.fillLevel
  · exact ⟨bs, by simp [BitStreamer.fill, hn, hle], hI, hle, le_rfl⟩
  have hpos := hI.pos
  have hal := hI.aligned
  have hin : bs.pos ≤ bs.input.length := by rw [hI.input]; omega
  obtain ⟨lt₀, bits₀⟩ := getLE16_bits (((bs.input ++ bs.padding).drop bs.pos).take 4) 0
  obtain ⟨lt₂, bits₂⟩ := getLE16_bits (((bs.input ++ bs.padding).drop bs.pos).take 4) 2
  obtain ⟨c₁, hc₁, hf₁, hv₁⟩ := push_spec bs.cache _ 16 (by omega) (by omega)
  obtain ⟨c₂, hc₂, hf₂, hv₂⟩ := push_spec c₁ _ 16 (by omega) (by omega)
  obtain ⟨hv₁', hb₁⟩ := hv₁ hI.valid lt₀
  obtain ⟨hv₂', hb₂⟩ := hv₂ hv₁' lt₂
  have hfc : (bs.getInput tag).bind (tag.fillCache bs.cache) = some (c₂, 4) := by
    have hw := length_window tag hin (by rw [hI.padding]; exact hpad)
    rw [getInput_of_le tag hin, Option.some_bind]
    simp only [tag, MaxProcessBytes] at hw ⊢
    simp [fillCache, MaxProcessBytes, hw, hc₁, hc₂]
  refine ⟨{ bs with cache := c₂, pos := bs.pos + 4 }, fill_of_refill tag hn hle hfc (by omega),
    ⟨hI.input, hI.padding, hv₂', ?_, by simp only; omega, by simp only; omega⟩,
    by simp only; omega, by simp only; omega⟩
  rw [hb₂, hb₁, hI.bits, bits₀, bits₂, List.append_assoc, window_bits _ (by omega), hI.input,
    hI.padding, hpos, ← slice_add, hf₂, hf₁, Nat.add_assoc]

theorem Inv16.skip (hI : Inv16 bytes pad bs k) {n : Nat} {c : BitStreamerCacheRightInLeftOut}
    (h : n ≤ bs.cache.fillLevel) (hv : c.Valid) (hfl : c.fillLevel = bs.cache.fillLevel - n)
    (hbits : c.bits = slice (swap16 (bytes ++ pad)) (k + n) c.fillLevel) :
    Inv16 bytes pad { bs with cache := c } (k + n) :=
  ⟨hI.input, hI.padding, hv, hbits, by simp only; have := hI.pos; omega, hI.aligned⟩

/-- The MSB16 reader reads the swapped bytes of its padded buffer under `Inv16`, while the bits
consumed stay within the whole 32-bit loads of the data. -/
theorem simulation_msb16 (bytes : List UInt8) {pad : List UInt8}
    (hpad : MaxProcessBytes ≤ pad.length) :
    Simulation tag (swap16 (bytes ++ pad)) (Inv16 bytes pad) (32 * (bytes.length / 4)) :=
  ⟨Inv16.valid, Inv16.bits, fun hI hn hk => hI.fill hpad hn hk,
    fun hI h hv hfl hb => hI.skip h hv hfl hb⟩

end Reader

theorem swap16_append {l : List UInt8} (h : l.length % 2 = 0) (m : List UInt8) :
    swap16 (l ++ m) = swap16 l ++ swap16 m := by
  induction l using swap16.induct with
  | case1 b₀ b₁ bs ih =>
    show swap16 (b₀ :: b₁ :: (bs ++ m)) = _
    simp only [swap16, ih (by simp at h; omega), List.cons_append]
  | case2 b₀ => simp at h
  | case3 => rfl

theorem length_swap16 {l : List UInt8} (h : l.length % 2 = 0) : (swap16 l).length = l.length := by
  induction l using swap16.induct with
  | case1 b₀ b₁ bs ih => simp [swap16, ih (by simp at h; omega)]
  | case2 b₀ => simp at h
  | case3 => rfl

theorem slice_swap16_append (b pad : List UInt8) {n : Nat} (h : n ≤ 32 * (b.length / 4)) :
    slice (swap16 (b ++ pad)) 0 n = slice (swap16 b) 0 n := by
  have he : (b.take (4 * (b.length / 4))).length % 2 = 0 := by simp; omega
  have hw : ∀ l, slice (swap16 (b.take (4 * (b.length / 4)) ++ l)) 0 n =
      slice (swap16 (b.take (4 * (b.length / 4)))) 0 n := fun l => by
    rw [swap16_append he, slice_append_left _ _ (by rw [length_swap16 he]; simp; omega)]
  rw [← List.take_append_drop (4 * (b.length / 4)) b, List.append_assoc, hw, hw]

end RawSpeed
