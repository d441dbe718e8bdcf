import RawSpeed.Spec.OrfDecoder
import Mathlib.Data.String.Basic

/-! The truncation check of `OrfDecoder::decodeRawInternal`. The strip byte counts are
summed in `uint32`, so the check is exact only modulo `2 ^ 32`: a count list whose true
total wraps around passes it, and `decodeUncompressed` receives the wrapped total. Past the
dimension check, the image sizes that `decodeUncompressed` compares that total with do not
wrap. -/

namespace RawSpeed

section Uncompressed

variable {fileSize : UInt32} {hints : List String} {byteOrderIsHost : Bool} {raw : OrfRawIFD}
  {w h size : UInt32} {how : UncompressedDecode}

theorem decodeRawInternal_uncompressed_inv
    (hd : decodeRawInternal fileSize hints byteOrderIsHost raw = .ok (.uncompressed w h size how)) :
    ∃ off, raw.stripOffsets[0]? = some off ∧ size = raw.stripByteCounts.foldl (· + ·) 0 ∧
      isValid fileSize off size = true ∧
      ¬(w = 0 ∨ h = 0 ∨ w % 2 ≠ 0 ∨ w > 9280 ∨ h > 6932) ∧
      decodeUncompressed hints byteOrderIsHost w h size = .ok how := by
  simp only [decodeRawInternal, bind_eq_ok, ite_throw_eq_ok] at hd
  obtain ⟨-, -, -, -, off, ho, hv, wd, -, ht, -, hdim, hd⟩ := hd
  split_ifs at hd
  · obtain ⟨how', hu, hd⟩ := bind_eq_ok.mp hd
    obtain ⟨rfl, rfl, rfl, rfl⟩ := OrfDecode.uncompressed.inj (Except.ok.inj hd)
    exact ⟨off, getU32_eq_ok.mp ho, rfl, by simpa using hv, hdim, hu⟩
  · cases hd

theorem dims_toNat (hdim : ¬(w = 0 ∨ h = 0 ∨ w % 2 ≠ 0 ∨ w > 9280 ∨ h > 6932)) :
    0 < w.toNat ∧ w.toNat ≤ 9280 ∧ w.toNat % 2 = 0 ∧ 0 < h.toNat ∧ h.toNat ≤ 6932 := by
  simp only [not_or, not_not, gt_iff_lt, UInt32.not_lt] at hdim
  obtain ⟨hw0, hh0, hw2, hw, hh⟩ := hdim
  refine ⟨Nat.pos_of_ne_zero fun h0 => hw0 (UInt32.toNat.inj h0), hw, ?_,
    Nat.pos_of_ne_zero fun h0 => hh0 (UInt32.toNat.inj h0), hh⟩
  simpa using congrArg UInt32.toNat hw2

/-- Without the two hints that bypass it, the strip size picks the decoding routine by exact
comparisons: the dimension check keeps the `uint32` image sizes of `decodeUncompressed` from
wrapping. At least the packed 12-bit size is there, and the unpacked routine is used exactly
when the unpacked 16-bit size is. -/
theorem decodeRawInternal_uncompressed_exact (hc : hints.contains "packed_with_control" = false)
    (hj : hints.contains "jpeg32_bitorder" = false)
    (hd : decodeRawInternal fileSize hints byteOrderIsHost raw = .ok (.uncompressed w h size how)) :
    0 < w.toNat ∧ w.toNat ≤ 9280 ∧ w.toNat % 2 = 0 ∧ 0 < h.toNat ∧ h.toNat ≤ 6932 ∧
      w.toNat * h.toNat * 3 / 2 ≤ size.toNat ∧
      how = if w.toNat * h.toNat * 2 ≤ size.toNat then
        (if byteOrderIsHost then .decodeRawUnpacked12Little
          else .decode12BitRawUnpackedLeftAlignedBig)
      else .decode12BitRawBigInterlaced := by
  obtain ⟨-, -, -, -, hdim, hu⟩ := decodeRawInternal_uncompressed_inv hd
  obtain ⟨hw0, hw, hw2, hh0, hh⟩ := dims_toNat hdim
  have hwh' : w.toNat * h.toNat ≤ 9280 * 6932 := Nat.mul_le_mul hw hh
  have hwh : w.toNat * h.toNat < 2 ^ 32 := by omega
  have h2 : (w * h * 2).toNat = w.toNat * h.toNat * 2 := by
    rw [UInt32.toNat_mul, UInt32.toNat_mul, show UInt32.size = 2 ^ 32 from rfl,
      Nat.mod_eq_of_lt hwh, show (2 : UInt32).toNat = 2 from rfl, Nat.mod_eq_of_lt (by omega)]
  have h3 : (w * h * 3 / 2).toNat = w.toNat * h.toNat * 3 / 2 := by
    rw [UInt32.toNat_div, UInt32.toNat_mul, UInt32.toNat_mul, show UInt32.size = 2 ^ 32 from rfl,
      Nat.mod_eq_of_lt hwh, show (3 : UInt32).toNat = 3 from rfl,
      show (2 : UInt32).toNat = 2 from rfl, Nat.mod_eq_of_lt (by omega)]
  have e2 : size ≥ w * h * 2 ↔ w.toNat * h.toNat * 2 ≤ size.toNat := by rw [← h2]; exact Iff.rfl
  have e3 : size ≥ w * h * 3 / 2 ↔ w.toNat * h.toNat * 3 / 2 ≤ size.toNat := by
    rw [← h3]; exact Iff.rfl
  simp only [decodeUncompressed, hc, hj, Bool.false_eq_true, if_false, e2, e3] at hu
  refine ⟨hw0, hw, hw2, hh0, hh, ?_⟩
  by_cases c2 : w.toNat * h.toNat * 2 ≤ size.toNat
  · simp only [if_pos c2] at hu ⊢
    exact ⟨by omega, (Except.ok.inj hu).symm⟩
  · by_cases c3 : w.toNat * h.toNat * 3 / 2 ≤ size.toNat
    · simp only [if_neg c2, if_pos c3] at hu ⊢
      exact ⟨c3, (Except.ok.inj hu).symm⟩
    · simp only [if_neg c2, if_neg c3] at hu
      cases hu

theorem decodeRawInternal_uncompressed_exact_two_strips :
    0 < (2 : UInt32).toNat ∧ (2 : UInt32).toNat ≤ 9280 ∧ (2 : UInt32).toNat % 2 = 0 ∧
      0 < (2 : UInt32).toNat ∧ (2 : UInt32).toNat ≤ 6932 ∧
      (2 : UInt32).toNat * (2 : UInt32).toNat * 3 / 2 ≤ (80 : UInt32).toNat ∧
      UncompressedDecode.decodeRawUnpacked12Little =
        if (2 : UInt32).toNat * (2 : UInt32).toNat * 2 ≤ (80 : UInt32).toNat then
          (if true then .decodeRawUnpacked12Little else .decode12BitRawUnpackedLeftAlignedBig)
        else .decode12BitRawBigInterlaced :=
  decodeRawInternal_uncompressed_exact
    (show ([] : List String).contains "packed_with_control" = false from rfl)
    (show ([] : List String).contains "jpeg32_bitorder" = false from rfl)
    (show decodeRawInternal 100 [] true ⟨[1], [0, 0], [50, 30], [2], [2]⟩ =
      .ok (.uncompressed 2 2 80 .decodeRawUnpacked12Little) from rfl)

end Uncompressed

/-- Two strips whose byte counts add up to `2 ^ 32 + 8` pass the truncation check of a
100-byte file: the `uint32` total is 8, which is what `decodeUncompressed` receives. -/
theorem decodeRawInternal_wrapped_counts_pass :
    0 + ([0xFFFFFFFF, 9].map UInt32.toNat).sum > 100 ∧
      decodeRawInternal 100 [] true ⟨[1], [0, 0], [0xFFFFFFFF, 9], [2], [2]⟩ =
        .ok (.uncompressed 2 2 8 .decodeRawUnpacked12Little) :=
  ⟨by decide, rfl⟩

end RawSpeed
