import Mathlib.Algebra.BigOperators.Group.List
import Mathlib.Algebra.Order.Ring.Nat

/-! `OrfDecoder::decodeRawInternal` and `OrfDecoder::decodeUncompressed`
(decoders/OrfDecoder.cpp), down to the decompressor the strips are handed to. The TIFF
entries come as their lists of values. The strip byte counts are summed in `uint32`, as
the source sums them, so the total wraps around past `2 ^ 32 - 1`. -/

namespace RawSpeed

/-- The entries of the raw IFD that `decodeRawInternal` reads, each as its values; an
entry's `count` is the length of its list. -/
structure OrfRawIFD where
  compression : List UInt32
  stripOffsets : List UInt32
  stripByteCounts : List UInt32
  imageWidth : List UInt32
  imageLength : List UInt32
deriving DecidableEq, Repr

/-- How decoding fails: a `RawDecoderException` with its message (the function and line
prefix of `ThrowRDE` left out), or a TIFF entry read past its values. -/
inductive OrfError
  | rde (msg : String)
  | tiffEntryRead
deriving DecidableEq, Repr

/-- The decoding routine of `UncompressedDecompressor` that `decodeUncompressed` picks. -/
inductive UncompressedDecode
  | decode12BitRawLittleWithControl
  | readUncompressedRawMSB32 (inputPitch : UInt32)
  | decodeRawUnpacked12Little
  | decode12BitRawUnpackedLeftAlignedBig
  | decode12BitRawBigInterlaced
deriving DecidableEq, Repr

/-- Where `decodeRawInternal` sends the strips. -/
inductive OrfDecode
  | uncompressed (width height size : UInt32) (how : UncompressedDecode)
  | olympus (width height : UInt32)
deriving DecidableEq, Repr

/-- `OrfDecoder::isAppropriateDecoder`, on the make in the root IFD's camera id. -/
def isAppropriateDecoder (make : String) : Bool :=
  make == "OLYMPUS IMAGING CORP." || make == "OLYMPUS CORPORATION" ||
    make == "OLYMPUS OPTICAL CO.,LTD"

/-- `TiffEntry::getU32(i)`: the `i`-th value of an entry. -/
def getU32 (entry : List UInt32) (i : Nat) : Except OrfError UInt32 :=
  match entry[i]? with
  | some v => pure v
  | none => throw .tiffEntryRead

/-- Modelled from the spec: `Buffer::isValid(offset, count)` (io/Buffer.h is not part of the
sources). The `count` bytes from `offset` lie inside the file; the sum does not wrap. -/
def isValid (fileSize offset count : UInt32) : Bool :=
  offset.toNat + count.toNat ≤ fileSize.toNat

/-- `OrfDecoder::decodeUncompressed`: the hints first, then the strip size against the
packed and unpacked 12-bit image sizes, computed in `uint32`. -/
def decodeUncompressed (hints : List String) (byteOrderIsHost : Bool) (w h size : UInt32) :
    Except OrfError UncompressedDecode :=
  if hints.contains "packed_with_control" then pure .decode12BitRawLittleWithControl
  else if hints.contains "jpeg32_bitorder" then pure (.readUncompressedRawMSB32 (w * 12 / 8))
  else if size ≥ w * h * 2 then
    pure (if byteOrderIsHost then .decodeRawUnpacked12Little
      else .decode12BitRawUnpackedLeftAlignedBig)
  else if size ≥ w * h * 3 / 2 then pure .decode12BitRawBigInterlaced
  else throw (.rde "Don't know how to handle the encoding in this file")

/-- `OrfDecoder::decodeRawInternal` on a file of `fileSize` bytes. -/
def decodeRawInternal (fileSize : UInt32) (hints : List String) (byteOrderIsHost : Bool)
    (raw : OrfRawIFD) : Except OrfError OrfDecode := do
  let compression ← getU32 raw.compression 0
  if 1 ≠ compression then throw (.rde "Unsupported compression") else
  let offsets := raw.stripOffsets
  let counts := raw.stripByteCounts
  if counts.length ≠ offsets.length then
    throw (.rde ("Byte count number does not match strip size: count:" ++
      toString counts.length ++ ", strips:" ++ toString offsets.length ++ " ")) else
  let off ← getU32 offsets 0
  let size : UInt32 := counts.foldl (· + ·) 0
  if !isValid fileSize off size then throw (.rde "Truncated file") else
  let width ← getU32 raw.imageWidth 0
  let height ← getU32 raw.imageLength 0
  if width = 0 ∨ height = 0 ∨ width % 2 ≠ 0 ∨ width > 9280 ∨ height > 6932 then
    throw (.rde ("Unexpected image dimensions found: (" ++ toString width ++ "; " ++
      toString height ++ ")")) else
  if offsets.length ≠ 1 ∨ hints.contains "force_uncompressed" then
    let how ← decodeUncompressed hints byteOrderIsHost width height size
    pure (.uncompressed width height size how)
  else pure (.olympus width height)

theorem getU32_eq_ok {entry : List UInt32} {i : Nat} {v : UInt32} :
    getU32 entry i = .ok v ↔ entry[i]? = some v := by
  cases h : entry[i]? <;> simp [getU32, h, pure, Except.pure, throw, throwThe, MonadExceptOf.throw]

theorem bind_eq_ok {ε α β : Type} {x : Except ε α} {f : α → Except ε β} {b : β} :
    x >>= f = .ok b ↔ ∃ a, x = .ok a ∧ f a = .ok b := by
  cases x <;> simp [bind, Except.bind]

theorem ite_throw_eq_ok {ε α : Type} {c : Prop} [Decidable c] {e : ε} {x : Except ε α}
    {a : α} :
    (if c then throw e else x) = .ok a ↔ ¬c ∧ x = .ok a := by
  by_cases hc : c <;> simp [hc, throw, throwThe, MonadExceptOf.throw]

end RawSpeed
