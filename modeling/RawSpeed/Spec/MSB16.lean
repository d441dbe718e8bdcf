import RawSpeed.Spec.Streamer

/-! The word-swapped tag: the reader `BitStreamerMSB16`, its writer `BitVacuumerMSB16`, and the
rebase of a reader position (bitstreams/BitStreamerMSB16.h, BitVacuumerMSB16.h and
BitStreamPosition.h; of these only the test of the pair is part of the sources). The stream
is a sequence of little-endian 16-bit words, each read most significant bit first. The writer
pushes into the same kind of cache and drains it 32 bits at a time, as two such words. -/

namespace RawSpeed

namespace BitStreamerMSB16

/-- Modelled from the spec: `MaxProcessBytes` of the tag, one 32-bit load. -/
def MaxProcessBytes : Nat := 4

/-- Modelled from the spec: `MinLoadStepByteMultiple` of the tag. The word pairing depends on
the parity of the offset, so a reader may only be rebased at even offsets. -/
def MinLoadStepByteMultiple : Nat := 2

/-- Modelled from the spec: `getLE<uint16_t>` of the two bytes from index `i` on. -/
def getLE16 (p : List UInt8) (i : Nat) : Nat :=
  (p.getD i 0).toNat + 256 * (p.getD (i + 1) 0).toNat

/-- Modelled from the spec: `BitStreamerMSB16::fillCache` pushes the two 16-bit
little-endian words of the window in turn and consumes four bytes. -/
def fillCache (cache : BitStreamerCacheRightInLeftOut) (input : List UInt8) :
    Option (BitStreamerCacheRightInLeftOut × Nat) := do
  if input.length ≠ MaxProcessBytes then none
  let cache ← cache.push (getLE16 input 0) 16
  let cache ← cache.push (getLE16 input 2) 16
  pure (cache, 4)

/-- The MSB16 tag. -/
def tag : BitStreamerTag := ⟨MaxProcessBytes, fillCache⟩

end BitStreamerMSB16

/-- Modelled from the spec: `BitVacuumerMSB16`, its cache and the bytes written so far. -/
structure BitVacuumerMSB16 where
  cache : BitStreamerCacheRightInLeftOut
  output : List UInt8

namespace BitVacuumerMSB16

/-- Modelled from the spec: the bytes of a 16-bit chunk, little-endian. -/
def chunkBytes (chunk : Nat) : List UInt8 := [UInt8.ofNat (chunk % 256), UInt8.ofNat (chunk / 256)]

/-- Modelled from the spec: the loop of `drainImpl`, which writes `n` 16-bit chunks from the
front of the cache. -/
def drainChunks : Nat → BitVacuumerMSB16 → Option BitVacuumerMSB16
  | 0, bv => some bv
  | n + 1, bv => do
    let chunk ← bv.cache.peek 16
    let cache ← bv.cache.skip 16
    drainChunks n ⟨cache, bv.output ++ chunkBytes chunk⟩

/-- Modelled from the spec: `drain()` writes the front 32 bits out once there are that many. -/
def drain (bv : BitVacuumerMSB16) : Option BitVacuumerMSB16 :=
  if bv.cache.fillLevel < 32 then some bv else drainChunks 2 bv

/-- Modelled from the spec: `put(bits, count)` drains, then pushes `count` bits. -/
def put (bv : BitVacuumerMSB16) (bits count : Nat) : Option BitVacuumerMSB16 := do
  let bv ← bv.drain
  let cache ← bv.cache.push bits count
  pure { bv with cache }

/-- Modelled from the spec: `flush()`, run by the destructor: drain, then pad the partial
chunk with zero bits and drain it. -/
def flush (bv : BitVacuumerMSB16) : Option BitVacuumerMSB16 := do
  let bv ← bv.drain
  if bv.cache.fillLevel = 0 then return bv
  let bv ← bv.put 0 (32 - bv.cache.fillLevel)
  bv.drain

/-- An empty vacuumer. -/
def init : BitVacuumerMSB16 := ⟨⟨0, 0⟩, []⟩

/-- The puts of a recipe of `(value, len)` pairs, in order. -/
def putAll (bv : BitVacuumerMSB16) : List (Nat × Nat) → Option BitVacuumerMSB16
  | [] => some bv
  | (v, n) :: recipe => (bv.put v n).bind (putAll · recipe)

/-- The bytes a fresh vacuumer writes for a recipe, once destroyed, as the test's
`synthesizeBitstream` collects them. -/
def synthesizeBitstream (recipe : List (Nat × Nat)) : Option (List UInt8) :=
  ((init.putAll recipe).bind flush).map (·.output)

end BitVacuumerMSB16

/-- Modelled from the spec: `BitStreamPosition`, a reader's input position and fill level. -/
structure BitStreamPosition where
  pos : Nat
  fillLevel : Nat

/-- Modelled from the spec: `ByteStreamPosition`, a byte offset and the bits to skip there. -/
structure ByteStreamPosition where
  bytePos : Nat
  numBitsToSkip : Nat

/-- Modelled from the spec: `getAsByteStreamPosition` backs up over the bytes that still have
bits in the cache and skips the bits of them already consumed. `none` is a failed assertion.
The backtrack is rounded up to the load step, as in the repository's rebase design that the
test's rebasing loop exercises, and not as in the spec's external position: the byte position
stays a multiple of `MinLoadStepByteMultiple`, so `numBitsToSkip` ranges up to
`8 * MinLoadStepByteMultiple - 1` rather than over the spec's `subByteBitOffset` in `[0, 8)`. -/
def getAsByteStreamPosition (MinLoadStepByteMultiple : Nat) (state : BitStreamPosition) :
    Option ByteStreamPosition :=
  let numBytesRemainingInCache := (state.fillLevel + 7) / 8
  let numBytesToBacktrack := (numBytesRemainingInCache + MinLoadStepByteMultiple - 1) /
    MinLoadStepByteMultiple * MinLoadStepByteMultiple
  if state.pos % MinLoadStepByteMultiple = 0 ∧ numBytesToBacktrack ≤ state.pos then
    some ⟨state.pos - numBytesToBacktrack, 8 * numBytesToBacktrack - state.fillLevel⟩
  else none

end RawSpeed
