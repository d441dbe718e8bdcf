import RawSpeed.Spec.Streamer

/-! `BitStreamerJPEG` (io/BitStreamerJPEG.h). One `fillCache` reads an 8-byte window of
entropy-coded data. Four bytes with no `0xFF` among them take the 32-bit fast path;
otherwise a byte loop pushes up to four logical bytes, drops the `0x00` stuffed after a
data `0xFF`, and at a marker unpushes the `0xFF` and zero-fills the cache. `none` stands
for a failed assertion or an out-of-bounds read of the prefetch array. -/

namespace RawSpeed

namespace BitStreamerJPEG

/-- `BitStreamerTraits<JPEGBitStreamerTag>::MaxProcessBytes`: four bytes, each of which may
be an `0xFF` followed by a stuffing `0x00`. -/
def MaxProcessBytes : Nat := 8

/-- Modelled from the spec: `getBE<uint32_t>` (io/Endianness.h is not part of the sources),
the first four bytes as one big-endian number. -/
def getBE32 (p : List UInt8) : Nat := (p.take 4).foldl (fun v b => v * 256 + b.toNat) 0

/-- The byte loop of `fillCache` with `n` of its four rounds left, at prefetch index `p`. -/
def fillCacheLoop (prefetch : List UInt8) : Nat → BitStreamerCacheRightInLeftOut → Nat →
    Option (BitStreamerCacheRightInLeftOut × Nat)
  | 0, cache, p => some (cache, p)
  | n + 1, cache, p => do
    let c0 ← prefetch[p]?
    let cache ← cache.push c0.toNat 8
    if c0 ≠ 0xFF then
      fillCacheLoop prefetch n cache (p + 1)
    else
      let c1 ← prefetch[p + 1]?
      if c1 = 0x00 then
        fillCacheLoop prefetch n cache (p + 2)
      else
        -- the end-of-stream marker: unpush the `0xFF`, keep the high bits, zero the rest
        let fillLevel := cache.fillLevel - 8
        if fillLevel < 64 then
          pure ({ cache := cache.cache &&& ~~~(~~~(0 : BitVec 64) >>> fillLevel),
                  fillLevel := 64 }, p)
        else none

/-- `BitStreamerJPEG::fillCache`: the new cache and the number of input bytes consumed. -/
def fillCache (cache : BitStreamerCacheRightInLeftOut) (input : List UInt8) :
    Option (BitStreamerCacheRightInLeftOut × Nat) := do
  if ¬(cache.fillLevel ≤ 64 ∧ input.length = MaxProcessBytes) then none
  let prefetch := input
  let speculativeOptimisticCache ← cache.push (getBE32 prefetch) 32
  if (prefetch.take 4).all (· != 0xFF) then
    return (speculativeOptimisticCache, 4)
  let (cache, p) ← fillCacheLoop prefetch 4 cache 0
  if p ≤ 8 then some (cache, p) else none

variable {prefetch : List UInt8} {n p : Nat} {c c₁ : BitStreamerCacheRightInLeftOut}

theorem getBE_spec (l : List UInt8) (a acc : Nat) (h : acc < 2 ^ a) :
    l.foldl (fun v b => v * 256 + b.toNat) acc < 2 ^ (a + 8 * l.length) ∧
      natBits (a + 8 * l.length) (l.foldl (fun v b => v * 256 + b.toNat) acc) =
        natBits a acc ++ bytesBits l := by
  induction l generalizing a acc with
  | nil => simpa using h
  | cons b l ih =>
    have hb : acc * 256 + b.toNat < 2 ^ (a + 8) := by
      have := UInt8.toNat_lt b; rw [Nat.pow_add]; omega
    obtain ⟨hlt, hbits⟩ := ih _ _ hb
    simp only [List.foldl_cons, List.length_cons, bytesBits_cons]
    refine ⟨by rwa [show a + 8 * (l.length + 1) = a + 8 + 8 * l.length by ring], ?_⟩
    rw [show a + 8 * (l.length + 1) = a + 8 + 8 * l.length by ring, hbits,
      show acc * 256 = 2 ^ 8 * acc by ring, natBits_mul_add (UInt8.toNat_lt b), byteBits,
      List.append_assoc]

theorem getBE32_spec (prefetch : List UInt8) (h : 4 ≤ prefetch.length) :
    getBE32 prefetch < 2 ^ 32 ∧ natBits 32 (getBE32 prefetch) = bytesBits (prefetch.take 4) := by
  have := getBE_spec (prefetch.take 4) 0 0 (by decide)
  simpa [List.length_take, Nat.min_eq_left h] using this

theorem fillCacheLoop_data {b : UInt8} (hb : prefetch[p]? = some b) (hff : b ≠ 0xFF)
    (hc : c.push b.toNat 8 = some c₁) :
    fillCacheLoop prefetch (n + 1) c p = fillCacheLoop prefetch n c₁ (p + 1) := by
  simp [fillCacheLoop, hb, hff, hc]

theorem fillCacheLoop_stuffed (hb : prefetch[p]? = some 0xFF) (hx : prefetch[p + 1]? = some 0x00)
    (hc : c.push 0xFF 8 = some c₁) :
    fillCacheLoop prefetch (n + 1) c p = fillCacheLoop prefetch n c₁ (p + 2) := by
  simp [fillCacheLoop, hb, hx, hc]

theorem fillCacheLoop_marker {x : UInt8} (hb : prefetch[p]? = some 0xFF)
    (hx : prefetch[p + 1]? = some x) (hx0 : x ≠ 0x00) (hc : c.push 0xFF 8 = some c₁)
    (hf : c₁.fillLevel - 8 < 64) :
    fillCacheLoop prefetch (n + 1) c p =
      some ({ cache := c₁.cache &&& ~~~(~~~(0 : BitVec 64) >>> (c₁.fillLevel - 8)),
              fillLevel := 64 }, p) := by
  simp [fillCacheLoop, hb, hx, hx0, hc, hf]

theorem fillCache_eq {sc : BitStreamerCacheRightInLeftOut} (hf : c.fillLevel ≤ 64)
    (hw : prefetch.length = 8) (hs : c.push (getBE32 prefetch) 32 = some sc) :
    fillCache c prefetch =
      if (prefetch.take 4).all (· != 0xFF) then some (sc, 4)
      else (fillCacheLoop prefetch 4 c 0).bind fun r => if r.2 ≤ 8 then some r else none := by
  simp only [fillCache, MaxProcessBytes]
  simp [hf, hw, hs]

/-- The JPEG tag. -/
def tag : BitStreamerTag := ⟨MaxProcessBytes, fillCache⟩

/-- `BitStreamerJPEG::getStreamPosition`: the input position, which at the end of the stream
is the offset of the marker's `0xFF`. -/
def getStreamPosition (bs : BitStreamer) : Nat := bs.getInputPosition

end BitStreamerJPEG

end RawSpeed
