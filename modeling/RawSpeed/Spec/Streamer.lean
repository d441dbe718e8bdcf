import RawSpeed.Spec.Cache

/-! The generic reader `BitStreamer<Tag>` over a right-in/left-out cache. A tag supplies
`fillCache` and `MaxProcessBytes`; the replenisher hands `fillCache` the next
`MaxProcessBytes` bytes of the padded buffer: the data, then padding of arbitrary content
that the caller must make at least `MaxProcessBytes` long. A window that starts past the
data reads past that padding, a failed precondition. Every operation returns `none` on a
failed assertion or precondition, so a run that returns `some` broke none on the way. -/

namespace RawSpeed

/-- Modelled from the spec: a tag's traits and its `fillCache` (io/BitStreamer.h is not part
of the sources). `fillCache` returns the new cache and the number of input bytes consumed. -/
structure BitStreamerTag where
  MaxProcessBytes : Nat
  fillCache : BitStreamerCacheRightInLeftOut → List UInt8 →
    Option (BitStreamerCacheRightInLeftOut × Nat)

/-- Modelled from the spec: `BitStreamer`, its cache, its input and the replenisher's
position in the input. `input` is the buffer's data and `padding` the rest of its allocation,
whose content is arbitrary. -/
structure BitStreamer where
  cache : BitStreamerCacheRightInLeftOut
  input : List UInt8
  padding : List UInt8
  pos : Nat

/-- One call of the reader's interface, as a pixel decompressor issues it. -/
inductive Op
  | fill (nbits : Nat)
  | getBits (nbits : Nat)
  | getBitsNoFill (nbits : Nat)
  | peekBits (nbits : Nat)
  | skipBits (nbits : Nat)
  | skipManyBits (nbits : Nat)
deriving DecidableEq, Repr

namespace BitStreamer

variable (T : BitStreamerTag)

/-- A reader at the start of `input`, with an empty cache. -/
def init (input padding : List UInt8) : BitStreamer := ⟨⟨0, 0⟩, input, padding, 0⟩

/-- Modelled from the spec: the replenisher's `getInput`, the next `MaxProcessBytes` bytes of
the padded buffer. Only a window that starts within the data is covered by the padding the
contract asks for; past the data the read is a failed precondition. -/
def getInput (bs : BitStreamer) : Option (List UInt8) :=
  if bs.pos ≤ bs.input.length then
    some (((bs.input ++ bs.padding).drop bs.pos).take T.MaxProcessBytes)
  else none

/-- Modelled from the spec: `getInputPosition()`, the number of input bytes consumed. -/
def getInputPosition (bs : BitStreamer) : Nat := bs.pos

/-- Modelled from the spec: `fill(nbits)`. With fewer than `nbits` bits pending it calls the
tag's `fillCache` once and asserts that at least `nbits` are pending after it. -/
def fill (bs : BitStreamer) (nbits : Nat) : Option BitStreamer :=
  if nbits ≤ 32 then
    if nbits ≤ bs.cache.fillLevel then some bs
    else match (bs.getInput T).bind (T.fillCache bs.cache) with
      | some (cache, n) =>
        if nbits ≤ cache.fillLevel then some { bs with cache, pos := bs.pos + n } else none
      | none => none
  else none

/-- Modelled from the spec: `peekBitsNoFill(nbits)`. -/
def peekBitsNoFill (bs : BitStreamer) (nbits : Nat) : Option Nat := bs.cache.peek nbits

/-- Modelled from the spec: `skipBitsNoFill(nbits)`. -/
def skipBitsNoFill (bs : BitStreamer) (nbits : Nat) : Option BitStreamer :=
  if nbits ≤ 32 then (bs.cache.skip nbits).map fun cache => { bs with cache } else none

/-- Modelled from the spec: `getBitsNoFill(nbits)`, a peek and a skip. -/
def getBitsNoFill (bs : BitStreamer) (nbits : Nat) : Option (Nat × BitStreamer) := do
  let v ← bs.peekBitsNoFill nbits
  let bs ← bs.skipBitsNoFill nbits
  pure (v, bs)

/-- Modelled from the spec: `peekBits(nbits)`. -/
def peekBits (bs : BitStreamer) (nbits : Nat) : Option (Nat × BitStreamer) := do
  let bs ← bs.fill T nbits
  let v ← bs.peekBitsNoFill nbits
  pure (v, bs)

/-- Modelled from the spec: `skipBits(nbits)`. -/
def skipBits (bs : BitStreamer) (nbits : Nat) : Option BitStreamer := do
  let bs ← bs.fill T nbits
  bs.skipBitsNoFill nbits

/-- Modelled from the spec: `getBits(nbits)`. -/
def getBits (bs : BitStreamer) (nbits : Nat) : Option (Nat × BitStreamer) := do
  let bs ← bs.fill T nbits
  bs.getBitsNoFill nbits

/-- The loop of `skipManyBits`: `k` rounds of `fill(32)` and `skipBitsNoFill(32)`. -/
def skipRounds : Nat → BitStreamer → Option BitStreamer
  | 0, bs => some bs
  | k + 1, bs => (bs.skipBits T 32).bind (skipRounds k)

/-- Modelled from the spec: `skipManyBits(nbits)` skips any number of bits in steps of at
most `MaxGetBits`, filling before each. -/
def skipManyBits (bs : BitStreamer) (nbits : Nat) : Option BitStreamer :=
  (skipRounds T (nbits / 32) bs).bind fun bs =>
    if 0 < nbits % 32 then bs.skipBits T (nbits % 32) else some bs

/-- One call: the reader after it and the values it returned. -/
def step (bs : BitStreamer) : Op → Option (BitStreamer × List Nat)
  | .fill n => (bs.fill T n).map fun bs => (bs, [])
  | .getBits n => (bs.getBits T n).map fun r => (r.2, [r.1])
  | .getBitsNoFill n => (bs.getBitsNoFill n).map fun r => (r.2, [r.1])
  | .peekBits n => (bs.peekBits T n).map fun r => (r.2, [r.1])
  | .skipBits n => (bs.skipBits T n).map fun bs => (bs, [])
  | .skipManyBits n => (bs.skipManyBits T n).map fun bs => (bs, [])

/-- A run of calls: the final reader and every value returned, in order. -/
def run (bs : BitStreamer) : List Op → Option (BitStreamer × List Nat)
  | [] => some (bs, [])
  | op :: ops => (bs.step T op).bind fun r =>
    (run r.1 ops).map fun r' => (r'.1, r.2 ++ r'.2)

theorem getInput_of_le {bs : BitStreamer} (h : bs.pos ≤ bs.input.length) :
    bs.getInput T = some (((bs.input ++ bs.padding).drop bs.pos).take T.MaxProcessBytes) :=
  if_pos h

theorem length_window {bs : BitStreamer} (h : bs.pos ≤ bs.input.length)
    (hp : T.MaxProcessBytes ≤ bs.padding.length) :
    (((bs.input ++ bs.padding).drop bs.pos).take T.MaxProcessBytes).length =
      T.MaxProcessBytes := by
  simp only [List.length_take, List.length_drop, List.length_append]
  omega

theorem fill_of_refill {bs : BitStreamer} {nbits k : Nat} {c : BitStreamerCacheRightInLeftOut}
    (hn : nbits ≤ 32) (hle : ¬nbits ≤ bs.cache.fillLevel)
    (h : (bs.getInput T).bind (T.fillCache bs.cache) = some (c, k)) (hc : nbits ≤ c.fillLevel) :
    bs.fill T nbits = some { bs with cache := c, pos := bs.pos + k } := by
  simp only [fill, if_pos hn, if_neg hle, h, if_pos hc]

/-- What a successful fill did: nothing, with `nbits` bits already there, or one refill from
below `nbits` bits that left at least `nbits`. -/
theorem fill_cases {bs bs' : BitStreamer} {nbits : Nat} (h : bs.fill T nbits = some bs') :
    bs' = bs ∨ bs.cache.fillLevel < nbits ∧ nbits ≤ 32 ∧ ∃ c k,
      (bs.getInput T).bind (T.fillCache bs.cache) = some (c, k) ∧ nbits ≤ c.fillLevel ∧
      bs' = { bs with cache := c, pos := bs.pos + k } := by
  simp only [fill] at h
  split_ifs at h with hn hle
  · exact .inl (Option.some.inj h).symm
  · split at h
    · split_ifs at h with hc
      exact .inr ⟨by omega, hn, _, _, ‹_›, hc, (Option.some.inj h).symm⟩
    · cases h

theorem run_append (bs : BitStreamer) (a b : List Op) :
    bs.run T (a ++ b) =
      (bs.run T a).bind fun r => (r.1.run T b).map fun r' => (r'.1, r.2 ++ r'.2) := by
  induction a generalizing bs with
  | nil => cases h : bs.run T b <;> simp [run, h]
  | cons op a ih =>
    rw [List.cons_append, run, run]
    cases bs.step T op with
    | none => rfl
    | some r =>
      rw [Option.some_bind, Option.some_bind, ih]
      cases r.1.run T a with
      | none => rfl
      | some r' => simp [Function.comp_def]

end BitStreamer

end RawSpeed
