import RawSpeed.Spec.JPEG
import RawSpeed.Reference.Destuff

/-! `BitStreamerJPEG::fillCache` against the reference destuffing step. The byte loop is
followed round by round with `destuff.induct` (`fillCacheLoop_spec`); the fast path is then
the loop's own result on windows with no `0xFF` in front. On the way every assertion of
`fillCache` and of the pushes it makes is shown to hold: the model returns `some`. -/

namespace RawSpeed

open BitStreamerCacheRightInLeftOut BitStreamerJPEG

/-- `c'` is the cache the reference step leaves from `c`: the yielded bytes follow the pending
bits, and after a marker the rest of the register is zero and the cache is full. -/
structure Refills (c : BitStreamerCacheRightInLeftOut) (ys : List UInt8) (marker : Bool)
    (c' : BitStreamerCacheRightInLeftOut) : Prop where
  valid : c'.Valid
  bits : c'.bits = c.bits ++ bytesBits ys ++
    List.replicate (c'.fillLevel - c.fillLevel - 8 * ys.length) false
  fillLevel : c'.fillLevel = if marker then 64 else c.fillLevel + 8 * ys.length

namespace Refills

variable {c c₁ c' c'' : BitStreamerCacheRightInLeftOut} {ys : List UInt8} {mk : Bool}

theorem unique (h : Refills c ys mk c') (h' : Refills c ys mk c'') : c' = c'' :=
  eq_of_bits h.valid h'.valid (by rw [h.bits, h'.bits, h.fillLevel, h'.fillLevel])

theorem nil (hv : c.Valid) : Refills c [] false c := ⟨hv, by simp, by simp⟩

theorem cons {b : UInt8} (h₁ : c₁.bits = c.bits ++ byteBits b)
    (hf : c₁.fillLevel = c.fillLevel + 8) (h : Refills c₁ ys mk c') :
    Refills c (b :: ys) mk c' := by
  refine ⟨h.valid, ?_, ?_⟩
  · rw [h.bits, h₁, hf, bytesBits_cons, List.length_cons, show c'.fillLevel - (c.fillLevel + 8) -
      8 * ys.length = c'.fillLevel - c.fillLevel - 8 * (ys.length + 1) by omega]
    simp
  · rw [h.fillLevel, hf]
    cases mk <;> simp; omega

theorem marker (h₁ : c₁.bits = c.bits ++ byteBits 0xFF) (hf : c₁.fillLevel = c.fillLevel + 8)
    (h64 : c.fillLevel ≤ 64) :
    Refills c [] true
      { cache := c₁.cache &&& ~~~(~~~(0 : BitVec 64) >>> (c₁.fillLevel - 8)),
        fillLevel := 64 } := by
  obtain ⟨hv, hbits⟩ := masked_spec (c := c₁) (f := c₁.fillLevel - 8) (by omega) (by omega)
  refine ⟨hv, ?_, by simp⟩
  rw [hbits, h₁, show c₁.fillLevel - 8 = c.bits.length by simp; omega, List.take_left]
  simp

end Refills

theorem getElem?_of_drop {w s : List UInt8} {p : Nat} {b : UInt8} (h : w.drop p = b :: s) :
    w[p]? = some b ∧ w.drop (p + 1) = s := by
  constructor
  · have := congrArg (·[0]?) h
    simpa only [List.getElem?_drop, Nat.add_zero, List.getElem?_cons_zero] using this
  · simpa [List.drop_drop, Nat.add_comm] using congrArg (List.drop 1) h

theorem loop_push_round {w : List UInt8} {r : Destuffed} {n p δ : Nat} {b : UInt8}
    {c c₁ c' : BitStreamerCacheRightInLeftOut}
    (hloop : fillCacheLoop w (n + 1) c p = fillCacheLoop w n c₁ (p + δ))
    (hf : c₁.fillLevel = c.fillLevel + 8) (hb : c.Valid → c₁.Valid ∧ c₁.bits = c.bits ++ byteBits b)
    (ih : fillCacheLoop w n c₁ (p + δ) = some (c', p + δ + r.scanned) ∧
      c'.fillLevel = (if r.marker then 64 else c₁.fillLevel + 8 * n) ∧
      (c₁.Valid → Refills c₁ r.bytes r.marker c')) :
    fillCacheLoop w (n + 1) c p = some (c', p + (r.scanned + δ)) ∧
      c'.fillLevel = (if r.marker then 64 else c.fillLevel + 8 * (n + 1)) ∧
      (c.Valid → Refills c (b :: r.bytes) r.marker c') := by
  obtain ⟨hl, hfl, hR⟩ := ih
  refine ⟨by rw [hloop, hl, Nat.add_comm r.scanned, Nat.add_assoc], ?_,
    fun hv => Refills.cons (hb hv).2 hf (hR (hb hv).1)⟩
  rw [hfl, hf]
  split <;> omega

/-- The byte loop, started at index `p` of the window with `n` rounds left, does what the
reference step does on the rest of the window. The success and fill-level parts need no
cache invariant; the bits need the cache to be valid on entry. -/
theorem fillCacheLoop_spec {w : List UInt8} (s : List UInt8) (n : Nat) {p : Nat}
    {c : BitStreamerCacheRightInLeftOut} (hs : w.drop p = s) (hw : w.length = 8)
    (hf : c.fillLevel + 8 * n ≤ 63) (hp : p + 2 * n ≤ 8) :
    ∃ c', fillCacheLoop w n c p = some (c', p + (destuff s n).scanned) ∧
      c'.fillLevel = (if (destuff s n).marker then 64 else c.fillLevel + 8 * n) ∧
      (c.Valid → Refills c (destuff s n).bytes (destuff s n).marker c') := by
  induction s, n using destuff.induct generalizing p c with
  | case1 =>
    exact ⟨c, by simp [fillCacheLoop], by simp, fun hv => by simpa using Refills.nil hv⟩
  | case2 n => have := congrArg List.length hs; simp at this; omega
  | case3 b s n hb ih =>
    obtain ⟨hget, hs'⟩ := getElem?_of_drop hs
    obtain ⟨c₁, hc₁, hf₁, hv₁⟩ := push_spec c b.toNat 8 (by omega) (by omega)
    obtain ⟨c', h⟩ := ih hs' (c := c₁) (by omega) (by omega)
    rw [destuff_data hb]
    exact ⟨c', loop_push_round (fillCacheLoop_data hget hb hc₁) hf₁
      (fun hv => hv₁ hv (UInt8.toNat_lt b)) h⟩
  | case4 b n hb s ih =>
    obtain rfl : b = 0xFF := not_not.mp hb
    obtain ⟨hget, hs₁⟩ := getElem?_of_drop hs
    obtain ⟨hget₁, hs'⟩ := getElem?_of_drop hs₁
    obtain ⟨c₁, hc₁, hf₁, hv₁⟩ := push_spec c 0xFF 8 (by omega) (by omega)
    obtain ⟨c', h⟩ := ih hs' (c := c₁) (by omega) (by omega)
    rw [destuff_stuffed]
    exact ⟨c', loop_push_round (fillCacheLoop_stuffed hget hget₁ hc₁) hf₁
      (fun hv => hv₁ hv (by decide)) h⟩
  | case5 b n hb x s hx =>
    obtain rfl : b = 0xFF := not_not.mp hb
    obtain ⟨hget, hs₁⟩ := getElem?_of_drop hs
    obtain ⟨hget₁, -⟩ := getElem?_of_drop hs₁
    obtain ⟨c₁, hc₁, hf₁, hv₁⟩ := push_spec c 0xFF 8 (by omega) (by omega)
    rw [destuff_marker hx]
    refine ⟨_, fillCacheLoop_marker hget hget₁ hx hc₁ (by omega), by simp, fun hv => ?_⟩
    exact Refills.marker (hv₁ hv (by decide)).2 hf₁ hv.fillLevel_le
  | case6 b n hb => have := congrArg List.length hs; simp at this; omega

theorem fast_path_refills {w : List UInt8} {c sc : BitStreamerCacheRightInLeftOut}
    (hw : w.length = 8) (hv : c.Valid) (hf : c.fillLevel ≤ 31)
    (hs : c.push (getBE32 w) 32 = some sc) (hff : (w.take 4).all (· != 0xFF)) :
    Refills c (destuff w 4).bytes (destuff w 4).marker sc := by
  obtain ⟨hlt, hbits⟩ := getBE32_spec w (by omega)
  obtain ⟨sc', hs', hf', hv'⟩ := push_spec c (getBE32 w) 32 (by omega) (by omega)
  obtain rfl : sc' = sc := Option.some.inj (hs'.symm.trans hs)
  obtain ⟨hvs, hsb⟩ := hv' hv hlt
  rw [destuff_of_no_ff hff (by omega)]
  have h4 : (w.take 4).length = 4 := by simp [hw]
  exact ⟨hvs, by rw [hsb, hbits, hf', h4]; simp, by rw [hf', h4]; rfl⟩

/-- `fillCache` on a valid cache below 32 bits does what the reference step does. -/
theorem fillCache_destuffs {c : BitStreamerCacheRightInLeftOut} {w : List UInt8}
    (hw : w.length = 8) (hv : c.Valid) (hf : c.fillLevel ≤ 31) :
    ∃ c', fillCache c w = some (c', (destuff w 4).scanned) ∧
      Refills c (destuff w 4).bytes (destuff w 4).marker c' := by
  obtain ⟨c', hloop, -, hR⟩ := fillCacheLoop_spec w 4 (p := 0) (c := c) rfl hw (by omega)
    (by omega)
  obtain ⟨sc, hs, -⟩ := push_spec c (getBE32 w) 32 (by omega) (by omega)
  refine ⟨c', ?_, hR hv⟩
  rw [fillCache_eq hv.fillLevel_le hw hs]
  split
  · rename_i hff
    rw [(fast_path_refills hw hv hf hs hff).unique (hR hv), destuff_of_no_ff hff (by omega)]
  · simp [hloop, scanned_le w 4]

/-- On an 8-byte window and a valid cache of at most 31 bits, `fillCache` and its byte loop
both leave the cache the reference destuffing describes and consume the bytes it scans; without
a marker the fill level grows by 32. -/
theorem fillCache_refills_as_destuff (c : BitStreamerCacheRightInLeftOut) (w : List UInt8)
    (hw : w.length = 8) (hv : c.Valid) (hf : c.fillLevel ≤ 31) :
    ∃ c', fillCache c w = some (c', (destuff w 4).scanned) ∧
      fillCacheLoop w 4 c 0 = some (c', (destuff w 4).scanned) ∧
      Refills c (destuff w 4).bytes (destuff w 4).marker c' ∧
      ((destuff w 4).marker = false → c'.fillLevel = c.fillLevel + 32) := by
  obtain ⟨c', hfc, hR⟩ := fillCache_destuffs hw hv hf
  obtain ⟨c'', hloop, -, hR'⟩ := fillCacheLoop_spec w 4 (p := 0) (c := c) rfl hw (by omega)
    (by omega)
  rw [Nat.zero_add, (hR' hv).unique hR] at hloop
  refine ⟨c', hfc, hloop, hR, fun hm => ?_⟩
  rw [hR.fillLevel, hm, length_bytes_of_not_marker hm (by omega)]
  rfl

theorem fillCache_refills_stuffed_then_marker :
    ∃ c', fillCache ⟨0, 0⟩ [0x12, 0xFF, 0x00, 0x34, 0xFF, 0xD9, 0, 0] =
        some (c', (destuff [0x12, 0xFF, 0x00, 0x34, 0xFF, 0xD9, 0, 0] 4).scanned) ∧
      fillCacheLoop [0x12, 0xFF, 0x00, 0x34, 0xFF, 0xD9, 0, 0] 4 ⟨0, 0⟩ 0 =
        some (c', (destuff [0x12, 0xFF, 0x00, 0x34, 0xFF, 0xD9, 0, 0] 4).scanned) ∧
      Refills ⟨0, 0⟩ (destuff [0x12, 0xFF, 0x00, 0x34, 0xFF, 0xD9, 0, 0] 4).bytes
        (destuff [0x12, 0xFF, 0x00, 0x34, 0xFF, 0xD9, 0, 0] 4).marker c' ∧
      ((destuff [0x12, 0xFF, 0x00, 0x34, 0xFF, 0xD9, 0, 0] 4).marker = false →
        c'.fillLevel = 0 + 32) :=
  fillCache_refills_as_destuff _ _ (by decide) valid_empty (by decide)

/-- From below the requested fill level, `fillCache` always succeeds: its assertions hold, it
consumes at most the 8 bytes of the window, and it leaves at least the bits asked for. -/
theorem fillCache_asserts_hold (c : BitStreamerCacheRightInLeftOut) (w : List UInt8)
    {nbits : Nat} (hw : w.length = 8) (hf : c.fillLevel < nbits) (hn : nbits ≤ 32) :
    ∃ c' p, fillCache c w = some (c', p) ∧ p ≤ 8 ∧ nbits ≤ c'.fillLevel := by
  obtain ⟨c', hloop, hfl, -⟩ := fillCacheLoop_spec w 4 (p := 0) (c := c) rfl hw (by omega)
    (by omega)
  obtain ⟨sc, hs, hsf, -⟩ := push_spec c (getBE32 w) 32 (by omega) (by omega)
  rw [fillCache_eq (by omega) hw hs]
  split
  · exact ⟨sc, 4, rfl, by omega, by omega⟩
  · have := scanned_le w 4
    refine ⟨c', (destuff w 4).scanned, by simp [hloop]; omega, by omega, ?_⟩
    rw [hfl]
    split <;> omega

theorem fillCache_asserts_hold_four_stuffed :
    ∃ c' p, fillCache ⟨0, 31⟩ [0xFF, 0, 0xFF, 0, 0xFF, 0, 0xFF, 0] = some (c', p) ∧
      p ≤ 8 ∧ 32 ≤ c'.fillLevel :=
  fillCache_asserts_hold _ _ (by decide) (by decide) (by decide)

end RawSpeed
