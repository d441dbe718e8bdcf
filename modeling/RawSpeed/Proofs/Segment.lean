import RawSpeed.Proofs.Reader

/-! The JPEG reader reads nothing of its buffer past the first marker's `0xFF` but that a
marker is there. A run of calls sees its input only through the windows `fill` hands to
`fillCache`: when putting another input in place commutes with `fill` on the readers of a
predicate that every call keeps (`Relabels`), it commutes with every run (`Relabels.run`).
The windows at the stuffed prefixes of the data destuff alike whatever follows the marker
(`relabels_segment`), so two buffers with one entropy-coded segment drive the reader alike,
call for call, whatever the calls. -/

namespace RawSpeed

open BitStreamerCacheRightInLeftOut BitStreamer

namespace BitStreamer

/-- The reader `bs` over the data `w` and the padding `pad` in place of its own. -/
def withBuffer (w pad : List UInt8) (bs : BitStreamer) : BitStreamer :=
  { bs with input := w, padding := pad }

variable {w pad : List UInt8}

@[simp] theorem cache_withBuffer (bs : BitStreamer) : (bs.withBuffer w pad).cache = bs.cache :=
  rfl

theorem skipBitsNoFill_withBuffer (bs : BitStreamer) (n : Nat) :
    (bs.withBuffer w pad).skipBitsNoFill n = (bs.skipBitsNoFill n).map (withBuffer w pad) := by
  simp only [skipBitsNoFill, cache_withBuffer]
  split_ifs
  · cases bs.cache.skip n <;> rfl
  · rfl

theorem getBitsNoFill_withBuffer (bs : BitStreamer) (n : Nat) :
    (bs.withBuffer w pad).getBitsNoFill n =
      (bs.getBitsNoFill n).map fun r => (r.1, r.2.withBuffer w pad) := by
  simp only [getBitsNoFill, peekBitsNoFill, cache_withBuffer, skipBitsNoFill_withBuffer]
  cases bs.cache.peek n <;> cases bs.skipBitsNoFill n <;> rfl

end BitStreamer

/-- Putting the data `w` and the padding `pad` in place of a reader's own commutes with `fill`
on the readers of `P`, and `P` is kept by `fill` and by a skip of the cache. -/
structure Relabels (T : BitStreamerTag) (P : BitStreamer → Prop) (w pad : List UInt8) :
    Prop where
  fill : ∀ {bs n}, P bs → (bs.withBuffer w pad).fill T n = (bs.fill T n).map (withBuffer w pad)
  fill_closed : ∀ {bs n bs'}, P bs → bs.fill T n = some bs' → P bs'
  skip_closed : ∀ {bs n c}, P bs → bs.cache.skip n = some c → P { bs with cache := c }

namespace Relabels

variable {T : BitStreamerTag} {P : BitStreamer → Prop} {w pad : List UInt8}
  {bs bs' : BitStreamer} {n : Nat}

theorem skipBitsNoFill_closed (hR : Relabels T P w pad) (hP : P bs)
    (h : bs.skipBitsNoFill n = some bs') : P bs' := by
  simp only [skipBitsNoFill] at h
  split_ifs at h
  obtain ⟨c, hc, rfl⟩ := Option.map_eq_some'.mp h
  exact hR.skip_closed hP hc

theorem getBitsNoFill_closed (hR : Relabels T P w pad) (hP : P bs) {v : Nat}
    (h : bs.getBitsNoFill n = some (v, bs')) : P bs' := by
  obtain ⟨_, -, h⟩ := Option.bind_eq_some.mp h
  obtain ⟨b, hs, h⟩ := Option.bind_eq_some.mp h
  cases h
  exact hR.skipBitsNoFill_closed hP hs

theorem peekBits (hR : Relabels T P w pad) (hP : P bs) (n : Nat) :
    (bs.withBuffer w pad).peekBits T n =
        (bs.peekBits T n).map (fun r => (r.1, r.2.withBuffer w pad)) ∧
      ∀ r, bs.peekBits T n = some r → P r.2 := by
  simp only [BitStreamer.peekBits, hR.fill hP]
  cases hf : bs.fill T n with
  | none => simp
  | some b =>
    have hb := hR.fill_closed hP hf
    simp only [Option.map_some', Option.bind_eq_bind, Option.some_bind, peekBitsNoFill,
      cache_withBuffer]
    cases b.cache.peek n
    · simp
    · simp [hb]

theorem skipBits (hR : Relabels T P w pad) (hP : P bs) (n : Nat) :
    (bs.withBuffer w pad).skipBits T n = (bs.skipBits T n).map (withBuffer w pad) ∧
      ∀ b, bs.skipBits T n = some b → P b := by
  simp only [BitStreamer.skipBits, hR.fill hP]
  cases hf : bs.fill T n with
  | none => simp
  | some b =>
    simp only [Option.map_some', Option.bind_eq_bind, Option.some_bind]
    exact ⟨skipBitsNoFill_withBuffer b n,
      fun _ h => hR.skipBitsNoFill_closed (hR.fill_closed hP hf) h⟩

theorem getBits (hR : Relabels T P w pad) (hP : P bs) (n : Nat) :
    (bs.withBuffer w pad).getBits T n =
        (bs.getBits T n).map (fun r => (r.1, r.2.withBuffer w pad)) ∧
      ∀ r, bs.getBits T n = some r → P r.2 := by
  simp only [BitStreamer.getBits, hR.fill hP]
  cases hf : bs.fill T n with
  | none => simp
  | some b =>
    simp only [Option.map_some', Option.bind_eq_bind, Option.some_bind]
    exact ⟨getBitsNoFill_withBuffer b n,
      fun _ h => hR.getBitsNoFill_closed (hR.fill_closed hP hf) h⟩

theorem skipRounds (hR : Relabels T P w pad) (i : Nat) (hP : P bs) :
    (bs.withBuffer w pad).skipRounds T i = (bs.skipRounds T i).map (withBuffer w pad) ∧
      ∀ b, bs.skipRounds T i = some b → P b := by
  induction i generalizing bs with
  | zero => exact ⟨rfl, fun b h => Option.some_inj.mp h ▸ hP⟩
  | succ i ih =>
    obtain ⟨hs, hc⟩ := hR.skipBits hP 32
    simp only [BitStreamer.skipRounds, hs]
    cases h : bs.skipBits T 32 with
    | none => simp
    | some b => simpa only [Option.map_some', Option.some_bind] using ih (hc b h)

theorem skipManyBits (hR : Relabels T P w pad) (hP : P bs) (n : Nat) :
    (bs.withBuffer w pad).skipManyBits T n = (bs.skipManyBits T n).map (withBuffer w pad) ∧
      ∀ b, bs.skipManyBits T n = some b → P b := by
  obtain ⟨hs, hc⟩ := hR.skipRounds (n / 32) hP
  simp only [BitStreamer.skipManyBits, hs]
  cases h : bs.skipRounds T (n / 32) with
  | none => simp
  | some b =>
    simp only [Option.map_some', Option.some_bind]
    split_ifs
    · exact hR.skipBits (hc b h) _
    · exact ⟨rfl, fun b' h' => Option.some_inj.mp h' ▸ hc b h⟩

theorem map_step {α : Type} {x y : Option α} {g : α → α} {f : α → BitStreamer × List Nat}
    (hy : y = x.map g) (hf : ∀ a, f (g a) = ((f a).1.withBuffer w pad, (f a).2))
    (hc : ∀ a, x = some a → P (f a).1) :
    y.map f = (x.map f).map (fun r => (r.1.withBuffer w pad, r.2)) ∧
      ∀ r, x.map f = some r → P r.1 := by
  subst hy
  cases x with
  | none => simp
  | some a => simpa [hf] using hc a rfl

theorem step (hR : Relabels T P w pad) (hP : P bs) (op : Op) :
    (bs.withBuffer w pad).step T op = (bs.step T op).map (fun r => (r.1.withBuffer w pad, r.2)) ∧
      ∀ r, bs.step T op = some r → P r.1 := by
  cases op with
  | fill n => exact map_step (hR.fill hP) (fun _ => rfl) fun _ => hR.fill_closed hP
  | getBits n => exact map_step (hR.getBits hP n).1 (fun _ => rfl) (hR.getBits hP n).2
  | getBitsNoFill n =>
    exact map_step (getBitsNoFill_withBuffer bs n) (fun _ => rfl) fun _ =>
      hR.getBitsNoFill_closed hP
  | peekBits n => exact map_step (hR.peekBits hP n).1 (fun _ => rfl) (hR.peekBits hP n).2
  | skipBits n => exact map_step (hR.skipBits hP n).1 (fun _ => rfl) (hR.skipBits hP n).2
  | skipManyBits n =>
    exact map_step (hR.skipManyBits hP n).1 (fun _ => rfl) (hR.skipManyBits hP n).2

/-- Every run from a reader of `P` reads `w` as it reads its own input. -/
theorem run (hR : Relabels T P w pad) (ops : List Op) (hP : P bs) :
    (bs.withBuffer w pad).run T ops = (bs.run T ops).map fun r => (r.1.withBuffer w pad, r.2) := by
  induction ops generalizing bs with
  | nil => rfl
  | cons op ops ih =>
    obtain ⟨hs, hc⟩ := hR.step hP op
    rw [BitStreamer.run, BitStreamer.run, hs]
    cases h : bs.step T op with
    | none => rfl
    | some r =>
      simp only [Option.map_some', Option.some_bind, ih (hc r h), Option.map_map]
      rfl

end Relabels

/-- A JPEG reader over `w` and a long enough padding, with a valid cache, at the stuffed
length of a prefix of the data `d`. -/
structure AtSegment (d w : List UInt8) (bs : BitStreamer) : Prop where
  input : bs.input = w
  padded : BitStreamerJPEG.MaxProcessBytes ≤ bs.padding.length
  valid : bs.cache.Valid
  at_prefix : ∃ j ≤ d.length, bs.pos = (stuff (d.take j)).length

theorem atSegment_init (d w : List UInt8) {pad : List UInt8}
    (hpad : BitStreamerJPEG.MaxProcessBytes ≤ pad.length) : AtSegment d w (init w pad) :=
  ⟨rfl, hpad, valid_empty, 0, Nat.zero_le _, by simp [init]⟩

section Segment

variable {d r₁ r₂ pad₂ : List UInt8} {m₁ m₂ : UInt8} {bs : BitStreamer}

theorem fill_withBuffer_segment (hm₁ : m₁ ≠ 0) (hm₂ : m₂ ≠ 0)
    (hp₂ : BitStreamerJPEG.MaxProcessBytes ≤ pad₂.length)
    (hA : AtSegment d (stuff d ++ 0xFF :: m₁ :: r₁) bs) (n : Nat) :
    (bs.withBuffer (stuff d ++ 0xFF :: m₂ :: r₂) pad₂).fill BitStreamerJPEG.tag n =
      (bs.fill BitStreamerJPEG.tag n).map (withBuffer (stuff d ++ 0xFF :: m₂ :: r₂) pad₂) := by
  simp only [fill, cache_withBuffer]
  split_ifs with hn hle
  · rfl
  · obtain ⟨j, -, hpos⟩ := hA.at_prefix
    obtain ⟨c₁, h₁, hR₁⟩ := fillCache_window hm₁ hA.input hA.padded hA.valid (by omega) hpos
    obtain ⟨c₂, h₂, hR₂⟩ := fillCache_window hm₂
      (show (bs.withBuffer (stuff d ++ 0xFF :: m₂ :: r₂) pad₂).input = _ from rfl) hp₂ hA.valid
      (by simp only [cache_withBuffer]; omega) hpos
    rw [cache_withBuffer] at h₂
    rw [h₁, h₂, hR₂.unique hR₁]
    dsimp only
    split_ifs <;> rfl
  · rfl

theorem AtSegment.fill (hm : m₁ ≠ 0) (hA : AtSegment d (stuff d ++ 0xFF :: m₁ :: r₁) bs)
    {n : Nat} {bs' : BitStreamer} (h : bs.fill BitStreamerJPEG.tag n = some bs') :
    AtSegment d (stuff d ++ 0xFF :: m₁ :: r₁) bs' := by
  obtain rfl | ⟨hlt, hn, c, k, hc, -, rfl⟩ := fill_cases _ h
  · exact hA
  · obtain ⟨j, hj, hpos⟩ := hA.at_prefix
    obtain ⟨c', hfc, hR⟩ := fillCache_window hm hA.input hA.padded hA.valid (by omega) hpos
    obtain ⟨rfl, rfl⟩ := Prod.mk.inj (Option.some.inj (hc.symm.trans hfc))
    exact ⟨hA.input, hA.padded, hR.valid, j + ((d.drop j).take 4).length, by simp; omega,
      by simp only [hpos, stuff_take_add]⟩

theorem relabels_segment (hm₁ : m₁ ≠ 0) (hm₂ : m₂ ≠ 0)
    (hp₂ : BitStreamerJPEG.MaxProcessBytes ≤ pad₂.length) :
    Relabels BitStreamerJPEG.tag (AtSegment d (stuff d ++ 0xFF :: m₁ :: r₁))
      (stuff d ++ 0xFF :: m₂ :: r₂) pad₂ :=
  ⟨fun hA => fill_withBuffer_segment hm₁ hm₂ hp₂ hA _, fun hA h => hA.fill hm₁ h,
    fun hA h => ⟨hA.input, hA.padded, hA.valid.of_skip h, hA.at_prefix⟩⟩

end Segment

/-- Two buffers with one entropy-coded segment drive the JPEG reader alike, whatever their
paddings hold: for every sequence of calls, within the contract or not, both runs fail, or
both return the same values and end with the same cache and position. Of what follows the
segment the reader reads only that a marker is there. -/
theorem run_determined_by_entropySegment {w₁ w₂ pad₁ pad₂ d r₁ r₂ : List UInt8} {m₁ m₂ : UInt8}
    (h₁ : entropySegment w₁ = some (d, m₁, r₁)) (h₂ : entropySegment w₂ = some (d, m₂, r₂))
    (hp₁ : BitStreamerJPEG.MaxProcessBytes ≤ pad₁.length)
    (hp₂ : BitStreamerJPEG.MaxProcessBytes ≤ pad₂.length) (ops : List Op) :
    (init w₂ pad₂).run BitStreamerJPEG.tag ops =
      ((init w₁ pad₁).run BitStreamerJPEG.tag ops).map fun r => (r.1.withBuffer w₂ pad₂, r.2) := by
  obtain ⟨hm₁, rfl⟩ := eq_stuff_of_entropySegment h₁
  obtain ⟨hm₂, rfl⟩ := eq_stuff_of_entropySegment h₂
  exact (relabels_segment hm₁ hm₂ hp₂).run ops (atSegment_init d _ hp₁)

theorem run_determined_by_entropySegment_two_markers :
    (init [0x12, 0xFF, 0x00, 0x34, 0xFF, 0xD0] (List.replicate 8 0xFF)).run BitStreamerJPEG.tag
        [.getBits 8, .skipManyBits 40, .getBits 16] =
      ((init [0x12, 0xFF, 0x00, 0x34, 0xFF, 0xD9, 0xAB, 0xCD] (List.replicate 8 0)).run
        BitStreamerJPEG.tag [.getBits 8, .skipManyBits 40, .getBits 16]).map
          fun r => (r.1.withBuffer [0x12, 0xFF, 0x00, 0x34, 0xFF, 0xD0] (List.replicate 8 0xFF),
            r.2) :=
  run_determined_by_entropySegment
    (show entropySegment [0x12, 0xFF, 0x00, 0x34, 0xFF, 0xD9, 0xAB, 0xCD] =
      some ([0x12, 0xFF, 0x34], 0xD9, [0xAB, 0xCD]) by decide)
    (show entropySegment [0x12, 0xFF, 0x00, 0x34, 0xFF, 0xD0] =
      some ([0x12, 0xFF, 0x34], 0xD0, []) by decide) (by decide) (by decide) _

end RawSpeed
