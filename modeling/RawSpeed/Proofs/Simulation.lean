import RawSpeed.Reference.Reader

/-! The reader of any tag against the abstract reader of `Reference.Reader`. A tag reads a
byte list `d` under an invariant `I` when `fill` keeps `I` and delivers, and dropping bits
from the cache keeps it at the new count (`Simulation`). A fill may need input the padded
buffer does not have: `fill` need only deliver while at most `B` bits are consumed. From
those facts every call returns what the abstract reader returns (`step_spec`), and so does
every legal run that consumes at most `B` bits (`run_spec`). The JPEG and MSB16 readers are
both instances. -/

namespace RawSpeed

open BitStreamerCacheRightInLeftOut BitStreamer

/-- The tag `T` reads `d`, then zeros, under the invariant `I bs k` of a reader `k` bits into
the stream: the cache is valid and holds the next stream bits, `fill` keeps `I` and leaves at
least the bits asked for while at most `B` bits are consumed, and a cache with bits dropped
from the front keeps `I`. -/
structure Simulation (T : BitStreamerTag) (d : List UInt8) (I : BitStreamer → Nat → Prop)
    (B : Nat) : Prop where
  valid : ∀ {bs k}, I bs k → bs.cache.Valid
  bits : ∀ {bs k}, I bs k → bs.cache.bits = slice d k bs.cache.fillLevel
  fill : ∀ {bs k n}, I bs k → n ≤ 32 → k ≤ B → ∃ bs', bs.fill T n = some bs' ∧ I bs' k ∧
    n ≤ bs'.cache.fillLevel ∧ bs.cache.fillLevel ≤ bs'.cache.fillLevel
  skip : ∀ {bs k n} {c : BitStreamerCacheRightInLeftOut}, I bs k → n ≤ bs.cache.fillLevel →
    c.Valid → c.fillLevel = bs.cache.fillLevel - n → c.bits = slice d (k + n) c.fillLevel →
    I { bs with cache := c } (k + n)

namespace Simulation

variable {T : BitStreamerTag} {d : List UInt8} {I : BitStreamer → Nat → Prop} {B : Nat}
  {bs : BitStreamer} {k n : Nat}

theorem skipBitsNoFill_spec (hS : Simulation T d I B) (hI : I bs k) (hn : n ≤ 32)
    (h : n ≤ bs.cache.fillLevel) :
    ∃ bs', bs.skipBitsNoFill n = some bs' ∧ I bs' (k + n) ∧
      bs'.cache.fillLevel = bs.cache.fillLevel - n := by
  obtain ⟨c', hs, hv, hfl, hbits⟩ := skip_spec (hS.valid hI) h
  refine ⟨{ bs with cache := c' }, by simp [skipBitsNoFill, hn, hs],
    hS.skip hI h hv hfl ?_, hfl⟩
  rw [hbits, hS.bits hI, drop_slice d h, hfl]

theorem peekBitsNoFill_spec (hS : Simulation T d I B) (hI : I bs k) (hn : n ≤ 32)
    (h : n ≤ bs.cache.fillLevel) : bs.peekBitsNoFill n = some (bitsVal (slice d k n)) := by
  rw [peekBitsNoFill, peek_spec hn h, hS.bits hI, take_slice d h]

theorem getBitsNoFill_spec (hS : Simulation T d I B) (hI : I bs k) (hn : n ≤ 32)
    (h : n ≤ bs.cache.fillLevel) :
    ∃ bs', bs.getBitsNoFill n = some (bitsVal (slice d k n), bs') ∧ I bs' (k + n) ∧
      bs'.cache.fillLevel = bs.cache.fillLevel - n := by
  obtain ⟨bs', hs, hI', hfl⟩ := hS.skipBitsNoFill_spec hI hn h
  exact ⟨bs', by simp [getBitsNoFill, hS.peekBitsNoFill_spec hI hn h, hs], hI', hfl⟩

theorem peekBits_spec (hS : Simulation T d I B) (hI : I bs k) (hn : n ≤ 32) (hk : k ≤ B) :
    ∃ bs', bs.peekBits T n = some (bitsVal (slice d k n), bs') ∧ I bs' k ∧
      max bs.cache.fillLevel n ≤ bs'.cache.fillLevel := by
  obtain ⟨bs₁, hf, hI₁, hn₁, hl₁⟩ := hS.fill hI hn hk
  exact ⟨bs₁, by simp [peekBits, hf, hS.peekBitsNoFill_spec hI₁ hn hn₁], hI₁,
    max_le hl₁ hn₁⟩

theorem skipBits_spec (hS : Simulation T d I B) (hI : I bs k) (hn : n ≤ 32) (hk : k ≤ B) :
    ∃ bs', bs.skipBits T n = some bs' ∧ I bs' (k + n) ∧
      max bs.cache.fillLevel n ≤ n + bs'.cache.fillLevel := by
  obtain ⟨bs₁, hf, hI₁, hn₁, hl₁⟩ := hS.fill hI hn hk
  obtain ⟨bs', hs, hI', hfl⟩ := hS.skipBitsNoFill_spec hI₁ hn hn₁
  exact ⟨bs', by simp [skipBits, hf, hs], hI', by omega⟩

theorem getBits_spec (hS : Simulation T d I B) (hI : I bs k) (hn : n ≤ 32) (hk : k ≤ B) :
    ∃ bs', bs.getBits T n = some (bitsVal (slice d k n), bs') ∧ I bs' (k + n) ∧
      max bs.cache.fillLevel n ≤ n + bs'.cache.fillLevel := by
  obtain ⟨bs₁, hf, hI₁, hn₁, hl₁⟩ := hS.fill hI hn hk
  obtain ⟨bs', hg, hI', hfl⟩ := hS.getBitsNoFill_spec hI₁ hn hn₁
  exact ⟨bs', by simp [getBits, hf, hg], hI', by omega⟩

theorem skipRounds_spec (hS : Simulation T d I B) (i : Nat) (hI : I bs k) (hk : k + 32 * i ≤ B) :
    ∃ bs', bs.skipRounds T i = some bs' ∧ I bs' (k + 32 * i) ∧
      bs.cache.fillLevel ≤ 32 * i + bs'.cache.fillLevel := by
  induction i generalizing bs k with
  | zero => exact ⟨bs, rfl, hI, by omega⟩
  | succ i ih =>
    obtain ⟨bs₁, hs, hI₁, hl₁⟩ := hS.skipBits_spec hI (le_refl 32) (by omega)
    obtain ⟨bs', hr, hI', hl'⟩ := ih hI₁ (by omega)
    refine ⟨bs', by simp [skipRounds, hs, hr], ?_, by omega⟩
    rwa [show k + 32 * (i + 1) = k + 32 + 32 * i by ring]

theorem skipManyBits_spec (hS : Simulation T d I B) (hI : I bs k) (n : Nat) (hk : k + n ≤ B) :
    ∃ bs', bs.skipManyBits T n = some bs' ∧ I bs' (k + n) ∧
      bs.cache.fillLevel ≤ n + bs'.cache.fillLevel := by
  obtain ⟨bs₁, hr, hI₁, hl₁⟩ := hS.skipRounds_spec (n / 32) hI (by omega)
  by_cases h0 : 0 < n % 32
  · obtain ⟨bs', hs, hI', hl'⟩ := hS.skipBits_spec hI₁ (show n % 32 ≤ 32 by omega) (by omega)
    refine ⟨bs', by simp [skipManyBits, hr, h0, hs], ?_, by omega⟩
    rwa [show k + n = k + 32 * (n / 32) + n % 32 by omega]
  · refine ⟨bs₁, by simp [skipManyBits, hr, h0], ?_, by omega⟩
    rwa [show k + n = k + 32 * (n / 32) by omega]

/-- One call within the contract keeps the invariant, returns what the abstract reader
returns, leaves the guaranteed fill level, never lowers consumed plus pending bits, and
leaves pending every bit a fill of the call asked for. -/
theorem step_spec (hS : Simulation T d I B) (hI : I bs k) {g : Nat}
    (hg : g ≤ bs.cache.fillLevel) {op : Op} (ha : op.allowed g = true)
    (hk : k + op.consumes ≤ B) :
    ∃ bs', bs.step T op = some (bs', op.specOut d k) ∧ I bs' (k + op.consumes) ∧
      op.guaranteed g ≤ bs'.cache.fillLevel ∧
      bs.cache.fillLevel ≤ op.consumes + bs'.cache.fillLevel ∧
      ∀ fr ∈ op.fills k, fr.1 + fr.2 ≤ k + op.consumes + bs'.cache.fillLevel := by
  cases op <;> simp only [Op.allowed, Op.guaranteed, Op.consumes, Op.specOut, Op.fills,
    Bool.and_eq_true, decide_eq_true_eq, List.mem_singleton, forall_eq, Nat.add_zero] at ha hk ⊢
  case fill n =>
    obtain ⟨bs', hf, hI', hn', hl'⟩ := hS.fill hI ha hk
    exact ⟨bs', by simp [step, hf], hI', by omega, by omega, by omega⟩
  case getBits n =>
    obtain ⟨bs', hg', hI', hl'⟩ := hS.getBits_spec hI ha (by omega)
    exact ⟨bs', by simp [step, hg'], hI', by omega, by omega, by omega⟩
  case getBitsNoFill n =>
    obtain ⟨bs', hg', hI', hfl⟩ := hS.getBitsNoFill_spec hI ha.1 (by omega)
    exact ⟨bs', by simp [step, hg'], hI', by omega, by omega, by simp⟩
  case peekBits n =>
    obtain ⟨bs', hp, hI', hl'⟩ := hS.peekBits_spec hI ha hk
    exact ⟨bs', by simp [step, hp], hI', by omega, by omega, by omega⟩
  case skipBits n =>
    obtain ⟨bs', hs, hI', hl'⟩ := hS.skipBits_spec hI ha (by omega)
    exact ⟨bs', by simp [step, hs], hI', by omega, by omega, by omega⟩
  case skipManyBits n =>
    obtain ⟨bs', hs, hI', hl'⟩ := hS.skipManyBits_spec hI n hk
    refine ⟨bs', by simp [step, hs], hI', by omega, by omega, ?_⟩
    simp only [List.mem_append, List.mem_map, List.mem_range, List.mem_ite_nil_right,
      List.mem_singleton]
    rintro fr (⟨i, hi, rfl⟩ | ⟨-, rfl⟩) <;> dsimp only <;> omega

/-- A legal run from a reader in the invariant, consuming at most `B` bits: what `step_spec`
says of one call, for every call in turn. -/
theorem run_spec (hS : Simulation T d I B) (ops : List Op) (hI : I bs k) {g : Nat}
    (hg : g ≤ bs.cache.fillLevel) (hl : legal g ops = true) (hk : k + consumed ops ≤ B) :
    ∃ bs', bs.run T ops = some (bs', specRun d k ops) ∧ I bs' (k + consumed ops) ∧
      ops.foldl Op.guaranteed g ≤ bs'.cache.fillLevel ∧
      bs.cache.fillLevel ≤ consumed ops + bs'.cache.fillLevel := by
  induction ops generalizing bs k g with
  | nil => exact ⟨bs, rfl, hI, hg, by simp [consumed]⟩
  | cons op ops ih =>
    simp only [legal, Bool.and_eq_true] at hl
    simp only [consumed] at hk
    obtain ⟨bs₁, hs, hI₁, hg₁, hp₁, -⟩ := hS.step_spec hI hg hl.1 (by omega)
    obtain ⟨bs', hr, hI', hg', hp'⟩ := ih hI₁ hg₁ hl.2 (by omega)
    refine ⟨bs', by simp [run, hs, hr, specRun], ?_, hg', by simp only [consumed]; omega⟩
    rwa [consumed, ← Nat.add_assoc]

end Simulation

end RawSpeed
