import RawSpeed.Spec.Streamer

/-! What a JPEG reader over stuffed data `d` and a marker should hand out: the bits of `d`,
each byte most significant first, and zeros after them for ever. The abstract reader is a
count of the bits consumed; `specRun` is what every call returns at that count. `legal` is
the calling contract: at most `MaxGetBits` bits a call, and `getBitsNoFill` only of bits
that an earlier fill guarantees. -/

namespace RawSpeed

/-- Bit `i` of the destuffed stream: the bits of `d`, then zeros. -/
def streamBit (d : List UInt8) (i : Nat) : Bool := (d.getD (i / 8) 0).toNat.testBit (7 - i % 8)

/-- The `n` stream bits from bit `k` on. -/
def slice (d : List UInt8) (k n : Nat) : List Bool :=
  (List.range n).map fun i => streamBit d (k + i)

namespace Op

def consumes : Op → Nat
  | .getBits n | .getBitsNoFill n | .skipBits n | .skipManyBits n => n
  | .fill _ | .peekBits _ => 0

def specOut (d : List UInt8) (k : Nat) : Op → List Nat
  | .getBits n | .getBitsNoFill n | .peekBits n => [bitsVal (slice d k n)]
  | .fill _ | .skipBits _ | .skipManyBits _ => []

/-- The fill level a call leaves at least, from at least `g` before it. -/
def guaranteed (g : Nat) : Op → Nat
  | .fill n | .peekBits n => max g n
  | .getBits n | .skipBits n => max g n - n
  | .getBitsNoFill n | .skipManyBits n => g - n

/-- A call within the contract, from a guaranteed fill level `g`. -/
def allowed (g : Nat) : Op → Bool
  | .fill n | .getBits n | .peekBits n | .skipBits n => n ≤ 32
  | .getBitsNoFill n => n ≤ 32 && n ≤ g
  | .skipManyBits _ => true

/-- The fills a call issues when it starts `k` bits in: for each, the bits consumed before it
and the bits it asks for. -/
def fills (k : Nat) : Op → List (Nat × Nat)
  | .fill n | .getBits n | .peekBits n | .skipBits n => [(k, n)]
  | .getBitsNoFill _ => []
  | .skipManyBits n => (List.range (n / 32)).map (fun i => (k + 32 * i, 32)) ++
      if 0 < n % 32 then [(k + 32 * (n / 32), n % 32)] else []

end Op

def consumed : List Op → Nat
  | [] => 0
  | op :: ops => op.consumes + consumed ops

/-- What a run of calls returns, started `k` bits into the stream. -/
def specRun (d : List UInt8) : Nat → List Op → List Nat
  | _, [] => []
  | k, op :: ops => op.specOut d k ++ specRun d (k + op.consumes) ops

/-- A run of calls within the contract, from a guaranteed fill level `g`. -/
def legal : Nat → List Op → Bool
  | _, [] => true
  | g, op :: ops => op.allowed g && legal (op.guaranteed g) ops

@[simp] theorem consumed_append (a b : List Op) : consumed (a ++ b) = consumed a + consumed b := by
  induction a with
  | nil => simp [consumed]
  | cons op a ih => simp [consumed, ih, Nat.add_assoc]

theorem legal_append {g : Nat} {a b : List Op} (h : legal g (a ++ b)) :
    legal g a ∧ legal (a.foldl Op.guaranteed g) b := by
  induction a generalizing g with
  | nil => simpa [legal] using h
  | cons op a ih =>
    simp only [List.cons_append, legal, Bool.and_eq_true] at h
    simpa [legal, h.1] using ih h.2

theorem legal_of_isPrefix {g : Nat} {pre ops : List Op} (hp : pre <+: ops) (h : legal g ops) :
    legal g pre := by
  obtain ⟨t, rfl⟩ := hp
  exact (legal_append h).1

theorem slice_add (d : List UInt8) (k a b : Nat) :
    slice d k (a + b) = slice d k a ++ slice d (k + a) b := by
  simp [slice, List.range_add, Nat.add_assoc]

theorem take_slice (d : List UInt8) {k n m : Nat} (h : m ≤ n) :
    (slice d k n).take m = slice d k m := by
  rw [show n = m + (n - m) by omega, slice_add, List.take_left' (by simp [slice])]

theorem drop_slice (d : List UInt8) {k n m : Nat} (h : m ≤ n) :
    (slice d k n).drop m = slice d (k + m) (n - m) := by
  rw [show n = m + (n - m) by omega, slice_add, List.drop_left' (by simp [slice])]
  congr 1
  omega

@[simp] theorem length_slice (d : List UInt8) (k n : Nat) : (slice d k n).length = n := by
  simp [slice]

theorem slice_byte (d : List UInt8) (j : Nat) : slice d (8 * j) 8 = byteBits (d.getD j 0) := by
  refine List.ext_getElem (by simp [byteBits]) fun i h _ => ?_
  simp only [slice, List.getElem_map, List.getElem_range, streamBit, byteBits, getElem_natBits]
  simp only [length_slice] at h
  rw [show (8 * j + i) / 8 = j by omega, show (8 * j + i) % 8 = i by omega]

theorem slice_drop_take (d : List UInt8) (j t : Nat) :
    slice d (8 * j) (8 * ((d.drop j).take t).length) = bytesBits ((d.drop j).take t) := by
  induction t generalizing j with
  | zero => simp [slice]
  | succ t ih =>
    by_cases hj : j < d.length
    · rw [List.drop_eq_getElem_cons hj, List.take_succ_cons, List.length_cons, Nat.mul_add,
        Nat.mul_one, Nat.add_comm, slice_add, slice_byte, show 8 * j + 8 = 8 * (j + 1) by ring, ih,
        bytesBits_cons, List.getD_eq_getElem _ _ hj]
    · simp [List.drop_of_length_le (by omega : d.length ≤ j), slice]

theorem slice_zero_length (d : List UInt8) : slice d 0 (8 * d.length) = bytesBits d := by
  simpa using slice_drop_take d 0 d.length

theorem slice_getD (d : List UInt8) (j t : Nat) :
    slice d (8 * j) (8 * t) = bytesBits ((List.range t).map fun i => d.getD (j + i) 0) := by
  induction t with
  | zero => simp [slice]
  | succ t ih =>
    rw [Nat.mul_succ, slice_add, ih, show 8 * j + 8 * t = 8 * (j + t) by ring, slice_byte,
      List.range_succ, List.map_append, bytesBits_append]
    simp

theorem slice_drop (d : List UInt8) (j k n : Nat) :
    slice (d.drop j) k n = slice d (8 * j + k) n := by
  refine List.ext_getElem (by simp) fun i _ _ => ?_
  simp only [slice, List.getElem_map, List.getElem_range, streamBit, List.getD_eq_getElem?_getD,
    List.getElem?_drop]
  rw [show (8 * j + k + i) / 8 = j + (k + i) / 8 by omega,
    show (8 * j + k + i) % 8 = (k + i) % 8 by omega]

theorem slice_append_left (l₁ l₂ : List UInt8) {k n : Nat} (h : k + n ≤ 8 * l₁.length) :
    slice (l₁ ++ l₂) k n = slice l₁ k n := by
  refine List.ext_getElem (by simp) fun i hi _ => ?_
  simp only [length_slice] at hi
  simp only [slice, List.getElem_map, List.getElem_range, streamBit,
    List.getD_append _ _ _ _ (show (k + i) / 8 < l₁.length by omega)]

theorem specRun_drop (d : List UInt8) (j : Nat) (ops : List Op) (k : Nat) :
    specRun (d.drop j) k ops = specRun d (8 * j + k) ops := by
  induction ops generalizing k with
  | nil => rfl
  | cons op ops ih =>
    rw [specRun, specRun, ih, Nat.add_assoc]
    cases op <;> simp [Op.specOut, slice_drop]

theorem slice_past (d : List UInt8) {k : Nat} (n : Nat) (h : 8 * d.length ≤ k) :
    slice d k n = List.replicate n false := by
  refine List.ext_getElem (by simp) fun i _ _ => ?_
  simp [slice, streamBit, List.getD_eq_getElem?_getD,
    List.getElem?_eq_none (show d.length ≤ (k + i) / 8 by omega)]

end RawSpeed
