import RawSpeed.Spec.Bits

/-! The JPEG entropy-coded segment, stated apart from the reader. `stuff` escapes every
data `0xFF` with a `0x00`; `destuff` is the reference destuffing step that the reader's
`fillCache` is compared with. The main fact here is `destuff_stuff_marker`: on stuffed
data followed by a marker, the step yields the data bytes and stops exactly at the marker.
`entropySegment` splits a whole buffer at its first marker; it succeeds exactly on the
buffers that are stuffed data followed by a marker (`entropySegment_eq_some_iff`). -/

namespace RawSpeed

/-- Byte stuffing: a `0x00` after every `0xFF` of the data. -/
def stuff : List UInt8 → List UInt8
  | [] => []
  | b :: d => if b = 0xFF then 0xFF :: 0x00 :: stuff d else b :: stuff d

/-- What one reference destuffing step returns: the data bytes it yields, the number of input
bytes it scanned, and whether a marker stopped it. -/
structure Destuffed where
  bytes : List UInt8
  scanned : Nat
  marker : Bool
deriving DecidableEq, Repr

/-- The reference destuffing step over at most `n` logical bytes from the front of `w`. A byte
other than `0xFF` yields itself; `0xFF 0x00` yields `0xFF`; `0xFF x` with `x ≠ 0x00` stops
at the `0xFF`. -/
def destuff : List UInt8 → Nat → Destuffed
  | _, 0 => ⟨[], 0, false⟩
  | [], _ + 1 => ⟨[], 0, false⟩
  | b :: w, n + 1 =>
    if b ≠ 0xFF then
      let r := destuff w n
      ⟨b :: r.bytes, r.scanned + 1, r.marker⟩
    else match w with
      | x :: w' =>
        if x = 0x00 then
          let r := destuff w' n
          ⟨0xFF :: r.bytes, r.scanned + 2, r.marker⟩
        else ⟨[], 0, true⟩
      | [] => ⟨[], 0, true⟩

@[simp] theorem stuff_nil : stuff [] = [] := rfl

theorem stuff_cons (b : UInt8) (d : List UInt8) :
    stuff (b :: d) = if b = 0xFF then 0xFF :: 0x00 :: stuff d else b :: stuff d := rfl

@[simp] theorem stuff_append (d e : List UInt8) : stuff (d ++ e) = stuff d ++ stuff e := by
  induction d with
  | nil => rfl
  | cons b d ih => by_cases hb : b = 0xFF <;> simp [stuff_cons, hb, ih]

@[simp] theorem destuff_zero (w : List UInt8) : destuff w 0 = ⟨[], 0, false⟩ := by
  cases w <;> rfl

theorem destuff_data {b : UInt8} (hb : b ≠ 0xFF) (w : List UInt8) (n : Nat) :
    destuff (b :: w) (n + 1) =
      ⟨b :: (destuff w n).bytes, (destuff w n).scanned + 1, (destuff w n).marker⟩ := by
  cases w <;> simp [destuff, hb]

theorem destuff_stuffed (w : List UInt8) (n : Nat) :
    destuff (0xFF :: 0x00 :: w) (n + 1) =
      ⟨0xFF :: (destuff w n).bytes, (destuff w n).scanned + 2, (destuff w n).marker⟩ := by
  simp [destuff]

theorem destuff_marker {x : UInt8} (hx : x ≠ 0x00) (w : List UInt8) (n : Nat) :
    destuff (0xFF :: x :: w) (n + 1) = ⟨[], 0, true⟩ := by
  simp [destuff, hx]

theorem destuff_take (w : List UInt8) {n m : Nat} (h : 2 * n ≤ m) :
    destuff (w.take m) n = destuff w n := by
  induction w, n using destuff.induct generalizing m with
  | case1 => simp
  | case2 => simp
  | case3 b w n hb ih =>
    obtain ⟨m, rfl⟩ : ∃ m', m = m' + 1 := ⟨m - 1, by omega⟩
    rw [List.take_succ_cons, destuff_data hb, destuff_data hb, ih (by omega)]
  | case4 b n hb w ih =>
    obtain rfl : b = 0xFF := not_not.mp hb
    obtain ⟨m, rfl⟩ : ∃ m', m = m' + 2 := ⟨m - 2, by omega⟩
    rw [List.take_succ_cons, List.take_succ_cons, destuff_stuffed, destuff_stuffed, ih (by omega)]
  | case5 b n hb x w hx =>
    obtain rfl : b = 0xFF := not_not.mp hb
    obtain ⟨m, rfl⟩ : ∃ m', m = m' + 2 := ⟨m - 2, by omega⟩
    rw [List.take_succ_cons, List.take_succ_cons, destuff_marker hx, destuff_marker hx]
  | case6 b n hb =>
    obtain ⟨m, rfl⟩ : ∃ m', m = m' + 1 := ⟨m - 1, by omega⟩
    simp

/-- Destuffing undoes stuffing: over stuffed data followed by a marker `0xFF x`, a step of `n`
logical bytes yields the first `n` data bytes, scans their stuffed form, and meets the
marker exactly when the data runs out first. -/
theorem destuff_stuff_marker {x : UInt8} (hx : x ≠ 0x00) (d w : List UInt8) (n : Nat) :
    destuff (stuff d ++ 0xFF :: x :: w) n =
      ⟨d.take n, (stuff (d.take n)).length, decide (d.length < n)⟩ := by
  induction d generalizing n with
  | nil =>
    cases n with
    | zero => simp
    | succ n => simp [destuff_marker hx]
  | cons b d ih =>
    cases n with
    | zero => simp
    | succ n =>
      by_cases hb : b = 0xFF
      · subst hb
        simp [stuff_cons, destuff_stuffed, ih]
      · simp [stuff_cons, hb, destuff_data hb, ih]

theorem length_bytes_of_not_marker {w : List UInt8} {n : Nat} (h : (destuff w n).marker = false)
    (hw : 2 * n ≤ w.length) : (destuff w n).bytes.length = n := by
  induction w, n using destuff.induct with
  | case1 => simp
  | case2 => simp at hw
  | case3 b w n hb ih =>
    rw [destuff_data hb] at h ⊢
    simp [ih h (by simp at hw; omega)]
  | case4 b n hb w ih =>
    obtain rfl : b = 0xFF := not_not.mp hb
    rw [destuff_stuffed] at h ⊢
    simp [ih h (by simp at hw; omega)]
  | case5 b n hb x w hx =>
    obtain rfl : b = 0xFF := not_not.mp hb
    simp [destuff_marker hx] at h
  | case6 b n hb => simp at hw; omega

theorem scanned_le (w : List UInt8) (n : Nat) : (destuff w n).scanned ≤ 2 * n := by
  induction w, n using destuff.induct with
  | case1 => simp
  | case2 => simp [destuff]
  | case3 b w n hb ih => rw [destuff_data hb]; simp only; omega
  | case4 b n hb w ih =>
    obtain rfl : b = 0xFF := not_not.mp hb
    rw [destuff_stuffed]; simp only; omega
  | case5 b n hb x w hx =>
    obtain rfl : b = 0xFF := not_not.mp hb
    simp [destuff_marker hx]
  | case6 b n hb =>
    obtain rfl : b = 0xFF := not_not.mp hb
    simp [destuff]

theorem destuff_of_no_ff {w : List UInt8} {n : Nat} (h : (w.take n).all (· != 0xFF))
    (hn : n ≤ w.length) : destuff w n = ⟨w.take n, n, false⟩ := by
  induction n generalizing w with
  | zero => simp
  | succ n ih =>
    match w with
    | [] => simp at hn
    | b :: w =>
      simp only [List.take_succ_cons, List.all_cons, Bool.and_eq_true, bne_iff_ne] at h
      rw [destuff_data h.1, ih h.2 (by simp at hn; omega), List.take_succ_cons]

/-- The entropy-coded segment at the front of a buffer: the data bytes before the first
marker, the marker's second byte, and what follows it. `none` when no marker follows. -/
def entropySegment : List UInt8 → Option (List UInt8 × UInt8 × List UInt8)
  | [] => none
  | b :: w =>
    if b ≠ 0xFF then (entropySegment w).map fun s => (b :: s.1, s.2)
    else match w with
      | x :: w' =>
        if x = 0x00 then (entropySegment w').map fun s => (0xFF :: s.1, s.2)
        else some ([], x, w')
      | [] => none

theorem entropySegment_data {b : UInt8} (hb : b ≠ 0xFF) (w : List UInt8) :
    entropySegment (b :: w) = (entropySegment w).map fun s => (b :: s.1, s.2) := by
  rw [entropySegment.eq_def]
  exact if_pos hb

theorem entropySegment_stuffed (w : List UInt8) :
    entropySegment (0xFF :: 0x00 :: w) = (entropySegment w).map fun s => (0xFF :: s.1, s.2) :=
  rfl

theorem entropySegment_marker {m : UInt8} (hm : m ≠ 0x00) (w : List UInt8) :
    entropySegment (0xFF :: m :: w) = some ([], m, w) := by
  rw [entropySegment, if_neg (by decide)]
  simp only [if_neg hm]

theorem entropySegment_stuff {m : UInt8} (hm : m ≠ 0x00) (d r : List UInt8) :
    entropySegment (stuff d ++ 0xFF :: m :: r) = some (d, m, r) := by
  induction d with
  | nil => exact entropySegment_marker hm r
  | cons b d ih =>
    by_cases hb : b = 0xFF
    · subst hb
      rw [stuff_cons, if_pos rfl, List.cons_append, List.cons_append, entropySegment_stuffed, ih]
      rfl
    · rw [stuff_cons, if_neg hb, List.cons_append, entropySegment_data hb, ih]
      rfl

theorem eq_stuff_of_entropySegment {w d r : List UInt8} {m : UInt8}
    (h : entropySegment w = some (d, m, r)) : m ≠ 0x00 ∧ w = stuff d ++ 0xFF :: m :: r := by
  induction w using entropySegment.induct generalizing d with
  | case1 => cases h
  | case2 b w hb ih =>
    rw [entropySegment_data hb] at h
    obtain ⟨⟨d', m', r'⟩, hs, he⟩ := Option.map_eq_some'.mp h
    obtain ⟨rfl, rfl, rfl⟩ : b :: d' = d ∧ m' = m ∧ r' = r := by simpa using he
    obtain ⟨hm, rfl⟩ := ih hs
    exact ⟨hm, by rw [stuff_cons, if_neg hb, List.cons_append]⟩
  | case3 b hb w ih =>
    obtain rfl : b = 0xFF := not_not.mp hb
    rw [entropySegment_stuffed] at h
    obtain ⟨⟨d', m', r'⟩, hs, he⟩ := Option.map_eq_some'.mp h
    obtain ⟨rfl, rfl, rfl⟩ : 0xFF :: d' = d ∧ m' = m ∧ r' = r := by simpa using he
    obtain ⟨hm, rfl⟩ := ih hs
    exact ⟨hm, by rw [stuff_cons, if_pos rfl, List.cons_append, List.cons_append]⟩
  | case4 b hb x w hx =>
    obtain rfl : b = 0xFF := not_not.mp hb
    rw [entropySegment_marker hx] at h
    obtain ⟨rfl, rfl, rfl⟩ : [] = d ∧ x = m ∧ w = r := by simpa using h
    exact ⟨hx, rfl⟩
  | case5 b hb => simp [entropySegment, hb] at h

theorem entropySegment_eq_some_iff {w d r : List UInt8} {m : UInt8} :
    entropySegment w = some (d, m, r) ↔ m ≠ 0x00 ∧ w = stuff d ++ 0xFF :: m :: r :=
  ⟨eq_stuff_of_entropySegment, fun ⟨hm, hw⟩ => hw ▸ entropySegment_stuff hm d r⟩

example : entropySegment [0x12, 0xFF, 0x00, 0x34, 0xFF, 0xD9, 0xAB] =
    some ([0x12, 0xFF, 0x34], 0xD9, [0xAB]) := by decide

end RawSpeed
