import RawSpeed.Proofs.MSB16

/-! The MSB16 writer. `BitVacuumerMSB16` emits the bits it is given, zero-padded to whole
32-bit chunks, as little-endian words that the reader swaps back, so writing a recipe and
reading it with the MSB16 reader gives its values back. A reader started at an even offset of
what the writer wrote reads the bytes from there on; at an odd offset it pairs them across
words. -/

namespace RawSpeed

open BitStreamerCacheRightInLeftOut BitStreamer BitStreamerMSB16

theorem bytesBits_swap16_chunkBytes {chunk : Nat} (h : chunk < 2 ^ 16) :
    bytesBits (swap16 (BitVacuumerMSB16.chunkBytes chunk)) = natBits 16 chunk := by
  have hlo : chunk % 256 < 2 ^ 8 := Nat.mod_lt _ (by decide)
  rw [show chunk = 2 ^ 8 * (chunk / 256) + chunk % 256 by omega, natBits_mul_add hlo]
  simp only [BitVacuumerMSB16.chunkBytes, swap16, bytesBits_cons, bytesBits_nil, List.append_nil,
    byteBits]
  rw [show (UInt8.ofNat ((2 ^ 8 * (chunk / 256) + chunk % 256) / 256)).toNat = chunk / 256 by
      show _ % 256 = _; omega,
    show (UInt8.ofNat ((2 ^ 8 * (chunk / 256) + chunk % 256) % 256)).toNat = chunk % 256 by
      show _ % 256 = _; omega]

namespace BitVacuumerMSB16

/-- The bits a vacuumer has taken: those of the words written out, then the pending ones. -/
def emitted (bv : BitVacuumerMSB16) : List Bool := bytesBits (swap16 bv.output) ++ bv.cache.bits

/-- The vacuumer's invariant: a valid cache with room left, and whole chunks written. -/
structure Valid (bv : BitVacuumerMSB16) : Prop where
  cache : bv.cache.Valid
  fillLevel_lt : bv.cache.fillLevel < 64
  chunks : bv.output.length % 4 = 0

variable {bv : BitVacuumerMSB16}

theorem valid_init : init.Valid := ⟨valid_empty, by decide, rfl⟩

theorem drainChunks_spec (n : Nat) (hv : bv.cache.Valid) (he : bv.output.length % 2 = 0)
    (h : 16 * n ≤ bv.cache.fillLevel) :
    ∃ bv', drainChunks n bv = some bv' ∧ bv'.cache.Valid ∧
      bv'.output.length = bv.output.length + 2 * n ∧
      bv'.cache.fillLevel = bv.cache.fillLevel - 16 * n ∧ bv'.emitted = bv.emitted := by
  induction n generalizing bv with
  | zero => exact ⟨bv, rfl, hv, rfl, rfl, rfl⟩
  | succ n ih =>
    obtain ⟨c', hs, hv', hfl, hbits⟩ := skip_spec hv (show 16 ≤ bv.cache.fillLevel by omega)
    have hlt := bitsVal_lt (bv.cache.bits.take 16)
    rw [List.length_take, length_bits, Nat.min_eq_left (by omega)] at hlt
    obtain ⟨bv', hd, hv'', he', hfl', hem⟩ :=
      @ih ⟨c', bv.output ++ chunkBytes (bitsVal (bv.cache.bits.take 16))⟩ hv'
        (by simp [chunkBytes]; omega) (by simp only; omega)
    refine ⟨bv', ?_, hv'', by simp [he', chunkBytes]; omega, by rw [hfl', hfl]; omega, ?_⟩
    · simp [drainChunks, peek_spec (show 16 ≤ 32 by decide)
        (show 16 ≤ bv.cache.fillLevel by omega), hs, hd]
    · rw [hem, emitted, emitted, swap16_append he, bytesBits_append,
        bytesBits_swap16_chunkBytes hlt, hbits, List.append_assoc]
      have hnb := natBits_bitsVal (bv.cache.bits.take 16)
      rw [List.length_take, length_bits, Nat.min_eq_left (by omega)] at hnb
      rw [hnb, List.take_append_drop]

theorem drain_spec (hV : bv.Valid) :
    ∃ bv', bv.drain = some bv' ∧ bv'.Valid ∧ bv'.cache.fillLevel = bv.cache.fillLevel % 32 ∧
      bv'.emitted = bv.emitted := by
  by_cases h : bv.cache.fillLevel < 32
  · exact ⟨bv, by simp [drain, h], hV, (Nat.mod_eq_of_lt h).symm, rfl⟩
  · have := hV.fillLevel_lt
    have := hV.chunks
    obtain ⟨bv', hd, hv', he', hfl', hem⟩ := drainChunks_spec 2 hV.cache (by omega) (by omega)
    exact ⟨bv', by simp [drain, h, hd], ⟨hv', by omega, by omega⟩, by omega, hem⟩

theorem put_spec (hV : bv.Valid) {bits count : Nat} (hn : count ≤ 32) (hb : bits < 2 ^ count) :
    ∃ bv', bv.put bits count = some bv' ∧ bv'.Valid ∧
      bv'.cache.fillLevel = bv.cache.fillLevel % 32 + count ∧
      bv'.emitted = bv.emitted ++ natBits count bits := by
  obtain ⟨bv₁, hd, hV₁, hfl₁, hem₁⟩ := drain_spec hV
  have : bv₁.cache.fillLevel < 32 := by rw [hfl₁]; exact Nat.mod_lt _ (by decide)
  obtain ⟨c, hc, hfl, hcv⟩ := push_spec bv₁.cache bits count (by omega) (by omega)
  obtain ⟨hv, hbits⟩ := hcv hV₁.cache hb
  refine ⟨{ bv₁ with cache := c }, by simp [put, hd, hc],
    ⟨hv, by simp only; omega, hV₁.chunks⟩, by simp only; omega, ?_⟩
  rw [← hem₁, emitted, emitted, hbits, List.append_assoc]

theorem putAll_spec (hV : bv.Valid) (recipe : List (Nat × Nat))
    (h : ∀ e ∈ recipe, e.2 ≤ 32 ∧ e.1 < 2 ^ e.2) :
    ∃ bv', bv.putAll recipe = some bv' ∧ bv'.Valid ∧
      bv'.emitted = bv.emitted ++ recipe.flatMap fun e => natBits e.2 e.1 := by
  induction recipe generalizing bv with
  | nil => exact ⟨bv, rfl, hV, by simp⟩
  | cons e recipe ih =>
    obtain ⟨hn, hb⟩ := h e (List.mem_cons_self _ _)
    obtain ⟨bv₁, hp, hV₁, -, hem₁⟩ := put_spec hV hn hb
    obtain ⟨bv', hr, hV', hem'⟩ := ih hV₁ fun e he => h e (List.mem_cons_of_mem _ he)
    exact ⟨bv', by simp [putAll, hp, hr], hV', by simp [hem', hem₁]⟩

theorem flush_spec (hV : bv.Valid) :
    ∃ bv', bv.flush = some bv' ∧ bv'.Valid ∧ bv'.cache.fillLevel = 0 ∧
      bv'.emitted = bv.emitted ++
        List.replicate ((32 - bv.cache.fillLevel % 32) % 32) false := by
  obtain ⟨bv₁, hd, hV₁, hfl₁, hem₁⟩ := drain_spec hV
  have hlt : bv.cache.fillLevel % 32 < 32 := Nat.mod_lt _ (by decide)
  by_cases h0 : bv₁.cache.fillLevel = 0
  · refine ⟨bv₁, by simp [flush, hd, h0], hV₁, h0, ?_⟩
    rw [hem₁, ← hfl₁, h0]
    simp
  · obtain ⟨bv₂, hp, hV₂, hfl₂, hem₂⟩ := put_spec hV₁
      (show 32 - bv₁.cache.fillLevel ≤ 32 by omega)
      (Nat.two_pow_pos (32 - bv₁.cache.fillLevel))
    obtain ⟨bv₃, hd₃, hV₃, hfl₃, hem₃⟩ := drain_spec hV₂
    refine ⟨bv₃, by simp [flush, hd, h0, hp, hd₃], hV₃, by omega, ?_⟩
    rw [hem₃, hem₂, hem₁, natBits_zero, hfl₁,
      Nat.mod_eq_of_lt (show 32 - bv.cache.fillLevel % 32 < 32 by omega)]

end BitVacuumerMSB16

theorem getD_drop_zero (l : List UInt8) (j i : Nat) : (l.drop j).getD i 0 = l.getD (j + i) 0 := by
  simp [List.getD_eq_getElem?_getD]

theorem getD_append_replicate_zero (l : List UInt8) (r i : Nat) :
    (l ++ List.replicate r 0).getD i 0 = l.getD i 0 := by
  by_cases hi : i < l.length
  · exact List.getD_append _ _ _ _ hi
  · rw [List.getD_append_right _ _ _ _ (by omega), List.getD_eq_getElem?_getD,
      List.getElem?_getD_replicate_default_eq, List.getD_eq_default _ _ (by omega)]

section Synthesis

open BitVacuumerMSB16

variable {recipe : List (Nat × Nat)}

/-- The words a recipe synthesizes, read back, are its values at their widths and then zeros
up to a whole 32-bit chunk. -/
theorem synthesizeBitstream_bits (h : ∀ e ∈ recipe, e.2 ≤ 32 ∧ e.1 < 2 ^ e.2) :
    ∃ out, synthesizeBitstream recipe = some out ∧ out.length % 4 = 0 ∧
      bytesBits (swap16 out) = (recipe.flatMap fun e => natBits e.2 e.1) ++
        List.replicate ((32 - (recipe.flatMap fun e => natBits e.2 e.1).length % 32) % 32)
          false := by
  obtain ⟨bv₁, hp, hV₁, hem₁⟩ := BitVacuumerMSB16.init.putAll_spec valid_init recipe h
  obtain ⟨bv₂, hf, hV₂, hfl₂, hem₂⟩ := flush_spec hV₁
  have h₁ := hV₁.chunks
  refine ⟨bv₂.output, by simp [synthesizeBitstream, hp, hf], hV₂.chunks, ?_⟩
  rw [show BitVacuumerMSB16.init.emitted = [] from rfl, List.nil_append] at hem₁
  have hlen := congrArg List.length hem₁
  simp only [emitted, List.length_append, length_bytesBits, length_bits,
    length_swap16 (show bv₁.output.length % 2 = 0 by omega)] at hlen
  have hbits₂ : bv₂.cache.bits = [] := List.eq_nil_of_length_eq_zero (by simp [hfl₂])
  rw [← List.append_nil (bytesBits (swap16 bv₂.output)), ← hbits₂, ← emitted, hem₂,
    hem₁,
    show bv₁.cache.fillLevel % 32 = (recipe.flatMap fun e => natBits e.2 e.1).length % 32
      by omega]

/-- A recipe of values that fit their widths synthesizes whole 32-bit chunks: read back as
words, most significant bit first, they spell the values and then zeros. -/
theorem synthesizeBitstream_pads (recipe : List (Nat × Nat))
    (h : ∀ e ∈ recipe, e.2 ≤ 32 ∧ e.1 < 2 ^ e.2) :
    ∃ out, synthesizeBitstream recipe = some out ∧
      bytesBits (swap16 out) = (recipe.flatMap fun e => natBits e.2 e.1) ++
        List.replicate ((32 - (recipe.flatMap fun e => natBits e.2 e.1).length % 32) % 32) false ∧
      8 * out.length = (recipe.flatMap fun e => natBits e.2 e.1).length +
        (32 - (recipe.flatMap fun e => natBits e.2 e.1).length % 32) % 32 := by
  obtain ⟨out, hsyn, hout, hbits⟩ := synthesizeBitstream_bits h
  refine ⟨out, hsyn, hbits, ?_⟩
  have := congrArg List.length hbits
  rwa [length_bytesBits, length_swap16 (by omega), List.length_append,
    List.length_replicate] at this

theorem synthesizeBitstream_pads_two_chunks :
    ∃ out, synthesizeBitstream [(0x00, 25), (0xFF, 8)] = some out ∧
      bytesBits (swap16 out) = ([(0x00, 25), (0xFF, 8)].flatMap fun e => natBits e.2 e.1) ++
        List.replicate ((32 - ([(0x00, 25), (0xFF, 8)].flatMap fun e =>
          natBits e.2 e.1).length % 32) % 32) false ∧
      8 * out.length = ([(0x00, 25), (0xFF, 8)].flatMap fun e => natBits e.2 e.1).length +
        (32 - ([(0x00, 25), (0xFF, 8)].flatMap fun e => natBits e.2 e.1).length % 32) % 32 :=
  synthesizeBitstream_pads _ (by decide)

example : synthesizeBitstream [(0x00, 25), (0xFF, 8)] =
    some [0x00, 0x00, 0x7F, 0x00, 0x00, 0x80, 0x00, 0x00] := by decide

example : synthesizeBitstream [(0xFF, 8), (0x00, 9)] = some [0x00, 0xFF, 0x00, 0x00] := by decide

theorem legal_dissolution {n : Nat} (hn : n ≤ 32) (h : ∀ e ∈ recipe, e.2 ≤ n) (g : Nat) :
    legal g (recipe.flatMap fun e => [Op.fill n, Op.getBitsNoFill e.2]) = true := by
  induction recipe generalizing g with
  | nil => rfl
  | cons e recipe ih =>
    have := h e (List.mem_cons_self _ _)
    rw [List.flatMap_cons, List.cons_append, List.cons_append, List.nil_append]
    simp [legal, Op.allowed, Op.guaranteed, hn, show e.2 ≤ 32 by omega, this,
      ih (fun e he => h e (List.mem_cons_of_mem _ he))]

theorem consumed_dissolution {n : Nat} :
    consumed (recipe.flatMap fun e => [Op.fill n, Op.getBitsNoFill e.2]) =
      (recipe.flatMap fun e => natBits e.2 e.1).length := by
  induction recipe with
  | nil => rfl
  | cons e recipe ih =>
    rw [List.flatMap_cons, List.flatMap_cons, consumed_append, List.length_append, ih]
    simp [consumed, Op.consumes]

theorem specRun_dissolution {d : List UInt8} {n : Nat} (h : ∀ e ∈ recipe, e.1 < 2 ^ e.2) {k : Nat}
    (hs : slice d k (recipe.flatMap fun e => natBits e.2 e.1).length =
      recipe.flatMap fun e => natBits e.2 e.1) :
    specRun d k (recipe.flatMap fun e => [Op.fill n, Op.getBitsNoFill e.2]) =
      recipe.map Prod.fst := by
  induction recipe generalizing k with
  | nil => rfl
  | cons e recipe ih =>
    simp only [List.flatMap_cons, List.length_append, length_natBits, slice_add] at hs
    obtain ⟨h₁, h₂⟩ := List.append_inj hs (by simp)
    rw [List.flatMap_cons, List.cons_append, List.cons_append, List.nil_append]
    simp only [specRun, Op.specOut, Op.consumes, List.map_cons, Nat.add_zero, List.nil_append,
      List.singleton_append]
    rw [h₁, bitsVal_natBits, Nat.mod_eq_of_lt (h _ (List.mem_cons_self _ _)),
      ih (fun e he => h e (List.mem_cons_of_mem _ he)) h₂]

/-- What the vacuumer writes the reader reads back, whatever padding follows it: `fill(32)` and
`getBitsNoFill(len)` for each entry of the recipe return its values in turn, as the test's
dissolution does. -/
theorem synthesizeBitstream_dissolves (recipe : List (Nat × Nat))
    (h : ∀ e ∈ recipe, e.2 ≤ 32 ∧ e.1 < 2 ^ e.2) (pad : List UInt8)
    (hpad : MaxProcessBytes ≤ pad.length) :
    ∃ out bs, synthesizeBitstream recipe = some out ∧
      (BitStreamer.init out pad).run tag
          (recipe.flatMap fun e => [Op.fill 32, Op.getBitsNoFill e.2]) =
        some (bs, recipe.map Prod.fst) := by
  obtain ⟨out, hsyn, hout, hbits⟩ := synthesizeBitstream_bits h
  have hT : (recipe.flatMap fun e => natBits e.2 e.1).length ≤ 32 * (out.length / 4) := by
    have := congrArg List.length hbits
    rw [length_bytesBits, length_swap16 (by omega), List.length_append] at this
    omega
  obtain ⟨bs, hr, -⟩ := (simulation_msb16 out hpad).run_spec _ inv16_init (le_refl 0)
    (legal_dissolution (le_refl 32) (fun e he => (h e he).1) 0)
    (by rw [consumed_dissolution]; omega)
  refine ⟨out, bs, hsyn, ?_⟩
  rw [hr, specRun_dissolution (fun e he => (h e he).2)]
  rw [slice_swap16_append _ _ hT,
    ← take_slice _ (show _ ≤ 8 * (swap16 out).length by rw [length_swap16 (by omega)]; omega),
    slice_zero_length, hbits, List.take_left' rfl]

theorem synthesizeBitstream_dissolves_two_chunks :
    ∃ out bs, synthesizeBitstream [(0x00, 25), (0xFF, 8)] = some out ∧
      (BitStreamer.init out [0xAA, 0xBB, 0xCC, 0xDD]).run tag ([(0x00, 25), (0xFF, 8)].flatMap
        fun e => [Op.fill 32, Op.getBitsNoFill e.2]) =
        some (bs, [(0x00, 25), (0xFF, 8)].map Prod.fst) :=
  synthesizeBitstream_dissolves _ (by decide) _ (by decide)

theorem flatMap_natBits_bytes (vals : List UInt8) :
    ((vals.map fun v => (v.toNat, 8)).flatMap fun e => natBits e.2 e.1) = bytesBits vals := by
  induction vals with
  | nil => rfl
  | cons v vals ih => rw [List.map_cons, List.flatMap_cons, ih, bytesBits_cons]; rfl

theorem synthesizeBitstream_bytes (vals : List UInt8) :
    ∃ out, synthesizeBitstream (vals.map fun v => (v.toNat, 8)) = some out ∧
      out.length % 4 = 0 ∧ swap16 out = vals ++ List.replicate ((4 - vals.length % 4) % 4) 0 := by
  obtain ⟨out, hsyn, hout, hbits⟩ := @synthesizeBitstream_bits (vals.map fun v => (v.toNat, 8))
    (by simpa using fun v _ => UInt8.toNat_lt v)
  refine ⟨out, hsyn, hout, bytesBits_injective ?_⟩
  rw [hbits, flatMap_natBits_bytes, bytesBits_append, bytesBits_replicate_zero, length_bytesBits]
  congr 2
  omega

theorem run_reads_bytes (b pad : List UInt8) (hpad : MaxProcessBytes ≤ pad.length) {m n : Nat}
    (hm : m ≤ 4 * (b.length / 4)) (h8 : 8 ≤ n) (hn : n ≤ 32) :
    ∃ bs, (BitStreamer.init b pad).run tag
        ((List.range m).flatMap fun _ => [Op.fill n, Op.getBitsNoFill 8]) =
      some (bs, (List.range m).map fun i => ((swap16 b).getD i 0).toNat) := by
  have hops : ((List.range m).flatMap fun _ => [Op.fill n, Op.getBitsNoFill 8]) =
      ((((List.range m).map fun i => (swap16 b).getD i 0).map fun v => (v.toNat, 8)).flatMap
        fun e => [Op.fill n, Op.getBitsNoFill e.2]) := by
    rw [List.flatMap_map, List.flatMap_map]
  obtain ⟨bs, hr, -⟩ := (simulation_msb16 b hpad).run_spec _ inv16_init (le_refl 0)
    (hops ▸ legal_dissolution hn
      (fun e he => by obtain ⟨v, -, rfl⟩ := List.mem_map.mp he; exact h8) 0)
    (by rw [hops, consumed_dissolution, flatMap_natBits_bytes, length_bytesBits, List.length_map,
      List.length_range]; omega)
  refine ⟨bs, hr.trans ?_⟩
  rw [hops, specRun_dissolution
    (fun e he => by obtain ⟨v, -, rfl⟩ := List.mem_map.mp he; exact UInt8.toNat_lt v)]
  · rw [List.map_map, List.map_map]
    rfl
  · rw [flatMap_natBits_bytes, length_bytesBits, List.length_map, List.length_range,
      slice_swap16_append _ _ (by omega)]
    simpa using slice_getD (swap16 b) 0 m

/-- A reader started at any even offset of what the vacuumer wrote for a list of bytes, with any
padding after it, reads those bytes from that offset on, one `fill(n)` and `getBitsNoFill(8)`
each, at any fill level from 8 to 32, for as many bytes as lie in whole words from the offset:
the test's loads from aligned positions. -/
theorem synthesizeBitstream_loads_aligned (vals : List UInt8) (q : Nat) {n : Nat} (h8 : 8 ≤ n)
    (hn : n ≤ 32) (pad : List UInt8) (hpad : MaxProcessBytes ≤ pad.length) :
    ∃ out, synthesizeBitstream (vals.map fun v => (v.toNat, 8)) = some out ∧
      ∀ m ≤ 4 * ((out.drop (2 * q)).length / 4), ∃ bs,
        (BitStreamer.init (out.drop (2 * q)) pad).run tag
            ((List.range m).flatMap fun _ => [Op.fill n, Op.getBitsNoFill 8]) =
          some (bs, (List.range m).map fun i => (vals.getD (2 * q + i) 0).toNat) := by
  obtain ⟨out, hsyn, -, hswap⟩ := synthesizeBitstream_bytes vals
  refine ⟨out, hsyn, fun m hm => ?_⟩
  obtain ⟨bs, hr⟩ := run_reads_bytes (out.drop (2 * q)) pad hpad hm h8 hn
  refine ⟨bs, hr.trans ?_⟩
  simp only [swap16_drop, hswap, getD_drop_zero, getD_append_replicate_zero]

theorem synthesizeBitstream_loads_aligned_from_two :
    ∃ out, synthesizeBitstream (([0, 1, 2, 3, 4, 5] : List UInt8).map fun v => (v.toNat, 8)) =
        some out ∧
      ∀ m ≤ 4 * ((out.drop (2 * 1)).length / 4), ∃ bs,
        (BitStreamer.init (out.drop (2 * 1)) [0xAA, 0xBB, 0xCC, 0xDD]).run tag
            ((List.range m).flatMap fun _ => [Op.fill 32, Op.getBitsNoFill 8]) =
          some (bs, (List.range m).map fun i =>
            (([0, 1, 2, 3, 4, 5] : List UInt8).getD (2 * 1 + i) 0).toNat) :=
  synthesizeBitstream_loads_aligned _ 1 (by decide) (le_refl 32) _ (by decide)

example : ((synthesizeBitstream (([0, 1, 2, 3, 4, 5, 6, 7] : List UInt8).map
    fun v => (v.toNat, 8))).bind fun out => ((BitStreamer.init (out.drop 1)
      [0xAA, 0xBB, 0xCC, 0xDD]).run tag
      ((List.range 4).flatMap fun _ => [Op.fill 8, Op.getBitsNoFill 8])).map Prod.snd) =
    some [3, 0, 5, 2] := by decide

end Synthesis

end RawSpeed
