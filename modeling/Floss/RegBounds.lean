import Floss.Translation

/-!
# Decoding Within a Property

The five places that decode a `reg` or `ranges` property divide its length by the size of a
pair or triplet, in bytes. That size is a 32-bit product of a sum of cell counts, and a
device tree may carry any 32-bit counts: the size can come out as zero, or as less than what
is then read.

* `DecodesSafely m prop decode`: decoding divides by no zero and reads no byte but those of
  the value;
* `readRegPair_safe_iff`, `translateTriplets_safe`, `fits_of_translateTriplets`: reads of a
  pair and of triplets;
* `decoding_safe_iff`: for each of the five places, the counts and lengths for which it is
  safe.

Pairs go wrong in one way each: two address cells with a size count that wraps the sum
around to one cell (`AddressCut`), and the other way round (`SizeCut`).
-/

namespace Floss

/-- A division by zero, or a read of a byte that is not there. -/
def Fault.IsUnsafe (e : Fault) : Prop := e = .divZero ∨ ∃ a, e = .access a

/-- Decoding a property is **safe**: it divides by no zero, and it completes or stops at an
assertion even if only the bytes of the value are readable. -/
def DecodesSafely {α : Type} (m : Mem) (prop : PropFrame) (decode : Mem → Exec α) : Prop :=
  Avoids (decode (m.restrict prop.value (prop.value + prop.len))) Fault.IsUnsafe

/-! ### Rules for the checks -/

section Rules

variable {α β : Type}

theorem not_isUnsafe_panic (detail : String) : ¬ Fault.IsUnsafe (.panic detail) := by
  simp [Fault.IsUnsafe]

/-- What follows an assertion has to be safe where the assertion holds. -/
theorem kassert_bind_safe_iff {p : Prop} [Decidable p] {detail : String} {x : Exec α} :
    Avoids (do kassert p detail; x) Fault.IsUnsafe ↔ (p → Avoids x Fault.IsUnsafe) := by
  by_cases hp : p
  · rw [kassert_of hp, ok_bind]
    exact ⟨fun h _ => h, fun h => h hp⟩
  · rw [kassert, if_neg hp]
    exact ⟨fun _ h => absurd h hp, fun _ => avoids_error (not_isUnsafe_panic detail)⟩

/-- What follows a division is safe if the divisor is not zero, and else nothing is. -/
theorem udiv_bind_safe_iff {n d : ℕ} {f : ℕ → Exec α} :
    Avoids (udiv n d >>= f) Fault.IsUnsafe ↔ d ≠ 0 ∧ Avoids (f (n / d)) Fault.IsUnsafe := by
  by_cases hd : d = 0
  · rw [udiv, if_pos hd]
    exact ⟨fun h => absurd (.inl rfl) (h .divZero rfl), fun h => absurd hd h.1⟩
  · rw [udiv_of hd, ok_bind]
    exact ⟨fun h => ⟨hd, h⟩, fun h => h.2⟩

theorem umod_bind_safe_iff {n d : ℕ} {f : ℕ → Exec α} :
    Avoids (umod n d >>= f) Fault.IsUnsafe ↔ d ≠ 0 ∧ Avoids (f (n % d)) Fault.IsUnsafe := by
  by_cases hd : d = 0
  · rw [umod, if_pos hd]
    exact ⟨fun h => absurd (.inl rfl) (h .divZero rfl), fun h => absurd hd h.1⟩
  · rw [umod_of hd, ok_bind]
    exact ⟨fun h => ⟨hd, h⟩, fun h => h.2⟩

/-- A run that stops at reads only, and does not, completes. -/
theorem exists_ok_of_safe {x : Exec α} (hx : Avoids x fun e => ¬ ∃ a, e = .access a)
    (h : Avoids x Fault.IsUnsafe) : ∃ v, x = .ok v := by
  cases x with
  | ok v => exact ⟨v, rfl⟩
  | error e => exact absurd (.inr (not_not.1 (hx e rfl))) (h e rfl)

/-- Restricting the memory to a readable range leaves it readable. -/
theorem readable_restrict {m : Mem} {lo hi : ℕ} (h : m.Readable lo hi) :
    (m.restrict lo hi).Readable lo hi := by
  intro a ha ha'
  rw [Mem.restrict, if_pos ⟨ha, ha'⟩]
  exact h a ha ha'

end Rules

/-! ### Pairs -/

/-- A field of `n` cells at offset `off` of a value is within it. Fields of other than one or
two cells are not read. -/
def FieldFits (n off len : ℕ) : Prop := n = 1 ∨ n = 2 → off + n * 4 ≤ len

/-- Both fields of a pair at offset `off` are within the value. -/
def PairFits (cells : NodeCells) (off len : ℕ) : Prop :=
  FieldFits cells.address off len ∧
    FieldFits cells.size (off + cells.address * 4 % 2 ^ 32) len

/-- A field of a pair. -/
def readField (m : Mem) (n p : ℕ) : Exec ℕ :=
  if n = 1 then be32 m p else if n = 2 then be64 m p else .ok 0

theorem readRegPair_eq (m : Mem) (cells : NodeCells) (value : ℕ) :
    readRegPair m cells value = (do
      let address ← readField m cells.address value
      let length ← readField m cells.size (value + cells.address * 4 % 2 ^ 32)
      return ⟨address, length⟩) := by
  rw [readRegPair, readField, readField]
  split
  · split
    · rfl
    · split <;> rfl
  · split
    · split
      · rfl
      · split <;> rfl
    · split
      · rfl
      · split <;> rfl

section Pair

variable {m : Mem} {lo len : ℕ}

theorem readField_avoids {bad : Fault → Prop} (hbad : ∀ a, ¬ bad (.access a)) (m : Mem)
    (n p : ℕ) : Avoids (readField m n p) bad := by
  rw [readField]
  split
  · exact be32_avoids hbad m p
  · split
    · exact be64_avoids hbad m p
    · exact avoids_ok _

/-- A field can be read from the value exactly when it is within it. -/
theorem readField_isOk_iff (hr : m.Readable lo (lo + len)) (n off : ℕ) :
    (∃ v, readField (m.restrict lo (lo + len)) n (lo + off) = .ok v) ↔ FieldFits n off len := by
  have hr' := readable_restrict hr
  rw [readField, FieldFits]
  by_cases h1 : n = 1
  · rw [if_pos h1]
    constructor
    · rintro ⟨v, hv⟩ -
      by_contra hlt
      exact be32_restrict_ne_ok (by omega) v hv
    · intro h
      exact be32_isOk hr' (by omega) (by omega)
  rw [if_neg h1]
  by_cases h2 : n = 2
  · rw [if_pos h2]
    constructor
    · rintro ⟨v, hv⟩ -
      by_contra hlt
      obtain ⟨-, -, y, hy, -⟩ := by simpa only [be64, bind_eq_ok] using hv
      exact be32_restrict_ne_ok (by omega) y hy
    · intro h
      exact be64_isOk hr' (by omega) (by omega)
  · rw [if_neg h2]
    exact ⟨fun _ h => by omega, fun _ => ⟨0, rfl⟩⟩

theorem readRegPair_avoids {bad : Fault → Prop} (hbad : ∀ a, ¬ bad (.access a)) (m : Mem)
    (cells : NodeCells) (p : ℕ) : Avoids (readRegPair m cells p) bad := by
  rw [readRegPair_eq]
  exact (readField_avoids hbad m _ _).bind fun _ _ =>
    (readField_avoids hbad m _ _).bind fun _ _ => avoids_ok _

/-- A pair can be read from the value exactly when its fields are within it. -/
theorem readRegPair_isOk_iff (hr : m.Readable lo (lo + len)) (cells : NodeCells) (off : ℕ) :
    (∃ rp, readRegPair (m.restrict lo (lo + len)) cells (lo + off) = .ok rp) ↔
      PairFits cells off len := by
  rw [PairFits, ← readField_isOk_iff hr, ← readField_isOk_iff hr, readRegPair_eq, Nat.add_assoc]
  constructor
  · rintro ⟨rp, hrp⟩
    obtain ⟨address, haddress, hrp⟩ := bind_eq_ok.1 hrp
    obtain ⟨length, hlength, -⟩ := bind_eq_ok.1 hrp
    exact ⟨⟨address, haddress⟩, ⟨length, hlength⟩⟩
  · rintro ⟨⟨address, haddress⟩, ⟨length, hlength⟩⟩
    exact ⟨_, by rw [haddress, ok_bind, hlength, ok_bind]; rfl⟩

/-- **Reading a pair is safe** exactly when its fields are within the value. -/
theorem readRegPair_safe_iff (hr : m.Readable lo (lo + len)) (cells : NodeCells) (off : ℕ) :
    Avoids (readRegPair (m.restrict lo (lo + len)) cells (lo + off)) Fault.IsUnsafe ↔
      PairFits cells off len := by
  rw [← readRegPair_isOk_iff hr]
  constructor
  · exact exists_ok_of_safe (readRegPair_avoids (by simp) _ _ _)
  · rintro ⟨rp, hrp⟩
    rw [hrp]
    exact avoids_ok rp

/-- **A loop over pairs** is safe if they are within the value, and so is what is done with
them. -/
theorem pairLoop_safe {σ : Type} (hr : m.Readable lo (lo + len)) {cells : NodeCells}
    {size n : ℕ} {use : σ → ℕ → RegPair → Exec σ}
    (hfits : ∀ j < n, PairFits cells (j * size) len)
    (huse : ∀ s j rp, Avoids (use s j rp) Fault.IsUnsafe) (s : σ) :
    Avoids ((List.range n).foldlM (fun s j => do
      let rp ← readRegPair (m.restrict lo (lo + len)) cells (lo + j * size)
      use s j rp) s) Fault.IsUnsafe := by
  refine foldlM_avoids_of_mem (fun j hj s => ?_) s
  have hpair := (readRegPair_safe_iff hr cells (j * size)).2 (hfits j (List.mem_range.1 hj))
  exact hpair.bind fun rp _ => huse s j rp

/-- The converse, where the pairs are only stored. -/
theorem pairFits_of_loop {σ : Type} (store : σ → ℕ → RegPair → σ)
    (hr : m.Readable lo (lo + len)) {cells : NodeCells} {size n : ℕ} {s : σ}
    (h : Avoids ((List.range n).foldlM (fun s j => do
      let rp ← readRegPair (m.restrict lo (lo + len)) cells (lo + j * size)
      return store s j rp) s) Fault.IsUnsafe) :
    ∀ j < n, PairFits cells (j * size) len := by
  obtain ⟨r, hrun⟩ := exists_ok_of_safe (foldlM_avoids_of_mem (fun j _ s =>
    (readRegPair_avoids (by simp) _ _ _).bind fun _ _ => avoids_ok _) s) h
  refine foldlM_range_invariant (fun i _ => ∀ j < i, PairFits cells (j * size) len)
    (fun j hj => absurd hj (Nat.not_lt_zero j)) (fun i t u hi hinv hstep j hj => ?_) hrun
  obtain ⟨rp, hrp, -⟩ := bind_eq_ok.1 hstep
  rcases Nat.lt_succ_iff_lt_or_eq.1 hj with hj | rfl
  · exact hinv j hj
  · exact (readRegPair_isOk_iff hr cells _).1 ⟨rp, hrp⟩

end Pair

/-! ### The size of a pair -/

namespace NodeCells

/-- The size of a pair comes out as zero. -/
def Vanish (c : NodeCells) : Prop := (c.address + c.size) % 2 ^ 30 = 0

/-- Two address cells, in a pair whose size comes out as one cell. -/
def AddressCut (c : NodeCells) : Prop := c.address = 2 ∧ c.size % 2 ^ 30 = 2 ^ 30 - 1

/-- Two size cells, in a pair whose size comes out as one cell. -/
def SizeCut (c : NodeCells) : Prop := c.size = 2 ∧ c.address % 2 ^ 30 = 2 ^ 30 - 1

variable {c : NodeCells}

theorem byteSize_eq (c : NodeCells) : c.byteSize = (c.address + c.size) % 2 ^ 30 * 4 := by
  rw [byteSize, total]
  omega

theorem byteSize_ne_zero_iff : c.byteSize ≠ 0 ↔ ¬ c.Vanish := by
  rw [byteSize_eq, Vanish]
  omega

/-- A pair that is not cut has room for its fields. -/
theorem pairFits_byteSize (haddress : c.address < 2 ^ 32) (hsize : c.size < 2 ^ 32)
    (hpos : ¬ c.Vanish) (hcut : ¬ c.AddressCut) (hcut' : ¬ c.SizeCut) {off len : ℕ}
    (hlen : off + c.byteSize ≤ len) : PairFits c off len := by
  rw [byteSize_eq] at hlen
  rw [Vanish] at hpos
  rw [AddressCut] at hcut
  rw [SizeCut] at hcut'
  constructor
  · rintro (h | h) <;> omega
  · rintro (h | h) <;> omega

/-- A pair that is cut has the size of a cell. -/
theorem byteSize_of_cut (h : c.AddressCut ∨ c.SizeCut) : c.byteSize = 4 := by
  rw [byteSize_eq]
  rcases h with ⟨h2, hwrap⟩ | ⟨h2, hwrap⟩ <;> omega

theorem AddressCut.pairFits_iff (h : c.AddressCut) {off len : ℕ} :
    PairFits c off len ↔ off + 8 ≤ len := by
  obtain ⟨h2, hwrap⟩ := h
  rw [PairFits, FieldFits, FieldFits]
  omega

theorem SizeCut.not_pairFits (h : c.SizeCut) {off len : ℕ} (hlen : len < 2 ^ 32) :
    ¬ PairFits c off len := by
  obtain ⟨h2, hwrap⟩ := h
  rw [PairFits, FieldFits, FieldFits]
  omega

end NodeCells

/-- Each of the pairs that a length allows for ends within it. -/
theorem pair_end_le {size len j : ℕ} (hj : j < len / size) : j * size + size ≤ len := by
  rw [← Nat.succ_mul]
  exact (Nat.mul_le_mul_right size hj).trans (Nat.div_mul_le_self len size)

/-! ### Decoding `reg` -/

section Reg

variable {m : Mem} {cells : NodeCells} {prop : PropFrame}
  (hread : m.Readable prop.value (prop.value + prop.len))
  (haddress : cells.address < 2 ^ 32) (hsize : cells.size < 2 ^ 32) (hlen : prop.len < 2 ^ 32)

include haddress hsize hlen in
/-- A value that is a single pair, as far as its length tells. -/
theorem singlePair_fits_iff (hpos : ¬ cells.Vanish) :
    (prop.len % cells.byteSize = 0 → prop.len / cells.byteSize = 1 →
      PairFits cells 0 prop.len) ↔
    ¬ (prop.len = 4 ∧ (cells.AddressCut ∨ cells.SizeCut)) := by
  have hdiv := Nat.div_add_mod prop.len cells.byteSize
  constructor
  · rintro hfits ⟨hfour, hcut⟩
    rw [NodeCells.byteSize_of_cut hcut] at hfits
    have hpair := hfits (by omega) (by omega)
    rcases hcut with hcut | hcut
    · have := hcut.pairFits_iff.1 hpair
      omega
    · exact hcut.not_pairFits hlen hpair
  · intro hnot hmod hone
    rw [hmod, hone, Nat.mul_one, Nat.add_zero] at hdiv
    have hcut : ¬ (cells.AddressCut ∨ cells.SizeCut) := by
      intro hcut
      exact hnot ⟨hdiv ▸ NodeCells.byteSize_of_cut hcut, hcut⟩
    rw [not_or] at hcut
    exact NodeCells.pairFits_byteSize haddress hsize hpos hcut.1 hcut.2 (by omega)

include hread haddress hsize hlen in
/-- **`Memory::dt_parse`**: one pair. -/
theorem memoryReg_safe_iff :
    DecodesSafely m prop (fun m => memoryReg m cells prop) ↔
      ¬ cells.Vanish ∧ ¬ (prop.len = 4 ∧ (cells.AddressCut ∨ cells.SizeCut)) := by
  have hpair := readRegPair_safe_iff hread cells 0
  rw [Nat.add_zero] at hpair
  simp only [DecodesSafely, memoryReg, udiv_bind_safe_iff, umod_bind_safe_iff,
    kassert_bind_safe_iff, hpair, NodeCells.byteSize_ne_zero_iff]
  constructor
  · rintro ⟨hpos, -, hfits⟩
    exact ⟨hpos, (singlePair_fits_iff haddress hsize hlen hpos).1 hfits⟩
  · rintro ⟨hpos, hcut⟩
    exact ⟨hpos, hpos, (singlePair_fits_iff haddress hsize hlen hpos).2 hcut⟩

include hread haddress hsize hlen in
/-- **`CPU::dt_parse`**: one pair, of which the address is used. -/
theorem cpuReg_safe_iff :
    DecodesSafely m prop (fun m => cpuReg m cells prop) ↔
      ¬ cells.Vanish ∧ ¬ (prop.len = 4 ∧ (cells.AddressCut ∨ cells.SizeCut)) := by
  have hpair := readRegPair_safe_iff hread cells 0
  rw [Nat.add_zero] at hpair
  have huse : Avoids (do
      let rp ← readRegPair (m.restrict prop.value (prop.value + prop.len)) cells prop.value
      return rp.address) Fault.IsUnsafe ↔ PairFits cells 0 prop.len := by
    rw [← hpair]
    constructor
    · intro h e he
      exact h e (by rw [he]; rfl)
    · intro h
      exact h.bind fun _ _ => avoids_ok _
  simp only [DecodesSafely, cpuReg, udiv_bind_safe_iff, umod_bind_safe_iff,
    kassert_bind_safe_iff, huse, NodeCells.byteSize_ne_zero_iff]
  constructor
  · rintro ⟨hpos, hfits⟩
    refine ⟨hpos, (singlePair_fits_iff haddress hsize hlen hpos).1 fun hmod hone => ?_⟩
    exact (hfits hmod).2 hone
  · rintro ⟨hpos, hcut⟩
    refine ⟨hpos, fun hmod => ⟨hpos, fun hone => ?_⟩⟩
    exact (singlePair_fits_iff haddress hsize hlen hpos).2 hcut hmod hone

include hread haddress hsize hlen in
/-- **`UART::dt_parse`**: all pairs of the value. -/
theorem uartReg_safe_iff :
    (∀ (σ : Type) (first : σ → RegPair → Exec σ) (s : σ),
      (∀ s rp, Avoids (first s rp) Fault.IsUnsafe) →
        DecodesSafely m prop (fun m => uartReg m cells prop first s)) ↔
    ¬ cells.Vanish ∧
      ¬ (prop.len ≠ 0 ∧ prop.len % 4 = 0 ∧ (cells.AddressCut ∨ cells.SizeCut)) := by
  have hdiv := Nat.div_add_mod prop.len cells.byteSize
  simp only [DecodesSafely, uartReg, udiv_bind_safe_iff, umod_bind_safe_iff,
    kassert_bind_safe_iff, NodeCells.byteSize_ne_zero_iff]
  constructor
  · intro h
    -- handlers that do nothing with the first pair
    obtain ⟨hpos, -, hloop⟩ := h Unit (fun s _ => .ok s) () fun _ _ => avoids_ok _
    refine ⟨hpos, ?_⟩
    rintro ⟨hne, hfour, hcut⟩
    rw [NodeCells.byteSize_of_cut hcut] at hloop hdiv
    have hfits := pairFits_of_loop (fun s _ _ => s) hread
      (by simpa using hloop hfour) (prop.len / 4 - 1) (by omega)
    rcases hcut with hcut | hcut
    · have := hcut.pairFits_iff.1 hfits
      omega
    · exact hcut.not_pairFits hlen hfits
  · rintro ⟨hpos, hnot⟩ σ first s hfirst
    refine ⟨hpos, hpos, fun hmod => pairLoop_safe hread (fun j hj => ?_) (fun s j rp => ?_) s⟩
    · have hstep := pair_end_le hj
      have hcut : ¬ (cells.AddressCut ∨ cells.SizeCut) := by
        intro hcut
        rw [NodeCells.byteSize_of_cut hcut] at hmod hstep
        exact hnot ⟨by omega, hmod, hcut⟩
      rw [not_or] at hcut
      exact NodeCells.pairFits_byteSize haddress hsize hpos hcut.1 hcut.2 hstep
    · split
      · exact hfirst s rp
      · exact avoids_ok s

include hread haddress hsize hlen in
/-- **The GIC's `parse_dt`**: the first two pairs of the value. -/
theorem gicReg_safe_iff (regs : ℕ → RegPair) :
    DecodesSafely m prop (fun m => gicReg m cells prop regs) ↔
      ¬ cells.Vanish ∧ ¬ (prop.len = 8 ∧ cells.AddressCut) ∧
        ¬ (8 ≤ prop.len ∧ prop.len % 4 = 0 ∧ cells.SizeCut) := by
  have hdiv := Nat.div_add_mod prop.len cells.byteSize
  have htwo : gicNumRegPairs = 2 := rfl
  simp only [DecodesSafely, gicReg, udiv_bind_safe_iff, umod_bind_safe_iff,
    kassert_bind_safe_iff, NodeCells.byteSize_ne_zero_iff]
  constructor
  · rintro ⟨hpos, hloop⟩
    have hfits : cells.AddressCut ∨ cells.SizeCut → 8 ≤ prop.len → prop.len % 4 = 0 →
        PairFits cells (1 * 4) prop.len := by
      intro hcut height hmod
      rw [NodeCells.byteSize_of_cut hcut] at hloop
      exact pairFits_of_loop (fun regs j rp => Function.update regs j rp) hread
        ((hloop (by omega)).2 hmod) 1 (by omega)
    refine ⟨hpos, ?_, ?_⟩
    · rintro ⟨height, hcut⟩
      have := hcut.pairFits_iff.1 (hfits (.inl hcut) (by omega) (by omega))
      omega
    · rintro ⟨height, hmod, hcut⟩
      exact hcut.not_pairFits hlen (hfits (.inr hcut) height hmod)
  · rintro ⟨hpos, hcut, hcut'⟩
    refine ⟨hpos, fun hnum => ⟨hpos, fun hmod => pairLoop_safe hread (fun j hj => ?_)
      (fun regs j rp => avoids_ok _) regs⟩⟩
    rw [hmod, Nat.add_zero] at hdiv
    by_cases haddr : cells.AddressCut
    · have hne : prop.len ≠ 8 := fun height => hcut ⟨height, haddr⟩
      rw [NodeCells.byteSize_of_cut (.inl haddr)] at hdiv hnum ⊢
      exact haddr.pairFits_iff.2 (by omega)
    by_cases hsz : cells.SizeCut
    · rw [NodeCells.byteSize_of_cut (.inr hsz)] at hdiv hnum
      exact absurd ⟨by omega, by omega, hsz⟩ hcut'
    exact NodeCells.pairFits_byteSize haddress hsize hpos haddr hsz (pair_end_le (by omega))

end Reg

/-! ### Decoding `ranges` -/

section Ranges

variable {m : Mem} {lo hi p : ℕ}

theorem readCells_avoids {bad : Fault → Prop} (hbad : ∀ a, ¬ bad (.access a)) (m : Mem)
    (p n : ℕ) : Avoids (readCells m p n) bad :=
  foldlM_avoids_of_mem (fun _ _ _ => (be32_avoids hbad m _).bind fun _ _ => avoids_ok _) 0

theorem readCells_isOk (hr : m.Readable lo hi) {n : ℕ} (hlo : lo ≤ p) (hhi : p + n * 4 ≤ hi) :
    ∃ v, readCells m p n = .ok v := by
  have hcell : ∀ done i rest (v : ℕ), List.range n = done ++ i :: rest → True →
      ∃ u, (do return v <<< 32 % 2 ^ 64 ||| (← be32 m (p + i * 4)) : Exec ℕ) = .ok u ∧ True := by
    intro done i rest v hsplit _
    have hi : i < n := List.mem_range.1 (by rw [hsplit]; simp)
    obtain ⟨c, hc⟩ := be32_isOk hr (by omega : lo ≤ p + i * 4) (by omega)
    exact ⟨_, by rw [hc, ok_bind]; rfl, trivial⟩
  obtain ⟨v, hv, -⟩ := foldlM_total (fun _ _ => True) (s := 0) trivial hcell
  exact ⟨v, hv⟩

/-- Cells that are read are within the range. -/
theorem readCells_restrict_le {n v : ℕ} (h : readCells (m.restrict lo hi) p n = .ok v) :
    n = 0 ∨ p + n * 4 ≤ hi := by
  rcases n with _ | n
  · exact .inl rfl
  · rw [readCells, List.range_succ, foldlM_append_eq_ok] at h
    obtain ⟨t, -, hlast⟩ := h
    rw [List.foldlM_cons] at hlast
    obtain ⟨u, hu, -⟩ := bind_eq_ok.1 hlast
    obtain ⟨c, hc, -⟩ := bind_eq_ok.1 hu
    by_contra hlt
    exact be32_restrict_ne_ok (by omega) c hc

variable {childCells parentCells sizeCells : ℕ}

theorem translateTriplets_avoids {bad : Fault → Prop} (hbad : ∀ a, ¬ bad (.access a)) (m : Mem)
    (left p address : ℕ) :
    Avoids (translateTriplets m childCells parentCells sizeCells left p address) bad := by
  induction left generalizing p with
  | zero => exact avoids_ok _
  | succ left ih =>
      rw [translateTriplets]
      refine (readCells_avoids hbad m _ _).bind fun _ _ => ?_
      refine (readCells_avoids hbad m _ _).bind fun _ _ => ?_
      refine (readCells_avoids hbad m _ _).bind fun _ _ => ?_
      split
      · exact avoids_ok _
      · exact ih _

/-- **Triplets within a value** are decoded safely. -/
theorem translateTriplets_safe (hr : m.Readable lo hi) {left address : ℕ} (hlo : lo ≤ p)
    (hhi : p + left * ((childCells + parentCells + sizeCells) * 4) ≤ hi) :
    Avoids (translateTriplets m childCells parentCells sizeCells left p address)
      Fault.IsUnsafe := by
  induction left generalizing p with
  | zero => exact avoids_ok _
  | succ left ih =>
      rw [Nat.succ_mul] at hhi
      obtain ⟨child, hchild⟩ := readCells_isOk (n := childCells) hr hlo (by omega)
      obtain ⟨parent, hparent⟩ := readCells_isOk (n := parentCells) (p := p + childCells * 4) hr
        (by omega) (by omega)
      obtain ⟨length, hlength⟩ := readCells_isOk (n := sizeCells)
        (p := p + childCells * 4 + parentCells * 4) hr (by omega) (by omega)
      simp only [translateTriplets, hchild, hparent, hlength, ok_bind]
      split
      · exact avoids_ok _
      · exact ih (by omega) (by omega)

/-- The first triplet is read to its end, whatever the address is. -/
theorem fits_of_translateTriplets {left address : ℕ} (hp : p ≤ hi)
    (h : Avoids (translateTriplets (m.restrict lo hi) childCells parentCells sizeCells (left + 1)
      p address) Fault.IsUnsafe) :
    p + (childCells + parentCells + sizeCells) * 4 ≤ hi := by
  obtain ⟨v, hv⟩ := exists_ok_of_safe (translateTriplets_avoids (by simp) _ _ _ _) h
  rw [translateTriplets] at hv
  obtain ⟨child, hchild, hv⟩ := bind_eq_ok.1 hv
  obtain ⟨parent, hparent, hv⟩ := bind_eq_ok.1 hv
  obtain ⟨length, hlength, -⟩ := bind_eq_ok.1 hv
  have h₁ := readCells_restrict_le hchild
  have h₂ := readCells_restrict_le hparent
  have h₃ := readCells_restrict_le hlength
  omega

/-- The cells of a triplet of the bus. -/
def NodeFrame.tripletCells (bus : NodeFrame) : ℕ :=
  bus.ownCells.address + bus.parentCells.address + bus.ownCells.size

/-- **`translate_address`**, on the `ranges` of one bus. -/
theorem translateRanges_safe_iff {bus : NodeFrame} {ranges : PropFrame} (address : ℕ)
    (hread : m.Readable ranges.value (ranges.value + ranges.len)) (hlen : ranges.len < 2 ^ 32) :
    DecodesSafely m ranges (fun m => translateRanges m bus (some ranges) address) ↔
      ranges.len = 0 ∨ bus.tripletCells % 2 ^ 30 ≠ 0 ∧
        (2 ^ 30 ≤ bus.tripletCells → ranges.len < bus.tripletCells % 2 ^ 30 * 4) := by
  have hsize : bus.tripletCells % 2 ^ 32 * 4 % 2 ^ 32 = bus.tripletCells % 2 ^ 30 * 4 := by omega
  simp only [DecodesSafely, translateRanges]
  by_cases hzero : ranges.len = 0
  · rw [if_pos hzero]
    exact iff_of_true (avoids_ok _) (.inl hzero)
  rw [if_neg hzero, udiv_bind_safe_iff, ← NodeFrame.tripletCells, hsize]
  constructor
  · rintro ⟨hpos, hloop⟩
    refine .inr ⟨by omega, fun hwrap => ?_⟩
    by_contra hlt
    have hone : 0 < ranges.len / (bus.tripletCells % 2 ^ 30 * 4) :=
      Nat.div_pos (by omega) (by omega)
    obtain ⟨n, hn⟩ : ∃ n, ranges.len / (bus.tripletCells % 2 ^ 30 * 4) = n + 1 :=
      ⟨_, (Nat.succ_pred_eq_of_pos hone).symm⟩
    rw [hn] at hloop
    have hfits := fits_of_translateTriplets (Nat.le_add_right _ _) hloop
    rw [← NodeFrame.tripletCells] at hfits
    omega
  · rintro (hlen' | ⟨hpos, hwrap⟩)
    · exact absurd hlen' hzero
    refine ⟨by omega, ?_⟩
    by_cases hsum : 2 ^ 30 ≤ bus.tripletCells
    · -- no whole triplet, as far as the length tells
      rw [Nat.div_eq_of_lt (hwrap hsum)]
      exact avoids_ok _
    · refine translateTriplets_safe (readable_restrict hread) le_rfl ?_
      rw [← NodeFrame.tripletCells, Nat.mod_eq_of_lt (by omega)]
      have := Nat.div_mul_le_self ranges.len (bus.tripletCells * 4)
      omega

end Ranges

/-- The search of the phandle table stops at its bounds only. -/
theorem find_avoids {bad : Fault → Prop} (hbad : ∀ i n, ¬ bad (.bounds i n)) (t : PhandleTable)
    (phandle left i : ℕ) : Avoids (t.find phandle left i) bad := by
  induction left generalizing i with
  | zero => exact avoids_ok _
  | succ left ih =>
      rw [PhandleTable.find]
      refine Avoids.bind (avoids_inBounds fun _ => hbad _ _) fun _ _ => ?_
      split
      · exact avoids_ok _
      · exact ih _

/-- The `interrupts` property of a UART is divided by a number of cells that is not zero:
the lookup insists on that. -/
theorem uartInterrupts_divides (m : Mem) (table : PhandleTable) (f : NodeFrame)
    (prop : PropFrame) : Avoids (uartInterrupts m table f prop) (· = .divZero) := by
  have hpanic : ∀ detail, ¬ Fault.panic detail = .divZero := by simp
  rw [uartInterrupts]
  refine Avoids.bind ?_ fun cells hcells => ?_
  · rw [NodeCells.lookupInterruptCells]
    refine Avoids.bind (avoids_kassert fun _ => hpanic _) fun _ _ => ?_
    refine Avoids.bind (find_avoids (by simp) _ _ _ _) fun found _ => ?_
    cases found with
    | none => exact avoids_error (hpanic _)
    | some mapping => exact Avoids.bind (avoids_kassert fun _ => hpanic _) fun _ _ => avoids_ok _
  · have hpos : cells ≠ 0 := by
      rw [NodeCells.lookupInterruptCells] at hcells
      obtain ⟨-, -, hcells⟩ := bind_eq_ok.1 hcells
      obtain ⟨found, -, hcells⟩ := bind_eq_ok.1 hcells
      cases found with
      | none => simp at hcells
      | some mapping =>
          obtain ⟨_, hne, hcells⟩ := bind_eq_ok.1 hcells
          rw [← Except.ok.inj hcells]
          exact kassert_eq_ok.1 hne
    rw [udiv_of (by omega), ok_bind]
    refine Avoids.bind (avoids_kassert fun _ => hpanic _) fun _ _ => ?_
    refine foldlM_avoids_of_mem (fun j _ s => ?_) _
    refine Avoids.bind ?_ fun _ _ => ?_
    · exact (be32_avoids (by simp) m _).bind fun _ _ =>
        (be32_avoids (by simp) m _).bind fun _ _ => avoids_ok _
    · exact Avoids.bind (avoids_kassert fun _ => hpanic _) fun _ _ => avoids_ok _

/-- **When decoding is safe**, for all cell counts and lengths, place by place:

* one pair (`Memory`, `CPU`): the counts do not add up to a multiple of `2 ^ 30`, and it is
  not the case that the value has four bytes and the pair is cut;
* all pairs (`UART`), whatever is done with the first one: likewise, for every value that is
  a whole number of cells. Its division of `interrupts` is always safe;
* two pairs (`GIC`): likewise, for eight bytes, or from eight bytes on if the size is cut;
* triplets (`translate_address`): the value is empty, or the counts do not add up to a
  multiple of `2 ^ 30` and, from `2 ^ 30` on, the value is shorter than the size of a triplet
  comes out. -/
theorem decoding_safe_iff {m : Mem} {cells : NodeCells} {bus : NodeFrame}
    {prop ranges : PropFrame} (haddress : cells.address < 2 ^ 32) (hsize : cells.size < 2 ^ 32)
    (hlen : prop.len < 2 ^ 32) (hread : m.Readable prop.value (prop.value + prop.len))
    (hlen' : ranges.len < 2 ^ 32)
    (hread' : m.Readable ranges.value (ranges.value + ranges.len)) :
    (DecodesSafely m prop (fun m => memoryReg m cells prop) ↔
      ¬ cells.Vanish ∧ ¬ (prop.len = 4 ∧ (cells.AddressCut ∨ cells.SizeCut))) ∧
    (DecodesSafely m prop (fun m => cpuReg m cells prop) ↔
      ¬ cells.Vanish ∧ ¬ (prop.len = 4 ∧ (cells.AddressCut ∨ cells.SizeCut))) ∧
    ((∀ (σ : Type) (first : σ → RegPair → Exec σ) (s : σ),
        (∀ s rp, Avoids (first s rp) Fault.IsUnsafe) →
          DecodesSafely m prop (fun m => uartReg m cells prop first s)) ↔
      ¬ cells.Vanish ∧
        ¬ (prop.len ≠ 0 ∧ prop.len % 4 = 0 ∧ (cells.AddressCut ∨ cells.SizeCut))) ∧
    (∀ table f, Avoids (uartInterrupts m table f prop) (· = .divZero)) ∧
    (∀ regs, DecodesSafely m prop (fun m => gicReg m cells prop regs) ↔
      ¬ cells.Vanish ∧ ¬ (prop.len = 8 ∧ cells.AddressCut) ∧
        ¬ (8 ≤ prop.len ∧ prop.len % 4 = 0 ∧ cells.SizeCut)) ∧
    (∀ address, DecodesSafely m ranges (fun m => translateRanges m bus (some ranges) address) ↔
      ranges.len = 0 ∨ bus.tripletCells % 2 ^ 30 ≠ 0 ∧
        (2 ^ 30 ≤ bus.tripletCells → ranges.len < bus.tripletCells % 2 ^ 30 * 4)) :=
  ⟨memoryReg_safe_iff hread haddress hsize hlen, cpuReg_safe_iff hread haddress hsize hlen,
    uartReg_safe_iff hread haddress hsize hlen,
    fun table f => uartInterrupts_divides m table f prop,
    gicReg_safe_iff hread haddress hsize hlen,
    fun address => translateRanges_safe_iff address hread' hlen'⟩

/-- Sixteen bytes of memory. -/
def sixteenBytes : Mem := Mem.ofBytes 64 (List.replicate 16 0)

/-- Two cells for each field: a value of sixteen bytes is one pair, and is read safely. -/
theorem decoding_safe_two_cells :
    DecodesSafely sixteenBytes ⟨nullptr, 64, 16⟩
      (fun m => memoryReg m ⟨2, 2, 0⟩ ⟨nullptr, 64, 16⟩) := by
  have hread : sixteenBytes.Readable 64 (64 + 16) := readable_ofBytes 64 (List.replicate 16 0)
  have hall := @decoding_safe_iff sixteenBytes ⟨2, 2, 0⟩ (zeroedFrames 0) ⟨nullptr, 64, 16⟩
    ⟨nullptr, 64, 16⟩ (by simp) (by simp) (by simp) hread (by simp) hread
  refine hall.1.2 ⟨?_, fun h => ?_⟩
  · simp [NodeCells.Vanish]
  · exact absurd h.1 (by simp)

/-- Without address and size cells, the length of a memory node's `reg` is divided by
zero. -/
theorem memoryReg_divides_by_zero :
    ¬ ∀ (m : Mem) (cells : NodeCells) (prop : PropFrame), cells.address < 2 ^ 32 →
      cells.size < 2 ^ 32 → prop.len < 2 ^ 32 →
      m.Readable prop.value (prop.value + prop.len) →
        DecodesSafely m prop (fun m => memoryReg m cells prop) := by
  intro h
  have hread : sixteenBytes.Readable 64 (64 + 16) := readable_ofBytes 64 (List.replicate 16 0)
  have hsafe := h sixteenBytes ⟨0, 0, 0⟩ ⟨nullptr, 64, 16⟩ (by simp) (by simp) (by simp) hread
  exact hsafe .divZero rfl (.inl rfl)

end Floss
