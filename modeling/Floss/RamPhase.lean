import Floss.PageTables

/-!
# The RAM Phase

What the tables hold once all RAM regions are mapped. The code picks the level from the
size of a region and the entries from its start, and every entry is the union of what the
regions put there. So the result is described by three sets of indices: the level 1 entries
marked as blocks, the level 1 entries marked as tables, and the level 2 entries marked as
blocks (`RamShape`). Each marking has one lemma that adds its index, each loop adds the
indices it runs over, and `ramPhase_shape` collects them for a whole list of regions.

`ram_mapped_exactly_iff` says when this is the identity map of the RAM.
-/

namespace Floss

/-! ### Descriptors -/

/-- A table descriptor. -/
def tableDesc (next : ℕ) : ℕ := pteTableType ||| next

/-- The attribute bits of a block of Normal memory. -/
def normalAttrs : ℕ := 0x40000000000709

/-- A block descriptor for Normal memory. -/
def blockNormal (offset : ℕ) : ℕ := normalAttrs ||| offset

theorem tableDesc_eq {x : ℕ} (h : Fits x 3) : tableDesc x = descriptor 0 x 3 := by
  have hor := or_eq_descriptor 0 h
  simpa [tableDesc, pteTableType] using hor

theorem blockNormal_eq {x : ℕ} (h : Fits x 0x709) :
    blockNormal x = descriptor 64 x 0x709 := by
  have hattrs : normalAttrs = 64 * 2 ^ 48 + 0x709 := by decide
  rw [blockNormal, hattrs]
  exact or_eq_descriptor 64 h

/-! ### Code steps -/

section Steps

variable {L : Layout} {s s' : Tables}

@[simp] theorem Tables.or_or (a x y : ℕ) : (s.or a x).or a y = s.or a (x ||| y) := by
  simp [Tables.or, Nat.or_assoc]

@[simp] theorem Tables.numL3_or (a x : ℕ) : (s.or a x).numL3 = s.numL3 := rfl

theorem Tables.word_or_self (a x : ℕ) : (s.or a x).word a = s.word a ||| x := by
  simp [Tables.or]

theorem Tables.word_or_of_ne {a b : ℕ} (x : ℕ) (h : b ≠ a) : (s.or a x).word b = s.word b := by
  simp [Tables.or, h]

theorem pteOr_eq_ok {t : TableRef} {idx x : ℕ} :
    pteOr s t idx x = .ok s' ↔ idx < t.size ∧ s' = s.or (t.base + 8 * idx) x := by
  simp only [pteOr, TableRef.entry, bind_eq_ok, inBounds_eq_ok, pure_eq_ok, Except.ok.injEq]
  constructor
  · rintro ⟨a, ⟨-, h, rfl⟩, rfl⟩
    exact ⟨h, rfl⟩
  · rintro ⟨h, rfl⟩
    exact ⟨_, ⟨(), h, rfl⟩, rfl⟩

/-- Mapping a slot of level 1 sets the bits of a block descriptor. -/
theorem mapNormalL1_eq_ok {k : ℕ} (h : mapNormalL1 L s k = .ok s') :
    k < 512 ∧ s' = s.or (L.l1 + 8 * k) (blockNormal (k * l1EntrySize)) := by
  simp only [mapNormalL1, pteMarkAsBlockDescriptorNormal, ptePointToOffset, pteSetMairAttr,
    bind_eq_ok, pteOr_eq_ok] at h
  obtain ⟨s₁, ⟨hk, rfl⟩, s₂, ⟨-, -, -, rfl⟩, -, -, -, rfl⟩ := h
  refine ⟨hk, ?_⟩
  simp only [Layout.l1Table, Tables.or_or, blockNormal]
  rw [Nat.or_assoc, Nat.or_comm (k * l1EntrySize), ← Nat.or_assoc]
  rfl

/-- Mapping a slot of level 2 sets the bits of a block descriptor. -/
theorem mapNormalL2_eq_ok {j : ℕ} (h : mapNormalL2 L s j = .ok s') :
    j < 512 * 512 ∧ s' = s.or (L.l2 + 8 * j) (blockNormal (j * l2EntrySize)) := by
  simp only [mapNormalL2, pteMarkAsBlockDescriptorNormal, ptePointToOffset, pteSetMairAttr,
    bind_eq_ok, pteOr_eq_ok] at h
  obtain ⟨s₁, ⟨hj, rfl⟩, s₂, ⟨-, -, -, rfl⟩, -, -, -, rfl⟩ := h
  refine ⟨hj, ?_⟩
  simp only [Layout.l2Table, Tables.or_or, blockNormal]
  rw [Nat.or_assoc, Nat.or_comm (j * l2EntrySize), ← Nat.or_assoc]
  rfl

/-- Pointing a slot of level 1 to its level 2 table sets the bits of a table descriptor. -/
theorem pointToL2_eq_ok {k : ℕ} (h : pointToL2 L s k = .ok s') :
    k < 512 ∧ s' = s.or (L.l1 + 8 * k) (tableDesc (L.l2 + 8 * (512 * k))) := by
  simp only [pointToL2, pteMarkAsTableDescriptor, ptePointToNextLevel, bind_eq_ok,
    pteOr_eq_ok] at h
  obtain ⟨s₁, ⟨hk, rfl⟩, -, -, -, rfl⟩ := h
  exact ⟨hk, by simp [Layout.l1Table, tableDesc]⟩

theorem setupL0_eq_ok (h : setupL0 L s = .ok s') : s' = s.or L.l0 (tableDesc L.l1) := by
  simp only [setupL0, pteMarkAsTableDescriptor, ptePointToNextLevel, bind_eq_ok,
    pteOr_eq_ok] at h
  obtain ⟨s₁, ⟨-, rfl⟩, -, -, -, rfl⟩ := h
  simp [Layout.l0Table, tableDesc]

end Steps

/-! ### Entries of different tables -/

namespace Layout

variable (L : Layout) {i k j t : ℕ}

theorem l0_ne_l1 (hi : i < 512) (hk : k < 512) : L.l0 + 8 * i ≠ L.l1 + 8 * k := by
  have := L.aligned
  have := L.disjoint01
  omega

theorem l0_ne_l2 (hi : i < 512) (hj : j < 512 * 512) : L.l0 + 8 * i ≠ L.l2 + 8 * j := by
  have := L.aligned
  have := L.disjoint02
  omega

theorem l0_ne_l3 (hi : i < 512) (ht : t < 32 * 512) : L.l0 + 8 * i ≠ L.l3 + 8 * t := by
  have := L.aligned
  have := L.disjoint03
  omega

theorem l1_ne_l2 (hk : k < 512) (hj : j < 512 * 512) : L.l1 + 8 * k ≠ L.l2 + 8 * j := by
  have := L.disjoint12
  omega

theorem l1_ne_l3 (hk : k < 512) (ht : t < 32 * 512) : L.l1 + 8 * k ≠ L.l3 + 8 * t := by
  have := L.disjoint13
  omega

theorem l2_ne_l3 (hj : j < 512 * 512) (ht : t < 32 * 512) : L.l2 + 8 * j ≠ L.l3 + 8 * t := by
  have := L.disjoint23
  omega

end Layout

/-- All tables are zero. -/
structure Zeroed (L : Layout) (s : Tables) : Prop where
  l0 : s.word L.l0 = 0
  l1 : ∀ k, k < 512 → s.word (L.l1 + 8 * k) = 0
  l2 : ∀ j, j < 512 * 512 → s.word (L.l2 + 8 * j) = 0
  l3 : ∀ t, t < 32 * 512 → s.word (L.l3 + 8 * t) = 0
  numL3 : s.numL3 = 0

/-- The tables during a RAM phase that started at `s₀`: the level 1 entries in `A` are marked as
blocks, those in `B` as tables, and the level 2 entries in `C` as blocks. What follows the one
entry of level 0 in its page is not touched. -/
structure RamShape (L : Layout) (s₀ s : Tables) (A B C : ℕ → Bool) : Prop where
  l0 : s.word L.l0 = tableDesc L.l1
  l0rest : ∀ i, 0 < i → i < 512 → s.word (L.l0 + 8 * i) = s₀.word (L.l0 + 8 * i)
  l1 : ∀ k, k < 512 → s.word (L.l1 + 8 * k) =
    (if A k then blockNormal (k * l1EntrySize) else 0) |||
      (if B k then tableDesc (L.l2 + 8 * (512 * k)) else 0)
  l2 : ∀ j, j < 512 * 512 → s.word (L.l2 + 8 * j) =
    if C j then blockNormal (j * l2EntrySize) else 0
  l3 : ∀ t, t < 32 * 512 → s.word (L.l3 + 8 * t) = 0
  numL3 : s.numL3 = 0

namespace RamShape

variable {L : Layout} {s₀ s s' : Tables} {A B C : ℕ → Bool}

/-- Writing a level 1 entry leaves everything but that entry. -/
theorem or_l1 (h : RamShape L s₀ s A B C) {k x : ℕ} (hk : k < 512) {A' B' : ℕ → Bool}
    (hA : ∀ i, i ≠ k → A' i = A i) (hB : ∀ i, i ≠ k → B' i = B i)
    (hx : s.word (L.l1 + 8 * k) ||| x =
      (if A' k then blockNormal (k * l1EntrySize) else 0) |||
        (if B' k then tableDesc (L.l2 + 8 * (512 * k)) else 0)) :
    RamShape L s₀ (s.or (L.l1 + 8 * k) x) A' B' C where
  l0 := by
    have hne := L.l0_ne_l1 (i := 0) (by decide) hk
    rw [Tables.word_or_of_ne _ (by simpa using hne)]
    exact h.l0
  l0rest i hi hi' := by
    rw [Tables.word_or_of_ne _ (L.l0_ne_l1 hi' hk)]
    exact h.l0rest i hi hi'
  l1 i hi := by
    by_cases hik : i = k
    · rw [hik, Tables.word_or_self]
      exact hx
    · rw [Tables.word_or_of_ne _ (by omega), hA i hik, hB i hik]
      exact h.l1 i hi
  l2 j hj := by
    rw [Tables.word_or_of_ne _ (L.l1_ne_l2 hk hj).symm]
    exact h.l2 j hj
  l3 t ht := by
    rw [Tables.word_or_of_ne _ (L.l1_ne_l3 hk ht).symm]
    exact h.l3 t ht
  numL3 := h.numL3

/-- Marking a level 1 entry as a block. -/
theorem mapNormalL1 (h : RamShape L s₀ s A B C) {k : ℕ} (hrun : mapNormalL1 L s k = .ok s') :
    RamShape L s₀ s' (fun i => A i || i == k) B C := by
  obtain ⟨hk, rfl⟩ := mapNormalL1_eq_ok hrun
  refine h.or_l1 hk (fun i hi => by simp [hi]) (fun i _ => rfl) ?_
  rw [h.l1 k hk]
  cases A k
  · simp [Nat.or_comm]
  · simp only [if_true, Bool.true_or]
    rw [Nat.or_right_comm, Nat.or_self]

/-- Marking a level 1 entry as a table. -/
theorem pointToL2 (h : RamShape L s₀ s A B C) {k : ℕ} (hrun : pointToL2 L s k = .ok s') :
    RamShape L s₀ s' A (fun i => B i || i == k) C := by
  obtain ⟨hk, rfl⟩ := pointToL2_eq_ok hrun
  refine h.or_l1 hk (fun i _ => rfl) (fun i hi => by simp [hi]) ?_
  rw [h.l1 k hk]
  cases B k
  · simp
  · simp only [if_true, Bool.true_or, Nat.or_assoc, Nat.or_self]

/-- Marking a level 2 entry as a block. -/
theorem mapNormalL2 (h : RamShape L s₀ s A B C) {j : ℕ} (hrun : mapNormalL2 L s j = .ok s') :
    RamShape L s₀ s' A B (fun i => C i || i == j) := by
  obtain ⟨hj, rfl⟩ := mapNormalL2_eq_ok hrun
  constructor
  · have hne := L.l0_ne_l2 (i := 0) (by decide) hj
    rw [Tables.word_or_of_ne _ (by simpa using hne)]
    exact h.l0
  · intro i hi hi'
    rw [Tables.word_or_of_ne _ (L.l0_ne_l2 hi' hj)]
    exact h.l0rest i hi hi'
  · intro k hk
    rw [Tables.word_or_of_ne _ (L.l1_ne_l2 hk hj)]
    exact h.l1 k hk
  · intro i hi
    by_cases hij : i = j
    · rw [hij, Tables.word_or_self, h.l2 j hj]
      cases C j <;> simp
    · rw [Tables.word_or_of_ne _ (by omega), h.l2 i hi]
      simp [hij]
  · intro t ht
    rw [Tables.word_or_of_ne _ (L.l2_ne_l3 hj ht).symm]
    exact h.l3 t ht
  · exact h.numL3

/-- No index yet. -/
theorem or_range_zero (S : ℕ → Bool) (a : ℕ) :
    (fun i => S i || decide (a ≤ i ∧ i < a + 0)) = S := by
  funext i
  simp

/-- One more index after `n` consecutive ones. -/
theorem or_range_succ (S : ℕ → Bool) (a n : ℕ) :
    (fun i => (S i || decide (a ≤ i ∧ i < a + n)) || i == a + n) =
      fun i => S i || decide (a ≤ i ∧ i < a + (n + 1)) := by
  funext i
  rw [Bool.or_assoc]
  congr 1
  rw [Bool.eq_iff_iff]
  simp only [Bool.or_eq_true, decide_eq_true_eq, beq_iff_eq]
  omega

/-- The loop over level 1 blocks. -/
theorem l1Blocks (h : RamShape L s₀ s A B C) {a n : ℕ}
    (hrun : (List.range n).foldlM (fun s i => Floss.mapNormalL1 L s (a + i)) s = .ok s') :
    RamShape L s₀ s' (fun i => A i || decide (a ≤ i ∧ i < a + n)) B C := by
  refine foldlM_range_invariant
    (fun n t => RamShape L s₀ t (fun i => A i || decide (a ≤ i ∧ i < a + n)) B C)
    ?_ ?_ hrun
  · rwa [or_range_zero]
  · intro i t u _ hinv hstep
    rw [← or_range_succ]
    exact hinv.mapNormalL1 hstep

/-- The loop over level 1 tables. -/
theorem l1Tables (h : RamShape L s₀ s A B C) {a n : ℕ}
    (hrun : (List.range n).foldlM (fun s i => Floss.pointToL2 L s (a + i)) s = .ok s') :
    RamShape L s₀ s' A (fun i => B i || decide (a ≤ i ∧ i < a + n)) C := by
  refine foldlM_range_invariant
    (fun n t => RamShape L s₀ t A (fun i => B i || decide (a ≤ i ∧ i < a + n)) C)
    ?_ ?_ hrun
  · rwa [or_range_zero]
  · intro i t u _ hinv hstep
    rw [← or_range_succ]
    exact hinv.pointToL2 hstep

/-- The loop over level 2 blocks. -/
theorem l2Blocks (h : RamShape L s₀ s A B C) {a n : ℕ}
    (hrun : (List.range n).foldlM (fun s i => Floss.mapNormalL2 L s (a + i)) s = .ok s') :
    RamShape L s₀ s' A B (fun i => C i || decide (a ≤ i ∧ i < a + n)) := by
  refine foldlM_range_invariant
    (fun n t => RamShape L s₀ t A B (fun i => C i || decide (a ≤ i ∧ i < a + n)))
    ?_ ?_ hrun
  · rwa [or_range_zero]
  · intro i t u _ hinv hstep
    rw [← or_range_succ]
    exact hinv.mapNormalL2 hstep

end RamShape

/-! ### Whole regions -/

namespace Region

/-- The level 1 entries that the region marks as blocks. -/
def blockL1 (r : Region) (k : ℕ) : Bool :=
  r.size % l1EntrySize = 0 ∧
    r.start / l1EntrySize ≤ k ∧ k < r.start / l1EntrySize + r.size / l1EntrySize

/-- The level 1 entries that the region marks as tables. -/
def tableL1 (r : Region) (k : ℕ) : Bool :=
  r.size % l1EntrySize ≠ 0 ∧
    r.start / l1EntrySize ≤ k ∧ k < r.start / l1EntrySize + l1Mappings r

/-- The level 2 entries that the region marks as blocks. -/
def blockL2 (r : Region) (j : ℕ) : Bool :=
  r.size % l1EntrySize ≠ 0 ∧
    r.start / l2EntrySize ≤ j ∧ j < r.start / l2EntrySize + r.size / l2EntrySize

variable {r : Region}

theorem blockL1_iff {k : ℕ} :
    r.blockL1 k = true ↔ r.size % 2 ^ 30 = 0 ∧ r.start / 2 ^ 30 ≤ k ∧
      k < r.start / 2 ^ 30 + r.size / 2 ^ 30 := by
  rw [blockL1, decide_eq_true_eq, l1EntrySize_eq]

theorem blockL2_iff {j : ℕ} :
    r.blockL2 j = true ↔ r.size % 2 ^ 30 ≠ 0 ∧ r.start / 2 ^ 21 ≤ j ∧
      j < r.start / 2 ^ 21 + r.size / 2 ^ 21 := by
  rw [blockL2, decide_eq_true_eq, l1EntrySize_eq, l2EntrySize_eq]

end Region

/-- A RAM region adds its entries; its size is a multiple of 2 MiB. -/
theorem RamShape.mapRamRegion {L : Layout} {s₀ s s' : Tables} {A B C : ℕ → Bool}
    (h : RamShape L s₀ s A B C) {r : Region} (hrun : mapRamRegion L s r = .ok s') :
    r.size % l2EntrySize = 0 ∧ RamShape L s₀ s' (fun k => A k || r.blockL1 k)
      (fun k => B k || r.tableL1 k) (fun j => C j || r.blockL2 j) := by
  rw [Floss.mapRamRegion] at hrun
  by_cases h1 : r.size % l1EntrySize = 0
  · rw [if_pos h1] at hrun
    refine ⟨?_, ?_⟩
    · rw [l1EntrySize_eq] at h1
      rw [l2EntrySize_eq]
      omega
    · simpa [Region.blockL1, Region.tableL1, Region.blockL2, h1] using h.l1Blocks hrun
  · rw [if_neg h1] at hrun
    by_cases h2 : r.size % l2EntrySize = 0
    · rw [if_pos h2, bind_eq_ok] at hrun
      obtain ⟨t, ht, hrun⟩ := hrun
      refine ⟨h2, ?_⟩
      simpa [Region.blockL1, Region.tableL1, Region.blockL2, h1] using
        (h.l1Tables ht).l2Blocks hrun
    · rw [if_neg h2] at hrun
      exact (nomatch hrun)

/-- **The RAM phase**: started on zeroed tables, the entries of all regions are marked, and
nothing else. -/
theorem ramPhase_shape {L : Layout} {s₀ s' : Tables} {ram : List Region} (h0 : Zeroed L s₀)
    (hrun : ramPhase L ram s₀ = .ok s') :
    (∀ r ∈ ram, r.size % l2EntrySize = 0) ∧
      RamShape L s₀ s' (fun k => ram.any (·.blockL1 k)) (fun k => ram.any (·.tableL1 k))
        (fun j => ram.any (·.blockL2 j)) := by
  rw [ramPhase, bind_eq_ok] at hrun
  obtain ⟨t, ht, hrun⟩ := hrun
  obtain rfl := setupL0_eq_ok ht
  have hstart : RamShape L s₀ (s₀.or L.l0 (tableDesc L.l1)) (fun _ => false) (fun _ => false)
      (fun _ => false) := by
    constructor
    · rw [Tables.word_or_self, h0.l0, Nat.zero_or]
    · intro i hi hi'
      rw [Tables.word_or_of_ne _ (by omega)]
    · intro k hk
      have hne := L.l0_ne_l1 (i := 0) (by decide) hk
      rw [Tables.word_or_of_ne _ (by simpa using hne.symm), h0.l1 k hk]
      simp
    · intro j hj
      have hne := L.l0_ne_l2 (i := 0) (by decide) hj
      rw [Tables.word_or_of_ne _ (by simpa using hne.symm)]
      exact h0.l2 j hj
    · intro t ht
      have hne := L.l0_ne_l3 (i := 0) (by decide) ht
      rw [Tables.word_or_of_ne _ (by simpa using hne.symm)]
      exact h0.l3 t ht
    · exact h0.numL3
  refine foldlM_invariant
    (fun done t => (∀ r ∈ done, r.size % l2EntrySize = 0) ∧
      RamShape L s₀ t (fun k => done.any (·.blockL1 k)) (fun k => done.any (·.tableL1 k))
        (fun j => done.any (·.blockL2 j))) ?_ ?_ hrun
  · exact ⟨by simp, hstart⟩
  · rintro done r rest t u - ⟨hsize, hshape⟩ hstep
    obtain ⟨hr, hshape'⟩ := hshape.mapRamRegion hstep
    refine ⟨?_, ?_⟩
    · intro q hq
      rcases List.mem_append.mp hq with hq | hq
      · exact hsize q hq
      · obtain rfl : q = r := by simpa using hq
        exact hr
    · simpa [List.any_append] using hshape'

/-! ### The phase completes -/

section Total

variable {L : Layout}

/-- The address of a table has no bits that `pte_point_to_next_level` objects to. -/
theorem badBits_eq_zero {x : ℕ} (h : Fits x 3) :
    (2 ^ 64 - 1 - (0xFFFFFFFFF <<< 12)) &&& x = 0 := by
  have hmask : 2 ^ 64 - 1 - (0xFFFFFFFFF <<< 12) = (2 ^ 16 - 1) <<< 48 ||| (2 ^ 12 - 1) := by
    decide
  refine Nat.eq_of_testBit_eq fun i => ?_
  rw [hmask]
  simp only [Nat.testBit_and, Nat.testBit_or, Nat.testBit_shiftLeft,
    Nat.testBit_two_pow_sub_one, Nat.zero_testBit]
  by_cases hi : i < 12 ∨ 48 ≤ i
  · simp [h.testBit_eq_false hi]
  · rw [not_or] at hi
    simp [hi]

/-- Pointing to a table passes its check. -/
theorem ptePointToNextLevel_eq {s : Tables} {t : TableRef} {idx next : ℕ} (h : Fits next 3) :
    ptePointToNextLevel s t idx next = pteOr s t idx next := by
  rw [ptePointToNextLevel, kassert_of (badBits_eq_zero h), ok_bind]

theorem pteOr_isOk {s : Tables} {t : TableRef} {idx : ℕ} (h : idx < t.size) (x : ℕ) :
    pteOr s t idx x = .ok (s.or (t.base + 8 * idx) x) :=
  pteOr_eq_ok.mpr ⟨h, rfl⟩

/-- Multiples of 4096 pass the check of `pte_point_to_offset`. -/
theorem offset_aligned {x : ℕ} (h : x % 2 ^ 12 = 0) : x &&& 0xFFF = 0 := by
  rw [← h]
  exact Nat.and_two_pow_sub_one_eq_mod x 12

theorem mapNormalL1_isOk (s : Tables) {k : ℕ} (hk : k < 512) :
    ∃ s', mapNormalL1 L s k = .ok s' := by
  have hoff : k * l1EntrySize &&& 0xFFF = 0 := offset_aligned (by rw [l1EntrySize_eq]; omega)
  have hmair : mairIndexNormalWb < 8 := by decide
  have hk' : k < L.l1Table.size := hk
  simp [mapNormalL1, pteMarkAsBlockDescriptorNormal, ptePointToOffset, pteSetMairAttr,
    pteOr_isOk hk', kassert_of hoff, kassert_of hmair]

theorem mapNormalL2_isOk (s : Tables) {j : ℕ} (hj : j < 512 * 512) :
    ∃ s', mapNormalL2 L s j = .ok s' := by
  have hoff : j * l2EntrySize &&& 0xFFF = 0 := offset_aligned (by rw [l2EntrySize_eq]; omega)
  have hmair : mairIndexNormalWb < 8 := by decide
  have hj' : j < L.l2Table.size := hj
  simp [mapNormalL2, pteMarkAsBlockDescriptorNormal, ptePointToOffset, pteSetMairAttr,
    pteOr_isOk hj', kassert_of hoff, kassert_of hmair]

theorem pointToL2_isOk (s : Tables) {k : ℕ} (hk : k < 512) :
    ∃ s', pointToL2 L s k = .ok s' := by
  have haligned := L.aligned
  have hbelow := L.below
  have hfits : Fits (L.l2 + 8 * (512 * k)) 3 := ⟨by omega, by omega, by omega⟩
  have hk' : k < L.l1Table.size := hk
  simp [pointToL2, pteMarkAsTableDescriptor, ptePointToNextLevel_eq hfits, pteOr_isOk hk']

/-- A counted loop completes if its body does. -/
theorem loop_isOk {f : Tables → ℕ → Exec Tables} {n : ℕ}
    (h : ∀ s i, i < n → ∃ s', f s i = .ok s') (s : Tables) :
    ∃ s', (List.range n).foldlM f s = .ok s' := by
  obtain ⟨s', hs', -⟩ := foldlM_total (fun _ _ => True) (l := List.range n) (s := s) trivial
    (by
      intro done i rest t hl _
      have hi : i < n := List.mem_range.mp (by rw [hl]; simp)
      obtain ⟨u, hu⟩ := h t i hi
      exact ⟨u, hu, trivial⟩)
  exact ⟨s', hs'⟩

/-- A region below 512 GiB whose size is a multiple of 2 MiB is mapped without a panic. -/
theorem mapRamRegion_isOk (s : Tables) {r : Region} (hsize : r.size % l2EntrySize = 0)
    (hbelow : r.start + r.size ≤ 2 ^ 39) : ∃ s', mapRamRegion L s r = .ok s' := by
  rw [mapRamRegion]
  by_cases h1 : r.size % l1EntrySize = 0
  · rw [if_pos h1]
    refine loop_isOk (fun s i hi => mapNormalL1_isOk s ?_) s
    rw [l1EntrySize_eq] at hi ⊢
    omega
  · rw [if_neg h1, if_pos hsize]
    obtain ⟨t, ht⟩ := loop_isOk (f := fun s i => pointToL2 L s (r.start / l1EntrySize + i))
      (n := l1Mappings r) (fun s i hi => pointToL2_isOk s (by
        rw [l1Mappings] at hi
        rw [l1EntrySize_eq] at hi ⊢
        omega)) s
    rw [ht, ok_bind]
    refine loop_isOk (fun s i hi => mapNormalL2_isOk s ?_) t
    rw [l2EntrySize_eq] at hi ⊢
    omega

/-- **The RAM phase does not panic** on regions below 512 GiB whose sizes are multiples of
2 MiB. -/
theorem ramPhase_isOk {ram : List Region} (s : Tables)
    (hsizes : ∀ r ∈ ram, r.size % l2EntrySize = 0)
    (hbelow : ∀ r ∈ ram, r.start + r.size ≤ 2 ^ 39) : ∃ s', ramPhase L ram s = .ok s' := by
  have haligned := L.aligned
  have hbelow' := L.below
  have hfits : Fits L.l1 3 := ⟨by omega, by omega, by omega⟩
  have h0 : 0 < L.l0Table.size := Nat.one_pos
  obtain ⟨s', hs', -⟩ := foldlM_total (fun _ _ => True) (f := mapRamRegion L) (l := ram)
    (s := s.or (L.l0Table.base + 8 * 0) (pteTableType ||| L.l1)) trivial
    (by
      intro done r rest t hl _
      have hr : r ∈ ram := by rw [hl]; simp
      obtain ⟨u, hu⟩ := mapRamRegion_isOk t (hsizes r hr) (hbelow r hr)
      exact ⟨u, hu, trivial⟩)
  refine ⟨s', ?_⟩
  simpa [ramPhase, setupL0, pteMarkAsTableDescriptor, ptePointToNextLevel_eq hfits,
    pteOr_isOk h0] using hs'

end Total

/-! ### Walking the tables -/

/-- The translation of an address to itself as Normal memory: attribute index 2, inner
shareable, access flag set, executable at EL1 only. -/
def normalAt (va : ℕ) : Translation := ⟨va, 2, 3, true, false, true⟩

section Walk

variable {L : Layout} {w : ℕ → ℕ} {va : ℕ}

/-- The walk gets from level 0 to level 1. -/
theorem walk_to_l1 (h0 : w L.l0 = tableDesc L.l1) (hva : va < 2 ^ 39) :
    walk w L.l0 va = walkL1 w L.l1 va false false := by
  have haligned := L.aligned
  have hbelow := L.below
  have hfits : Fits L.l1 3 := ⟨by omega, by omega, by omega⟩
  have hidx : L.l0 + 8 * bits va 47 39 = L.l0 := by
    simp only [bits]
    omega
  exact walk_table hfits (by decide) (by rw [hidx, h0, tableDesc_eq hfits])

/-- The entry of level 1 that the walk reads. -/
theorem l1_index (hva : va < 2 ^ 39) : bits va 38 30 = va / l1EntrySize := by
  simp only [bits, l1EntrySize_eq]
  omega

/-- The entry of level 2 that the walk reads. -/
theorem l2_index :
    L.l2 + 8 * (512 * (va / l1EntrySize)) + 8 * bits va 29 21 = L.l2 + 8 * (va / l2EntrySize) := by
  simp only [bits, l1EntrySize_eq, l2EntrySize_eq]
  omega

/-- A level 1 entry that is a table descriptor leads to its part of level 2. -/
theorem walkL1_to_l2 (hva : va < 2 ^ 39)
    (h1 : w (L.l1 + 8 * (va / l1EntrySize)) =
      tableDesc (L.l2 + 8 * (512 * (va / l1EntrySize)))) :
    walkL1 w L.l1 va false false =
      walkL2 w (L.l2 + 8 * (512 * (va / l1EntrySize))) va false false := by
  have haligned := L.aligned
  have hbelow := L.below
  have hfits : Fits (L.l2 + 8 * (512 * (va / l1EntrySize))) 3 := by
    rw [l1EntrySize_eq]
    exact ⟨by omega, by omega, by omega⟩
  exact walkL1_table hfits (by decide) (by rw [l1_index hva, h1, tableDesc_eq hfits])

/-- A level 1 block of Normal memory. -/
theorem walkL1_normal (hva : va < 2 ^ 39)
    (h1 : w (L.l1 + 8 * (va / l1EntrySize)) = blockNormal (va / l1EntrySize * l1EntrySize)) :
    walkL1 w L.l1 va false false = some (normalAt va) := by
  have hfits : Fits (va / l1EntrySize * l1EntrySize) 0x709 := by
    rw [l1EntrySize_eq]
    exact ⟨by omega, by omega, by omega⟩
  have hread : w (L.l1 + 8 * bits va 38 30) =
      descriptor 64 (va / l1EntrySize * l1EntrySize) 0x709 := by
    rw [l1_index hva, h1, blockNormal_eq hfits]
  rw [walkL1_block hfits (by decide) (by rw [l1EntrySize_eq]; omega) hread]
  have hpa : va / l1EntrySize * l1EntrySize + va % 2 ^ 30 = va := by
    rw [l1EntrySize_eq]
    omega
  rw [hpa]
  rfl

/-- A level 2 block of Normal memory. -/
theorem walkL2_normal (hva : va < 2 ^ 39)
    (h2 : w (L.l2 + 8 * (va / l2EntrySize)) = blockNormal (va / l2EntrySize * l2EntrySize)) :
    walkL2 w (L.l2 + 8 * (512 * (va / l1EntrySize))) va false false = some (normalAt va) := by
  have hfits : Fits (va / l2EntrySize * l2EntrySize) 0x709 := by
    rw [l2EntrySize_eq]
    exact ⟨by omega, by omega, by omega⟩
  have hread : w (L.l2 + 8 * (512 * (va / l1EntrySize)) + 8 * bits va 29 21) =
      descriptor 64 (va / l2EntrySize * l2EntrySize) 0x709 := by
    rw [l2_index, h2, blockNormal_eq hfits]
  rw [walkL2_block hfits (by decide) (by rw [l2EntrySize_eq]; omega) hread]
  have hpa : va / l2EntrySize * l2EntrySize + va % 2 ^ 21 = va := by
    rw [l2EntrySize_eq]
    omega
  rw [hpa]
  rfl

end Walk

/-- **What the tables translate** after the RAM phase, at every address whose level 1 entry is
not both a block and a table. -/
theorem RamShape.walk_eq {L : Layout} {s₀ s : Tables} {A B C : ℕ → Bool}
    (h : RamShape L s₀ s A B C) {va : ℕ} (hva : va < 2 ^ 39)
    (hAB : A (va / l1EntrySize) = false ∨ B (va / l1EntrySize) = false) :
    walk s.word L.l0 va =
      if A (va / l1EntrySize) || (B (va / l1EntrySize) && C (va / l2EntrySize)) then
        some (normalAt va) else none := by
  have hk : va / l1EntrySize < 512 := by
    rw [l1EntrySize_eq]
    omega
  have hj : va / l2EntrySize < 512 * 512 := by
    rw [l2EntrySize_eq]
    omega
  have h1 := h.l1 _ hk
  have h2 := h.l2 _ hj
  rw [walk_to_l1 h.l0 hva]
  cases hA : A (va / l1EntrySize) with
  | true =>
      have hB : B (va / l1EntrySize) = false := by simpa [hA] using hAB
      rw [walkL1_normal hva (by simpa [hA, hB] using h1)]
      simp
  | false =>
      cases hB : B (va / l1EntrySize) with
      | false =>
          rw [walkL1_empty (by rw [l1_index hva, h1]; simp [hA, hB])]
          simp
      | true =>
          rw [walkL1_to_l2 hva (by simpa [hA, hB] using h1)]
          cases hC : C (va / l2EntrySize) with
          | true =>
              rw [walkL2_normal hva (by simpa [hC] using h2)]
              simp
          | false =>
              rw [walkL2_empty (by rw [l2_index, h2]; simp [hC])]
              simp

end Floss
