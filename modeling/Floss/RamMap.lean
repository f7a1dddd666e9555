import Floss.RamPhase
import Mathlib.Data.Finset.Max

/-!
# When RAM Is Mapped Exactly

The RAM phase accepts every region whose size is a multiple of 2 MiB; it does not look at
where the region starts. `RamAligned` is what it relies on: regions of whole gigabytes start
at a gigabyte, all others at 2 MiB, and every level 1 slot that one of the others touches is
among those for which some region sets up a level 2 table.

* `ram_mapped_of_aligned`: under this condition the tables are the identity map of the RAM;
* `ram_aligned_of_mapped`: and only then. A misaligned region is mapped one slot too low, and
  the last byte of the highest such region is mapped by nobody;
* `ram_mapped_exactly_iff`: both together.
-/

namespace Floss

/-- Every byte of every region translates to itself as Normal memory, and no other address that
the tables cover is mapped. -/
structure RamMapped (w : ℕ → ℕ) (ttbr : ℕ) (ram : List Region) : Prop where
  mapped : ∀ r ∈ ram, ∀ va, r.Contains va → walk w ttbr va = some (normalAt va)
  only : ∀ va, va < 2 ^ 39 → (∀ r ∈ ram, ¬ r.Contains va) → walk w ttbr va = none

/-- The region does not start where the level it is mapped at would need it to. -/
def Region.Misaligned (r : Region) : Prop :=
  (r.size % l1EntrySize = 0 ∧ r.size ≠ 0 ∧ r.start % l1EntrySize ≠ 0) ∨
    (r.size % l1EntrySize ≠ 0 ∧ r.start % l2EntrySize ≠ 0)

instance (r : Region) : Decidable r.Misaligned :=
  inferInstanceAs (Decidable (_ ∨ _))

theorem Region.misaligned_iff {r : Region} :
    r.Misaligned ↔ (r.size % 2 ^ 30 = 0 ∧ r.size ≠ 0 ∧ r.start % 2 ^ 30 ≠ 0) ∨
      (r.size % 2 ^ 30 ≠ 0 ∧ r.start % 2 ^ 21 ≠ 0) := by
  rw [Region.Misaligned, l1EntrySize_eq, l2EntrySize_eq]

/-- A region that is misaligned is not empty. -/
theorem Region.Misaligned.contains_last {r : Region} (h : r.Misaligned) :
    r.Contains (r.start + r.size - 1) := by
  rw [Region.misaligned_iff] at h
  exact ⟨by omega, by omega⟩

/-- Every region starts where its level needs it to, and every level 1 slot touched by a
region that is mapped at level 2 gets a level 2 table. -/
structure RamAligned (ram : List Region) : Prop where
  start : ∀ r ∈ ram, ¬ r.Misaligned
  tables : ∀ r ∈ ram, r.size % l1EntrySize ≠ 0 → ∀ k, r.start / l1EntrySize ≤ k →
    k * l1EntrySize < r.start + r.size → ∃ q ∈ ram, q.tableL1 k

section Exact

variable {L : Layout} {s₀ s : Tables} {ram : List Region}

/-- What is known about the regions and the tables after the RAM phase. -/
structure RamDone (L : Layout) (s₀ s : Tables) (ram : List Region) : Prop where
  disjoint : PairwiseDisjoint ram
  below : ∀ r ∈ ram, r.start + r.size ≤ 2 ^ 39
  sizes : ∀ r ∈ ram, r.size % l2EntrySize = 0
  shape : RamShape L s₀ s (fun k => ram.any (·.blockL1 k)) (fun k => ram.any (·.tableL1 k))
    (fun j => ram.any (·.blockL2 j))

/-- An aligned region contains every address of the level 1 slots it marks as blocks. -/
theorem contains_of_blockL1 {r : Region} {va : ℕ} (ha : ¬ r.Misaligned)
    (h : r.blockL1 (va / l1EntrySize) = true) : r.Contains va := by
  rw [l1EntrySize_eq, Region.blockL1_iff] at h
  rw [Region.misaligned_iff] at ha
  exact ⟨by omega, by omega⟩

/-- An aligned region contains every address of the level 2 slots it marks as blocks. -/
theorem contains_of_blockL2 {r : Region} {va : ℕ} (ha : ¬ r.Misaligned)
    (hsize : r.size % l2EntrySize = 0) (h : r.blockL2 (va / l2EntrySize) = true) :
    r.Contains va := by
  rw [l2EntrySize_eq, Region.blockL2_iff] at h
  rw [Region.misaligned_iff] at ha
  rw [l2EntrySize_eq] at hsize
  exact ⟨by omega, by omega⟩

/-- A region touches every level 1 slot it marks as a table. -/
theorem touches_of_tableL1 {r : Region} {k : ℕ} (hbelow : r.start + r.size ≤ 2 ^ 39)
    (h : r.tableL1 k = true) :
    r.size % l1EntrySize ≠ 0 ∧ ∃ va, r.Contains va ∧ va / l1EntrySize = k := by
  simp only [Region.tableL1, decide_eq_true_eq, l1Mappings, l1EntrySize_eq] at h
  rw [l1EntrySize_eq]
  refine ⟨h.1, max r.start (k * 2 ^ 30), ?_, ?_⟩
  · exact ⟨by omega, by omega⟩
  · omega

/-- A region contains an address in each level 1 slot it touches. -/
theorem exists_contains {r : Region} {k : ℕ} (hk : r.start / l1EntrySize ≤ k)
    (hk' : k * l1EntrySize < r.start + r.size) (hne : r.size ≠ 0) :
    ∃ va, r.Contains va ∧ va / l1EntrySize = k := by
  rw [l1EntrySize_eq] at hk hk'
  refine ⟨max r.start (k * 2 ^ 30), ?_, ?_⟩
  · exact ⟨by omega, by omega⟩
  · rw [l1EntrySize_eq]
    omega

/-- A region covers the addresses of its own entries. -/
theorem blockL1_of_contains {r : Region} {va : ℕ} (ha : ¬ r.Misaligned)
    (hsize : r.size % l1EntrySize = 0) (h : r.Contains va) :
    r.blockL1 (va / l1EntrySize) = true := by
  rw [l1EntrySize_eq] at hsize
  rw [Region.misaligned_iff] at ha
  rw [l1EntrySize_eq, Region.blockL1_iff]
  obtain ⟨hge, hend⟩ := h
  omega

theorem blockL2_of_contains {r : Region} {va : ℕ} (ha : ¬ r.Misaligned)
    (hsize : r.size % l1EntrySize ≠ 0) (hsize2 : r.size % l2EntrySize = 0) (h : r.Contains va) :
    r.blockL2 (va / l2EntrySize) = true := by
  rw [l1EntrySize_eq] at hsize
  rw [l2EntrySize_eq] at hsize2
  rw [Region.misaligned_iff] at ha
  rw [l2EntrySize_eq, Region.blockL2_iff]
  obtain ⟨hge, hend⟩ := h
  omega

/-- A level 1 slot that a region fills is touched by no other region. -/
theorem not_tableL1_of_blockL1 (hdisjoint : PairwiseDisjoint ram)
    (hbelow : ∀ r ∈ ram, r.start + r.size ≤ 2 ^ 39) (ha : RamAligned ram) {r q : Region}
    (hr : r ∈ ram) (hq : q ∈ ram) {k : ℕ} (hblock : r.blockL1 k = true) : q.tableL1 k = false := by
  by_contra htable
  obtain ⟨hsize, a, hqa, hslot⟩ := touches_of_tableL1 (hbelow q hq) (by simpa using htable)
  have hra : r.Contains a := contains_of_blockL1 (ha.start r hr) (by rw [hslot]; exact hblock)
  obtain rfl := hdisjoint.eq_of_contains hr hq hra hqa
  exact hsize (l1EntrySize_eq ▸ (Region.blockL1_iff.1 hblock).1)

/-- No entry is both a block and a table. -/
theorem block_or_table (hd : RamDone L s₀ s ram) (ha : RamAligned ram) (va : ℕ) :
    ram.any (·.blockL1 (va / l1EntrySize)) = false ∨
      ram.any (·.tableL1 (va / l1EntrySize)) = false := by
  by_contra hboth
  simp only [not_or, Bool.not_eq_false, List.any_eq_true] at hboth
  obtain ⟨⟨r, hr, hblock⟩, q, hq, htable⟩ := hboth
  rw [not_tableL1_of_blockL1 hd.disjoint hd.below ha hr hq hblock] at htable
  exact absurd htable (by decide)

/-- **Aligned RAM is mapped exactly.** -/
theorem ram_mapped_of_aligned (hd : RamDone L s₀ s ram) (ha : RamAligned ram) :
    RamMapped s.word L.l0 ram := by
  have hAB := block_or_table hd ha
  constructor
  · intro r hr va hva
    have hbelow := hd.below r hr
    have hlt : va < 2 ^ 39 := by
      obtain ⟨hge, hend⟩ := hva
      omega
    rw [hd.shape.walk_eq hlt (hAB va), if_pos]
    by_cases hsize : r.size % l1EntrySize = 0
    · have hblock := blockL1_of_contains (ha.start r hr) hsize hva
      have hany : ram.any (·.blockL1 (va / l1EntrySize)) = true :=
        List.any_eq_true.mpr ⟨r, hr, hblock⟩
      simp [hany]
    · have hblock := blockL2_of_contains (ha.start r hr) hsize (hd.sizes r hr) hva
      have hany : ram.any (·.blockL2 (va / l2EntrySize)) = true :=
        List.any_eq_true.mpr ⟨r, hr, hblock⟩
      have htouch : r.start / l1EntrySize ≤ va / l1EntrySize ∧
          va / l1EntrySize * l1EntrySize < r.start + r.size := by
        obtain ⟨hge, hend⟩ := hva
        rw [l1EntrySize_eq]
        omega
      have htable : ram.any (·.tableL1 (va / l1EntrySize)) = true :=
        List.any_eq_true.mpr (ha.tables r hr hsize _ htouch.1 htouch.2)
      simp [hany, htable]
  · intro va hva hout
    rw [hd.shape.walk_eq hva (hAB va), if_neg]
    simp only [Bool.or_eq_true, Bool.and_eq_true, List.any_eq_true]
    rintro (⟨r, hr, hblock⟩ | ⟨-, r, hr, hblock⟩)
    · exact hout r hr (contains_of_blockL1 (ha.start r hr) hblock)
    · exact hout r hr (contains_of_blockL2 (ha.start r hr) (hd.sizes r hr) hblock)

/-- A region before another, highest misaligned one, reaches at most to its start. -/
theorem end_le_start (hd : RamDone L s₀ s ram) {r q : Region} (hr : r ∈ ram) (hq : q ∈ ram)
    (hne : q ≠ r) (hrsize : r.size ≠ 0) (hle : q.start ≤ r.start) :
    q.start + q.size ≤ r.start := by
  by_contra hlt
  refine hne (hd.disjoint.eq_of_contains hq hr (a := r.start) ⟨hle, by omega⟩ ⟨le_rfl, by omega⟩)

/-- The last byte of the highest misaligned region is mapped by no region. -/
theorem last_byte_unmapped (hd : RamDone L s₀ s ram) {r : Region} (hr : r ∈ ram)
    (hmis : r.Misaligned) (hmax : ∀ q ∈ ram, q.Misaligned → q.start ≤ r.start) :
    walk s.word L.l0 (r.start + r.size - 1) = none := by
  have hlast := hmis.contains_last
  have hrsize : r.size ≠ 0 := by
    obtain ⟨hge, hend⟩ := hlast
    omega
  have hbelow := hd.below r hr
  -- level 1: an aligned region would overlap, a misaligned one ends too early
  have hA : ram.any (·.blockL1 ((r.start + r.size - 1) / l1EntrySize)) = false := by
    rw [List.any_eq_false]
    intro q hq hblock
    by_cases hqmis : q.Misaligned
    · rw [l1EntrySize_eq, Region.blockL1_iff] at hblock
      by_cases hqr : q = r
      · subst hqr
        rw [Region.misaligned_iff] at hmis
        omega
      · have hend := end_le_start hd hr hq hqr hrsize (hmax q hq hqmis)
        omega
    · have hqa := contains_of_blockL1 hqmis hblock
      exact hqmis (hd.disjoint.eq_of_contains hq hr hqa hlast ▸ hmis)
  -- level 2: likewise
  have hC : ram.any (·.blockL2 ((r.start + r.size - 1) / l2EntrySize)) = false := by
    rw [List.any_eq_false]
    intro q hq hblock
    have hqsize := hd.sizes q hq
    by_cases hqmis : q.Misaligned
    · rw [l2EntrySize_eq, Region.blockL2_iff] at hblock
      by_cases hqr : q = r
      · subst hqr
        rw [Region.misaligned_iff] at hmis
        rw [l2EntrySize_eq] at hqsize
        omega
      · have hend := end_le_start hd hr hq hqr hrsize (hmax q hq hqmis)
        omega
    · have hqa := contains_of_blockL2 hqmis hqsize hblock
      exact hqmis (hd.disjoint.eq_of_contains hq hr hqa hlast ▸ hmis)
  rw [hd.shape.walk_eq (by omega) (.inl hA)]
  simp [hA, hC]

/-- **RAM that is mapped exactly is aligned.** -/
theorem ram_aligned_of_mapped (hd : RamDone L s₀ s ram) (hm : RamMapped s.word L.l0 ram) :
    RamAligned ram := by
  have hstart : ∀ r ∈ ram, ¬ r.Misaligned := by
    intro q hq hqmis
    -- the highest misaligned region
    obtain ⟨r, hr, hmax⟩ := Finset.exists_max_image
      (ram.filter fun r => r.Misaligned).toFinset Region.start
      ⟨q, by simp [hq, hqmis]⟩
    simp only [List.mem_toFinset, List.mem_filter, decide_eq_true_eq] at hr hmax
    have hnone := last_byte_unmapped hd hr.1 hr.2 fun q hq hqm => hmax q ⟨hq, hqm⟩
    rw [hm.mapped r hr.1 _ hr.2.contains_last] at hnone
    exact (nomatch hnone)
  refine ⟨hstart, ?_⟩
  intro r hr hsize k hk hk'
  have hne : r.size ≠ 0 := by
    rintro h0
    simp [h0] at hsize
  obtain ⟨va, hva, rfl⟩ := exists_contains hk hk' hne
  have hbelow := hd.below r hr
  have hlt : va < 2 ^ 39 := by
    obtain ⟨hge, hend⟩ := hva
    omega
  have hA : ram.any (·.blockL1 (va / l1EntrySize)) = false := by
    rw [List.any_eq_false]
    intro q hq hblock
    obtain rfl := hd.disjoint.eq_of_contains hq hr (contains_of_blockL1 (hstart q hq) hblock) hva
    exact hsize (l1EntrySize_eq ▸ (Region.blockL1_iff.1 hblock).1)
  have hmapped := hm.mapped r hr va hva
  rw [hd.shape.walk_eq hlt (.inl hA)] at hmapped
  by_contra hno
  have hB : ram.any (·.tableL1 (va / l1EntrySize)) = false := by
    rw [List.any_eq_false]
    intro q hq htable
    exact hno ⟨q, hq, htable⟩
  simp [hA, hB] at hmapped

end Exact

/-- **RAM, exactly.** For disjoint regions below 512 GiB whose sizes are multiples of 2 MiB the
RAM phase completes, and started on zeroed tables it leaves the identity map of the RAM, and
of nothing else, if and only if the regions are aligned. Translation is set up for 48-bit
addresses: from 512 GiB on the walk reads what follows the one entry of level 0, which the
phase does not touch, and nothing is mapped where that is zero. -/
theorem ram_mapped_exactly_iff {L : Layout} {s : Tables} {ram : List Region}
    (h0 : Zeroed L s) (hdisjoint : PairwiseDisjoint ram)
    (hbelow : ∀ r ∈ ram, r.start + r.size ≤ 2 ^ 39)
    (hsizes : ∀ r ∈ ram, r.size % l2EntrySize = 0) :
    ∃ s', ramPhase L ram s = .ok s' ∧ (RamMapped s'.word L.l0 ram ↔ RamAligned ram) ∧
      ∀ va, 2 ^ 39 ≤ va → va < 2 ^ 48 → s.word (L.l0 + 8 * bits va 47 39) = 0 →
        walk s'.word L.l0 va = none := by
  obtain ⟨s', hrun⟩ := ramPhase_isOk s hsizes hbelow
  obtain ⟨-, hshape⟩ := ramPhase_shape h0 hrun
  have hd : RamDone L s s' ram := ⟨hdisjoint, hbelow, hsizes, hshape⟩
  refine ⟨s', hrun, ⟨ram_aligned_of_mapped hd, ram_mapped_of_aligned hd⟩, ?_⟩
  intro va hva hva' hzero
  refine walk_empty ?_
  rw [hshape.l0rest _ (by simp only [bits]; omega) (by simp only [bits]; omega), hzero]

/-- Tables as the loader leaves them, at a place in the RAM of a board. -/
def boardLayout : Layout where
  l0 := 0x40100000
  l1 := 0x40101000
  l2 := 0x40200000
  l3 := 0x40400000
  aligned := by decide
  below := by decide
  disjoint01 := by decide
  disjoint02 := by decide
  disjoint03 := by decide
  disjoint12 := by decide
  disjoint13 := by decide
  disjoint23 := by decide

/-- Memory that is zero. -/
def zeroTables : Tables := { word := fun _ => 0 }

theorem zeroed_zeroTables (L : Layout) : Zeroed L zeroTables :=
  ⟨rfl, fun _ _ => rfl, fun _ _ => rfl, fun _ _ => rfl, rfl⟩

/-- A gigabyte that starts at a gigabyte is mapped exactly. -/
theorem ram_mapped_exactly_gigabyte :
    ∃ s', ramPhase boardLayout [⟨0x40000000, 0x40000000⟩] zeroTables = .ok s' ∧
      RamMapped s'.word boardLayout.l0 [⟨0x40000000, 0x40000000⟩] := by
  have hsizes : ∀ r ∈ [(⟨0x40000000, 0x40000000⟩ : Region)], r.size % l2EntrySize = 0 := by
    decide
  have haligned : RamAligned [⟨0x40000000, 0x40000000⟩] := by
    refine ⟨by decide, ?_⟩
    intro r hr hsize
    obtain rfl := List.mem_singleton.mp hr
    exact absurd (by decide) hsize
  obtain ⟨s', hrun, hiff, -⟩ := ram_mapped_exactly_iff (zeroed_zeroTables boardLayout)
    (List.pairwise_singleton _ _) (by decide) hsizes
  exact ⟨s', hrun, hiff.mpr haligned⟩

/-- **Half a gigabyte off.** A gigabyte that starts in the middle of a slot is accepted and not
mapped exactly: its upper half is not mapped at all. -/
theorem ram_not_mapped_exactly_half_off :
    ∃ s', ramPhase boardLayout [⟨0x60000000, 0x40000000⟩] zeroTables = .ok s' ∧
      ¬ RamMapped s'.word boardLayout.l0 [⟨0x60000000, 0x40000000⟩] := by
  have hbelow : ∀ r ∈ [(⟨0x60000000, 0x40000000⟩ : Region)], r.start + r.size ≤ 2 ^ 39 := by
    decide
  have hsizes : ∀ r ∈ [(⟨0x60000000, 0x40000000⟩ : Region)], r.size % l2EntrySize = 0 := by
    decide
  obtain ⟨s', hrun⟩ := ramPhase_isOk (L := boardLayout) zeroTables hsizes hbelow
  obtain ⟨-, hshape⟩ := ramPhase_shape (zeroed_zeroTables boardLayout) hrun
  refine ⟨s', hrun, fun hm => ?_⟩
  have ha := ram_aligned_of_mapped ⟨List.pairwise_singleton _ _, hbelow, hsizes, hshape⟩ hm
  exact ha.start _ (List.mem_singleton.mpr rfl) (by decide)

end Floss
