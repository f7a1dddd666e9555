import Floss.BlocksAndPages

/-!
# The Identity Map

`setup_idmap_page_tables` maps RAM as Normal memory and devices as Device memory, each address
to itself, and nothing else. This holds for regions as real boards have them: RAM placed on the
boundaries of the level it is mapped at (`Region.WellPlaced`), and devices whose pages are
disjoint from each other and from RAM. `setup_idmap_exact` states it for every address that the
tables cover.
-/

namespace Floss

/-- The pages a device region touches: the region rounded outwards to 4 KiB. -/
def Region.pages (d : Region) : Region where
  start := d.start / 4096 * 4096
  size := (d.start + d.size + 4095) / 4096 * 4096 - d.start / 4096 * 4096

/-- A region of whole gigabytes starts at a gigabyte; any other starts at a multiple of 2 MiB, is
a multiple of 2 MiB long, and touches as many level 1 slots as its size rounded up to gigabytes
has. -/
structure Region.WellPlaced (r : Region) : Prop where
  gigabytes : r.size % l1EntrySize = 0 → r.start % l1EntrySize = 0
  blocks : r.size % l1EntrySize ≠ 0 → r.start % l2EntrySize = 0 ∧ r.size % l2EntrySize = 0 ∧
    (r.start + r.size - 1) / l1EntrySize + 1 - r.start / l1EntrySize =
      (r.size + l1EntrySize - 1) / l1EntrySize

/-- Every address below 512 GiB translates to itself with the attributes of what is there, and
to nothing where there is nothing. -/
structure IdentityMap (w : ℕ → ℕ) (ttbr : ℕ) (ram devices : List Region) : Prop where
  normal : ∀ va, va < 2 ^ 39 → (∃ r ∈ ram, r.Contains va) →
    walk w ttbr va = some (normalAt va)
  device : ∀ va, va < 2 ^ 39 → (∃ d ∈ devices, d.pages.Contains va) →
    walk w ttbr va = some (deviceAt va)
  fault : ∀ va, va < 2 ^ 39 → (∀ r ∈ ram, ¬ r.Contains va) →
    (∀ d ∈ devices, ¬ d.pages.Contains va) → walk w ttbr va = none

/-- The regions a board may have. -/
structure BoardRegions (ram devices : List Region) : Prop where
  ramDisjoint : PairwiseDisjoint ram
  ramBelow : ∀ r ∈ ram, r.start + r.size ≤ 2 ^ 39
  ramPlaced : ∀ r ∈ ram, r.WellPlaced
  devicesBelow : ∀ d ∈ devices, d.pages.start + d.pages.size ≤ 2 ^ 39
  devicesDisjoint : PairwiseDisjoint (devices.map Region.pages)
  devicesNotRam : ∀ d ∈ devices, ∀ r ∈ ram, ∀ a, d.pages.Contains a → ¬ r.Contains a

/-! ### Placement -/

/-- Well placed regions are aligned. -/
theorem ramAligned_of_wellPlaced {ram : List Region} (hbelow : ∀ r ∈ ram, r.start + r.size ≤ 2 ^ 39)
    (hplaced : ∀ r ∈ ram, r.WellPlaced) :
    (∀ r ∈ ram, r.size % l2EntrySize = 0) ∧ RamAligned ram := by
  refine ⟨?_, ?_, ?_⟩
  · intro r hr
    have hblocks := (hplaced r hr).blocks
    simp only [l1EntrySize_eq, l2EntrySize_eq] at hblocks ⊢
    omega
  · intro r hr
    obtain ⟨hgigabytes, hblocks⟩ := hplaced r hr
    simp only [l1EntrySize_eq, l2EntrySize_eq] at hgigabytes hblocks
    rw [Region.misaligned_iff]
    omega
  · intro r hr hsize k hk hk'
    have hbelow := hbelow r hr
    obtain ⟨-, -, htouch⟩ := (hplaced r hr).blocks hsize
    refine ⟨r, hr, ?_⟩
    simp only [Region.tableL1, l1Mappings, decide_eq_true_eq, l1EntrySize_eq] at hsize hk hk' ⊢
    rw [l1EntrySize_eq] at htouch
    omega

section Pages

variable {d : Region}

theorem Region.below_of_pages (h : d.pages.start + d.pages.size ≤ 2 ^ 39) :
    d.start + d.size ≤ 2 ^ 39 := by
  simp only [Region.pages] at h
  omega

/-- The pages of a region are those its rounding covers. -/
theorem Region.contains_pages (h : d.start + d.size ≤ 2 ^ 39) {a : ℕ} :
    d.pages.Contains a ↔ d.deviceStart ≤ a ∧ a < d.deviceStop := by
  rw [Region.Contains, deviceStart_eq h, deviceStop_eq h]
  simp only [Region.pages]
  omega

/-- A slot that the region fills is in its pages. -/
theorem Region.Fills.contains {a : ℕ} (hfills : d.Fills (a / l2EntrySize))
    (h : d.start + d.size ≤ 2 ^ 39) : d.pages.Contains a := by
  rw [Region.contains_pages h]
  simp only [Region.Fills, l2EntrySize_eq] at hfills
  omega

end Pages

/-! ### Marks of the devices -/

section Marks

variable {devices : List Region} {va : ℕ}

/-- Which level 2 entries are marked as Device blocks. -/
theorem any_blockL2_iff (hstarts : ∀ d ∈ devices, d.start < 2 ^ 64) {j : ℕ} :
    (devices.flatMap Region.deviceOps).any (·.blockL2 j) = true ↔ ∃ d ∈ devices, d.Fills j := by
  rw [List.any_eq_true]
  constructor
  · rintro ⟨op, hop, hblock⟩
    obtain ⟨d, hd, hop⟩ := List.mem_flatMap.mp hop
    cases op with
    | block a =>
        obtain rfl : j = a / l2EntrySize := by simpa [DevOp.blockL2] using hblock
        exact ⟨d, hd, ((Region.block_mem_deviceOps (hstarts d hd)).mp hop).2⟩
    | page a => simp [DevOp.blockL2] at hblock
  · rintro ⟨d, hd, hfills⟩
    have hslot : j * l2EntrySize / l2EntrySize = j := Nat.mul_div_cancel _ (by decide)
    have hop := hfills.block_mem (hstarts d hd)
    exact ⟨_, List.mem_flatMap.mpr ⟨d, hd, hop⟩, by simp [DevOp.blockL2, hslot]⟩

/-- Which pages are mapped. -/
theorem any_pageL3_iff (hbelow : ∀ d ∈ devices, d.start + d.size ≤ 2 ^ 39) :
    (devices.flatMap Region.deviceOps).any (·.pageL3 (va / l3EntrySize)) = true ↔
      ∃ d ∈ devices, d.pages.Contains va ∧ ¬ d.Fills (va / l2EntrySize) := by
  rw [List.any_eq_true]
  constructor
  · rintro ⟨op, hop, hpage⟩
    obtain ⟨d, hd, hop⟩ := List.mem_flatMap.mp hop
    cases op with
    | block a => simp [DevOp.pageL3] at hpage
    | page a =>
        have hva : va / l3EntrySize = a / l3EntrySize := by simpa [DevOp.pageL3] using hpage
        rw [l3EntrySize_eq] at hva
        have hslot : va / l2EntrySize = a / l2EntrySize := by
          rw [l2EntrySize_eq]
          omega
        obtain ⟨haligned, hstart, hstop, hfills⟩ :=
          (Region.page_mem_deviceOps (Region.start_lt (hbelow d hd))).mp hop
        have hend := Region.deviceStop_eq (hbelow d hd)
        refine ⟨d, hd, ?_, by rwa [hslot]⟩
        rw [Region.contains_pages (hbelow d hd)]
        omega
  · rintro ⟨d, hd, hva, hfills⟩
    rw [Region.contains_pages (hbelow d hd)] at hva
    have hstart := Region.deviceStart_eq (hbelow d hd)
    have hslot : va / 4096 * 4096 / l2EntrySize = va / l2EntrySize := by
      rw [l2EntrySize_eq]
      omega
    have hop : .page (va / 4096 * 4096) ∈ d.deviceOps := by
      rw [Region.page_mem_deviceOps (Region.start_lt (hbelow d hd)), hslot]
      exact ⟨by omega, by omega, by omega, hfills⟩
    refine ⟨_, List.mem_flatMap.mpr ⟨d, hd, hop⟩, ?_⟩
    simp only [DevOp.pageL3, beq_iff_eq, l3EntrySize_eq]
    omega

/-- The level 1 entry of a device address points to its level 2 table. -/
theorem any_tableL1_of_contains (hbelow : ∀ d ∈ devices, d.start + d.size ≤ 2 ^ 39) {d : Region}
    (hd : d ∈ devices) (hva : d.pages.Contains va) :
    (devices.flatMap Region.deviceOps).any (·.tableL1 (va / l1EntrySize)) = true := by
  rw [List.any_eq_true]
  by_cases hfills : d.Fills (va / l2EntrySize)
  · obtain ⟨op, hop, hblock⟩ := List.any_eq_true.mp
      ((any_blockL2_iff fun d hd => Region.start_lt (hbelow d hd)).mpr ⟨d, hd, hfills⟩)
    refine ⟨op, hop, ?_⟩
    cases op with
    | block a =>
        simp only [DevOp.blockL2, DevOp.tableL1, beq_iff_eq, l1EntrySize_eq,
          l2EntrySize_eq] at hblock ⊢
        omega
    | page a => simp [DevOp.blockL2] at hblock
  · obtain ⟨op, hop, hpage⟩ :=
      List.any_eq_true.mp ((any_pageL3_iff hbelow).mpr ⟨d, hd, hva, hfills⟩)
    refine ⟨op, hop, ?_⟩
    cases op with
    | block a => simp [DevOp.pageL3] at hpage
    | page a =>
        simp only [DevOp.pageL3, DevOp.tableL1, beq_iff_eq, l1EntrySize_eq,
          l3EntrySize_eq] at hpage ⊢
        omega

end Marks

/-! ### Board regions -/

namespace BoardRegions

variable {ram devices : List Region}

theorem below (h : BoardRegions ram devices) : ∀ d ∈ devices, d.start + d.size ≤ 2 ^ 39 :=
  fun d hd => Region.below_of_pages (h.devicesBelow d hd)

theorem starts (h : BoardRegions ram devices) : ∀ d ∈ devices, d.start < 2 ^ 64 :=
  fun d hd => Region.start_lt (h.below d hd)

theorem sizes (h : BoardRegions ram devices) : ∀ r ∈ ram, r.size % l2EntrySize = 0 :=
  (ramAligned_of_wellPlaced h.ramBelow h.ramPlaced).1

theorem aligned (h : BoardRegions ram devices) : RamAligned ram :=
  (ramAligned_of_wellPlaced h.ramBelow h.ramPlaced).2

/-- A device does not have pages in a level 2 slot of RAM. -/
theorem not_blockL2 (h : BoardRegions ram devices) {d r : Region} (hd : d ∈ devices) (hr : r ∈ ram)
    {a : ℕ} (ha : d.pages.Contains a) : r.blockL2 (a / l2EntrySize) = false := by
  by_contra hblock
  have hra := contains_of_blockL2 (h.aligned.start r hr) (h.sizes r hr) (by simpa using hblock)
  exact h.devicesNotRam d hd r hr a ha hra

/-- Devices with an address in common have the same pages. -/
theorem fills_of_contains (h : BoardRegions ram devices) {d e : Region} (hd : d ∈ devices)
    (he : e ∈ devices) {a : ℕ} (ha : d.pages.Contains a) (hfills : e.Fills (a / l2EntrySize)) :
    d.Fills (a / l2EntrySize) := by
  have heq : d.pages = e.pages :=
    h.devicesDisjoint.eq_of_contains (List.mem_map_of_mem hd) (List.mem_map_of_mem he) ha
      (hfills.contains (h.below e he))
  have hsame : ∀ x, e.deviceStart ≤ x ∧ x < e.deviceStop →
      d.deviceStart ≤ x ∧ x < d.deviceStop := by
    intro x hx
    rw [← Region.contains_pages (h.below d hd), heq]
    exact (Region.contains_pages (h.below e he)).mpr hx
  simp only [Region.Fills, l2EntrySize_eq] at hfills ⊢
  have hfirst := hsame (a / 2 ^ 21 * 2 ^ 21) (by omega)
  have hlast := hsame (a / 2 ^ 21 * 2 ^ 21 + 2 ^ 21 - 1) (by omega)
  omega

/-- Their slots are apart. -/
theorem slotsApart (h : BoardRegions ram devices) : SlotsApart ram devices := by
  intro d hd j hgraze
  have hfills := hgraze.2.2.2
  obtain ⟨a, ha, rfl⟩ := hgraze.page (h.starts d hd)
  obtain ⟨-, hstart, hstop, -⟩ := (Region.page_mem_deviceOps (h.starts d hd)).mp ha
  have hda : d.pages.Contains a := (Region.contains_pages (h.below d hd)).mpr ⟨hstart, hstop⟩
  refine ⟨?_, ?_⟩
  · intro e he hefills
    exact hfills (h.fills_of_contains hd he hda hefills)
  · intro r hr
    exact h.not_blockL2 hd hr hda

end BoardRegions

/-! ### Exactness -/

section Exact

variable {L : Layout} {s₀ s s' : Tables} {ram devices : List Region} {tbl : ℕ → Option ℕ} {va : ℕ}

/-- No level 2 entry is marked as a block of both kinds. -/
theorem normal_or_device (hb : BoardRegions ram devices) (va : ℕ) :
    ram.any (·.blockL2 (va / l2EntrySize)) = false ∨
      (devices.flatMap Region.deviceOps).any (·.blockL2 (va / l2EntrySize)) = false := by
  by_contra hboth
  simp only [not_or, Bool.not_eq_false] at hboth
  obtain ⟨hC, hD⟩ := hboth
  obtain ⟨r, hr, hblock⟩ := List.any_eq_true.mp hC
  obtain ⟨d, hd, hfills⟩ := (any_blockL2_iff hb.starts).mp hD
  have hnot := hb.not_blockL2 hd hr (hfills.contains (hb.below d hd))
  rw [hnot] at hblock
  exact (nomatch hblock)

/-- The tables after both phases. -/
structure SetupDone (L : Layout) (s₀ s s' : Tables) (ram devices : List Region)
    (tbl : ℕ → Option ℕ) : Prop where
  regions : BoardRegions ram devices
  ramDone : RamDone L s₀ s ram
  run : DevRun L s' (fun k => ram.any (·.blockL1 k)) (fun k => ram.any (·.tableL1 k))
    (fun j => ram.any (·.blockL2 j)) (devices.flatMap Region.deviceOps) tbl

namespace SetupDone

/-- A slot of RAM has no level 3 table. -/
theorem no_table_of_blockL2 (h : SetupDone L s₀ s s' ram devices tbl) {r : Region} (hr : r ∈ ram)
    {j : ℕ} (hblock : r.blockL2 j = true) : tbl j = none := by
  by_contra hsome
  obtain ⟨a, ha, rfl⟩ := h.run.needed _ (Option.isSome_iff_ne_none.mpr hsome)
  obtain ⟨d, hd, ha⟩ := List.mem_flatMap.mp ha
  have hbelow := h.regions.below d hd
  obtain ⟨-, hstart, hstop, -⟩ := (Region.page_mem_deviceOps (Region.start_lt hbelow)).mp ha
  have hnot := h.regions.not_blockL2 hd hr ((Region.contains_pages hbelow).mpr ⟨hstart, hstop⟩)
  rw [hnot] at hblock
  exact (nomatch hblock)

/-- RAM is Normal memory. -/
theorem walk_ram (h : SetupDone L s₀ s s' ram devices tbl) (hva : va < 2 ^ 39) {r : Region}
    (hr : r ∈ ram) (hra : r.Contains va) : walk s'.word L.l0 va = some (normalAt va) := by
  have hplaced := h.regions.aligned.start r hr
  rw [h.run.shape.walk_eq hva (block_or_table h.ramDone h.regions.aligned va)
    (normal_or_device h.regions va)]
  by_cases hsize : r.size % l1EntrySize = 0
  · have hA : ram.any (·.blockL1 (va / l1EntrySize)) = true :=
      List.any_eq_true.mpr ⟨r, hr, blockL1_of_contains hplaced hsize hra⟩
    rw [if_pos hA]
  · have hblock := blockL2_of_contains hplaced hsize (h.regions.sizes r hr) hra
    have hC : ram.any (·.blockL2 (va / l2EntrySize)) = true :=
      List.any_eq_true.mpr ⟨r, hr, hblock⟩
    have hB : ram.any (·.tableL1 (va / l1EntrySize)) = true := by
      refine List.any_eq_true.mpr (h.regions.aligned.tables r hr hsize _ ?_ ?_)
      · exact Nat.div_le_div_right hra.1
      · exact lt_of_le_of_lt (Nat.div_mul_le_self _ _) hra.2
    rw [h.no_table_of_blockL2 hr hblock]
    simp only [hB, hC, Bool.true_or, if_true, Option.isSome_none, Bool.false_eq_true, if_false,
      ite_self]

/-- Outside RAM no level 1 entry is a block of it. -/
theorem not_blockL1 (h : SetupDone L s₀ s s' ram devices tbl)
    (hva : ∀ r ∈ ram, ¬ r.Contains va) : ram.any (·.blockL1 (va / l1EntrySize)) = false := by
  rw [List.any_eq_false]
  intro r hr hblock
  exact hva r hr (contains_of_blockL1 (h.regions.aligned.start r hr) hblock)

/-- Outside RAM no level 2 entry is a block of it. -/
theorem not_blockL2 (h : SetupDone L s₀ s s' ram devices tbl)
    (hva : ∀ r ∈ ram, ¬ r.Contains va) : ram.any (·.blockL2 (va / l2EntrySize)) = false := by
  rw [List.any_eq_false]
  intro r hr hblock
  exact hva r hr
    (contains_of_blockL2 (h.regions.aligned.start r hr) (h.regions.sizes r hr) hblock)

/-- Devices are Device memory. -/
theorem walk_device (h : SetupDone L s₀ s s' ram devices tbl) (hva : va < 2 ^ 39) {d : Region}
    (hd : d ∈ devices) (hda : d.pages.Contains va) :
    walk s'.word L.l0 va = some (deviceAt va) := by
  have hout : ∀ r ∈ ram, ¬ r.Contains va := fun r hr => h.regions.devicesNotRam d hd r hr va hda
  have hA := h.not_blockL1 hout
  have hC := h.not_blockL2 hout
  have hT := any_tableL1_of_contains h.regions.below hd hda
  rw [h.run.shape.walk_eq hva (block_or_table h.ramDone h.regions.aligned va)
    (normal_or_device h.regions va)]
  by_cases hfills : d.Fills (va / l2EntrySize)
  · -- a block, and then there is no table
    have hD := (any_blockL2_iff h.regions.starts).mpr ⟨d, hd, hfills⟩
    have hnone : tbl (va / l2EntrySize) = none := by
      by_contra hsome
      obtain ⟨a, ha, hslot⟩ := h.run.needed _ (Option.isSome_iff_ne_none.mpr hsome)
      have hapart := (apart_iff_slotsApart h.regions.starts).mpr h.regions.slotsApart
      obtain ⟨op, hop, hblock⟩ := List.any_eq_true.mp hD
      cases op with
      | block b =>
          have hb : va / l2EntrySize = b / l2EntrySize := by simpa [DevOp.blockL2] using hblock
          exact (hapart a ha).2 b hop (by rw [← hb, hslot])
      | page b => simp [DevOp.blockL2] at hblock
    simp only [hA, hC, hT, hD, hnone, Bool.or_true, if_true, Option.isSome_none,
      Bool.false_eq_true, if_false]
  · -- a page, and then there is a table
    have hP := (any_pageL3_iff h.regions.below).mpr ⟨d, hd, hda, hfills⟩
    have hsome := h.run.shape.pages _ hP
    have hdiv : va / l3EntrySize / 512 = va / l2EntrySize := by
      rw [l3EntrySize_eq, l2EntrySize_eq]
      omega
    rw [hdiv] at hsome
    simp only [hA, hT, hP, hsome, Bool.or_true, if_true, Bool.false_eq_true, if_false]

/-- Everything else faults. -/
theorem walk_none (h : SetupDone L s₀ s s' ram devices tbl) (hva : va < 2 ^ 39)
    (hram : ∀ r ∈ ram, ¬ r.Contains va) (hdevices : ∀ d ∈ devices, ¬ d.pages.Contains va) :
    walk s'.word L.l0 va = none := by
  have hA := h.not_blockL1 hram
  have hC := h.not_blockL2 hram
  have hD : (devices.flatMap Region.deviceOps).any (·.blockL2 (va / l2EntrySize)) = false := by
    rw [Bool.eq_false_iff, Ne, any_blockL2_iff h.regions.starts]
    rintro ⟨d, hd, hfills⟩
    exact hdevices d hd (hfills.contains (h.regions.below d hd))
  have hP : (devices.flatMap Region.deviceOps).any (·.pageL3 (va / l3EntrySize)) = false := by
    rw [Bool.eq_false_iff, Ne, any_pageL3_iff h.regions.below]
    rintro ⟨d, hd, hda, -⟩
    exact hdevices d hd hda
  rw [h.run.shape.walk_eq hva (block_or_table h.ramDone h.regions.aligned va)
    (normal_or_device h.regions va)]
  simp only [hA, hC, hD, hP, Bool.false_eq_true, if_false, ite_self]

end SetupDone

end Exact

/-- **The identity map is exact.** On zeroed tables and for the regions of a board, whenever the
setup completes, the walk translates every address of RAM to itself as Normal memory, every
address of the pages of a device to itself as Device memory, and faults everywhere else. -/
theorem setup_idmap_exact {L : Layout} {s s' : Tables} {ram devices : List Region}
    (h0 : Zeroed L s) (hb : BoardRegions ram devices)
    (hrun : setupIdmapPageTables L ram devices s = .ok s') :
    IdentityMap s'.word L.l0 ram devices := by
  simp only [setupIdmapPageTables, bind_eq_ok] at hrun
  obtain ⟨-, -, t, hram, hdevices⟩ := hrun
  obtain ⟨hsizes, hshape⟩ := ramPhase_shape h0 hram
  rw [devicePhase_eq_foldlM t hb.starts] at hdevices
  have hapart := (apart_iff_slotsApart hb.starts).mpr hb.slotsApart
  obtain ⟨tbl, hdone⟩ := devRun_of_foldlM hshape hapart hdevices
  have h : SetupDone L s t s' ram devices tbl :=
    ⟨hb, ⟨hb.ramDisjoint, hb.ramBelow, hsizes, hshape⟩, hdone⟩
  constructor
  · rintro va hva ⟨r, hr, hra⟩
    exact h.walk_ram hva hr hra
  · rintro va hva ⟨d, hd, hda⟩
    exact h.walk_device hva hd hda
  · intro va hva hram hdevices
    exact h.walk_none hva hram hdevices

theorem boardRegions_board : BoardRegions boardRam boardDevices where
  ramDisjoint := by
    simp only [PairwiseDisjoint, boardRam, Region.Contains, List.pairwise_cons,
      List.mem_singleton, forall_eq, List.Pairwise.nil, List.not_mem_nil, false_imp_iff,
      implies_true, and_true]
    intro a ha
    omega
  ramBelow := by decide
  ramPlaced := by
    simp only [boardRam, List.mem_cons, List.not_mem_nil, or_false, forall_eq_or_imp, forall_eq]
    exact ⟨⟨by decide, by decide⟩, ⟨by decide, by decide⟩⟩
  devicesBelow := by decide
  devicesDisjoint := by
    simp only [PairwiseDisjoint, boardDevices, Region.pages, Region.Contains, List.map_cons,
      List.map_nil, List.pairwise_cons, List.mem_singleton, forall_eq, List.Pairwise.nil,
      List.not_mem_nil, false_imp_iff, implies_true, and_true]
    intro a ha
    omega
  devicesNotRam := by
    simp only [boardDevices, boardRam, Region.pages, Region.Contains, List.mem_cons,
      List.not_mem_nil, or_false, forall_eq_or_imp, forall_eq]
    refine ⟨⟨?_, ?_⟩, ?_, ?_⟩ <;> intro a ha <;> omega

/-- The setup of the board completes. -/
theorem setup_board :
    ∃ s', setupIdmapPageTables boardLayout boardRam boardDevices zeroTables = .ok s' := by
  obtain ⟨t, hram⟩ := ramPhase_board
  obtain ⟨-, hshape⟩ := ramPhase_shape (zeroed_zeroTables boardLayout) hram
  have hops : boardDevices.flatMap Region.deviceOps =
      [.block 0x08000000, .page 0x09000000] := by decide
  have hvalid : ∀ op ∈ boardDevices.flatMap Region.deviceOps, op.Valid :=
    fun _ => Region.valid_of_mem_deviceOps boardRegions_board.below
  obtain ⟨s', hdevices⟩ := foldlM_mapDevOp_isOk (L := boardLayout) (s := t) hvalid
    (by simp [hops, hshape.numL3])
  rw [← devicePhase_eq_foldlM t (by decide)] at hdevices
  have hvalidate : validateDeviceRegions boardDevices boardRam = .ok () := by decide
  exact ⟨s', by rw [setupIdmapPageTables, hvalidate, ok_bind, hram, ok_bind, hdevices]⟩

/-- The setup of the board completes and is exact. -/
theorem setup_idmap_exact_board :
    ∃ s', setupIdmapPageTables boardLayout boardRam boardDevices zeroTables = .ok s' ∧
      IdentityMap s'.word boardLayout.l0 boardRam boardDevices := by
  obtain ⟨s', hrun⟩ := setup_board
  exact ⟨s', hrun, setup_idmap_exact (zeroed_zeroTables boardLayout) boardRegions_board hrun⟩

end Floss
