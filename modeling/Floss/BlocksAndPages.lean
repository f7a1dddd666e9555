import Floss.DevicePhase
import Floss.RamMap

/-!
# Blocks and Pages in One Slot

`map_device_region` relies on no level 2 slot getting both a block and pages: a page is mapped
through the address found in the level 2 entry, and in a block descriptor that address is the
block's own. The comment there derives this from a validation that devices do not overlap each
other or RAM. The validation compares devices with RAM only, and before the rounding to pages.

* `KeepsApart` is what the code relies on before an operation;
* `SlotsApart` is the condition on the regions under which it always holds;
* `blocks_and_pages_apart`: it is enough in every run, and needed in every run that completes.
-/

namespace Floss

/-- Before a block, the level 2 entry is not a table. Before a page, it is not a block, and
`ensure_l3_page_table` returns one of the level 3 tables. -/
def KeepsApart (L : Layout) (t : Tables) : DevOp → Prop
  | .block a => bits (t.word (L.l2 + 8 * (a / l2EntrySize))) 1 0 ≠ 3
  | .page a => bits (t.word (L.l2 + 8 * (a / l2EntrySize))) 1 0 ≠ 1 ∧
      ∀ ptr u, ensureL3PageTable L t (a / l1EntrySize) (a / l2EntrySize) = .ok (ptr, u) →
        ∃ i, i < 32 ∧ ptr = L.l3 + 8 * (512 * i)

/-- The device phase, started at `s`, gets to `t`, where its next operation is `op`. -/
def Reaches (L : Layout) (devices : List Region) (s t : Tables) (op : DevOp) : Prop :=
  ∃ done rest, devices.flatMap Region.deviceOps = done ++ op :: rest ∧
    done.foldlM (mapDevOp L) s = .ok t

/-- No slot of which some device has pages is filled by a device or is a block of RAM. -/
def SlotsApart (ram devices : List Region) : Prop :=
  ∀ d ∈ devices, ∀ j, d.Grazes j → (∀ e ∈ devices, ¬ e.Fills j) ∧ ∀ r ∈ ram, r.blockL2 j = false

/-! ### The type of an entry -/

theorem bits_eq_one_iff (x : ℕ) :
    bits x 1 0 = 1 ↔ x.testBit 0 = true ∧ x.testBit 1 = false := by
  simp only [bits, Nat.testBit_eq_decide_div_mod_eq, decide_eq_true_eq, decide_eq_false_iff_not]
  omega

theorem bits_eq_three_iff (x : ℕ) :
    bits x 1 0 = 3 ↔ x.testBit 0 = true ∧ x.testBit 1 = true := by
  simp only [bits, Nat.testBit_eq_decide_div_mod_eq, decide_eq_true_eq]
  omega

section Types

variable {L : Layout} {s : Tables} {A B C T D P : ℕ → Bool} {tbl : ℕ → Option ℕ} {j : ℕ}

/-- The second bit of a level 2 entry tells tables from blocks. -/
theorem DevShape.testBit_one_l2 (h : DevShape L s A B C T D P tbl) (hj : j < 512 * 512) :
    (s.word (L.l2 + 8 * j)).testBit 1 = (tbl j).isSome := by
  have hfits : Fits (j * l2EntrySize) 0 := by
    rw [l2EntrySize_eq]
    exact ⟨by omega, by omega, by omega⟩
  have hbit : (j * l2EntrySize).testBit 1 = false := hfits.testBit_eq_false (.inl (by decide))
  cases ht : tbl j with
  | some t =>
      rw [h.l2table j t hj ht, tableDesc, Nat.testBit_or]
      rfl
  | none =>
      have hnormal : normalAttrs.testBit 1 = false := by decide
      have hdevice : deviceAttrs.testBit 1 = false := by decide
      rw [h.l2block j hj ht]
      cases C j <;> cases D j <;> simp [blockNormal, blockDevice, hbit, hnormal, hdevice]

/-- The level 2 entry is a table exactly if there is a level 3 table for it. -/
theorem DevShape.table_iff (h : DevShape L s A B C T D P tbl) (hj : j < 512 * 512) :
    bits (s.word (L.l2 + 8 * j)) 1 0 = 3 ↔ (tbl j).isSome := by
  rw [bits_eq_three_iff, h.valid_l2 hj, h.testBit_one_l2 hj]
  cases (tbl j).isSome <;> simp

/-- The level 2 entry is a block exactly if it has no table and is marked as one. -/
theorem DevShape.block_iff (h : DevShape L s A B C T D P tbl) (hj : j < 512 * 512) :
    bits (s.word (L.l2 + 8 * j)) 1 0 = 1 ↔
      tbl j = none ∧ (C j = true ∨ D j = true) := by
  rw [bits_eq_one_iff, h.valid_l2 hj, h.testBit_one_l2 hj]
  cases tbl j <;> simp

end Types

/-! ### Slots and operations -/

section Slots

variable {ram devices : List Region}

/-- A region that grazes a slot has a page there. -/
theorem Region.Grazes.page {d : Region} {j : ℕ} (h : d.Grazes j) (hd : d.start < 2 ^ 64) :
    ∃ a, .page a ∈ d.deviceOps ∧ a / l2EntrySize = j := by
  obtain ⟨hne, hstart, hstop, hfills⟩ := h
  have hs := deviceStart_mod hd
  have he := d.deviceStop_mod
  have hslot : max d.deviceStart (j * l2EntrySize) / l2EntrySize = j := by
    rw [l2EntrySize_eq] at hstart hstop ⊢
    omega
  refine ⟨max d.deviceStart (j * l2EntrySize), ?_, hslot⟩
  rw [page_mem_deviceOps hd, hslot]
  refine ⟨?_, by omega, by omega, hfills⟩
  rw [l2EntrySize_eq]
  omega

/-- A page is mapped in a slot that its region grazes. -/
theorem Region.grazes_of_page {d : Region} {a : ℕ} (h : .page a ∈ d.deviceOps)
    (hd : d.start < 2 ^ 64) : d.Grazes (a / l2EntrySize) := by
  rw [page_mem_deviceOps hd] at h
  obtain ⟨-, hstart, hstop, hfills⟩ := h
  refine ⟨by omega, ?_, ?_, hfills⟩
  · rw [l2EntrySize_eq]
    omega
  · rw [l2EntrySize_eq]
    omega

/-- The condition on the regions is the condition on the operations. -/
theorem apart_iff_slotsApart (hstarts : ∀ d ∈ devices, d.start < 2 ^ 64) :
    Apart (fun j => ram.any (·.blockL2 j)) (devices.flatMap Region.deviceOps) ↔
      SlotsApart ram devices := by
  constructor
  · intro h d hd j hgraze
    obtain ⟨a, ha, rfl⟩ := hgraze.page (hstarts d hd)
    obtain ⟨hram, hblock⟩ := h a (List.mem_flatMap.mpr ⟨d, hd, ha⟩)
    refine ⟨?_, ?_⟩
    · intro e he hfills
      have hmem := hfills.block_mem (hstarts e he)
      exact hblock _ (List.mem_flatMap.mpr ⟨e, he, hmem⟩) (Nat.mul_div_cancel _ (by decide))
    · intro r hr
      have := List.any_eq_false.mp hram r hr
      simpa using this
  · intro h a ha
    obtain ⟨d, hd, hda⟩ := List.mem_flatMap.mp ha
    obtain ⟨hfills, hram⟩ := h d hd _ (Region.grazes_of_page hda (hstarts d hd))
    refine ⟨?_, ?_⟩
    · rw [List.any_eq_false]
      intro r hr
      simp [hram r hr]
    · intro b hb hslot
      obtain ⟨e, he, heb⟩ := List.mem_flatMap.mp hb
      rw [Region.block_mem_deviceOps (hstarts e he), hslot] at heb
      exact hfills e he heb.2

end Slots

/-! ### Every reachable state -/

section Runs

variable {L : Layout} {s t : Tables} {A B C : ℕ → Bool} {ops done : List DevOp} {op : DevOp}
  {tbl : ℕ → Option ℕ}

/-- Addresses below 512 GiB have a slot of level 2. -/
theorem slot_lt {a : ℕ} (ha : a < 2 ^ 39) : a / l2EntrySize < 512 * 512 := by
  rw [l2EntrySize_eq]
  omega

/-- Operations that keep apart find the entries as they need them. -/
theorem keepsApart_of_apart (h : DevRun L t A B C done tbl) (hapart : Apart C ops)
    (hdone : done ⊆ ops) (hop : op ∈ ops) (hvalid : op.Valid) : KeepsApart L t op := by
  cases op with
  | block a =>
      have hlt := slot_lt hvalid.2
      have hnone := h.no_table hapart hdone hop
      rw [KeepsApart, Ne, h.shape.table_iff hlt, hnone]
      simp
  | page a =>
      have hlt := slot_lt hvalid.2
      have hC := (hapart a hop).1
      have hD := DevRun.not_blockL2 hapart hop hdone
      refine ⟨?_, ?_⟩
      · rw [Ne, h.shape.block_iff hlt, hC, hD]
        simp
      · intro ptr u hptr
        obtain ⟨tbl', i, hi, rfl, -, h'⟩ := h.shape.ensureL3PageTable hC hD hptr
        exact ⟨i, h'.table_lt hi, rfl⟩

/-- An operation that finds the entries as it needs them keeps apart from all before it. -/
theorem apart_of_keepsApart (h : DevRun L t A B C done tbl) (hapart : Apart C done)
    (hvalid : op.Valid) (hkeeps : KeepsApart L t op) : Apart C (done ++ [op]) := by
  intro a ha
  rcases List.mem_append.mp ha with hdone | hlast
  · refine ⟨(hapart a hdone).1, ?_⟩
    intro b hb hslot
    rcases List.mem_append.mp hb with hb | hb
    · exact (hapart a hdone).2 b hb hslot
    · -- a block after a page: the slot has a table
      obtain rfl : .block b = op := by simpa using hb
      refine hkeeps ((h.shape.table_iff (slot_lt hvalid.2)).mpr ?_)
      have hpage : done.any (·.pageL3 (a / l3EntrySize)) = true :=
        List.any_eq_true.mpr ⟨_, hdone, by simp [DevOp.pageL3]⟩
      have hsome := h.shape.pages _ hpage
      have hdiv : a / l3EntrySize / 512 = a / l2EntrySize := by
        rw [l3EntrySize_eq, l2EntrySize_eq]
        omega
      rwa [hdiv, ← hslot] at hsome
  · -- a page: its slot is marked neither by the RAM nor by a block
    obtain rfl : .page a = op := by simpa using hlast
    have hblock := hkeeps.1
    rw [Ne, h.shape.block_iff (slot_lt hvalid.2)] at hblock
    by_cases hnone : tbl (a / l2EntrySize) = none
    · simp only [hnone, true_and, not_or, Bool.not_eq_true, List.any_eq_false] at hblock
      refine ⟨hblock.1, ?_⟩
      intro b hb hslot
      have hb : .block b ∈ done := by simpa using hb
      have hother := hblock.2 _ hb
      simp [DevOp.blockL2, hslot] at hother
    · obtain ⟨c, hc, hslot⟩ := h.needed _ (Option.isSome_iff_ne_none.mpr hnone)
      rw [← hslot]
      refine ⟨(hapart c hc).1, ?_⟩
      intro b hb
      exact (hapart c hc).2 b (by simpa using hb)

/-- A completed run in which every operation finds the entries as it needs them keeps
apart. -/
theorem apart_of_run {s₀ s' : Tables} (h : RamShape L s₀ s A B C) (hvalid : ∀ op ∈ ops, op.Valid)
    (hkeeps : ∀ done rest op t, ops = done ++ op :: rest →
      done.foldlM (mapDevOp L) s = .ok t → KeepsApart L t op)
    (hrun : ops.foldlM (mapDevOp L) s = .ok s') : Apart C ops := by
  -- while the operations keep apart the tables are known, so the next one keeps apart too
  have hfinal := foldlM_invariant (fun done t => done.foldlM (mapDevOp L) s = .ok t ∧
    Apart C done ∧ ∃ tbl, DevRun L t A B C done tbl) ?_ ?_ hrun
  · exact hfinal.2.1
  · refine ⟨rfl, ?_, _, h.devShape, fun _ hj => nomatch hj⟩
    intro a ha
    exact (nomatch ha)
  · rintro done op rest t u hops ⟨hdone, hapart, tbl, h⟩ hstep
    have hmem : op ∈ ops := by simp [hops]
    have hapart' := apart_of_keepsApart h hapart (hvalid op hmem)
      (hkeeps done rest op t hops hdone)
    refine ⟨?_, hapart', h.step hapart' hstep⟩
    rw [foldlM_append_eq_ok]
    exact ⟨t, hdone, by simpa using hstep⟩

end Runs

/-- **Blocks and pages.** After any completed RAM phase on zeroed tables, and for devices below
512 GiB, the condition on the regions makes every operation of the device phase find the tables
as it needs them, in whatever state it is reached. In a device phase that completes the
condition is also necessary. -/
theorem blocks_and_pages_apart {L : Layout} {s₀ s : Tables} {ram devices : List Region}
    (h0 : Zeroed L s₀) (hram : ramPhase L ram s₀ = .ok s)
    (hbelow : ∀ d ∈ devices, d.start + d.size ≤ 2 ^ 39) :
    (SlotsApart ram devices → ∀ t op, Reaches L devices s t op → KeepsApart L t op) ∧
      ((∃ s', devicePhase L devices s = .ok s') →
        (∀ t op, Reaches L devices s t op → KeepsApart L t op) → SlotsApart ram devices) := by
  obtain ⟨-, hshape⟩ := ramPhase_shape h0 hram
  have hstarts : ∀ d ∈ devices, d.start < 2 ^ 64 := fun d hd => Region.start_lt (hbelow d hd)
  have hvalid : ∀ op ∈ devices.flatMap Region.deviceOps, op.Valid :=
    fun _ => Region.valid_of_mem_deviceOps hbelow
  constructor
  · rintro hslots t op ⟨done, rest, hops, hrun⟩
    have hapart := (apart_iff_slotsApart hstarts).mpr hslots
    have hsub : done ⊆ devices.flatMap Region.deviceOps := by
      rw [hops]
      exact List.subset_append_left _ _
    have hmem : op ∈ devices.flatMap Region.deviceOps := by simp [hops]
    obtain ⟨tbl, h⟩ := devRun_of_foldlM hshape (hapart.mono hsub) hrun
    exact keepsApart_of_apart h hapart hsub hmem (hvalid op hmem)
  · rintro ⟨s', hrun⟩ hkeeps
    rw [devicePhase_eq_foldlM s hstarts] at hrun
    rw [← apart_iff_slotsApart hstarts]
    exact apart_of_run hshape hvalid (fun done rest op t hops ht =>
      hkeeps t op ⟨done, rest, hops, ht⟩) hrun

/-- The RAM of a board: a gigabyte, and some more mapped at level 2. -/
def boardRam : List Region := [⟨0x40000000, 0x40000000⟩, ⟨0x80000000, 0x10000000⟩]

/-- The devices of a board: an interrupt controller that fills a slot, and a UART. -/
def boardDevices : List Region := [⟨0x08000000, 0x200000⟩, ⟨0x09000000, 0x1000⟩]

theorem ramPhase_board :
    ∃ s, ramPhase boardLayout boardRam zeroTables = .ok s :=
  ramPhase_isOk zeroTables (by decide) (by decide)

/-- On the board, blocks and pages stay apart. -/
theorem blocks_and_pages_apart_board :
    ∃ s, ramPhase boardLayout boardRam zeroTables = .ok s ∧ SlotsApart boardRam boardDevices ∧
      ∀ t op, Reaches boardLayout boardDevices s t op → KeepsApart boardLayout t op := by
  obtain ⟨s, hram⟩ := ramPhase_board
  have hslots : SlotsApart boardRam boardDevices := by
    have hgic : Region.deviceStart ⟨0x08000000, 0x200000⟩ = 0x08000000 ∧
        Region.deviceStop ⟨0x08000000, 0x200000⟩ = 0x08200000 := by decide
    have huart : Region.deviceStart ⟨0x09000000, 0x1000⟩ = 0x09000000 ∧
        Region.deviceStop ⟨0x09000000, 0x1000⟩ = 0x09001000 := by decide
    simp only [SlotsApart, boardDevices, boardRam, List.mem_cons, List.not_mem_nil, or_false,
      forall_eq_or_imp, forall_eq, Region.Grazes, Region.Fills, Region.blockL2, hgic, huart,
      l1EntrySize_eq, l2EntrySize_eq, decide_eq_false_iff_not]
    refine ⟨?_, ?_⟩
    · intro j hgraze
      omega
    · intro j hgraze
      omega
  have hbelow : ∀ d ∈ boardDevices, d.start + d.size ≤ 2 ^ 39 := by decide
  have happart := blocks_and_pages_apart (zeroed_zeroTables boardLayout) hram hbelow
  exact ⟨s, hram, hslots, happart.1 hslots⟩

/-- Valid entries are taken for tables, whatever their type. -/
theorem ensureL3PageTable_of_valid {L : Layout} {s : Tables} {k j : ℕ} (hk : k < 512)
    (hj : j < 512 * 512) (h1 : (s.word (L.l1 + 8 * k)).testBit 0 = true)
    (h2 : (s.word (L.l2 + 8 * j)).testBit 0 = true) :
    ensureL3PageTable L s k j = .ok (s.word (L.l2 + 8 * j) &&& pteAddrMask, s) := by
  have hl2 : ensureL2PageTable L s k = .ok s := by
    simp only [ensureL2PageTable, TableRef.entry, Layout.l1Table, inBounds_of hk, ok_bind,
      pure_eq_ok, pteIsValid_eq, h1, if_true]
  simp only [ensureL3PageTable, hl2, TableRef.entry, Layout.l2Table, inBounds_of hj, ok_bind,
    pure_eq_ok, pteIsValid_eq, h2, if_true]

/-- Two disjoint devices with a gap between them that rounding closes: the first becomes a
block, the second a page in the same slot. -/
def closeDevices : List Region := [⟨0x08000000, 0x1FF400⟩, ⟨0x081FF800, 0x400⟩]

/-- **A page in a block.** The two devices can be recorded and are accepted together with the
RAM of the board, and before the page of the second the level 2 entry is a block:
`ensure_l3_page_table` returns the address of the first device as a table. -/
theorem blocks_and_pages_not_apart_close_devices :
    recordDeviceRegions [] closeDevices = .ok closeDevices ∧
      validateDeviceRegions closeDevices boardRam = .ok () ∧
      ∃ s t u, ramPhase boardLayout boardRam zeroTables = .ok s ∧
        Reaches boardLayout closeDevices s t (.page 0x081FF000) ∧
        ensureL3PageTable boardLayout t 0 64 = .ok (0x08000000, u) ∧
        ¬ KeepsApart boardLayout t (.page 0x081FF000) := by
  refine ⟨by decide, by decide, ?_⟩
  obtain ⟨s, hram⟩ := ramPhase_board
  obtain ⟨-, hshape⟩ := ramPhase_shape (zeroed_zeroTables boardLayout) hram
  have hops : closeDevices.flatMap Region.deviceOps =
      [.block 0x08000000] ++ .page 0x081FF000 :: [] := by decide
  have hvalid : ∀ op ∈ [DevOp.block 0x08000000], op.Valid := by
    intro op hop
    obtain rfl := List.mem_singleton.mp hop
    exact ⟨by decide, by decide⟩
  obtain ⟨t, ht⟩ := foldlM_mapDevOp_isOk (L := boardLayout) (s := s) hvalid
    (by simp [hshape.numL3])
  have hapart : ∀ C, Apart C [.block 0x08000000] := by
    intro C a ha
    simp at ha
  obtain ⟨tbl, hrun⟩ := devRun_of_foldlM hshape (hapart _) ht
  have hnone : tbl 64 = none :=
    hrun.no_table (hapart _) (List.Subset.refl _) (a := 0x08000000) (by simp)
  have hl2 := hrun.shape.l2block 64 (by decide) hnone
  have hword : t.word (boardLayout.l2 + 8 * 64) = blockDevice 0x08000000 := hl2
  have hvalid1 : (t.word (boardLayout.l1 + 8 * 0)).testBit 0 = true :=
    hrun.shape.valid_l1 (by decide)
  have hvalid2 : (t.word (boardLayout.l2 + 8 * 64)).testBit 0 = true := by
    rw [hword]
    exact testBit_zero_blockDevice _
  have hmask : blockDevice 0x08000000 &&& pteAddrMask = 0x08000000 := by decide
  refine ⟨s, t, t, hram, ⟨_, _, hops, ht⟩, ?_, ?_⟩
  · rw [ensureL3PageTable_of_valid (by decide) (by decide) hvalid1 hvalid2, hword, hmask]
  · rintro ⟨hblock, -⟩
    refine hblock ?_
    have hslot : boardLayout.l2 + 8 * (0x081FF000 / l2EntrySize) = boardLayout.l2 + 8 * 64 := by
      decide
    rw [hslot, hword]
    decide

end Floss
