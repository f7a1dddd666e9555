import Floss.IdMap

/-!
# Page Table Indices

`setup_idmap_page_tables` computes the indices into its tables by dividing the addresses of
the regions, which are 64-bit numbers from the device tree, and no check stops an address
the tables do not reach. This module says for which regions all indices are in bounds.

* `WithinTables`: no region reaches behind 512 GiB, as the code rounds it;
* `setup_avoids`: under it no index leaves its table;
* `withinTables_of_run`: a completed run needs it;
* `table_indices_iff`: so the setup, when it does not panic, stays in bounds exactly on
  such regions;
* `index_behind_l1`: one gigabyte of RAM at 512 GiB.
-/

namespace Floss

/-- Where the mapping of a RAM region ends. The code rounds the start of the region down to
the size of the entries it uses. -/
def Region.ramStop (r : Region) : ℕ :=
  if r.size % l1EntrySize = 0 then
    r.start / l1EntrySize * l1EntrySize + r.size
  else
    r.start / l2EntrySize * l2EntrySize + r.size

/-- The mappings of all regions end at 512 GiB at most. A device region whose end wraps
around has no mappings. -/
structure WithinTables (ram devices : List Region) : Prop where
  ram : ∀ r ∈ ram, 0 < r.size → r.ramStop ≤ 2 ^ 39
  devices : ∀ d ∈ devices, d.deviceStart < d.deviceStop → d.deviceStop ≤ 2 ^ 39

/-- The text of the assertion in `allocate_l3_page_table`. -/
def ranOutOfL3 : String := "Ran out of L3 page tables for device mappings\n"

/-! ### Runs that stay inside the tables -/

section Avoids

-- `bad` is a kind of fault without the panics, but for the one of `allocate_l3_page_table`;
-- either it has no index faults, or the indices must be in bounds.
variable {L : Layout} {bad : Fault → Prop}
  (hpanic : ∀ detail, detail ≠ ranOutOfL3 → ¬ bad (.panic detail))

/-- The one place where an index may leave its table. -/
theorem entry_avoids {t : TableRef} {idx : ℕ}
    (h : idx < t.size ∨ ∀ i n, ¬ bad (.bounds i n)) : Avoids (t.entry idx) bad := by
  rw [TableRef.entry]
  refine Avoids.bind (avoids_inBounds fun hidx => ?_) fun _ _ => avoids_ok _
  rcases h with h | h
  · exact absurd h hidx
  · exact h idx t.size

theorem pteOr_avoids {t : TableRef} {idx : ℕ}
    (h : idx < t.size ∨ ∀ i n, ¬ bad (.bounds i n)) (s : Tables) (x : ℕ) :
    Avoids (pteOr s t idx x) bad :=
  Avoids.bind (entry_avoids h) fun _ _ => avoids_ok _

include hpanic

theorem ptePointToOffset_avoids {t : TableRef} {idx : ℕ}
    (h : idx < t.size ∨ ∀ i n, ¬ bad (.bounds i n)) (s : Tables) (offset : ℕ) :
    Avoids (ptePointToOffset s t idx offset) bad := by
  rw [ptePointToOffset]
  exact Avoids.bind (avoids_kassert fun _ => hpanic _ (by decide)) fun _ _ =>
    pteOr_avoids h s offset

theorem pteSetMairAttr_avoids {t : TableRef} {idx : ℕ}
    (h : idx < t.size ∨ ∀ i n, ¬ bad (.bounds i n)) (s : Tables) (mairId : ℕ) :
    Avoids (pteSetMairAttr s t idx mairId) bad := by
  rw [pteSetMairAttr]
  exact Avoids.bind (avoids_kassert fun _ => hpanic _ (by decide)) fun _ _ => pteOr_avoids h s _

theorem ptePointToNextLevel_avoids {t : TableRef} {idx : ℕ}
    (h : idx < t.size ∨ ∀ i n, ¬ bad (.bounds i n)) (s : Tables) (next : ℕ) :
    Avoids (ptePointToNextLevel s t idx next) bad := by
  rw [ptePointToNextLevel]
  exact Avoids.bind (avoids_kassert fun _ => hpanic _ (by decide)) fun _ _ => pteOr_avoids h s next

/-- Three steps mark an entry as a block or page. -/
theorem mark_avoids {t : TableRef} {idx : ℕ}
    (h : idx < t.size ∨ ∀ i n, ¬ bad (.bounds i n)) (s : Tables) (attrs offset mairId : ℕ) :
    Avoids (do
      let s ← pteOr s t idx attrs
      let s ← ptePointToOffset s t idx offset
      pteSetMairAttr s t idx mairId) bad := by
  refine Avoids.bind (pteOr_avoids h s attrs) fun s _ => ?_
  refine Avoids.bind (ptePointToOffset_avoids hpanic h s offset) fun s _ => ?_
  exact pteSetMairAttr_avoids hpanic h s mairId

theorem pointToL2_avoids {k : ℕ} (h : k < 512 ∨ ∀ i n, ¬ bad (.bounds i n)) (s : Tables) :
    Avoids (pointToL2 L s k) bad := by
  rw [pointToL2]
  refine Avoids.bind (pteOr_avoids h s _) fun s _ => ?_
  exact ptePointToNextLevel_avoids hpanic h s _

theorem ensureL2PageTable_avoids {k : ℕ} (h : k < 512 ∨ ∀ i n, ¬ bad (.bounds i n))
    (s : Tables) : Avoids (ensureL2PageTable L s k) bad := by
  rw [ensureL2PageTable]
  refine Avoids.bind (entry_avoids h) fun a _ => ?_
  split
  · exact avoids_ok _
  · exact pointToL2_avoids hpanic h s

theorem ensureL3PageTable_avoids {k j : ℕ} (hran : ¬ bad (.panic ranOutOfL3))
    (h : k < 512 ∧ j < 512 * 512 ∨ ∀ i n, ¬ bad (.bounds i n)) (s : Tables) :
    Avoids (ensureL3PageTable L s k j) bad := by
  rw [ensureL3PageTable]
  refine Avoids.bind (ensureL2PageTable_avoids hpanic (h.imp_left And.left) s) fun s _ => ?_
  refine Avoids.bind (entry_avoids (h.imp_left And.right)) fun a _ => ?_
  split
  · exact avoids_ok _
  · rw [allocateL3PageTable]
    refine Avoids.bind ?_ fun _ _ => avoids_ok _
    exact Avoids.bind (avoids_kassert fun _ => hran) fun _ _ => avoids_ok _

/-- **One device operation**: a block or a page. -/
theorem mapDevOp_avoids {op : DevOp} (hran : ¬ bad (.panic ranOutOfL3))
    (h : op.Valid ∨ ∀ i n, ¬ bad (.bounds i n)) (s : Tables) :
    Avoids (mapDevOp L s op) bad := by
  cases op with
  | block a =>
      have hl1 : a / l1EntrySize < 512 ∨ ∀ i n, ¬ bad (.bounds i n) :=
        h.imp_left fun h => by rw [l1EntrySize_eq]; have := h.2; omega
      have hl2 : a / l2EntrySize < L.l2Table.size ∨ ∀ i n, ¬ bad (.bounds i n) :=
        h.imp_left fun h => by rw [l2EntrySize_eq]; have := h.2; simp only [Layout.l2Table]; omega
      rw [mapDevOp, mapDeviceL2Block]
      refine Avoids.bind (avoids_kassert fun _ => hpanic _ (by decide)) fun _ _ => ?_
      refine Avoids.bind (ensureL2PageTable_avoids hpanic hl1 s) fun s _ => ?_
      exact mark_avoids hpanic hl2 s _ _ _
  | page a =>
      have hl12 : a / l1EntrySize < 512 ∧ a / l2EntrySize < 512 * 512 ∨
          ∀ i n, ¬ bad (.bounds i n) :=
        h.imp_left fun h => by rw [l1EntrySize_eq, l2EntrySize_eq]; have := h.2; omega
      rw [mapDevOp, mapDeviceL3Page]
      refine Avoids.bind (avoids_kassert fun _ => hpanic _ (by decide)) fun _ _ => ?_
      refine Avoids.bind (ensureL3PageTable_avoids hpanic hran hl12 s) fun e _ => ?_
      obtain ⟨base, s⟩ := e
      have hl3 : a % l2EntrySize / l3EntrySize < (⟨base, 512⟩ : TableRef).size := by
        simp only [l2EntrySize_eq, l3EntrySize_eq]
        omega
      exact mark_avoids hpanic (.inl hl3) s _ _ _

/-- **One RAM region**. -/
theorem mapRamRegion_avoids {r : Region}
    (h : (0 < r.size → r.ramStop ≤ 2 ^ 39) ∨ ∀ i n, ¬ bad (.bounds i n)) (s : Tables) :
    Avoids (mapRamRegion L s r) bad := by
  rw [mapRamRegion]
  by_cases h1 : r.size % l1EntrySize = 0
  · rw [if_pos h1]
    refine foldlM_avoids_of_mem (fun i hi t => mark_avoids hpanic (h.imp_left ?_) t _ _ _) s
    intro hstop
    have hi := List.mem_range.1 hi
    rw [Region.ramStop, if_pos h1] at hstop
    simp only [Layout.l1Table, l1EntrySize_eq] at hstop hi ⊢
    omega
  rw [if_neg h1]
  by_cases h2 : r.size % l2EntrySize = 0
  · rw [if_pos h2]
    rw [Region.ramStop, if_neg h1] at h
    refine Avoids.bind ?_ fun t _ => ?_
    · refine foldlM_avoids_of_mem (fun i hi t => pointToL2_avoids hpanic (h.imp_left ?_) t) s
      intro hstop
      have hi := List.mem_range.1 hi
      simp only [l1Mappings, l1EntrySize_eq, l2EntrySize_eq] at hstop hi h1 ⊢
      omega
    · refine foldlM_avoids_of_mem (fun i hi t => mark_avoids hpanic (h.imp_left ?_) t _ _ _) t
      intro hstop
      have hi := List.mem_range.1 hi
      simp only [Layout.l2Table, l1EntrySize_eq, l2EntrySize_eq] at hstop hi h1 ⊢
      omega
  · rw [if_neg h2]
    exact avoids_error (hpanic _ (by decide))

/-- Validation, which compares the regions. -/
theorem validateDeviceRegions_avoids (devices ram : List Region) :
    Avoids (validateDeviceRegions devices ram) bad := by
  refine foldlM_avoids_of_mem (fun d _ _ => foldlM_avoids_of_mem (fun r _ _ => ?_) ()) ()
  exact avoids_kassert fun _ => hpanic _ (by decide)

/-- **The RAM phase**. -/
theorem ramPhase_avoids {ram : List Region}
    (h : (∀ r ∈ ram, 0 < r.size → r.ramStop ≤ 2 ^ 39) ∨ ∀ i n, ¬ bad (.bounds i n))
    (s : Tables) : Avoids (ramPhase L ram s) bad := by
  have hl0 : 0 < L.l0Table.size := Nat.one_pos
  rw [ramPhase, setupL0]
  refine Avoids.bind (Avoids.bind (pteOr_avoids (.inl hl0) s _) fun s _ => ?_) fun s _ => ?_
  · exact ptePointToNextLevel_avoids hpanic (.inl hl0) s _
  · exact foldlM_avoids_of_mem
      (fun r hr t => mapRamRegion_avoids hpanic (h.imp_left fun h => h r hr) t) s

/-- **The whole setup**. -/
theorem setup_avoids {ram devices : List Region} (hran : ¬ bad (.panic ranOutOfL3))
    (hstarts : ∀ d ∈ devices, d.start < 2 ^ 64)
    (h : WithinTables ram devices ∨ ∀ i n, ¬ bad (.bounds i n)) (s : Tables) :
    Avoids (setupIdmapPageTables L ram devices s) bad := by
  rw [setupIdmapPageTables]
  refine Avoids.bind (validateDeviceRegions_avoids hpanic devices ram) fun _ _ => ?_
  refine Avoids.bind (ramPhase_avoids hpanic (h.imp_left WithinTables.ram) s) fun s _ => ?_
  rw [devicePhase_eq_foldlM s hstarts]
  refine foldlM_avoids_of_mem (fun op hop t => ?_) s
  refine mapDevOp_avoids hpanic hran (h.imp_left fun h => ?_) t
  obtain ⟨d, hd, hop⟩ := List.mem_flatMap.1 hop
  exact Region.valid_of_deviceStop (hstarts d hd) (h.devices d hd) hop

end Avoids

/-! ### What a completed run needs -/

section Needs

variable {L : Layout} {s s' : Tables}

/-- Every index of a completed loop was in bounds. -/
theorem range_in_bounds {f : Tables → ℕ → Exec Tables} {a n size : ℕ}
    (hf : ∀ t u i, f t i = .ok u → a + i < size)
    (hrun : (List.range n).foldlM f s = .ok s') (hn : 0 < n) : a + n ≤ size := by
  have hall := foldlM_range_invariant (fun i _ => i = 0 ∨ a + i ≤ size) (.inl rfl)
    (fun i t u _ _ hstep => .inr (hf t u i hstep)) hrun
  omega

/-- A mapped RAM region ends at 512 GiB at most. -/
theorem ramStop_le_of_run {r : Region} (hr : r.size < 2 ^ 64)
    (hrun : mapRamRegion L s r = .ok s') (hsize : 0 < r.size) : r.ramStop ≤ 2 ^ 39 := by
  rw [mapRamRegion] at hrun
  rw [Region.ramStop]
  by_cases h1 : r.size % l1EntrySize = 0
  · rw [if_pos h1] at hrun ⊢
    have hend := range_in_bounds (fun t u i hstep => (mapNormalL1_eq_ok hstep).1) hrun
      (by rw [l1EntrySize_eq] at h1 ⊢; omega)
    rw [l1EntrySize_eq] at hend h1 ⊢
    omega
  · rw [if_neg h1] at hrun ⊢
    by_cases h2 : r.size % l2EntrySize = 0
    · rw [if_pos h2] at hrun
      obtain ⟨t, -, hrun⟩ := bind_eq_ok.1 hrun
      have hend := range_in_bounds (fun t u i hstep => (mapNormalL2_eq_ok hstep).1) hrun
        (by rw [l2EntrySize_eq] at h2 ⊢; omega)
      rw [l2EntrySize_eq] at hend h2 ⊢
      omega
    · rw [if_neg h2] at hrun
      simp at hrun

/-- A device operation that ends was valid. -/
theorem valid_of_mapDevOp {op : DevOp} (hrun : mapDevOp L s op = .ok s') : op.Valid := by
  cases op with
  | block a =>
      obtain ⟨haligned, hidx, -⟩ := mapDeviceL2Block_cases hrun
      refine ⟨haligned, ?_⟩
      rw [l2EntrySize_eq] at hidx
      omega
  | page a =>
      obtain ⟨haligned, ptr, t, hl3, -⟩ := mapDeviceL3Page_cases hrun
      obtain ⟨-, -, hidx, -⟩ := ensureL3PageTable_cases hl3
      refine ⟨haligned, ?_⟩
      rw [l2EntrySize_eq] at hidx
      omega

/-- A device region all of whose operations are valid ends at 512 GiB at most: its last
page is mapped by one of them. -/
theorem deviceStop_le_of_valid {d : Region} (hd : d.start < 2 ^ 64)
    (hvalid : ∀ op ∈ d.deviceOps, op.Valid) (hlt : d.deviceStart < d.deviceStop) :
    d.deviceStop ≤ 2 ^ 39 := by
  have hstart := Region.deviceStart_mod hd
  have hstop := d.deviceStop_mod
  by_cases hfills : d.Fills ((d.deviceStop - 4096) / l2EntrySize)
  · have hop := (hvalid _ (hfills.block_mem hd)).2
    have hlast := hfills.2
    rw [l2EntrySize_eq] at hop hlast
    omega
  · have hpage := (Region.page_mem_deviceOps hd).2
      ⟨(by omega : (d.deviceStop - 4096) % 4096 = 0), by omega, by omega, hfills⟩
    have hop := (hvalid _ hpage).2
    omega

/-- **A completed setup had regions within the tables**. -/
theorem withinTables_of_run {ram devices : List Region} (hsizes : ∀ r ∈ ram, r.size < 2 ^ 64)
    (hstarts : ∀ d ∈ devices, d.start < 2 ^ 64)
    (hrun : setupIdmapPageTables L ram devices s = .ok s') : WithinTables ram devices := by
  rw [setupIdmapPageTables] at hrun
  obtain ⟨-, -, hrun⟩ := bind_eq_ok.1 hrun
  obtain ⟨t, hram, hdevices⟩ := bind_eq_ok.1 hrun
  obtain ⟨t₀, -, hram⟩ := bind_eq_ok.1 hram
  rw [devicePhase_eq_foldlM t hstarts] at hdevices
  have hramAll := foldlM_invariant (fun done _ => ∀ r ∈ done, r ∈ ram →
    0 < r.size → r.ramStop ≤ 2 ^ 39) (by simp) ?_ hram
  have hopsAll := foldlM_invariant (fun done _ => ∀ op ∈ done, op.Valid) (by simp) ?_ hdevices
  · refine ⟨fun r hr => hramAll r hr hr, fun d hd => ?_⟩
    exact deviceStop_le_of_valid (hstarts d hd) fun op hop =>
      hopsAll op (List.mem_flatMap.2 ⟨d, hd, hop⟩)
  · intro done op rest t u _ hdone hstep op' hop'
    rcases List.mem_append.1 hop' with hop' | hop'
    · exact hdone op' hop'
    · rw [List.mem_singleton.1 hop']
      exact valid_of_mapDevOp hstep
  · intro done r rest t u _ hdone hstep r' hr' hmem
    rcases List.mem_append.1 hr' with hr' | hr'
    · exact hdone r' hr' hmem
    · rw [List.mem_singleton.1 hr'] at hmem ⊢
      exact ramStop_le_of_run (hsizes r hmem) hstep

end Needs

/-- **The indices stay in bounds exactly for regions within the tables**, whenever the setup
does not panic; a failed validation of the regions is a panic. -/
theorem table_indices_iff (L : Layout) (s : Tables) {ram devices : List Region}
    (hram : ∀ r ∈ ram, r.start < 2 ^ 64 ∧ r.size < 2 ^ 64)
    (hdevices : ∀ d ∈ devices, d.start < 2 ^ 64 ∧ d.size < 2 ^ 64)
    (hpanic : ∀ detail, setupIdmapPageTables L ram devices s ≠ .error (.panic detail)) :
    Avoids (setupIdmapPageTables L ram devices s) Fault.IsBounds ↔
      WithinTables ram devices := by
  have hstarts : ∀ d ∈ devices, d.start < 2 ^ 64 := fun d hd => (hdevices d hd).1
  constructor
  · intro havoid
    -- the setup has no faults but panics and indices out of bounds
    have hother : Avoids (setupIdmapPageTables L ram devices s)
        (fun e => ¬ e.IsBounds ∧ ∀ detail, e ≠ .panic detail) :=
      setup_avoids (by simp) (by simp) hstarts (.inr (by simp [Fault.IsBounds])) s
    cases hrun : setupIdmapPageTables L ram devices s with
    | ok s' => exact withinTables_of_run (fun r hr => (hram r hr).2) hstarts hrun
    | error e =>
      refine absurd ⟨havoid e hrun, fun detail he => ?_⟩ (hother e hrun)
      exact hpanic detail (he ▸ hrun)
  · intro hwithin
    exact setup_avoids (by simp [Fault.IsBounds]) (by simp [Fault.IsBounds]) hstarts
      (.inl hwithin) s

/-- The setup of the board does not panic, so its indices are in bounds. -/
theorem table_indices_iff_board :
    (∀ detail, setupIdmapPageTables boardLayout boardRam boardDevices zeroTables ≠
      .error (.panic detail)) ∧
    Avoids (setupIdmapPageTables boardLayout boardRam boardDevices zeroTables)
      Fault.IsBounds := by
  obtain ⟨s', hrun⟩ := setup_board
  have hpanic : ∀ detail, setupIdmapPageTables boardLayout boardRam boardDevices zeroTables ≠
      .error (.panic detail) := by
    rw [hrun]
    simp
  have hiff := table_indices_iff boardLayout zeroTables (by decide) (by decide) hpanic
  exact ⟨hpanic, hiff.2 ⟨by decide, by decide⟩⟩

/-- **One gigabyte of RAM at 512 GiB**: the regions are valid, and the setup writes behind
the level 1 table. -/
theorem index_behind_l1 :
    validateDeviceRegions [] [⟨2 ^ 39, 2 ^ 30⟩] = .ok () ∧
    setupIdmapPageTables boardLayout [⟨2 ^ 39, 2 ^ 30⟩] [] zeroTables =
      .error (.bounds 512 512) :=
  ⟨rfl, rfl⟩


end Floss
