import Floss.TableBounds

/-!
# The Pool of Level 3 Tables

Device mappings take their level 3 tables from a pool of 32, and `allocate_l3_page_table`
asserts that one is left. A region list holds at most 15 regions, and a region has pages in
no more than two slots of level 2, the first and the last it touches; a slot gets at most one
table, since no entry that is valid ever becomes invalid.

* `KeepsValid`: what all steps of the setup do to the entries, whatever these hold;
* `mapDeviceRegion_numL3_le`: a region takes at most two tables;
* `l3_pool_suffices`: so the setup never runs out of them.
-/

namespace Floss

/-! ### Valid entries stay valid -/

section Steps

variable {L : Layout} {s t u : Tables}

/-- No valid entry has become invalid. -/
def KeepsValid (s t : Tables) : Prop :=
  ∀ a, (s.word a).testBit 0 = true → (t.word a).testBit 0 = true

theorem KeepsValid.refl (s : Tables) : KeepsValid s s := fun _ h => h

theorem KeepsValid.trans (h₁ : KeepsValid s t) (h₂ : KeepsValid t u) : KeepsValid s u :=
  fun a h => h₂ a (h₁ a h)

/-- Setting bits. -/
theorem keepsValid_or (s : Tables) (a x : ℕ) : KeepsValid s (s.or a x) := by
  intro b hb
  by_cases hba : b = a
  · rw [hba, Tables.word_or_self, Nat.testBit_or, ← hba, hb, Bool.true_or]
  · rw [Tables.word_or_of_ne x hba, hb]

/-- Pointing an entry to a new table. -/
theorem keepsValid_alloc (s : Tables) (a : ℕ) {x : ℕ} (hx : x.testBit 0 = true) :
    KeepsValid s (s.alloc a x) := by
  intro b hb
  by_cases hba : b = a
  · rw [hba, Tables.word_alloc_self, hx]
  · rw [Tables.word_alloc_of_ne x hba, hb]

/-- `1` if the level 2 entry of a slot is valid, else `0`. -/
def l2Valid (L : Layout) (s : Tables) (j : ℕ) : ℕ :=
  ((s.word (L.l2 + 8 * j)).testBit 0).toNat

theorem l2Valid_le_one (j : ℕ) : l2Valid L s j ≤ 1 := Bool.toNat_le _

theorem KeepsValid.l2Valid_le (h : KeepsValid s t) (j : ℕ) : l2Valid L s j ≤ l2Valid L t j := by
  have hj := h (L.l2 + 8 * j)
  rw [l2Valid, l2Valid]
  cases hs : (s.word (L.l2 + 8 * j)).testBit 0 with
  | false => simp
  | true => simp [hj hs]

theorem ensureL2PageTable_pool {k : ℕ} (h : ensureL2PageTable L s k = .ok t) :
    KeepsValid s t ∧ t.numL3 = s.numL3 := by
  obtain ⟨-, ⟨-, rfl⟩ | ⟨-, rfl⟩⟩ := ensureL2PageTable_cases h
  · exact ⟨KeepsValid.refl _, rfl⟩
  · exact ⟨keepsValid_or _ _ _, rfl⟩

/-- **One operation** keeps valid entries, and takes a table only for a page whose slot has
none. -/
theorem mapDevOp_pool {op : DevOp} (h : mapDevOp L s op = .ok t) :
    KeepsValid s t ∧ (t.numL3 = s.numL3 ∨ ∃ a, op = .page a ∧
      l2Valid L s (a / l2EntrySize) = 0 ∧ l2Valid L t (a / l2EntrySize) = 1 ∧
        t.numL3 = s.numL3 + 1) := by
  cases op with
  | block a =>
      obtain ⟨-, -, v, hv, rfl⟩ := mapDeviceL2Block_cases h
      obtain ⟨hkeep, hnum⟩ := ensureL2PageTable_pool hv
      exact ⟨hkeep.trans (keepsValid_or _ _ _), .inl hnum⟩
  | page a =>
      obtain ⟨-, ptr, w, hw, rfl⟩ := mapDeviceL3Page_cases h
      obtain ⟨v, hv, -, hcases⟩ := ensureL3PageTable_cases hw
      obtain ⟨hkeep, hnum⟩ := ensureL2PageTable_pool hv
      rcases hcases with ⟨-, -, rfl⟩ | ⟨hfree, -, -, rfl⟩
      · exact ⟨hkeep.trans (keepsValid_or _ _ _), .inl hnum⟩
      · have halloc := keepsValid_alloc v (L.l2 + 8 * (a / l2EntrySize))
          (testBit_zero_tableDesc (x := ptr))
        have hvalid : l2Valid L v (a / l2EntrySize) = 0 := by rw [l2Valid, hfree, Bool.toNat_false]
        have hslot : l2Valid L (v.alloc (L.l2 + 8 * (a / l2EntrySize)) (tableDesc ptr))
            (a / l2EntrySize) = 1 := by
          rw [l2Valid, Tables.word_alloc_self, testBit_zero_tableDesc, Bool.toNat_true]
        refine ⟨(hkeep.trans halloc).trans (keepsValid_or _ _ _), .inr ⟨a, rfl, ?_, ?_, ?_⟩⟩
        · have hle := hkeep.l2Valid_le (L := L) (a / l2EntrySize)
          omega
        · refine le_antisymm (l2Valid_le_one _) (hslot ▸ ?_)
          exact (keepsValid_or _ _ _).l2Valid_le _
        · rw [Tables.numL3_or, Tables.numL3_alloc, hnum]

end Steps

/-! ### One region -/

namespace Region

/-- The slot of level 2 in which the rounded region starts. -/
def headSlot (d : Region) : ℕ := d.deviceStart / l2EntrySize

/-- The slot of level 2 in which the rounded region ends. -/
def tailSlot (d : Region) : ℕ := (d.deviceStop - 1) / l2EntrySize

/-- Pages are in the first or in the last slot; a slot between them is filled. -/
theorem slot_of_page {d : Region} (hd : d.start < 2 ^ 64) {a : ℕ} (h : .page a ∈ d.deviceOps) :
    a / l2EntrySize = d.headSlot ∨ a / l2EntrySize = d.tailSlot := by
  obtain ⟨-, hstart, hstop, hfills⟩ := (page_mem_deviceOps hd).mp h
  rw [Fills] at hfills
  simp only [headSlot, tailSlot, l2EntrySize_eq] at hfills ⊢
  omega

end Region

section Regions

variable {L : Layout} {s : Tables} {d : Region}

/-- The tables taken since `s` are accounted for by the two slots in which the region has
pages. -/
def PoolFits (L : Layout) (d : Region) (s t : Tables) : Prop :=
  t.numL3 ≤ s.numL3 + l2Valid L t d.headSlot + l2Valid L t d.tailSlot

theorem poolFits_self : PoolFits L d s s := by
  rw [PoolFits]
  omega

theorem PoolFits.le_two {t : Tables} (h : PoolFits L d s t) : t.numL3 ≤ s.numL3 + 2 := by
  have hhead := l2Valid_le_one (L := L) (s := t) d.headSlot
  have htail := l2Valid_le_one (L := L) (s := t) d.tailSlot
  rw [PoolFits] at h
  omega

/-- One operation of the region: a table it takes makes an entry of one of the two slots
valid. -/
theorem PoolFits.step {t u : Tables} (h : PoolFits L d s t) (hd : d.start < 2 ^ 64) {op : DevOp}
    (hop : op ∈ d.deviceOps) (hstep : mapDevOp L t op = .ok u) : PoolFits L d s u := by
  obtain ⟨hkeep, hcases⟩ := mapDevOp_pool hstep
  have hhead := hkeep.l2Valid_le (L := L) d.headSlot
  have htail := hkeep.l2Valid_le (L := L) d.tailSlot
  rw [PoolFits] at h ⊢
  rcases hcases with hnum | ⟨a, rfl, hbefore, hafter, hnum⟩
  · omega
  · rcases Region.slot_of_page hd hop with hslot | hslot
    · rw [hslot] at hbefore hafter
      omega
    · rw [hslot] at hbefore hafter
      omega

/-- **A region takes at most two tables**, whatever the tables hold. -/
theorem mapDeviceRegion_numL3_le (hd : d.start < 2 ^ 64) {t : Tables}
    (h : mapDeviceRegion L s d = .ok t) : t.numL3 ≤ s.numL3 + 2 := by
  rw [mapDeviceRegion_eq_foldlM s hd] at h
  have hfits : PoolFits L d s t := by
    refine foldlM_invariant (fun _ t => PoolFits L d s t) poolFits_self ?_ h
    intro done op rest t u hsplit hinv hstep
    exact hinv.step hd (by simp [hsplit]) hstep
  exact hfits.le_two

/-- A region below 512 GiB is mapped while three tables are free. -/
theorem mapDeviceRegion_isOk (hd : d.start < 2 ^ 64)
    (hbelow : d.deviceStart < d.deviceStop → d.deviceStop ≤ 2 ^ 39) (hnum : s.numL3 + 2 < 32) :
    ∃ t, mapDeviceRegion L s d = .ok t := by
  rw [mapDeviceRegion_eq_foldlM s hd]
  obtain ⟨t, ht, -⟩ := foldlM_total (f := mapDevOp L) (fun _ t => PoolFits L d s t)
    (l := d.deviceOps) (s := s) poolFits_self (by
      intro done op rest t hsplit hinv
      have hop : op ∈ d.deviceOps := by simp [hsplit]
      have hlt : t.numL3 < 32 := by
        have := hinv.le_two
        omega
      obtain ⟨u, hu, -⟩ := mapDevOp_isOk (L := L) (Region.valid_of_deviceStop hd hbelow hop) hlt
      exact ⟨u, hu, hinv.step hd hop hu⟩)
  exact ⟨t, ht⟩

end Regions

/-! ### The setup -/

/-- **The device phase completes** for any list of at most 15 regions below 512 GiB. -/
theorem devicePhase_isOk {L : Layout} {devices : List Region} {s : Tables}
    (hlen : devices.length ≤ 15) (hstarts : ∀ d ∈ devices, d.start < 2 ^ 64)
    (hbelow : ∀ d ∈ devices, d.deviceStart < d.deviceStop → d.deviceStop ≤ 2 ^ 39)
    (hnum : s.numL3 = 0) :
    ∃ t, devicePhase L devices s = .ok t ∧ t.numL3 ≤ 2 * devices.length := by
  refine foldlM_total (fun (done : List Region) (t : Tables) => t.numL3 ≤ 2 * done.length)
    (by simp [hnum]) ?_
  intro done d rest t hsplit hinv
  have hd : d ∈ devices := by simp [hsplit]
  have hdone : done.length + 1 ≤ 15 := by
    rw [hsplit, List.length_append, List.length_cons] at hlen
    omega
  obtain ⟨u, hu⟩ := mapDeviceRegion_isOk (L := L) (s := t) (hstarts d hd) (hbelow d hd) (by omega)
  refine ⟨u, hu, ?_⟩
  have hle := mapDeviceRegion_numL3_le (hstarts d hd) hu
  rw [List.length_append, List.length_singleton]
  omega

/-- **The pool suffices.** A call of `map_device_region` takes at most two level 3 tables,
whatever the tables hold. So for every device list that calls of `record_device_region`
build, its rounded regions below 512 GiB, and any RAM: the setup from zeroed tables does not
run out of level 3 tables, and its device phase completes. -/
theorem l3_pool_suffices {L : Layout} {added devices : List Region} (ram : List Region)
    {s : Tables} (hadded : ∀ d ∈ added, d.start < 2 ^ 64)
    (hrecord : recordDeviceRegions [] added = .ok devices)
    (hbelow : ∀ d ∈ devices, d.deviceStart < d.deviceStop → d.deviceStop ≤ 2 ^ 39)
    (h0 : Zeroed L s) :
    (∀ (d : Region) (t u : Tables), d.start < 2 ^ 64 → mapDeviceRegion L t d = .ok u →
      u.numL3 ≤ t.numL3 + 2) ∧
    Avoids (setupIdmapPageTables L ram devices s) (· = .panic ranOutOfL3) ∧
    ∀ t, ramPhase L ram s = .ok t → ∃ u, devicePhase L devices t = .ok u := by
  obtain ⟨hlen, hstarts⟩ := recordDeviceRegions_bounds hadded hrecord
  have hdevices : ∀ t, ramPhase L ram s = .ok t → ∃ u, devicePhase L devices t = .ok u := by
    intro t hram
    obtain ⟨-, hshape⟩ := ramPhase_shape h0 hram
    obtain ⟨u, hu, -⟩ := devicePhase_isOk (L := L) hlen hstarts hbelow hshape.numL3
    exact ⟨u, hu⟩
  refine ⟨fun d t u hd h => mapDeviceRegion_numL3_le hd h, ?_, hdevices⟩
  have hpanic : ∀ detail, detail ≠ ranOutOfL3 → ¬ Fault.panic detail = .panic ranOutOfL3 := by
    intro detail hne h
    exact hne (Fault.panic.inj h)
  rw [setupIdmapPageTables]
  refine Avoids.bind (validateDeviceRegions_avoids hpanic devices ram) fun _ _ => ?_
  refine Avoids.bind (ramPhase_avoids hpanic (.inr (by simp)) s) fun t ht => ?_
  obtain ⟨u, hu⟩ := hdevices t ht
  rw [hu]
  exact avoids_ok u

/-- A region with pages in two slots, and one that continues it. -/
theorem l3_pool_suffices_merged :
    recordDeviceRegions [] [⟨0x09100000, 0x200000⟩, ⟨0x09300000, 0x1000⟩] =
      .ok [⟨0x09100000, 0x201000⟩] ∧
    Avoids (setupIdmapPageTables boardLayout boardRam [⟨0x09100000, 0x201000⟩] zeroTables)
      (· = .panic ranOutOfL3) := by
  have hrecord : recordDeviceRegions [] [⟨0x09100000, 0x200000⟩, ⟨0x09300000, 0x1000⟩] =
      .ok [⟨0x09100000, 0x201000⟩] := rfl
  have hpool := l3_pool_suffices boardRam (by decide) hrecord (by decide)
    (zeroed_zeroTables boardLayout)
  exact ⟨hrecord, hpool.2.1⟩

end Floss
