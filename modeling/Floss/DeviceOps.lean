import Floss.PageTables

/-!
# The Operations of the Device Phase

Devices are mapped by 2 MiB blocks where a region covers a whole slot of level 2, and by
pages everywhere else. The loop over a region is a list of such operations
(`Region.deviceOps`), and the device phase runs them one after the other
(`devicePhase_eq_foldlM`). Which operations these are is said by `Region.block_mem_deviceOps`
and `Region.page_mem_deviceOps`.
-/

namespace Floss

/-! ### Operations -/

/-- One turn of the loop of `map_device_region`, at a physical address. -/
inductive DevOp
  | block (phys : ℕ)
  | page (phys : ℕ)
  deriving DecidableEq, Repr

/-- The address is below 512 GiB and aligned for the operation. -/
def DevOp.Valid : DevOp → Prop
  | .block a => a % l2EntrySize = 0 ∧ a < 2 ^ 39
  | .page a => a % l3EntrySize = 0 ∧ a < 2 ^ 39

/-- Run one operation. -/
def mapDevOp (L : Layout) (s : Tables) : DevOp → Exec Tables
  | .block phys => mapDeviceL2Block L s phys
  | .page phys => mapDeviceL3Page L s phys

/-- The operations of the loop of `map_device_region`. -/
def devOps (stop : ℕ) : (fuel addr : ℕ) → List DevOp
  | 0, _ => []
  | fuel + 1, addr =>
      if addr < stop then
        if addr % l2EntrySize = 0 ∧ stop - addr ≥ l2EntrySize then
          .block addr :: devOps stop fuel (addr + l2EntrySize)
        else
          .page addr :: devOps stop fuel (addr + l3EntrySize)
      else
        []

namespace Region

/-- The start of the region, rounded outwards to a page. -/
def deviceStart (d : Region) : ℕ := alignDown d.start l3EntrySize

/-- The end of the region, rounded outwards to a page. -/
def deviceStop (d : Region) : ℕ := alignUp ((d.start + d.size) % 2 ^ 64) l3EntrySize

/-- The operations that map the region. -/
def deviceOps (d : Region) : List DevOp :=
  devOps d.deviceStop ((d.deviceStop - d.deviceStart) / l3EntrySize) d.deviceStart

theorem deviceStart_eq {d : Region} (h : d.start + d.size ≤ 2 ^ 39) :
    d.deviceStart = d.start / 4096 * 4096 :=
  alignDown_page (by omega)

theorem deviceStop_eq {d : Region} (h : d.start + d.size ≤ 2 ^ 39) :
    d.deviceStop = (d.start + d.size + 4095) / 4096 * 4096 := by
  rw [deviceStop, Nat.mod_eq_of_lt (by omega)]
  exact alignUp_page (by omega)

/-- A region below 512 GiB has a 64-bit start. -/
theorem start_lt {d : Region} (h : d.start + d.size ≤ 2 ^ 39) : d.start < 2 ^ 64 := by
  omega

/-- The rounded region starts at a page, wherever it is. -/
theorem deviceStart_mod {d : Region} (h : d.start < 2 ^ 64) : d.deviceStart % 4096 = 0 := by
  have hstart : d.deviceStart = d.start / 4096 * 4096 := alignDown_page h
  rw [hstart, Nat.mul_mod_left]

/-- The rounded region ends at a page, even when the sum or the rounding wraps around. -/
theorem deviceStop_mod (d : Region) : d.deviceStop % 4096 = 0 := by
  have hlt : ((d.start + d.size) % 2 ^ 64 + l3EntrySize - 1) % 2 ^ 64 < 2 ^ 64 :=
    Nat.mod_lt _ (by decide)
  have hstop := alignDown_page hlt
  rw [deviceStop, alignUp]
  exact hstop ▸ Nat.mul_mod_left _ _

/-- There are enough iterations for the pages of the rounded region. -/
theorem deviceStop_le {d : Region} (h : d.start < 2 ^ 64) :
    d.deviceStop ≤ d.deviceStart + (d.deviceStop - d.deviceStart) / l3EntrySize * 4096 := by
  have hstart := deviceStart_mod h
  have hstop := deviceStop_mod d
  rw [l3EntrySize_eq]
  omega

end Region

/-- The loop runs its operations; its iteration bound is never reached. -/
theorem mapDeviceLoop_eq_foldlM {L : Layout} {stop fuel addr : ℕ} {s : Tables}
    (hstop : stop % 4096 = 0) (haddr : addr % 4096 = 0) (hfuel : stop ≤ addr + fuel * 4096) :
    mapDeviceLoop L stop fuel addr s = (devOps stop fuel addr).foldlM (mapDevOp L) s := by
  induction fuel generalizing addr s with
  | zero => simp [mapDeviceLoop, devOps, show ¬ addr < stop by omega]
  | succ fuel ih =>
      rw [mapDeviceLoop, devOps]
      by_cases hlt : addr < stop
      · rw [if_pos hlt, if_pos hlt]
        by_cases hblock : addr % l2EntrySize = 0 ∧ stop - addr ≥ l2EntrySize
        · rw [if_pos hblock, if_pos hblock, List.foldlM_cons]
          refine bind_congr fun t => ih ?_ ?_ <;> rw [l2EntrySize_eq] <;> omega
        · rw [if_neg hblock, if_neg hblock, List.foldlM_cons]
          refine bind_congr fun t => ih ?_ ?_ <;> rw [l3EntrySize_eq] <;> omega
      · rw [if_neg hlt, if_neg hlt]
        rfl

/-- Mapping a region runs its operations. -/
theorem mapDeviceRegion_eq_foldlM {L : Layout} {d : Region} (s : Tables)
    (hd : d.start < 2 ^ 64) : mapDeviceRegion L s d = d.deviceOps.foldlM (mapDevOp L) s :=
  mapDeviceLoop_eq_foldlM d.deviceStop_mod (Region.deviceStart_mod hd) (Region.deviceStop_le hd)

/-- **The device phase is its operations**, for all regions in turn. -/
theorem devicePhase_eq_foldlM {L : Layout} {devices : List Region} (s : Tables)
    (hstarts : ∀ d ∈ devices, d.start < 2 ^ 64) :
    devicePhase L devices s = (devices.flatMap Region.deviceOps).foldlM (mapDevOp L) s := by
  rw [devicePhase]
  induction devices generalizing s with
  | nil => rfl
  | cons d devices ih =>
      rw [List.foldlM_cons, List.flatMap_cons, List.foldlM_append,
        mapDeviceRegion_eq_foldlM s (hstarts d (by simp))]
      exact bind_congr fun t => ih t fun e he => hstarts e (by simp [he])

/-! ### Which operations map a region -/

/-- The operations from an address on: blocks for the slots that fit, pages for the rest. -/
theorem mem_devOps {stop fuel addr : ℕ} (hstop : stop % 4096 = 0) (haddr : addr % 4096 = 0)
    (hfuel : stop ≤ addr + fuel * 4096) (a : ℕ) :
    (.block a ∈ devOps stop fuel addr ↔
      a % l2EntrySize = 0 ∧ addr ≤ a ∧ a + l2EntrySize ≤ stop) ∧
    (.page a ∈ devOps stop fuel addr ↔ a % 4096 = 0 ∧ addr ≤ a ∧ a < stop ∧
      ¬ (addr ≤ a / l2EntrySize * l2EntrySize ∧
        a / l2EntrySize * l2EntrySize + l2EntrySize ≤ stop)) := by
  induction fuel generalizing addr with
  | zero =>
      simp only [devOps, List.not_mem_nil, false_iff, l2EntrySize_eq]
      omega
  | succ fuel ih =>
      rw [devOps]
      by_cases hlt : addr < stop
      · rw [if_pos hlt]
        by_cases hblock : addr % l2EntrySize = 0 ∧ stop - addr ≥ l2EntrySize
        · have haddr' : (addr + l2EntrySize) % 4096 = 0 := by
            rw [l2EntrySize_eq]
            omega
          have hih := ih haddr' (by rw [l2EntrySize_eq]; omega)
          rw [if_pos hblock]
          simp only [List.mem_cons, DevOp.block.injEq, reduceCtorEq, false_or, hih]
          simp only [l2EntrySize_eq] at hblock ⊢
          omega
        · have haddr' : (addr + l3EntrySize) % 4096 = 0 := by
            rw [l3EntrySize_eq]
            omega
          have hih := ih haddr' (by rw [l3EntrySize_eq]; omega)
          rw [if_neg hblock]
          simp only [List.mem_cons, DevOp.page.injEq, reduceCtorEq, false_or, hih]
          simp only [l2EntrySize_eq, l3EntrySize_eq] at hblock ⊢
          omega
      · rw [if_neg hlt]
        simp only [List.not_mem_nil, false_iff, l2EntrySize_eq]
        omega

namespace Region

/-- The rounded region covers the whole level 2 slot. -/
def Fills (d : Region) (j : ℕ) : Prop :=
  d.deviceStart ≤ j * l2EntrySize ∧ j * l2EntrySize + l2EntrySize ≤ d.deviceStop

/-- The rounded region has a page in the slot, but does not cover it. -/
def Grazes (d : Region) (j : ℕ) : Prop :=
  d.deviceStart < d.deviceStop ∧ d.deviceStart < j * l2EntrySize + l2EntrySize ∧
    j * l2EntrySize < d.deviceStop ∧ ¬ d.Fills j

/-- Blocks map the slots that the region fills. -/
theorem block_mem_deviceOps {d : Region} (h : d.start < 2 ^ 64) {a : ℕ} :
    .block a ∈ d.deviceOps ↔ a % l2EntrySize = 0 ∧ d.Fills (a / l2EntrySize) := by
  rw [deviceOps, (mem_devOps d.deviceStop_mod (deviceStart_mod h) (deviceStop_le h) a).1, Fills]
  simp only [l2EntrySize_eq]
  omega

/-- The block of a slot that the region fills. -/
theorem Fills.block_mem {d : Region} {j : ℕ} (hfills : d.Fills j)
    (h : d.start < 2 ^ 64) : .block (j * l2EntrySize) ∈ d.deviceOps := by
  have hslot : j * l2EntrySize / l2EntrySize = j := Nat.mul_div_cancel _ (by decide)
  rw [block_mem_deviceOps h, hslot]
  exact ⟨Nat.mul_mod_left _ _, hfills⟩

/-- Pages map the rest. -/
theorem page_mem_deviceOps {d : Region} (h : d.start < 2 ^ 64) {a : ℕ} :
    .page a ∈ d.deviceOps ↔ a % 4096 = 0 ∧ d.deviceStart ≤ a ∧ a < d.deviceStop ∧
      ¬ d.Fills (a / l2EntrySize) := by
  rw [deviceOps, (mem_devOps d.deviceStop_mod (deviceStart_mod h) (deviceStop_le h) a).2, Fills]

/-- **A region that ends below 512 GiB, or is rounded to nothing, has valid operations**. -/
theorem valid_of_deviceStop {d : Region} (h : d.start < 2 ^ 64)
    (hbelow : d.deviceStart < d.deviceStop → d.deviceStop ≤ 2 ^ 39) {op : DevOp}
    (hop : op ∈ d.deviceOps) : op.Valid := by
  cases op with
  | block a =>
      obtain ⟨haligned, hfirst, hlast⟩ := (block_mem_deviceOps h).mp hop
      rw [l2EntrySize_eq] at haligned hfirst hlast
      refine ⟨?_, by omega⟩
      rw [l2EntrySize_eq]
      exact haligned
  | page a =>
      obtain ⟨haligned, hstart, hlt, -⟩ := (page_mem_deviceOps h).mp hop
      exact ⟨haligned, by omega⟩

/-- The operations of all regions are valid. -/
theorem valid_of_mem_deviceOps {devices : List Region}
    (hbelow : ∀ d ∈ devices, d.start + d.size ≤ 2 ^ 39) {op : DevOp}
    (hop : op ∈ devices.flatMap deviceOps) : op.Valid := by
  obtain ⟨d, hd, hop⟩ := List.mem_flatMap.mp hop
  have h := hbelow d hd
  have hstop := deviceStop_eq h
  exact valid_of_deviceStop (start_lt h) (fun _ => by omega) hop

end Region

end Floss
