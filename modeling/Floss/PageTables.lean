import Floss.Regions
import Floss.Vmsa
import Mathlib.Logic.Function.Basic

/-!
# Building the Identity Map

The model of `src/memory/mmu.cpp` as far as it builds page tables: the static tables, the
functions that set bits in entries, and `setup_idmap_page_tables` with its two phases, RAM
and devices.

Entries are 64-bit words in memory, addressed by their byte address. The arrays of the
first three levels are accessed by index, which must be in bounds. Tables of level 3 are
reached through the address stored in a level 2 entry, whatever that is, so a stray pointer
is followed as the code follows it. Where the linker puts the arrays is a parameter
(`Layout`), which carries what `alignas(4096)` and the physical address size promise.

`setup_core_specific`, which ends the setup, only writes system registers; the walk of
`Floss.Vmsa` starts from the value it puts into `TTBR0_EL1`, the address of the level 0
table.
-/

namespace Floss

def l1EntrySize : ℕ := 1 <<< 30

def l2EntrySize : ℕ := 1 <<< 21

def l3EntrySize : ℕ := 1 <<< 12

theorem l1EntrySize_eq : l1EntrySize = 2 ^ 30 := by decide

theorem l2EntrySize_eq : l2EntrySize = 2 ^ 21 := by decide

theorem l3EntrySize_eq : l3EntrySize = 2 ^ 12 := by decide

def maxNumL3PageTables : ℕ := 32

/-- Where the page table arrays are. -/
structure Layout where
  l0 : ℕ
  l1 : ℕ
  l2 : ℕ
  l3 : ℕ
  aligned : l0 % 4096 = 0 ∧ l1 % 4096 = 0 ∧ l2 % 4096 = 0 ∧ l3 % 4096 = 0
  below : l0 + 8 ≤ 2 ^ 48 ∧ l1 + 8 * 512 ≤ 2 ^ 48 ∧ l2 + 8 * (512 * 512) ≤ 2 ^ 48 ∧
    l3 + 8 * (32 * 512) ≤ 2 ^ 48
  disjoint01 : l0 + 8 ≤ l1 ∨ l1 + 8 * 512 ≤ l0
  disjoint02 : l0 + 8 ≤ l2 ∨ l2 + 8 * (512 * 512) ≤ l0
  disjoint03 : l0 + 8 ≤ l3 ∨ l3 + 8 * (32 * 512) ≤ l0
  disjoint12 : l1 + 8 * 512 ≤ l2 ∨ l2 + 8 * (512 * 512) ≤ l1
  disjoint13 : l1 + 8 * 512 ≤ l3 ∨ l3 + 8 * (32 * 512) ≤ l1
  disjoint23 : l2 + 8 * (512 * 512) ≤ l3 ∨ l3 + 8 * (32 * 512) ≤ l2

/-- The words in memory, and the number of level 3 tables in use. -/
structure Tables where
  word : ℕ → ℕ
  numL3 : ℕ := 0

/-- Set bits in a word. -/
def Tables.or (s : Tables) (a x : ℕ) : Tables :=
  { s with word := Function.update s.word a (s.word a ||| x) }

/-- A pointer to page table entries, with the number of entries it may be indexed by. -/
structure TableRef where
  base : ℕ
  size : ℕ

/-- The address of an entry. -/
def TableRef.entry (t : TableRef) (idx : ℕ) : Exec ℕ := do
  inBounds idx t.size
  return t.base + 8 * idx

namespace Layout

def l0Table (L : Layout) : TableRef := ⟨L.l0, 1⟩

def l1Table (L : Layout) : TableRef := ⟨L.l1, 512⟩

def l2Table (L : Layout) : TableRef := ⟨L.l2, 512 * 512⟩

end Layout

/-! ### Entries -/

def mairIndexDevice : ℕ := 0

def mairIndexNormalWb : ℕ := 2

def pteTableType : ℕ := 0b11

def pteBlockType : ℕ := 0b01

def ptePageType : ℕ := 0b11

/-- Mask extracting the output address bits from a descriptor. -/
def pteAddrMask : ℕ := 0x0000FFFFFFFFF000

def pteLaApRwEl1 : ℕ := 0b00 <<< 6

def pteLaShNone : ℕ := 0b00 <<< 8

def pteLaShInner : ℕ := 0b11 <<< 8

def pteLaAf : ℕ := 0b1 <<< 10

def pteUaPxnEl1Access : ℕ := 0b0 <<< 53

def pteUaPxnEl1NoAccess : ℕ := 0b1 <<< 53

def pteUaUxnEl0NoAccess : ℕ := 0b1 <<< 54

def pteIsValid (pte : ℕ) : Bool := pte &&& 0b1 ≠ 0

/-- Set bits in an entry. -/
def pteOr (s : Tables) (t : TableRef) (idx x : ℕ) : Exec Tables := do
  let a ← t.entry idx
  return s.or a x

def pteSetMairAttr (s : Tables) (t : TableRef) (idx mairId : ℕ) : Exec Tables := do
  kassert (mairId < 8) "precond\n"
  pteOr s t idx (mairId <<< 2)

/-- `2 ^ 64 - 1 - (0xFFFFFFFFF <<< 12)` is the complement of the bits an address may
have. -/
def ptePointToNextLevel (s : Tables) (t : TableRef) (idx nextEntry : ℕ) : Exec Tables := do
  kassert ((2 ^ 64 - 1 - (0xFFFFFFFFF <<< 12)) &&& nextEntry = 0) "bad bits are set"
  pteOr s t idx nextEntry

def ptePointToOffset (s : Tables) (t : TableRef) (idx offset : ℕ) : Exec Tables := do
  kassert (offset &&& 0xFFF = 0) "offset must be aligned to 4K: %x\n"
  pteOr s t idx offset

def pteMarkAsTableDescriptor (s : Tables) (t : TableRef) (idx : ℕ) : Exec Tables :=
  pteOr s t idx pteTableType

def pteMarkAsBlockDescriptorNormal (s : Tables) (t : TableRef) (idx : ℕ) : Exec Tables :=
  pteOr s t idx (pteUaUxnEl0NoAccess ||| pteUaPxnEl1Access ||| pteLaAf ||| pteLaShInner |||
    pteLaApRwEl1 ||| pteBlockType)

def pteMarkAsBlockDescriptorDevice (s : Tables) (t : TableRef) (idx : ℕ) : Exec Tables :=
  pteOr s t idx (pteUaUxnEl0NoAccess ||| pteUaPxnEl1NoAccess ||| pteLaAf ||| pteLaShNone |||
    pteLaApRwEl1 ||| pteBlockType)

def pteMarkAsPageDescriptorDevice (s : Tables) (t : TableRef) (idx : ℕ) : Exec Tables :=
  pteOr s t idx (pteUaUxnEl0NoAccess ||| pteUaPxnEl1NoAccess ||| pteLaAf ||| pteLaShNone |||
    pteLaApRwEl1 ||| ptePageType)

section Setup

variable (L : Layout)

/-! ### Device mappings -/

/-- Take the next level 3 table; the pointer to it. -/
def allocateL3PageTable (s : Tables) : Exec (ℕ × Tables) := do
  kassert (s.numL3 < maxNumL3PageTables) "Ran out of L3 page tables for device mappings\n"
  return (L.l3 + 8 * (512 * s.numL3), { s with numL3 := s.numL3 + 1 })

/-- Make an entry of level 1 a table descriptor for its part of level 2. -/
def pointToL2 (s : Tables) (l1Idx : ℕ) : Exec Tables := do
  let s ← pteMarkAsTableDescriptor s L.l1Table l1Idx
  ptePointToNextLevel s L.l1Table l1Idx (L.l2 + 8 * (512 * l1Idx))

/-- Make sure the level 1 entry points to its level 2 table. -/
def ensureL2PageTable (s : Tables) (l1Idx : ℕ) : Exec Tables := do
  let a ← L.l1Table.entry l1Idx
  if pteIsValid (s.word a) then
    return s
  else
    pointToL2 L s l1Idx

/-- Make sure the level 2 entry points to a level 3 table; the pointer found there. -/
def ensureL3PageTable (s : Tables) (l1Idx l2Idx : ℕ) : Exec (ℕ × Tables) := do
  let s ← ensureL2PageTable L s l1Idx
  let a ← L.l2Table.entry l2Idx
  if pteIsValid (s.word a) then
    return (s.word a &&& pteAddrMask, s)
  else
    let (l3Table, s) ← allocateL3PageTable L s
    return (l3Table, { s with word := Function.update s.word a (l3Table ||| pteTableType) })

def mapDeviceL2Block (s : Tables) (phys : ℕ) : Exec Tables := do
  kassert (phys % l2EntrySize = 0) "precond\n"
  let l2Idx := phys / l2EntrySize
  let s ← ensureL2PageTable L s (phys / l1EntrySize)
  let s ← pteMarkAsBlockDescriptorDevice s L.l2Table l2Idx
  let s ← ptePointToOffset s L.l2Table l2Idx phys
  pteSetMairAttr s L.l2Table l2Idx mairIndexDevice

def mapDeviceL3Page (s : Tables) (phys : ℕ) : Exec Tables := do
  kassert (phys % l3EntrySize = 0) "precond\n"
  let l2Idx := phys / l2EntrySize
  let l3Idx := phys % l2EntrySize / l3EntrySize
  let (base, s) ← ensureL3PageTable L s (phys / l1EntrySize) l2Idx
  let l3Table : TableRef := ⟨base, 512⟩
  let s ← pteMarkAsPageDescriptorDevice s l3Table l3Idx
  let s ← ptePointToOffset s l3Table l3Idx phys
  pteSetMairAttr s l3Table l3Idx mairIndexDevice

/-- The loop of `map_device_region`, from `addr` to `stop`. -/
def mapDeviceLoop (stop : ℕ) : (fuel addr : ℕ) → Tables → Exec Tables
  | 0, addr, s => if addr < stop then .error .fuel else .ok s
  | fuel + 1, addr, s =>
      if addr < stop then
        if addr % l2EntrySize = 0 ∧ stop - addr ≥ l2EntrySize then do
          let s ← mapDeviceL2Block L s addr
          mapDeviceLoop stop fuel (addr + l2EntrySize) s
        else do
          let s ← mapDeviceL3Page L s addr
          mapDeviceLoop stop fuel (addr + l3EntrySize) s
      else
        .ok s

/-- Map a device region, rounded outwards to whole pages. -/
def mapDeviceRegion (s : Tables) (d : Region) : Exec Tables :=
  let start := alignDown d.start l3EntrySize
  let stop := alignUp ((d.start + d.size) % 2 ^ 64) l3EntrySize
  mapDeviceLoop L stop ((stop - start) / l3EntrySize) start s

/-! ### RAM mappings -/

/-- Map one slot of level 1 as Normal memory. -/
def mapNormalL1 (s : Tables) (l1Idx : ℕ) : Exec Tables := do
  let s ← pteMarkAsBlockDescriptorNormal s L.l1Table l1Idx
  let s ← ptePointToOffset s L.l1Table l1Idx (l1Idx * l1EntrySize)
  pteSetMairAttr s L.l1Table l1Idx mairIndexNormalWb

/-- Map one slot of level 2 as Normal memory. -/
def mapNormalL2 (s : Tables) (l2Idx : ℕ) : Exec Tables := do
  let s ← pteMarkAsBlockDescriptorNormal s L.l2Table l2Idx
  let s ← ptePointToOffset s L.l2Table l2Idx (l2Idx * l2EntrySize)
  pteSetMairAttr s L.l2Table l2Idx mairIndexNormalWb

/-- The number of level 1 entries that a region mapped at level 2 gets. -/
def l1Mappings (r : Region) : ℕ := (r.size + l1EntrySize - 1) % 2 ^ 64 / l1EntrySize

/-- Map a RAM region. -/
def mapRamRegion (s : Tables) (r : Region) : Exec Tables :=
  if r.size % l1EntrySize = 0 then
    (List.range (r.size / l1EntrySize)).foldlM
      (fun s i => mapNormalL1 L s (r.start / l1EntrySize + i)) s
  else if r.size % l2EntrySize = 0 then do
    let s ← (List.range (l1Mappings r)).foldlM
      (fun s i => pointToL2 L s (r.start / l1EntrySize + i)) s
    (List.range (r.size / l2EntrySize)).foldlM
      (fun s i => mapNormalL2 L s (r.start / l2EntrySize + i)) s
  else
    .error (.panic "Identity map with 4K pages is not implemented yet\n")

/-! ### The setup -/

/-- The single entry of level 0. -/
def setupL0 (s : Tables) : Exec Tables := do
  let s ← pteMarkAsTableDescriptor s L.l0Table 0
  ptePointToNextLevel s L.l0Table 0 L.l1

/-- Everything up to the end of the RAM loop. -/
def ramPhase (ram : List Region) (s : Tables) : Exec Tables := do
  let s ← setupL0 L s
  ram.foldlM (mapRamRegion L) s

/-- The device loop. -/
def devicePhase (devices : List Region) (s : Tables) : Exec Tables :=
  devices.foldlM (mapDeviceRegion L) s

def setupIdmapPageTables (ram devices : List Region) (s : Tables) : Exec Tables := do
  validateDeviceRegions devices ram
  let s ← ramPhase L ram s
  devicePhase L devices s

end Setup

end Floss
