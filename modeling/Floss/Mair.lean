import Mathlib.Data.BitVec
import Mathlib.Tactic.IntervalCases
import Floss.TableBounds

/-!
# Memory Types

A descriptor names its memory type by an index into `MAIR_EL1`, a register of eight
attribute bytes. The kernel keeps Device memory at index 0 and Normal memory at index 2,
and `setup_mair_ranges` sets the two bytes by read-modify-write: it sets bits and clears
none. The descriptors are built the same way, and an entry that gets two kinds of them is
neither.

* `setupMairRanges`: the register after the setup, from what was in it before;
* `blockByte`, `pageByte`: the memory type that an entry of the tables selects;
* `TypesIntended`: in the tables every mapping is still what it was built as, and selects
  the type that was meant;
* `OneKind`: the regions for which no entry gets two kinds of descriptors;
* `memory_types_iff`: after a completed setup the types are as intended exactly for such
  regions and, if there are devices, a register whose lowest byte was zero;
* `leftover_mair`: a register left by firmware with which Device memory is Normal;
* `mixed_slot`: regions that are accepted and get a slot of both kinds.
-/

namespace Floss

/-! ### The register -/

def mairDeviceNgnrne : BitVec 64 := 0x00

def mairNormalWb : BitVec 64 := 0xFF

/-- `configure_mair_range` on a register that holds `mair`. -/
def configureMairRange (attr : BitVec 64) (index : ℕ) (mair : BitVec 64) : BitVec 64 :=
  let attributeValue := attr <<< (index * 8)
  mair ||| attributeValue

/-- `MMU::setup_mair_ranges`. -/
def setupMairRanges (mair : BitVec 64) : BitVec 64 :=
  let mair := configureMairRange mairDeviceNgnrne mairIndexDevice mair
  configureMairRange mairNormalWb mairIndexNormalWb mair

/-- The attribute byte that a descriptor with index `attrIndx` selects. -/
def mairAttr (mair : BitVec 64) (attrIndx : ℕ) : BitVec 8 :=
  mair.extractLsb' (8 * attrIndx) 8

/-- The byte for Normal memory is all ones whatever was there. -/
theorem mairAttr_normal (mair : BitVec 64) :
    mairAttr (setupMairRanges mair) mairIndexNormalWb = 0xFF := by
  ext i hi
  have hlt : 16 + i < 64 := by omega
  simp only [mairAttr, setupMairRanges, configureMairRange, mairIndexNormalWb,
    BitVec.getElem_extractLsb', BitVec.getLsbD_or, BitVec.getLsbD_shiftLeft]
  interval_cases i <;> simp [mairNormalWb]

/-- The byte for Device memory keeps what was there. -/
theorem mairAttr_device (mair : BitVec 64) :
    mairAttr (setupMairRanges mair) mairIndexDevice = mair.extractLsb' 0 8 := by
  ext i hi
  have hlt : i < 16 := by omega
  simp [mairAttr, setupMairRanges, configureMairRange, mairIndexDevice, mairIndexNormalWb,
    mairDeviceNgnrne, hlt]

/-! ### Fields of descriptors -/

/-- The index in a descriptor. -/
def attrIndx (desc : ℕ) : ℕ := bits desc 4 2

/-- Setting bits in a word sets them in its fields. -/
theorem bits_or (x y hi lo : ℕ) : bits (x ||| y) hi lo = bits x hi lo ||| bits y hi lo := by
  simp only [bits, ← Nat.shiftRight_eq_div_pow, Nat.shiftRight_or_distrib, Nat.or_mod_two_pow]

/-- An address has no bits in the fields of a descriptor. -/
theorem bits_of_aligned {x : ℕ} (h : x % 2 ^ 12 = 0) : bits x 1 0 = 0 ∧ bits x 4 2 = 0 := by
  simp only [bits]
  omega

/-- A block of Normal memory. -/
theorem fields_blockNormal {x : ℕ} (h : x % 2 ^ 12 = 0) :
    bits (blockNormal x) 1 0 = 1 ∧ attrIndx (blockNormal x) = mairIndexNormalWb := by
  rw [blockNormal, attrIndx, bits_or, bits_or, (bits_of_aligned h).1, (bits_of_aligned h).2]
  exact ⟨rfl, rfl⟩

/-- A block of Device memory. -/
theorem fields_blockDevice {x : ℕ} (h : x % 2 ^ 12 = 0) :
    bits (blockDevice x) 1 0 = 1 ∧ attrIndx (blockDevice x) = mairIndexDevice := by
  rw [blockDevice, attrIndx, bits_or, bits_or, (bits_of_aligned h).1, (bits_of_aligned h).2]
  exact ⟨rfl, rfl⟩

/-- A page of Device memory. -/
theorem fields_pageDevice {x : ℕ} (h : x % 2 ^ 12 = 0) :
    bits (pageDevice x) 1 0 = 3 ∧ attrIndx (pageDevice x) = mairIndexDevice := by
  rw [pageDevice, attrIndx, bits_or, bits_or, (bits_of_aligned h).1, (bits_of_aligned h).2]
  exact ⟨rfl, rfl⟩

/-- What is marked as a table stays one, whatever else is set. -/
theorem type_or_tableDesc (x y : ℕ) : bits (x ||| tableDesc y) 1 0 = 3 := by
  have htable : bits (pteTableType ||| (x ||| y)) 1 0 = 3 := by
    have hlt : bits (x ||| y) 1 0 < 4 := Nat.mod_lt _ (by decide)
    rw [bits_or, show bits pteTableType 1 0 = 3 from rfl]
    interval_cases bits (x ||| y) 1 0 <;> rfl
  rw [tableDesc, ← Nat.or_assoc, Nat.or_comm x, Nat.or_assoc]
  exact htable

/-! ### What an entry selects -/

/-- The memory type that an entry of level 1 or 2 selects. Only a block has one: a table and
an invalid entry do not use the index. -/
def blockByte (mair : BitVec 64) (desc : ℕ) : Option (BitVec 8) :=
  if bits desc 1 0 = 1 then some (mairAttr mair (attrIndx desc)) else none

/-- The memory type that an entry of level 3 selects, if it is a page. -/
def pageByte (mair : BitVec 64) (desc : ℕ) : Option (BitVec 8) :=
  if bits desc 1 0 = 3 then some (mairAttr mair (attrIndx desc)) else none

/-- The level 3 entry of an address, in the table that its level 2 entry points to. -/
def Tables.pageEntry (L : Layout) (s : Tables) (a : ℕ) : Option ℕ :=
  let entry := s.word (L.l2 + 8 * (a / l2EntrySize))
  if bits entry 1 0 = 3 then
    some (s.word (nextTable entry + 8 * (a % l2EntrySize / l3EntrySize)))
  else
    none

/-- Every entry that the Normal helpers built is a block of Normal write-back memory, and
every entry that the Device helpers built a block or a page of Device-nGnRnE memory. -/
structure TypesIntended (L : Layout) (mair : BitVec 64) (s : Tables) (ram devices : List Region) :
    Prop where
  normalL1 : ∀ r ∈ ram, ∀ k, r.blockL1 k = true →
    blockByte mair (s.word (L.l1 + 8 * k)) = some 0xFF
  normalL2 : ∀ r ∈ ram, ∀ j, r.blockL2 j = true →
    blockByte mair (s.word (L.l2 + 8 * j)) = some 0xFF
  deviceL2 : ∀ d ∈ devices, ∀ a, .block a ∈ d.deviceOps →
    blockByte mair (s.word (L.l2 + 8 * (a / l2EntrySize))) = some 0x00
  deviceL3 : ∀ d ∈ devices, ∀ a, .page a ∈ d.deviceOps →
    (s.pageEntry L a).bind (pageByte mair) = some 0x00

theorem type_of_blockByte {mair : BitVec 64} {desc : ℕ} {b : BitVec 8}
    (h : blockByte mair desc = some b) : bits desc 1 0 = 1 := by
  rw [blockByte] at h
  split at h
  · assumption
  · exact nomatch h

/-- Where a page is found, the level 2 entry is a table. -/
theorem type_of_pageEntry {L : Layout} {s : Tables} {mair : BitVec 64} {a : ℕ} {b : BitVec 8}
    (h : (s.pageEntry L a).bind (pageByte mair) = some b) :
    bits (s.word (L.l2 + 8 * (a / l2EntrySize))) 1 0 = 3 := by
  rw [Tables.pageEntry] at h
  split at h
  · assumption
  · exact nomatch h

/-! ### The regions -/

/-- No entry gets two kinds of descriptors: no level 1 slot is both a block and a table of RAM,
no level 2 slot is a block both of RAM and of a device, and none has pages and is a block. -/
structure OneKind (ram devices : List Region) : Prop where
  levels : ∀ r ∈ ram, ∀ q ∈ ram, ∀ k, r.blockL1 k = true → q.tableL1 k = false
  blocks : ∀ r ∈ ram, ∀ d ∈ devices, ∀ j, r.blockL2 j = true → ¬ d.Fills j
  pages : SlotsApart ram devices

/-- RAM regions that are mapped end inside the tables. -/
theorem WithinTables.blockL1_lt {ram devices : List Region} (h : WithinTables ram devices)
    {r : Region} (hr : r ∈ ram) {k : ℕ} (hblock : r.blockL1 k = true) : k < 512 := by
  rw [Region.blockL1_iff] at hblock
  have hstop := h.ram r hr (by omega)
  rw [Region.ramStop, if_pos (by rw [l1EntrySize_eq]; omega), l1EntrySize_eq] at hstop
  omega

theorem WithinTables.blockL2_lt {ram devices : List Region} (h : WithinTables ram devices)
    {r : Region} (hr : r ∈ ram) {j : ℕ} (hblock : r.blockL2 j = true) : j < 512 * 512 := by
  rw [Region.blockL2_iff] at hblock
  have hstop := h.ram r hr (by omega)
  rw [Region.ramStop, if_neg (by rw [l1EntrySize_eq]; omega), l2EntrySize_eq] at hstop
  omega

/-! ### A completed setup -/

/-- The tables after a setup in which no level 2 slot has both pages and a block. -/
structure Mapped (L : Layout) (s : Tables) (ram devices : List Region) (tbl : ℕ → Option ℕ) :
    Prop where
  within : WithinTables ram devices
  starts : ∀ d ∈ devices, d.start < 2 ^ 64
  pages : SlotsApart ram devices
  run : DevRun L s (fun k => ram.any (·.blockL1 k)) (fun k => ram.any (·.tableL1 k))
    (fun j => ram.any (·.blockL2 j)) (devices.flatMap Region.deviceOps) tbl

section Setup

variable {L : Layout} {s s' : Tables} {ram devices : List Region} {tbl : ℕ → Option ℕ}
  {mair : BitVec 64}

theorem mapped_of_setup (h0 : Zeroed L s) (hsizes : ∀ r ∈ ram, r.size < 2 ^ 64)
    (hstarts : ∀ d ∈ devices, d.start < 2 ^ 64)
    (hrun : setupIdmapPageTables L ram devices s = .ok s') (hpages : SlotsApart ram devices) :
    ∃ tbl, Mapped L s' ram devices tbl := by
  have hwithin := withinTables_of_run hsizes hstarts hrun
  simp only [setupIdmapPageTables, bind_eq_ok] at hrun
  obtain ⟨-, -, t, hram, hdevices⟩ := hrun
  obtain ⟨-, hshape⟩ := ramPhase_shape h0 hram
  rw [devicePhase_eq_foldlM t hstarts] at hdevices
  have hapart := (apart_iff_slotsApart hstarts).mpr hpages
  obtain ⟨tbl, hdone⟩ := devRun_of_foldlM hshape hapart hdevices
  exact ⟨tbl, hwithin, hstarts, hpages, hdone⟩

namespace Mapped

/-- The operations have slots of level 2. -/
theorem valid (h : Mapped L s ram devices tbl) {d : Region} (hd : d ∈ devices) {op : DevOp}
    (hop : op ∈ d.deviceOps) : op.Valid :=
  Region.valid_of_deviceStop (h.starts d hd) (h.within.devices d hd) hop

/-- Blocks of RAM at level 1. -/
theorem normalL1 (h : Mapped L s ram devices tbl)
    (hlevels : ∀ r ∈ ram, ∀ q ∈ ram, ∀ k, r.blockL1 k = true → q.tableL1 k = false) {r : Region}
    (hr : r ∈ ram) {k : ℕ} (hblock : r.blockL1 k = true) :
    blockByte mair (s.word (L.l1 + 8 * k)) = some (mairAttr mair mairIndexNormalWb) := by
  have hA : ram.any (·.blockL1 k) = true := List.any_eq_true.mpr ⟨r, hr, hblock⟩
  have hB : ram.any (·.tableL1 k) = false := by
    rw [List.any_eq_false]
    intro q hq
    simp [hlevels r hr q hq k hblock]
  have hword := h.run.shape.l1 k (h.within.blockL1_lt hr hblock)
  simp only [hA, hB, Bool.or_false, if_true, Bool.false_eq_true, if_false, Nat.or_zero] at hword
  obtain ⟨htype, hindex⟩ := fields_blockNormal (x := k * l1EntrySize)
    (by rw [l1EntrySize_eq]; omega)
  rw [hword, blockByte, htype, if_pos rfl, hindex]

/-- A level 1 entry that is marked as a table is no block. -/
theorem not_block_of_table (h : Mapped L s ram devices tbl) {r q : Region} (hr : r ∈ ram)
    (hq : q ∈ ram) {k : ℕ} (hblock : r.blockL1 k = true) (htable : q.tableL1 k = true) :
    bits (s.word (L.l1 + 8 * k)) 1 0 = 3 := by
  have hA : ram.any (·.blockL1 k) = true := List.any_eq_true.mpr ⟨r, hr, hblock⟩
  have hB : ram.any (·.tableL1 k) = true := List.any_eq_true.mpr ⟨q, hq, htable⟩
  have hword := h.run.shape.l1 k (h.within.blockL1_lt hr hblock)
  simp only [hA, hB, Bool.or_self, if_true] at hword
  rw [hword]
  exact type_or_tableDesc _ _

/-- A slot with a block, of RAM or of a device, has no level 3 table. -/
theorem no_table (h : Mapped L s ram devices tbl) {j : ℕ}
    (hblock : (∃ r ∈ ram, r.blockL2 j = true) ∨ ∃ d ∈ devices, d.Fills j) : tbl j = none := by
  by_contra hsome
  obtain ⟨a, ha, rfl⟩ := h.run.needed j (Option.isSome_iff_ne_none.mpr hsome)
  obtain ⟨d, hd, hpage⟩ := List.mem_flatMap.mp ha
  obtain ⟨hdevices, hram⟩ := h.pages d hd _ (Region.grazes_of_page hpage (h.starts d hd))
  rcases hblock with ⟨r, hr, hr'⟩ | ⟨e, he, hfills⟩
  · rw [hram r hr] at hr'
    exact nomatch hr'
  · exact hdevices e he hfills

/-- Blocks of RAM at level 2. -/
theorem normalL2 (h : Mapped L s ram devices tbl) {r : Region} (hr : r ∈ ram) {j : ℕ}
    (hblock : r.blockL2 j = true) (honly : ∀ d ∈ devices, ¬ d.Fills j) :
    blockByte mair (s.word (L.l2 + 8 * j)) = some (mairAttr mair mairIndexNormalWb) := by
  have hC : ram.any (·.blockL2 j) = true := List.any_eq_true.mpr ⟨r, hr, hblock⟩
  have hD : (devices.flatMap Region.deviceOps).any (·.blockL2 j) = false := by
    rw [Bool.eq_false_iff, Ne, any_blockL2_iff h.starts]
    exact fun ⟨d, hd, hfills⟩ => honly d hd hfills
  have hword := h.run.shape.l2block j (h.within.blockL2_lt hr hblock)
    (h.no_table (.inl ⟨r, hr, hblock⟩))
  simp only [hC, hD, if_true, Bool.false_eq_true, if_false, Nat.or_zero] at hword
  obtain ⟨htype, hindex⟩ := fields_blockNormal (x := j * l2EntrySize)
    (by rw [l2EntrySize_eq]; omega)
  rw [hword, blockByte, htype, if_pos rfl, hindex]

/-- Blocks of devices. -/
theorem deviceL2 (h : Mapped L s ram devices tbl) {d : Region} (hd : d ∈ devices) {a : ℕ}
    (hop : .block a ∈ d.deviceOps)
    (honly : ∀ r ∈ ram, r.blockL2 (a / l2EntrySize) = false) :
    blockByte mair (s.word (L.l2 + 8 * (a / l2EntrySize))) =
      some (mairAttr mair mairIndexDevice) := by
  have hfills := ((Region.block_mem_deviceOps (h.starts d hd)).mp hop).2
  have hC : ram.any (·.blockL2 (a / l2EntrySize)) = false := by
    rw [List.any_eq_false]
    intro r hr
    simp [honly r hr]
  have hD := (any_blockL2_iff h.starts).mpr ⟨d, hd, hfills⟩
  have hword := h.run.shape.l2block _ (slot_lt (h.valid hd hop).2)
    (h.no_table (.inr ⟨d, hd, hfills⟩))
  simp only [hC, hD, if_true, Bool.false_eq_true, if_false, Nat.zero_or] at hword
  obtain ⟨htype, hindex⟩ := fields_blockDevice (x := a / l2EntrySize * l2EntrySize)
    (by rw [l2EntrySize_eq]; omega)
  rw [hword, blockByte, htype, if_pos rfl, hindex]

/-- Pages of devices. -/
theorem deviceL3 (h : Mapped L s ram devices tbl) {d : Region} (hd : d ∈ devices) {a : ℕ}
    (hop : .page a ∈ d.deviceOps) :
    (s.pageEntry L a).bind (pageByte mair) = some (mairAttr mair mairIndexDevice) := by
  have hvalid := h.valid hd hop
  have hmem : .page a ∈ devices.flatMap Region.deviceOps := List.mem_flatMap.mpr ⟨d, hd, hop⟩
  have hP : (devices.flatMap Region.deviceOps).any (·.pageL3 (a / l3EntrySize)) = true :=
    List.any_eq_true.mpr ⟨_, hmem, by simp [DevOp.pageL3]⟩
  have hslot : a / l3EntrySize / 512 = a / l2EntrySize := by
    rw [l3EntrySize_eq, l2EntrySize_eq]
    omega
  have hpage : 512 * (a / l2EntrySize) + a % l2EntrySize / l3EntrySize = a / l3EntrySize := by
    rw [l3EntrySize_eq, l2EntrySize_eq]
    omega
  have hidx : a % l2EntrySize / l3EntrySize < 512 := by
    rw [l3EntrySize_eq, l2EntrySize_eq]
    omega
  obtain ⟨t, ht⟩ := Option.isSome_iff_exists.mp (h.run.shape.pages _ hP)
  rw [hslot] at ht
  have htlt := h.run.shape.table_lt ht
  have hfits : Fits (L.l3 + 8 * (512 * t)) 3 := by
    obtain ⟨-, -, -, haligned⟩ := L.aligned
    obtain ⟨-, -, -, hbelow⟩ := L.below
    exact ⟨by omega, by omega, by omega⟩
  have hl2 := h.run.shape.l2table _ t (slot_lt hvalid.2) ht
  rw [tableDesc_eq hfits] at hl2
  have hl3 := h.run.shape.l3 _ t _ ht hidx
  rw [hpage, if_pos hP] at hl3
  have hentry : s.pageEntry L a = some (pageDevice (a / l3EntrySize * l3EntrySize)) := by
    rw [Tables.pageEntry, hl2, bits_type 0 hfits, if_pos rfl, nextTable_descriptor hfits,
      Nat.add_assoc, ← Nat.mul_add, hl3]
  obtain ⟨htype, hindex⟩ := fields_pageDevice (x := a / l3EntrySize * l3EntrySize)
    (by rw [l3EntrySize_eq]; omega)
  rw [hentry, Option.bind_some, pageByte, htype, if_pos rfl, hindex]

end Mapped

/-! ### The result -/

/-- If the types are as intended, no slot has both pages and a block: it would have to be a
table and a block. -/
theorem TypesIntended.slotsApart (h : TypesIntended L mair s ram devices)
    (hstarts : ∀ d ∈ devices, d.start < 2 ^ 64) : SlotsApart ram devices := by
  rw [← apart_iff_slotsApart hstarts]
  intro a ha
  obtain ⟨d, hd, hpage⟩ := List.mem_flatMap.mp ha
  have htable := type_of_pageEntry (h.deviceL3 d hd a hpage)
  refine ⟨?_, ?_⟩
  · rw [List.any_eq_false]
    intro r hr hblock
    have htype := type_of_blockByte (h.normalL2 r hr _ hblock)
    omega
  · intro b hb hslot
    obtain ⟨e, he, hblock⟩ := List.mem_flatMap.mp hb
    have htype := type_of_blockByte (h.deviceL2 e he b hblock)
    rw [hslot] at htype
    omega

/-- If the types are as intended, no slot is a block of both kinds. -/
theorem TypesIntended.oneBlock (h : TypesIntended L mair s ram devices)
    (hstarts : ∀ d ∈ devices, d.start < 2 ^ 64) {r d : Region} (hr : r ∈ ram) (hd : d ∈ devices)
    {j : ℕ} (hblock : r.blockL2 j = true) : ¬ d.Fills j := by
  intro hfills
  have hslot : j * l2EntrySize / l2EntrySize = j := Nat.mul_div_cancel _ (by decide)
  have hdevice := h.deviceL2 d hd _ (hfills.block_mem (hstarts d hd))
  rw [hslot, h.normalL2 r hr j hblock] at hdevice
  exact absurd hdevice (by decide)

/-- On tables without mixed entries, the types are as intended if the bytes are. -/
theorem Mapped.typesIntended (h : Mapped L s ram devices tbl) (hone : OneKind ram devices)
    (hnormal : mairAttr mair mairIndexNormalWb = 0xFF)
    (hdevice : (∃ d ∈ devices, d.deviceStart < d.deviceStop) →
      mairAttr mair mairIndexDevice = 0x00) : TypesIntended L mair s ram devices where
  normalL1 r hr k hblock := by rw [h.normalL1 hone.levels hr hblock, hnormal]
  normalL2 r hr j hblock := by
    rw [h.normalL2 hr hblock fun d hd => hone.blocks r hr d hd j hblock, hnormal]
  deviceL2 d hd a hop := by
    obtain ⟨-, hfills⟩ := (Region.block_mem_deviceOps (h.starts d hd)).mp hop
    have honly : ∀ r ∈ ram, r.blockL2 (a / l2EntrySize) = false := fun r hr =>
      Bool.eq_false_iff.mpr fun hblock => hone.blocks r hr d hd _ hblock hfills
    have hmapped : d.deviceStart < d.deviceStop := by
      obtain ⟨hfirst, hlast⟩ := hfills
      rw [l2EntrySize_eq] at hfirst hlast
      omega
    rw [h.deviceL2 hd hop honly, hdevice ⟨d, hd, hmapped⟩]
  deviceL3 d hd a hop := by
    obtain ⟨-, hfirst, hlast, -⟩ := (Region.page_mem_deviceOps (h.starts d hd)).mp hop
    rw [h.deviceL3 hd hop, hdevice ⟨d, hd, by omega⟩]

/-- A device that is mapped shows the byte of Device memory. -/
theorem TypesIntended.deviceByte (h : TypesIntended L mair s ram devices)
    (hmapped : Mapped L s ram devices tbl)
    (hblocks : ∀ r ∈ ram, ∀ d ∈ devices, ∀ j, r.blockL2 j = true → ¬ d.Fills j) {d : Region}
    (hd : d ∈ devices) (hlt : d.deviceStart < d.deviceStop) :
    mairAttr mair mairIndexDevice = 0x00 := by
  have hd64 := hmapped.starts d hd
  by_cases hfills : d.Fills (d.deviceStart / l2EntrySize)
  · -- the first operation maps a block
    have hop := hfills.block_mem hd64
    have hslot : d.deviceStart / l2EntrySize * l2EntrySize / l2EntrySize =
        d.deviceStart / l2EntrySize := Nat.mul_div_cancel _ (by decide)
    have honly : ∀ r ∈ ram, r.blockL2 (d.deviceStart / l2EntrySize) = false := fun r hr =>
      Bool.eq_false_iff.mpr fun hblock => hblocks r hr d hd _ hblock hfills
    have hbyte := h.deviceL2 d hd _ hop
    rw [hmapped.deviceL2 hd hop (by rw [hslot]; exact honly)] at hbyte
    exact Option.some.inj hbyte
  · have hop : .page d.deviceStart ∈ d.deviceOps := (Region.page_mem_deviceOps hd64).mpr
      ⟨Region.deviceStart_mod hd64, le_rfl, hlt, hfills⟩
    have hbyte := h.deviceL3 d hd _ hop
    rw [hmapped.deviceL3 hd hop] at hbyte
    exact Option.some.inj hbyte

end Setup

/-- **When every mapping has the intended memory type**. After a completed setup on zeroed
tables, and with whatever was in `MAIR_EL1` before `setup_mair_ranges`, every entry is what it
was built as and selects the type that was meant exactly if no entry got two kinds of
descriptors and, where a device is mapped, the lowest byte of the register was zero. -/
theorem memory_types_iff {L : Layout} {s s' : Tables} {ram devices : List Region}
    (h0 : Zeroed L s) (hsizes : ∀ r ∈ ram, r.size < 2 ^ 64)
    (hstarts : ∀ d ∈ devices, d.start < 2 ^ 64)
    (hrun : setupIdmapPageTables L ram devices s = .ok s') (mair : BitVec 64) :
    TypesIntended L (setupMairRanges mair) s' ram devices ↔
      OneKind ram devices ∧
        ((∃ d ∈ devices, d.deviceStart < d.deviceStop) → mair.extractLsb' 0 8 = 0) := by
  constructor
  · intro h
    have hpages := h.slotsApart hstarts
    have hblocks : ∀ r ∈ ram, ∀ d ∈ devices, ∀ j, r.blockL2 j = true → ¬ d.Fills j :=
      fun r hr d hd j => h.oneBlock hstarts hr hd
    obtain ⟨tbl, hmapped⟩ := mapped_of_setup h0 hsizes hstarts hrun hpages
    refine ⟨⟨?_, hblocks, hpages⟩, ?_⟩
    · intro r hr q hq k hblock
      by_contra htable
      have htype := type_of_blockByte (h.normalL1 r hr k hblock)
      rw [hmapped.not_block_of_table hr hq hblock (by simpa using htable)] at htype
      exact absurd htype (by decide)
    · rintro ⟨d, hd, hlt⟩
      rw [← mairAttr_device]
      exact h.deviceByte hmapped hblocks hd hlt
  · rintro ⟨hone, hbyte⟩
    obtain ⟨tbl, hmapped⟩ := mapped_of_setup h0 hsizes hstarts hrun hone.pages
    refine hmapped.typesIntended hone (mairAttr_normal mair) fun hdevice => ?_
    rw [mairAttr_device]
    exact hbyte hdevice

/-- On the regions of a board no entry gets two kinds. -/
theorem BoardRegions.oneKind {ram devices : List Region} (h : BoardRegions ram devices) :
    OneKind ram devices where
  levels := fun _ hr _ hq _ hblock =>
    not_tableL1_of_blockL1 h.ramDisjoint h.ramBelow h.aligned hr hq hblock
  blocks := by
    intro r hr d hd j hblock hfills
    have hslot : j * l2EntrySize / l2EntrySize = j := Nat.mul_div_cancel _ (by decide)
    have hcontains := Region.Fills.contains (a := j * l2EntrySize) (by rwa [hslot]) (h.below d hd)
    have hnot := h.not_blockL2 hd hr hcontains
    rw [hslot, hblock] at hnot
    exact nomatch hnot
  pages := h.slotsApart

theorem memory_types_board :
    ∃ s', setupIdmapPageTables boardLayout boardRam boardDevices zeroTables = .ok s' ∧
      TypesIntended boardLayout (setupMairRanges 0) s' boardRam boardDevices := by
  obtain ⟨s', hrun⟩ := setup_board
  have hiff := memory_types_iff (zeroed_zeroTables boardLayout) (by decide) (by decide) hrun
  exact ⟨s', hrun, (hiff 0).mpr ⟨boardRegions_board.oneKind, fun _ => rfl⟩⟩

/-- **A leftover register**: with all ones in the lowest byte, the devices of a board are Normal
write-back memory after the setup. -/
theorem leftover_mair :
    ∃ s', setupIdmapPageTables boardLayout boardRam boardDevices zeroTables = .ok s' ∧
      ¬ TypesIntended boardLayout (setupMairRanges 0xFF) s' boardRam boardDevices := by
  obtain ⟨s', hrun⟩ := setup_board
  refine ⟨s', hrun, fun h => ?_⟩
  have hone := boardRegions_board.oneKind
  obtain ⟨tbl, hmapped⟩ := mapped_of_setup (zeroed_zeroTables boardLayout) (by decide)
    (by decide) hrun hone.pages
  have hbyte := h.deviceByte hmapped hone.blocks (d := ⟨0x09000000, 0x1000⟩)
    (by simp [boardDevices]) (by decide)
  rw [mairAttr_device] at hbyte
  exact absurd hbyte (by decide)

/-- **A slot of both kinds**: a RAM region that starts at no multiple of 2 MiB is mapped from the
slot below its start on, and a device in front of it is rounded up to the same slot. The regions
are accepted, and whatever was in the register, the slot is not both. -/
theorem mixed_slot : ∃ s', setupIdmapPageTables boardLayout [⟨0x401FF800, 0x200000⟩]
      [⟨0x40000000, 0x1FF800⟩] zeroTables = .ok s' ∧
    ∀ mair, ¬ TypesIntended boardLayout (setupMairRanges mair) s' [⟨0x401FF800, 0x200000⟩]
      [⟨0x40000000, 0x1FF800⟩] := by
  obtain ⟨s', hrun⟩ : ∃ s', setupIdmapPageTables boardLayout [⟨0x401FF800, 0x200000⟩]
    [⟨0x40000000, 0x1FF800⟩] zeroTables = .ok s' := ⟨_, rfl⟩
  refine ⟨s', hrun, fun mair h => ?_⟩
  have hblock : Region.blockL2 ⟨0x401FF800, 0x200000⟩ 512 = true := by decide
  have hfills : Region.Fills ⟨0x40000000, 0x1FF800⟩ 512 := ⟨by decide, by decide⟩
  exact h.oneBlock (by decide) (List.mem_singleton.mpr rfl) (List.mem_singleton.mpr rfl) hblock
    hfills

end Floss
