import Mathlib.Data.Nat.Bitwise

/-!
# The Translation Table Walk

The address translation of the Arm architecture in stage 1 of the EL1&0 regime (VMSAv8-64)
with a 4 KiB granule and 48-bit addresses: up to four levels of tables with 512 descriptors
of eight bytes each.

`walk read ttbr va` reads descriptors through `read`, which gives the 64-bit word at an
address. The result is the physical address with the attributes of the descriptor it comes
from, or nothing for a translation fault. Table descriptors contribute their `PXNTable` and
`UXNTable` bits.

A `descriptor` is a word given by its fields. The lemmas about it say what one level of the
walk does with a block, a page, a table or an empty entry; a whole walk is a chain of them.
-/

namespace Floss

/-- Bits `hi` down to `lo` of a word. -/
def bits (x hi lo : ℕ) : ℕ := x / 2 ^ lo % 2 ^ (hi + 1 - lo)

@[simp] theorem bits_zero (hi lo : ℕ) : bits 0 hi lo = 0 := by
  simp [bits]

/-- The outcome of a successful walk. -/
structure Translation where
  pa : ℕ
  attrIndx : ℕ
  sh : ℕ
  af : Bool
  pxn : Bool
  uxn : Bool
  deriving DecidableEq, Repr

/-- The translation by a block or page of `2 ^ shift` bytes. -/
def leaf (shift desc va : ℕ) (pxnTable uxnTable : Bool) : Translation where
  pa := bits desc 47 shift * 2 ^ shift + va % 2 ^ shift
  attrIndx := bits desc 4 2
  sh := bits desc 9 8
  af := bits desc 10 10 = 1
  pxn := pxnTable || bits desc 53 53 = 1
  uxn := uxnTable || bits desc 54 54 = 1

/-- The table a table descriptor points to. -/
def nextTable (desc : ℕ) : ℕ := bits desc 47 12 * 2 ^ 12

section Walk

variable (read : ℕ → ℕ)

def walkL3 (table va : ℕ) (pxnTable uxnTable : Bool) : Option Translation :=
  let desc := read (table + 8 * bits va 20 12)
  if bits desc 1 0 = 3 then some (leaf 12 desc va pxnTable uxnTable) else none

def walkL2 (table va : ℕ) (pxnTable uxnTable : Bool) : Option Translation :=
  let desc := read (table + 8 * bits va 29 21)
  if bits desc 1 0 = 1 then
    some (leaf 21 desc va pxnTable uxnTable)
  else if bits desc 1 0 = 3 then
    walkL3 read (nextTable desc) va (pxnTable || bits desc 59 59 = 1)
      (uxnTable || bits desc 60 60 = 1)
  else
    none

def walkL1 (table va : ℕ) (pxnTable uxnTable : Bool) : Option Translation :=
  let desc := read (table + 8 * bits va 38 30)
  if bits desc 1 0 = 1 then
    some (leaf 30 desc va pxnTable uxnTable)
  else if bits desc 1 0 = 3 then
    walkL2 read (nextTable desc) va (pxnTable || bits desc 59 59 = 1)
      (uxnTable || bits desc 60 60 = 1)
  else
    none

/-- The walk from level 0, which has no blocks. -/
def walk (ttbr va : ℕ) : Option Translation :=
  let desc := read (ttbr + 8 * bits va 47 39)
  if bits desc 1 0 = 3 then
    walkL1 read (nextTable desc) va (bits desc 59 59 = 1) (bits desc 60 60 = 1)
  else
    none

end Walk

/-! ### Descriptors by their fields -/

/-- A descriptor with address `addr`, the attributes `upper` from bit 48 on and the
attributes `lower` below the address. -/
def descriptor (upper addr lower : ℕ) : ℕ := upper * 2 ^ 48 + (addr + lower)

/-- The fields fit into their places. -/
structure Fits (addr lower : ℕ) : Prop where
  aligned : addr % 2 ^ 12 = 0
  below : addr < 2 ^ 48
  lower : lower < 2 ^ 12

/-- The translation by a block or page descriptor. -/
def Translation.ofFields (pa upper lower : ℕ) : Translation where
  pa := pa
  attrIndx := lower / 4 % 8
  sh := lower / 256 % 4
  af := lower / 1024 % 2 = 1
  pxn := upper / 32 % 2 = 1
  uxn := upper / 64 % 2 = 1

section Fields

variable {upper addr lower : ℕ}

/-- Attributes and address do not overlap, so setting the bits of both gives their sum. -/
theorem or_eq_descriptor (upper : ℕ) (h : Fits addr lower) :
    (upper * 2 ^ 48 + lower) ||| addr = descriptor upper addr lower := by
  obtain ⟨haddr, h48, hlow⟩ := h
  obtain ⟨y, rfl⟩ : ∃ y, addr = 2 ^ 12 * y := ⟨addr / 2 ^ 12, by omega⟩
  have h1 : upper * 2 ^ 48 + lower = 2 ^ 48 * upper ||| lower := by
    rw [Nat.mul_comm]
    exact Nat.two_pow_add_eq_or_of_lt (by omega) upper
  have h2 : 2 ^ 12 * y ||| lower = 2 ^ 12 * y + lower :=
    (Nat.two_pow_add_eq_or_of_lt hlow y).symm
  have h3 : 2 ^ 48 * upper ||| (2 ^ 12 * y + lower) = 2 ^ 48 * upper + (2 ^ 12 * y + lower) :=
    (Nat.two_pow_add_eq_or_of_lt (by omega) upper).symm
  rw [h1, Nat.or_assoc, Nat.or_comm lower, h2, h3, descriptor, Nat.mul_comm]

/-- An address has bits in its place only. -/
theorem Fits.testBit_eq_false (h : Fits addr lower) {i : ℕ} (hi : i < 12 ∨ 48 ≤ i) :
    addr.testBit i = false := by
  rcases hi with hi | hi
  · obtain ⟨y, rfl⟩ : ∃ y, addr = 2 ^ 12 * y := ⟨addr / 2 ^ 12, by have := h.aligned; omega⟩
    rw [Nat.testBit_two_pow_mul]
    simp [hi]
  · exact Nat.testBit_lt_two_pow (lt_of_lt_of_le h.below (Nat.pow_le_pow_right (by decide) hi))

/-- The type bits are those of the lower attributes. -/
theorem bits_type (upper : ℕ) (h : Fits addr lower) :
    bits (descriptor upper addr lower) 1 0 = lower % 4 := by
  obtain ⟨haddr, h48, hlow⟩ := h
  simp only [bits, descriptor]
  omega

/-- A table descriptor points to its address. -/
theorem nextTable_descriptor (h : Fits addr lower) :
    nextTable (descriptor upper addr lower) = addr := by
  obtain ⟨haddr, h48, hlow⟩ := h
  simp only [nextTable, bits, descriptor]
  omega

/-- A leaf with an aligned address translates to that address and the offset. -/
theorem leaf_descriptor (h : Fits addr lower) {shift : ℕ}
    (hshift : shift = 12 ∨ shift = 21 ∨ shift = 30) (haddr : addr % 2 ^ shift = 0) (va : ℕ) :
    leaf shift (descriptor upper addr lower) va false false =
      .ofFields (addr + va % 2 ^ shift) upper lower := by
  obtain ⟨h12, h48, hlow⟩ := h
  have hpa : bits (descriptor upper addr lower) 47 shift * 2 ^ shift = addr := by
    rcases hshift with rfl | rfl | rfl <;> simp only [bits, descriptor] <;> omega
  have hindx : bits (descriptor upper addr lower) 4 2 = lower / 4 % 8 := by
    simp only [bits, descriptor]
    omega
  have hsh : bits (descriptor upper addr lower) 9 8 = lower / 256 % 4 := by
    simp only [bits, descriptor]
    omega
  have haf : bits (descriptor upper addr lower) 10 10 = lower / 1024 % 2 := by
    simp only [bits, descriptor]
    omega
  have hpxn : bits (descriptor upper addr lower) 53 53 = upper / 32 % 2 := by
    simp only [bits, descriptor]
    omega
  have huxn : bits (descriptor upper addr lower) 54 54 = upper / 64 % 2 := by
    simp only [bits, descriptor]
    omega
  simp [leaf, Translation.ofFields, hpa, hindx, hsh, haf, hpxn, huxn]

/-- A table descriptor without upper attributes restricts nothing. -/
theorem bits_tableAttrs (h : Fits addr lower) :
    bits (descriptor 0 addr lower) 59 59 = 0 ∧ bits (descriptor 0 addr lower) 60 60 = 0 := by
  obtain ⟨haddr, h48, hlow⟩ := h
  simp only [bits, descriptor]
  omega

end Fields

/-! ### Levels of a walk -/

section Levels

variable {read : ℕ → ℕ} {table va upper addr lower : ℕ}

/-- An empty entry ends the walk. -/
theorem walkL3_empty (hread : read (table + 8 * bits va 20 12) = 0) :
    walkL3 read table va false false = none := by
  simp [walkL3, hread]

theorem walkL2_empty (hread : read (table + 8 * bits va 29 21) = 0) :
    walkL2 read table va false false = none := by
  simp [walkL2, hread]

theorem walkL1_empty (hread : read (table + 8 * bits va 38 30) = 0) :
    walkL1 read table va false false = none := by
  simp [walkL1, hread]

theorem walk_empty (hread : read (table + 8 * bits va 47 39) = 0) :
    walk read table va = none := by
  simp [walk, hread]

/-- A page. -/
theorem walkL3_page (h : Fits addr lower) (hlow : lower % 4 = 3)
    (hread : read (table + 8 * bits va 20 12) = descriptor upper addr lower) :
    walkL3 read table va false false = some (.ofFields (addr + va % 2 ^ 12) upper lower) := by
  have htype := bits_type upper h
  simp only [walkL3, hread, htype, hlow, if_true]
  rw [leaf_descriptor h (.inl rfl) h.aligned]

/-- A block of level 2. -/
theorem walkL2_block (h : Fits addr lower) (hlow : lower % 4 = 1) (haddr : addr % 2 ^ 21 = 0)
    (hread : read (table + 8 * bits va 29 21) = descriptor upper addr lower) :
    walkL2 read table va false false = some (.ofFields (addr + va % 2 ^ 21) upper lower) := by
  have htype := bits_type upper h
  simp only [walkL2, hread, htype, hlow, if_true]
  rw [leaf_descriptor h (.inr (.inl rfl)) haddr]

/-- A block of level 1. -/
theorem walkL1_block (h : Fits addr lower) (hlow : lower % 4 = 1) (haddr : addr % 2 ^ 30 = 0)
    (hread : read (table + 8 * bits va 38 30) = descriptor upper addr lower) :
    walkL1 read table va false false = some (.ofFields (addr + va % 2 ^ 30) upper lower) := by
  have htype := bits_type upper h
  simp only [walkL1, hread, htype, hlow, if_true]
  rw [leaf_descriptor h (.inr (.inr rfl)) haddr]

/-- A table descriptor leads on to its table. -/
theorem walkL2_table (h : Fits addr lower) (hlow : lower % 4 = 3)
    (hread : read (table + 8 * bits va 29 21) = descriptor 0 addr lower) :
    walkL2 read table va false false = walkL3 read addr va false false := by
  have htype := bits_type 0 h
  obtain ⟨h59, h60⟩ := bits_tableAttrs h
  simp [walkL2, hread, htype, hlow, h59, h60, nextTable_descriptor h]

theorem walkL1_table (h : Fits addr lower) (hlow : lower % 4 = 3)
    (hread : read (table + 8 * bits va 38 30) = descriptor 0 addr lower) :
    walkL1 read table va false false = walkL2 read addr va false false := by
  have htype := bits_type 0 h
  obtain ⟨h59, h60⟩ := bits_tableAttrs h
  simp [walkL1, hread, htype, hlow, h59, h60, nextTable_descriptor h]

theorem walk_table (h : Fits addr lower) (hlow : lower % 4 = 3)
    (hread : read (table + 8 * bits va 47 39) = descriptor 0 addr lower) :
    walk read table va = walkL1 read addr va false false := by
  have htype := bits_type 0 h
  obtain ⟨h59, h60⟩ := bits_tableAttrs h
  simp [walk, hread, htype, hlow, h59, h60, nextTable_descriptor h]

end Levels

end Floss
