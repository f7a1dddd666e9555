import Floss.CString
import Floss.Forest
import Floss.ParserSafety

/-!
# Device Trees and their Flattened Form

What a blob is for: a device tree, a root node with properties and subnodes. This module
states the flattened format (version 17) as a relation between trees and blobs.

The structure block is a stream of 32-bit aligned tokens: a node opens with its
NUL-terminated name, then come its properties (length, offset of the name in the strings
block, value), then its subnodes, then a closing token; names and values are zero-padded
to a word, and `FDT_END` comes last. `FDT_NOP` may stand before any token.

The encoder at the end (`DeviceTree.image`) writes one flattened form of a tree: header, an
empty memory reservation block, the structure block without any `FDT_NOP`, and a strings
block with the property names one after the other.

## Main definitions and results

* `DeviceTree`, `Item`, `DeviceTree.items`: trees and their token streams;
* `Flattens`, `FlattenedAt`: the format;
* `flattenedAt_image`: every tree that fits into 32-bit sizes has a blob, so what is proved
  about flattened trees is about all of them.
-/

namespace Floss

/-- A property: a name and raw value bytes. -/
structure Property where
  name : List UInt8
  value : List UInt8
  deriving DecidableEq, Repr

/-- The data of one node, without its subnodes. -/
structure Node where
  name : List UInt8
  props : List Property
  deriving DecidableEq, Repr

/-- A device tree. The root node has the empty name. -/
structure DeviceTree where
  props : List Property
  children : Forest Node
  deriving DecidableEq, Repr

/-- The tokens of a flattened tree, with the data they carry. -/
inductive Item
  | beginNode (name : List UInt8)
  | endNode
  | prop (p : Property)
  deriving DecidableEq, Repr

/-- What precedes the subnodes of a node: its name, then its properties. -/
def Node.opening (n : Node) : List Item :=
  .beginNode n.name :: n.props.map .prop

/-- What follows the subnodes of a node. -/
def Node.closing (_ : Node) : List Item :=
  [.endNode]

namespace DeviceTree

/-- The root node. -/
def root (t : DeviceTree) : Node := ⟨[], t.props⟩

/-- The tree as a forest of one tree. -/
def forest (t : DeviceTree) : Forest Node := .cons t.root t.children .nil

/-- The preorder token stream of a tree. -/
def items (t : DeviceTree) : List Item := t.forest.tokens Node.opening Node.closing

end DeviceTree

/-! ### The format -/

/-- Zero padding up to the next multiple of four bytes. -/
def pad4 (bs : List UInt8) : List UInt8 :=
  bs ++ List.replicate ((4 - bs.length % 4) % 4) 0

theorem length_pad4 (bs : List UInt8) : (pad4 bs).length = (bs.length + 3) / 4 * 4 := by
  simp only [pad4, List.length_append, List.length_replicate]
  omega

/-- `Flattens m strings size items bs`: the bytes `bs` are a structure block for the
tokens `items`, closed by `FDT_END`. Property names are NUL-terminated strings at offsets
below `size` of the strings block at `strings`; `FDT_NOP` may precede any token. -/
inductive Flattens (m : Mem) (strings size : ℕ) : List Item → List UInt8 → Prop
  | fdtEnd : Flattens m strings size [] (bytes32 9)
  | nop {is bs} (h : Flattens m strings size is bs) :
      Flattens m strings size is (bytes32 4 ++ bs)
  | beginNode {is bs} (name : List UInt8) (hname : (0 : UInt8) ∉ name)
      (h : Flattens m strings size is bs) :
      Flattens m strings size (.beginNode name :: is)
        (bytes32 1 ++ (pad4 (name ++ [0]) ++ bs))
  | endNode {is bs} (h : Flattens m strings size is bs) :
      Flattens m strings size (.endNode :: is) (bytes32 2 ++ bs)
  | prop {is bs} (p : Property) (off : ℕ) (hoff : off < size)
      (hname : StrAt m (strings + off) p.name) (h : Flattens m strings size is bs) :
      Flattens m strings size (.prop p :: is)
        (bytes32 3 ++ (bytes32 p.value.length ++ (bytes32 off ++ (pad4 p.value ++ bs))))

/-- The blob at `fdt` is a flattened form of the tree `t`, with header `h`. -/
structure FlattenedAt (m : Mem) (fdt : ℕ) (h : Header) (t : DeviceTree) : Prop where
  notNull : fdt ≠ nullptr
  base : fdt % 4 = 0
  header : HeaderAt m fdt h
  consistent : h.Consistent
  offset : h.offDtStruct % 4 = 0
  block : ∃ bs, Flattens m (fdt + h.offDtStrings) h.sizeDtStrings t.items bs ∧
    bs.length = h.sizeDtStruct ∧ Holds m (fdt + h.offDtStruct) bs

/-- A flattened block is not empty: it ends with `FDT_END`. -/
theorem Flattens.ne_nil {m : Mem} {strings size : ℕ} {is : List Item} {bs : List UInt8}
    (h : Flattens m strings size is bs) : bs ≠ [] := by
  cases h <;> simp [bytes32]

/-- Every item takes at least a word, and `FDT_END` another. -/
theorem Flattens.length_le {m : Mem} {strings size : ℕ} {is : List Item} {bs : List UInt8}
    (h : Flattens m strings size is bs) : 4 * is.length + 4 ≤ bs.length := by
  induction h with
  | fdtEnd => simp
  | nop _ ih | beginNode _ _ _ ih | endNode _ ih | prop _ _ _ _ _ ih =>
      simp only [List.length_append, List.length_cons, length_bytes32]
      omega

/-! ### An encoder -/

/-- The structure block of a token stream; the next property name is at offset `off` of
the strings block. -/
def structBytes : (off : ℕ) → List Item → List UInt8
  | _, [] => bytes32 9
  | off, .beginNode name :: is => bytes32 1 ++ (pad4 (name ++ [0]) ++ structBytes off is)
  | off, .endNode :: is => bytes32 2 ++ structBytes off is
  | off, .prop p :: is =>
      bytes32 3 ++ (bytes32 p.value.length ++ (bytes32 off ++
        (pad4 p.value ++ structBytes (off + (p.name.length + 1)) is)))

/-- The strings block of a token stream: every property name with its terminator. -/
def stringsBytes : List Item → List UInt8
  | [] => []
  | .prop p :: is => p.name ++ [0] ++ stringsBytes is
  | .beginNode _ :: is | .endNode :: is => stringsBytes is

/-- The header as it stands in memory. -/
def Header.bytes (h : Header) : List UInt8 :=
  bytes32 h.magic ++ (bytes32 h.totalsize ++ (bytes32 h.offDtStruct ++
    (bytes32 h.offDtStrings ++ (bytes32 h.offMemRsvmap ++ (bytes32 h.version ++
      (bytes32 16 ++ (bytes32 0 ++ (bytes32 h.sizeDtStrings ++ bytes32 h.sizeDtStruct))))))))

namespace DeviceTree

/-- The header of the encoded tree. -/
def imageHeader (t : DeviceTree) : Header where
  magic := fdtMagic
  totalsize := 56 + ((structBytes 0 t.items).length + (stringsBytes t.items).length)
  offDtStruct := 56
  offDtStrings := 56 + (structBytes 0 t.items).length
  offMemRsvmap := 40
  version := 17
  sizeDtStrings := (stringsBytes t.items).length
  sizeDtStruct := (structBytes 0 t.items).length

/-- The encoded tree. -/
def image (t : DeviceTree) : List UInt8 :=
  t.imageHeader.bytes ++ (List.replicate 16 0 ++
    (structBytes 0 t.items ++ stringsBytes t.items))

/-- The memory that holds the encoded tree at `fdt` and nothing else. -/
def imageAt (t : DeviceTree) (fdt : ℕ) : Mem := Mem.ofBytes fdt t.image

end DeviceTree

/-- The names an item carries are NUL-free. -/
def Item.Proper : Item → Prop
  | .beginNode name => (0 : UInt8) ∉ name
  | .endNode => True
  | .prop p => (0 : UInt8) ∉ p.name

instance : DecidablePred Item.Proper
  | .beginNode name => inferInstanceAs (Decidable ((0 : UInt8) ∉ name))
  | .endNode => inferInstanceAs (Decidable True)
  | .prop p => inferInstanceAs (Decidable ((0 : UInt8) ∉ p.name))

/-- The tree can be encoded: names are NUL-free and sizes fit into 32 bits. -/
structure DeviceTree.Encodable (t : DeviceTree) : Prop where
  proper : ∀ it ∈ t.items, it.Proper
  small : t.image.length < 2 ^ 32

instance (t : DeviceTree) : Decidable t.Encodable :=
  decidable_of_iff ((∀ it ∈ t.items, it.Proper) ∧ t.image.length < 2 ^ 32)
    ⟨fun h => ⟨h.1, h.2⟩, fun h => ⟨h.1, h.2⟩⟩

/-- The encoded block is a structure block for the tokens. -/
theorem flattens_structBytes {m : Mem} {strings size off : ℕ} {is : List Item}
    (hproper : ∀ it ∈ is, it.Proper) (hstr : Holds m (strings + off) (stringsBytes is))
    (hfit : off + (stringsBytes is).length ≤ size) :
    Flattens m strings size is (structBytes off is) := by
  induction is generalizing off with
  | nil => exact .fdtEnd
  | cons it is ih =>
      have hrest : ∀ it ∈ is, it.Proper := fun i hi => hproper i (by simp [hi])
      have hit := hproper it (by simp)
      cases it with
      | beginNode name => exact .beginNode name hit (ih hrest hstr hfit)
      | endNode => exact .endNode (ih hrest hstr hfit)
      | prop p =>
          obtain ⟨hname, hstr⟩ := holds_append.mp hstr
          simp only [stringsBytes, List.length_append, List.length_singleton] at hfit hstr
          refine .prop p off (by omega) ⟨hname, hit⟩ (ih hrest ?_ (by omega))
          rwa [← Nat.add_assoc]

/-- A header in memory reads as it was written. -/
theorem headerAt_of_holds {m : Mem} {fdt : ℕ} {h : Header} (hb : Holds m fdt h.bytes)
    (hmagic : h.magic < 2 ^ 32) (htotal : h.totalsize < 2 ^ 32)
    (hstruct : h.offDtStruct < 2 ^ 32) (hstrings : h.offDtStrings < 2 ^ 32)
    (hrsvmap : h.offMemRsvmap < 2 ^ 32) (hversion : h.version < 2 ^ 32)
    (hsizeStrings : h.sizeDtStrings < 2 ^ 32) (hsizeStruct : h.sizeDtStruct < 2 ^ 32) :
    HeaderAt m fdt h := by
  obtain ⟨h0, hb⟩ := holds_word hmagic hb
  obtain ⟨h1, hb⟩ := holds_word htotal hb
  obtain ⟨h2, hb⟩ := holds_word hstruct hb
  obtain ⟨h3, hb⟩ := holds_word hstrings hb
  obtain ⟨h4, hb⟩ := holds_word hrsvmap hb
  obtain ⟨h5, hb⟩ := holds_word hversion hb
  obtain ⟨-, hb⟩ := holds_word (by omega) hb
  obtain ⟨-, hb⟩ := holds_word (by omega) hb
  obtain ⟨h8, hb⟩ := holds_word hsizeStrings hb
  exact ⟨h0, h1, h2, h3, h4, h5, h8, be32_of_holds hsizeStruct hb⟩

/-- **Every encodable tree has a blob.** -/
theorem flattenedAt_image (t : DeviceTree) (fdt : ℕ) (ht : t.Encodable) (hnull : fdt ≠ nullptr)
    (hbase : fdt % 4 = 0) : FlattenedAt (t.imageAt fdt) fdt t.imageHeader t := by
  have hsmall := ht.small
  have hheader : t.imageHeader.bytes.length = 40 := rfl
  simp only [DeviceTree.image, List.length_append, hheader, List.length_replicate] at hsmall
  have hholds : Holds (t.imageAt fdt) fdt t.image := holds_ofBytes fdt t.image
  obtain ⟨hhead, hrest⟩ := holds_append.mp hholds
  obtain ⟨-, hrest⟩ := holds_append.mp hrest
  obtain ⟨hstruct, hstrings⟩ := holds_append.mp hrest
  simp only [hheader, List.length_replicate, Nat.add_assoc, Nat.reduceAdd] at hstruct hstrings
  refine ⟨hnull, hbase, ?_, ?_, by simp [DeviceTree.imageHeader], structBytes 0 t.items, ?_,
    rfl, hstruct⟩
  · refine headerAt_of_holds hhead ?_ ?_ ?_ ?_ ?_ ?_ ?_ ?_ <;>
      simp only [DeviceTree.imageHeader, fdtMagic] <;> omega
  · constructor <;> simp only [DeviceTree.imageHeader, fdtMagic, fdtSupportedVersion] <;> omega
  · exact flattens_structBytes ht.proper hstrings (by simp [DeviceTree.imageHeader])

/-- A board with a UART, followed by a node without properties. -/
def uartTree : DeviceTree where
  props := [⟨cstr "interrupt-parent", bytes32 1⟩]
  children :=
    .cons ⟨cstr "uart@9000000", [⟨cstr "reg", bytes32 0x9000000⟩,
        ⟨cstr "compatible", cstr "arm,pl011" ++ [0] ++ cstr "arm,primecell" ++ [0]⟩]⟩ .nil
      (.cons ⟨cstr "chosen", []⟩ .nil .nil)

/-- The blob of that board, at an aligned address. -/
theorem flattenedAt_uartTree :
    FlattenedAt (uartTree.imageAt 4096) 4096 uartTree.imageHeader uartTree :=
  flattenedAt_image uartTree 4096 (by decide +kernel) (by decide) (by decide)

end Floss
