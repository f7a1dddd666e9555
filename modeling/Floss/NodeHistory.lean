import Floss.Matching
import Mathlib.Data.List.Induction

/-!
# What a Depth of the Tree Leaves Behind

The second pass keeps one frame per depth and resets only part of it when a node begins.
What the frame holds when a node ends is therefore a function of the node and of the
nodes that stood at the same depth before it. This module says which function, in terms
of the tree alone. A list `seen` of nodes is such a history, most recent node first.

* `Node.kept`: the properties of a node that the pass stores, in document order;
* `leftIdx name seen`: the slot remembered for a property name;
* `leftSlot i seen`: the property in slot `i`;
* `leftCell name dflt seen`: the cell count in force;
* `slotProp kind seen`: the property that handlers of a kind are matched with.

A node's own data are `Node.prop?` and `Node.cell?`: the last property of a name, and its
first cell.
-/

namespace Floss

/-- The number in the first cell of a property value. -/
def Property.u32 (p : Property) : ℕ :=
  match p.value with
  | b0 :: b1 :: b2 :: b3 :: _ =>
      b0.toNat * 2 ^ 24 + b1.toNat * 2 ^ 16 + b2.toNat * 2 ^ 8 + b3.toNat
  | _ => 0

def addressCells : List UInt8 := cstr "#address-cells"

def sizeCells : List UInt8 := cstr "#size-cells"

def interruptParentName : List UInt8 := cstr "interrupt-parent"

/-- The properties that the second pass reads and does not store. -/
def cellNames : List (List UInt8) := [addressCells, sizeCells, interruptParentName]

/-- The name of the property that handlers of a kind are matched with. -/
def MatchKind.propName : MatchKind → List UInt8
  | .compatible => cstr "compatible"
  | .deviceType => cstr "device_type"

namespace Node

/-- The node is one of those the passes ignore. -/
def ignored (n : Node) : Bool :=
  (cstr "__").isPrefixOf n.name || n.name == cstr "aliases"

/-- The properties stored in the node's frame, in document order. -/
def kept (n : Node) : List Property :=
  if n.ignored then [] else n.props.filter fun p => p.name ∉ cellNames

/-- The property of a name; the last one, should the name occur more than once. -/
def prop? (n : Node) (name : List UInt8) : Option Property :=
  n.props.reverse.find? fun p => p.name == name

/-- The value of a property that is one cell. -/
def cell? (n : Node) (name : List UInt8) : Option ℕ :=
  (n.prop? name).map Property.u32

/-- The value that reaches the frame: ignored nodes contribute none. -/
def setCell? (n : Node) (name : List UInt8) : Option ℕ :=
  if n.ignored then none else n.cell? name

/-- The node with one more property. -/
def add (n : Node) (p : Property) : Node := ⟨n.name, n.props ++ [p]⟩

end Node

/-- The position of the last property of a name, counted from `i`. -/
def lastIdx (name : List UInt8) : List Property → ℕ → Option ℕ
  | [], _ => none
  | p :: ps, i => (lastIdx name ps (i + 1)).or (if p.name = name then some i else none)

/-- The slot remembered for a property name: its last position in the most recent node that
has it. -/
def leftIdx (name : List UInt8) : List Node → Option ℕ
  | [] => none
  | n :: older => (lastIdx name n.kept 0).or (leftIdx name older)

/-- The property in a slot: that of the most recent node with that many properties. -/
def leftSlot (i : ℕ) : List Node → Option Property
  | [] => none
  | n :: older => n.kept[i]?.or (leftSlot i older)

/-- The cell count in force: that of the most recent node that sets it. -/
def leftCell (name : List UInt8) (dflt : ℕ) : List Node → ℕ
  | [] => dflt
  | n :: older => (n.setCell? name).getD (leftCell name dflt older)

/-- The property that handlers of a kind are matched with when the most recent node
ends. -/
def slotProp (kind : MatchKind) (seen : List Node) : Option Property :=
  (leftIdx kind.propName seen).bind fun i => leftSlot i seen

/-- The handlers called when the most recent node ends. -/
def dispatched (seen : List Node) : List NodeHandler :=
  nodeHandlers.filter fun h => h.Matches (slotProp h.matchKind seen)

/-- The interrupt parent in force at a node: that of the nearest node, from the node
outwards, that sets one. -/
def interruptParent : List (Open Node) → ℕ
  | [] => 0
  | o :: anc => (o.node.setCell? interruptParentName).getD (interruptParent anc)

/-! ### A node that has no property yet -/

section Empty

variable (name : List UInt8) (seen : List Node)

@[simp] theorem kept_empty : (⟨name, []⟩ : Node).kept = [] := by
  simp [Node.kept]

@[simp] theorem setCell?_empty (c : List UInt8) : (⟨name, []⟩ : Node).setCell? c = none := by
  simp [Node.setCell?, Node.cell?, Node.prop?]

@[simp] theorem leftIdx_empty (nm : List UInt8) :
    leftIdx nm (⟨name, []⟩ :: seen) = leftIdx nm seen := by
  simp [leftIdx, lastIdx]

@[simp] theorem leftSlot_empty (i : ℕ) :
    leftSlot i (⟨name, []⟩ :: seen) = leftSlot i seen := by
  simp [leftSlot]

@[simp] theorem leftCell_empty (c : List UInt8) (dflt : ℕ) :
    leftCell c dflt (⟨name, []⟩ :: seen) = leftCell c dflt seen := by
  simp [leftCell]

end Empty

/-! ### One more property -/

section Add

variable {n : Node} {p : Property}

@[simp] theorem ignored_add : (n.add p).ignored = n.ignored := rfl

/-- A property that is not stored leaves the stored ones as they are. -/
theorem kept_add_of_skipped (h : n.ignored = true ∨ p.name ∈ cellNames) :
    (n.add p).kept = n.kept := by
  rw [Node.kept, Node.kept]
  rw [ignored_add]
  rcases h with h | h
  · simp [h]
  · simp [Node.add, h]

/-- A stored property goes to the end. -/
theorem kept_add_of_stored (h : n.ignored = false) (hp : p.name ∉ cellNames) :
    (n.add p).kept = n.kept ++ [p] := by
  rw [Node.kept, Node.kept]
  rw [ignored_add, h]
  simp [Node.add, hp]

theorem prop?_add (name : List UInt8) :
    (n.add p).prop? name = if p.name = name then some p else n.prop? name := by
  by_cases h : p.name = name <;> simp [Node.prop?, Node.add, h]

theorem setCell?_add (name : List UInt8) :
    (n.add p).setCell? name =
      if n.ignored = false ∧ p.name = name then some p.u32 else n.setCell? name := by
  unfold Node.setCell? Node.cell?
  rw [ignored_add, prop?_add]
  cases n.ignored
  · by_cases h : p.name = name <;> simp [h]
  · simp

theorem lastIdx_append (name : List UInt8) (ps : List Property) (i : ℕ) :
    lastIdx name (ps ++ [p]) i =
      if p.name = name then some (i + ps.length) else lastIdx name ps i := by
  induction ps generalizing i with
  | nil => simp [lastIdx]
  | cons q ps ih =>
      simp only [List.cons_append, lastIdx, ih, List.length_cons]
      by_cases h : p.name = name
      · simp only [h, if_true, Option.some_or]
        rw [show i + 1 + ps.length = i + (ps.length + 1) by omega]
      · simp [h]

end Add

/-! ### Remembered slots -/

/-- A remembered position is one of the list, and the property there has the name. -/
theorem getElem?_lastIdx {name : List UInt8} {ps : List Property} {i j : ℕ}
    (h : lastIdx name ps i = some j) :
    i ≤ j ∧ j < i + ps.length ∧ ps[j - i]? = ps.reverse.find? fun p => p.name == name := by
  induction ps using List.reverseRecOn generalizing j with
  | nil => simp [lastIdx] at h
  | append_singleton ps p ih =>
      rw [lastIdx_append] at h
      by_cases hp : p.name = name
      · obtain rfl : i + ps.length = j := by simpa [hp] using h
        simp [hp]
      · rw [if_neg hp] at h
        obtain ⟨h1, h2, h3⟩ := ih h
        refine ⟨h1, by simp; omega, ?_⟩
        rw [List.getElem?_append_left (by omega), h3]
        simp [hp]

theorem lastIdx_eq_none {name : List UInt8} {ps : List Property} {i : ℕ} :
    lastIdx name ps i = none ↔ ∀ p ∈ ps, p.name ≠ name := by
  induction ps generalizing i with
  | nil => simp [lastIdx]
  | cons p ps ih =>
      simp only [lastIdx, Option.or_eq_none_iff, ih, ite_eq_right_iff, reduceCtorEq,
        imp_false, List.forall_mem_cons]
      exact and_comm

/-- A remembered slot holds a property, and lies among those of some node seen. -/
theorem leftSlot_of_leftIdx {name : List UInt8} {seen : List Node} {i : ℕ}
    (h : leftIdx name seen = some i) :
    (∃ p, leftSlot i seen = some p) ∧ ∃ n ∈ seen, i < n.kept.length := by
  induction seen with
  | nil => simp [leftIdx] at h
  | cons n older ih =>
      rw [leftIdx] at h
      cases hlast : lastIdx name n.kept 0 with
      | some j =>
          obtain rfl : j = i := by simpa [hlast] using h
          obtain ⟨-, hlt, -⟩ := getElem?_lastIdx hlast
          have hlt' : j < n.kept.length := by omega
          exact ⟨⟨n.kept[j], by simp [leftSlot, hlt']⟩, n, by simp, hlt'⟩
      | none =>
          obtain ⟨⟨p, hp⟩, n', hn', hi⟩ := ih (by simpa [hlast] using h)
          refine ⟨?_, n', by simp [hn'], hi⟩
          cases hk : n.kept[i]? with
          | some q => exact ⟨q, by simp [leftSlot, hk]⟩
          | none => exact ⟨p, by simp [leftSlot, hk, hp]⟩

/-- The names handlers are matched with are stored. -/
theorem propName_notMem_cellNames (kind : MatchKind) : kind.propName ∉ cellNames := by
  cases kind <;> decide

/-- Searching the stored properties of a node for a stored name finds what the node has. -/
theorem find?_kept {n : Node} {name : List UInt8} (hi : n.ignored = false)
    (hname : name ∉ cellNames) :
    (n.kept.reverse.find? fun p => p.name == name) = n.prop? name := by
  unfold Node.kept Node.prop?
  rw [hi]
  simp only [Bool.false_eq_true, if_false]
  rw [← List.filter_reverse, List.find?_filter]
  congr 1
  funext p
  by_cases hp : p.name = name
  · simp [hp, hname]
  · simp [hp]

/-- **A node's own property comes first**: handlers are matched with it whatever the nodes
before had. -/
theorem slotProp_of_own {kind : MatchKind} {n : Node} {older : List Node} {p : Property}
    (hi : n.ignored = false) (hp : n.prop? kind.propName = some p) :
    slotProp kind (n :: older) = some p := by
  have hname := propName_notMem_cellNames kind
  cases hlast : lastIdx kind.propName n.kept 0 with
  | none =>
      rw [lastIdx_eq_none] at hlast
      rw [← find?_kept hi hname, List.find?_eq_some_iff_append] at hp
      obtain ⟨hpn, as, bs, happ, -⟩ := hp
      have hmem : p ∈ n.kept := by
        rw [← List.mem_reverse, happ]
        simp
      exact absurd (by simpa using hpn) (hlast p hmem)
  | some j =>
      obtain ⟨-, hlt, hget⟩ := getElem?_lastIdx hlast
      rw [find?_kept hi hname, hp, Nat.sub_zero] at hget
      simp [slotProp, leftIdx, leftSlot, hlast, hget]

end Floss
