import Floss.DtParse

/-!
# Translation of Bus Addresses

What `translate_address` computes, in terms of the windows of the buses above a node. A
window is a triplet of a `ranges` property: a base on the bus, a base on the parent's bus
and a length, each of as many cells as the bus and its parent say.

* `Triplet`, `Ranges`: a `ranges` value as a list of triplets and the bytes left over;
* `Ranges.translate`: the map of a bus, by the first window that has the address;
* `RangesAt`, `Buses`: the frames of a node's ancestors show these values;
* `translateTriplets_eq`: the cursor of the code finds the triplets of the value;
* `translateAddress_composes`: the result is the composition of the maps, up to the root.
-/

namespace Floss

/-! ### Cells -/

/-- Cells as they lie in memory. -/
def cellBytes (cells : List UInt32) : List UInt8 := cells.flatMap fun c => bytes32 c.toNat

/-- Cells as a number, most significant first, modulo `2 ^ 64`. -/
def cellsValue (cells : List UInt32) : ℕ :=
  cells.foldl (fun v c => v * 2 ^ 32 + c.toNat) 0 % 2 ^ 64

@[simp] theorem length_cellBytes (cells : List UInt32) :
    (cellBytes cells).length = cells.length * 4 := by
  induction cells with
  | nil => rfl
  | cons c cells ih =>
      rw [cellBytes, List.flatMap_cons, List.length_append, length_bytes32,
        ← cellBytes, ih, List.length_cons]
      omega

theorem cellBytes_append (xs ys : List UInt32) :
    cellBytes (xs ++ ys) = cellBytes xs ++ cellBytes ys :=
  List.flatMap_append

/-- Shifting in a cell, in 64 bits. -/
theorem shiftIn_cell (v : ℕ) {c : ℕ} (hc : c < 2 ^ 32) :
    (v % 2 ^ 64) <<< 32 % 2 ^ 64 ||| c = (v * 2 ^ 32 + c) % 2 ^ 64 := by
  have hlow : (v % 2 ^ 64) <<< 32 % 2 ^ 64 = (v % 2 ^ 32) <<< 32 := by
    rw [Nat.shiftLeft_eq, Nat.shiftLeft_eq]
    omega
  rw [hlow, ← Nat.shiftLeft_add_eq_or_of_lt hc, Nat.shiftLeft_eq]
  omega

/-- **`read_cells`** reads the number. -/
theorem readCells_eq {m : Mem} {p : ℕ} {cells : List UInt32} (h : Holds m p (cellBytes cells)) :
    readCells m p cells.length = .ok (cellsValue cells) := by
  rw [readCells]
  induction cells using List.reverseRecOn with
  | nil => rfl
  | append_singleton cells c ih =>
      rw [cellBytes_append] at h
      obtain ⟨hcells, hlast⟩ := holds_append.1 h
      rw [length_cellBytes] at hlast
      have hc : c.toNat < 2 ^ 32 := c.toNat_lt
      have hread : be32 m (p + cells.length * 4) = .ok c.toNat :=
        be32_of_holds hc (by simpa [cellBytes] using hlast)
      rw [List.length_append, List.length_singleton, List.range_succ, List.foldlM_append,
        ih hcells, ok_bind, List.foldlM_cons, hread, ok_bind]
      simp only [pure_eq_ok, ok_bind, List.foldlM_nil, cellsValue, List.foldl_append,
        List.foldl_cons, List.foldl_nil, shiftIn_cell _ hc]

/-! ### Windows of a bus -/

/-- A triplet of a `ranges` value, for the given numbers of cells. -/
structure Triplet (childCells parentCells sizeCells : ℕ) where
  child : List UInt32
  parent : List UInt32
  size : List UInt32
  child_length : child.length = childCells
  parent_length : parent.length = parentCells
  size_length : size.length = sizeCells

namespace Triplet

variable {childCells parentCells sizeCells : ℕ} (t : Triplet childCells parentCells sizeCells)

def childBase : ℕ := cellsValue t.child

def parentBase : ℕ := cellsValue t.parent

def length : ℕ := cellsValue t.size

def bytes : List UInt8 := cellBytes t.child ++ cellBytes t.parent ++ cellBytes t.size

/-- The window has the address. -/
def Has (a : ℕ) : Prop := t.childBase ≤ a ∧ a < t.childBase + t.length

instance (a : ℕ) : Decidable (t.Has a) := inferInstanceAs (Decidable (_ ∧ _))

/-- Neither end of the window wraps around. -/
def NoWrap : Prop := t.childBase + t.length < 2 ^ 64 ∧ t.parentBase + t.length < 2 ^ 64

theorem length_bytes : t.bytes.length = (childCells + parentCells + sizeCells) * 4 := by
  rw [bytes, List.length_append, List.length_append, length_cellBytes, length_cellBytes,
    length_cellBytes, t.child_length, t.parent_length, t.size_length]
  omega

end Triplet

/-- The map of a list of windows: the first one that has the address moves it. -/
def translateBy {childCells parentCells sizeCells : ℕ}
    (ts : List (Triplet childCells parentCells sizeCells)) (a : ℕ) : ℕ :=
  (ts.find? fun t => t.Has a).elim a fun t => t.parentBase + (a - t.childBase)

/-- The value of a `ranges` property: **triplets, and what is left over** when the length is
not a multiple of theirs. -/
structure Ranges where
  childCells : ℕ
  parentCells : ℕ
  sizeCells : ℕ
  cells_pos : 0 < childCells + parentCells + sizeCells
  cells_lt : childCells + parentCells + sizeCells < 2 ^ 30
  triplets : List (Triplet childCells parentCells sizeCells)
  rest : List UInt8
  rest_lt : rest.length < (childCells + parentCells + sizeCells) * 4
  noWrap : ∀ t ∈ triplets, t.NoWrap

namespace Ranges

def value (r : Ranges) : List UInt8 := r.triplets.flatMap Triplet.bytes ++ r.rest

/-- The map of the bus. -/
def translate (r : Ranges) (a : ℕ) : ℕ := translateBy r.triplets a

/-- The number of triplets is the quotient of the lengths. -/
theorem length_value_div (r : Ranges) :
    r.value.length / ((r.childCells + r.parentCells + r.sizeCells) * 4) = r.triplets.length := by
  have hlen : r.value.length =
      r.triplets.length * ((r.childCells + r.parentCells + r.sizeCells) * 4) + r.rest.length := by
    rw [value, List.length_append]
    congr 1
    induction r.triplets with
    | nil => simp
    | cons t ts ih =>
        rw [List.flatMap_cons, List.length_append, ih, t.length_bytes, List.length_cons,
          Nat.succ_mul]
        omega
  have hpos := r.cells_pos
  rw [hlen, Nat.mul_comm, Nat.mul_add_div (by omega), Nat.div_eq_of_lt r.rest_lt, Nat.add_zero]

end Ranges

/-- The map of a bus, which may have no windows. -/
def busMap : Option Ranges → ℕ → ℕ
  | none, a => a
  | some r, a => r.translate a

/-! ### The frames of the buses -/

/-- Property `i` of a frame is the first one with the given name. -/
structure FirstNamed (m : Mem) (f : NodeFrame) (name : List UInt8) (i : ℕ) : Prop where
  lt : i < f.nprops
  named : StrAt m (f.props i).name name
  first : ∀ j < i, ¬ StrAt m (f.props j).name name

/-- The frame of a bus and its `ranges`. Of the memory, only the names of its properties and
the bytes of that value are given. -/
inductive RangesAt (m : Mem) (f : NodeFrame) : Option Ranges → Prop
  | absent (h : ∀ i < f.nprops, ¬ StrAt m (f.props i).name (cstr "ranges")) : RangesAt m f none
  | empty (i : ℕ) (h : FirstNamed m f (cstr "ranges") i) (hlen : (f.props i).len = 0) :
      RangesAt m f none
  | given (i : ℕ) (r : Ranges) (h : FirstNamed m f (cstr "ranges") i)
      (hvalue : Holds m (f.props i).value r.value) (hlen : (f.props i).len = r.value.length)
      (hchild : f.ownCells.address = r.childCells)
      (hparent : f.parentCells.address = r.parentCells)
      (hsize : f.ownCells.size = r.sizeCells) : RangesAt m f (some r)

/-- The properties of a frame have names. -/
structure NamesAt (m : Mem) (f : NodeFrame) : Prop where
  nprops : f.nprops ≤ maxPropsPerNode
  named : ∀ i < f.nprops, ∃ s, StrAt m (f.props i).name s

/-- The buses from a frame up to the root, and their windows. -/
inductive Buses (m : Mem) (frames : ℕ → NodeFrame) : Option ℕ → List (Option Ranges) → Prop
  | root : Buses m frames none []
  | bus (i : ℕ) (r : Option Ranges) (rs : List (Option Ranges)) (hnames : NamesAt m (frames i))
      (hranges : RangesAt m (frames i) r) (hrest : Buses m frames (frames i).parent rs) :
      Buses m frames (some i) (r :: rs)

section Find

variable {m : Mem} {f : NodeFrame} {name : List UInt8}

/-- One turn of the search. -/
theorem findPropFrom_succ (h : NamesAt m f) (hname : (0 : UInt8) ∉ name) (left : ℕ) {i : ℕ}
    (hi : i < f.nprops) :
    (StrAt m (f.props i).name name ∧
      f.findPropFrom m name (left + 1) i = .ok (some (f.props i))) ∨
    (¬ StrAt m (f.props i).name name ∧
      f.findPropFrom m name (left + 1) i = f.findPropFrom m name left (i + 1)) := by
  obtain ⟨s, hs⟩ := h.named i hi
  obtain ⟨r, hr, hzero⟩ := strcmp_spec hs name hname
  have hprop : f.propAt i = .ok (f.props i) := by
    rw [NodeFrame.propAt, inBounds_of (lt_of_lt_of_le hi h.nprops)]
    rfl
  rw [NodeFrame.findPropFrom, hprop, ok_bind, hr, ok_bind]
  by_cases heq : s = name
  · exact .inl ⟨heq ▸ hs, by rw [if_pos (hzero.2 heq)]; rfl⟩
  · refine .inr ⟨fun hname' => heq (hs.unique hname'), ?_⟩
    rw [if_neg fun h0 => heq (hzero.1 h0)]

/-- The search goes over properties with other names. -/
theorem findPropFrom_skip (h : NamesAt m f) (hname : (0 : UInt8) ∉ name) (left : ℕ) {n i : ℕ}
    (hn : i + n ≤ f.nprops) (hother : ∀ j < i + n, i ≤ j → ¬ StrAt m (f.props j).name name) :
    f.findPropFrom m name (n + left) i = f.findPropFrom m name left (i + n) := by
  induction n generalizing i with
  | zero => simp
  | succ n ih =>
      rcases findPropFrom_succ h hname (n + left) (by omega : i < f.nprops) with
        ⟨hfound, -⟩ | ⟨-, hstep⟩
      · exact absurd hfound (hother i (by omega) le_rfl)
      · rw [show n + 1 + left = n + left + 1 by omega, hstep,
          ih (by omega) fun j hj hij => hother j (by omega) (by omega)]
        congr 1
        omega

/-- **`find_prop`** finds the first property with the name. -/
theorem findProp_of_first (h : NamesAt m f) (hname : (0 : UInt8) ∉ name) {i : ℕ}
    (hi : FirstNamed m f name i) : f.findProp m name = .ok (some (f.props i)) := by
  have hlt := hi.lt
  have hskip := findPropFrom_skip h hname (f.nprops - i) (by omega : 0 + i ≤ f.nprops)
    fun j hj _ => hi.first j (by omega)
  rw [show i + (f.nprops - i) = f.nprops by omega, Nat.zero_add] at hskip
  rw [NodeFrame.findProp, hskip, show f.nprops - i = f.nprops - i - 1 + 1 by omega]
  rcases findPropFrom_succ h hname (f.nprops - i - 1) hlt with ⟨-, hfound⟩ | ⟨hne, -⟩
  · exact hfound
  · exact absurd hi.named hne

theorem findProp_of_absent (h : NamesAt m f) (hname : (0 : UInt8) ∉ name)
    (habsent : ∀ i < f.nprops, ¬ StrAt m (f.props i).name name) :
    f.findProp m name = .ok none := by
  have hskip := findPropFrom_skip h hname 0 (by omega : 0 + f.nprops ≤ f.nprops)
    fun j hj _ => habsent j (by omega)
  rw [Nat.add_zero] at hskip
  rw [NodeFrame.findProp, hskip]
  rfl

end Find

/-! ### The triplet loop -/

/-- **The cursor of the triplet loop** stands at one triplet after the other, and the loop
is the map of the windows. -/
theorem translateTriplets_eq {m : Mem} {childCells parentCells sizeCells p a : ℕ}
    {ts : List (Triplet childCells parentCells sizeCells)} (hwrap : ∀ t ∈ ts, t.NoWrap)
    (h : Holds m p (ts.flatMap Triplet.bytes)) :
    translateTriplets m childCells parentCells sizeCells ts.length p a =
      .ok (translateBy ts a) := by
  induction ts generalizing p with
  | nil => rfl
  | cons t ts ih =>
      obtain ⟨hchildWrap, hparentWrap⟩ := hwrap t (by simp)
      rw [List.flatMap_cons, Triplet.bytes, List.append_assoc, List.append_assoc] at h
      obtain ⟨hchild, h⟩ := holds_append.1 h
      obtain ⟨hparent, h⟩ := holds_append.1 h
      obtain ⟨hsize, hrest⟩ := holds_append.1 h
      rw [length_cellBytes, t.child_length] at hparent hsize hrest
      rw [length_cellBytes, t.parent_length] at hsize hrest
      rw [length_cellBytes, t.size_length] at hrest
      have hreadChild := readCells_eq hchild
      have hreadParent := readCells_eq hparent
      have hreadSize := readCells_eq hsize
      rw [t.child_length] at hreadChild
      rw [t.parent_length] at hreadParent
      rw [t.size_length] at hreadSize
      have hmod : (cellsValue t.child + cellsValue t.size) % 2 ^ 64 = t.childBase + t.length :=
        Nat.mod_eq_of_lt hchildWrap
      simp only [List.length_cons, translateTriplets, hreadChild, hreadParent, hreadSize, ok_bind,
        hmod]
      by_cases hhas : t.Has a
      · have hcond : cellsValue t.child ≤ a ∧ a < t.childBase + t.length := hhas
        have hlt : cellsValue t.parent + (a - cellsValue t.child) < 2 ^ 64 := by
          have hin : t.childBase ≤ a ∧ a < t.childBase + t.length := hhas
          have hend : t.parentBase + (a - t.childBase) < 2 ^ 64 := by omega
          exact hend
        rw [if_pos hcond, Nat.mod_eq_of_lt hlt, translateBy,
          List.find?_cons_of_pos (by simp [hhas])]
        rfl
      · have hcond : ¬ (cellsValue t.child ≤ a ∧ a < t.childBase + t.length) := hhas
        rw [if_neg hcond, ih (fun t' ht' => hwrap t' (by simp [ht'])) hrest, translateBy,
          translateBy, List.find?_cons_of_neg (by simp [hhas])]

/-- **One bus**: search and loop together are its map. -/
theorem translateBus_eq {m : Mem} {f : NodeFrame} {r : Option Ranges} (hnames : NamesAt m f)
    (h : RangesAt m f r) (a : ℕ) :
    ∃ ranges, f.findProp m (cstr "ranges") = .ok ranges ∧
      translateRanges m f ranges a = .ok (busMap r a) := by
  have hlit : (0 : UInt8) ∉ cstr "ranges" := by decide
  cases h with
  | absent habsent => exact ⟨none, findProp_of_absent hnames hlit habsent, rfl⟩
  | empty i hi hlen =>
      refine ⟨_, findProp_of_first hnames hlit hi, ?_⟩
      simp only [translateRanges, hlen, if_true]
      rfl
  | given i r hi hvalue hlen hchild hparent hsize =>
      refine ⟨_, findProp_of_first hnames hlit hi, ?_⟩
      have hpos := r.cells_pos
      have hlt := r.cells_lt
      simp only [translateRanges, hchild, hparent, hsize]
      split
      · -- a value without bytes has no triplets
        rename_i hzero
        have hnil : r.triplets = [] := by
          rw [← List.length_eq_zero_iff, ← r.length_value_div, ← hlen, hzero, Nat.zero_div]
        simp [busMap, Ranges.translate, translateBy, hnil]
      · rw [Nat.mod_eq_of_lt (by omega), Nat.mod_eq_of_lt (by omega), udiv_of (by omega), ok_bind,
          hlen, r.length_value_div]
        exact translateTriplets_eq r.noWrap (holds_append.1 hvalue).1

/-- **`translate_address` composes the maps of the buses**, from the node's parent to the
root, for all windows and cell counts. It completes although nothing is known to be readable
but the names of the buses' properties and the bytes of their `ranges`, so it reads no other
byte; a triplet that is cut short is not read. -/
theorem translateAddress_composes {m : Mem} {frames : ℕ → NodeFrame} {node address fuel : ℕ}
    {rs : List (Option Ranges)} (h : Buses m frames (frames node).parent rs)
    (hfuel : rs.length ≤ fuel) :
    translateAddress m frames fuel node address =
      .ok (rs.foldl (fun a r => busMap r a) address) := by
  rw [translateAddress]
  generalize (frames node).parent = bus at h
  induction h generalizing fuel address with
  | root =>
      cases fuel <;> rfl
  | bus i r rs hnames hranges _ ih =>
      obtain ⟨fuel, rfl⟩ : ∃ n, fuel = n + 1 := ⟨fuel - 1, by rw [List.length_cons] at hfuel; omega⟩
      obtain ⟨ranges, hfind, hmap⟩ := translateBus_eq hnames hranges address
      rw [translateFrom, hfind, ok_bind, hmap, ok_bind, ih (by simpa using hfuel)]
      rfl

/-- A window of a bus with three address cells, as PCI has them, and a byte left over. -/
def pciRanges : Ranges where
  childCells := 3
  parentCells := 2
  sizeCells := 2
  cells_pos := by omega
  cells_lt := by omega
  triplets := [⟨[0x02000000, 0, 0x10000000], [0, 0x40000000], [0, 0x1000], rfl, rfl, rfl⟩]
  rest := [0]
  rest_lt := by simp
  noWrap := by
    intro t ht
    rw [List.mem_singleton.1 ht]
    exact ⟨by decide, by decide⟩

/-- The name `ranges` and this value. -/
def pciMem : Mem := Mem.ofBytes 64 (cstr "ranges" ++ [0] ++ pciRanges.value)

/-- A root, the bus below it and a device on the bus. -/
def pciFrames : ℕ → NodeFrame
  | 0 => { name := nullptr, nprops := 0, props := fun _ => ⟨nullptr, nullptr, 0⟩ }
  | 1 => { name := nullptr, nprops := 1, props := fun _ => ⟨64, 71, 29⟩, parent := some 0,
           ownCells := ⟨3, 2, 0⟩, parentCells := ⟨2, 1, 0⟩ }
  | _ => { name := nullptr, nprops := 0, props := fun _ => ⟨nullptr, nullptr, 0⟩,
           parent := some 1 }

/-- An address on the bus is moved by its window; the root has none. -/
theorem translateAddress_composes_pci :
    translateAddress pciMem pciFrames maxNodeDepth 2 0x10000234 = .ok 0x40000234 := by
  obtain ⟨hname, hvalue⟩ :=
    holds_append.1 (holds_ofBytes 64 (cstr "ranges" ++ [0] ++ pciRanges.value))
  have hstr : StrAt pciMem 64 (cstr "ranges") := ⟨hname, by decide⟩
  have hbuses : Buses pciMem pciFrames (pciFrames 2).parent [some pciRanges, none] := by
    refine .bus 1 _ _ ⟨Nat.le_of_ble_eq_true rfl, fun i _ => ⟨_, hstr⟩⟩ ?_ ?_
    · exact .given 0 pciRanges ⟨Nat.zero_lt_one, hstr, fun j hj => absurd hj (Nat.not_lt_zero j)⟩
        hvalue rfl rfl rfl rfl
    · refine .bus 0 _ _ ⟨Nat.zero_le _, fun i hi => absurd hi (Nat.not_lt_zero i)⟩ ?_ .root
      exact .absent fun i hi => absurd hi (Nat.not_lt_zero i)
  rw [translateAddress_composes hbuses (by decide)]
  rfl

end Floss
