import Floss.NodeHistory

/-!
# The Frame Stack Simulates the Tree

The second pass walks a token stream with a stack of reused frames; the tree has nodes,
ancestors and earlier nodes. This module relates the two at every token.

* `Left fit m f seen`: the frame `f` holds what the nodes `seen` of its depth left there.
* `Live fit m f o anc`: moreover, `f` is the frame of the open node `o` inside `anc`.
* `Chain fit m frames anc`: every open node has its live frame, at its own depth.
* `Sim fit m anc hist pf`: the frames in use are a chain, all deeper ones hold what the nodes
  at their depth left.

The cells of a frame are those of the tree for the names in `fit`, whose properties must be
as long as a cell. A shorter one still reads as some cell, so the pass goes on.

Each kind of token has one lemma that takes the relation across it
(`fullBeginNode_sim`, `fullProp_live`, `callsStep_endNode`), and `Forest.walk_rule` does
the induction over the tree. The result is `parseFramesCalls_flattened`: on every
flattened tree within the limits the second pass completes, and the calls it makes at
each token are those that `TokenCalls` allows.
-/

namespace Floss

/-- A remembered slot as the frame stores it. -/
def storedIdx : Option ℕ → ℤ
  | none => -1
  | some i => i

/-- The frame holds what the nodes `seen` of its depth left there. -/
structure Left (fit : List UInt8 → Prop) (m : Mem) (f : NodeFrame) (seen : List Node) :
    Prop where
  idx : ∀ k, f.idx k = storedIdx (leftIdx k.propName seen)
  slot : ∀ i p, leftSlot i seen = some p → PropInBlock m (f.props i) p
  address : fit addressCells → f.ownCells.address = leftCell addressCells 2 seen
  size : fit sizeCells → f.ownCells.size = leftCell sizeCells 1 seen
  bound : ∀ n ∈ seen, n.kept.length < maxPropsPerNode

/-- The cell count in force in the parent. -/
def parentCell (name : List UInt8) (dflt : ℕ) : List (Open Node) → ℕ
  | [] => dflt
  | a :: _ => leftCell name dflt (a.node :: a.earlier)

/-- The slot of the parent's frame. -/
def parentSlot : List (Open Node) → Option ℕ
  | [] => none
  | _ :: anc => some anc.length

/-- The frame belongs to the open node `o` inside the open nodes `anc`. -/
structure Live (fit : List UInt8 → Prop) (m : Mem) (f : NodeFrame) (o : Open Node)
    (anc : List (Open Node)) : Prop extends Left fit m f (o.node :: o.earlier) where
  name : StrAt m f.name o.node.name
  named : f.name ≠ nullptr
  nprops : f.nprops = o.node.kept.length
  parentAddress : fit addressCells → f.parentCells.address = parentCell addressCells 2 anc
  parentSize : fit sizeCells → f.parentCells.size = parentCell sizeCells 1 anc
  interrupt : fit interruptParentName → f.ownCells.interruptParent = interruptParent (o :: anc)
  parent : f.parent = parentSlot anc

/-- Every open node has its live frame, at its depth. -/
def Chain (fit : List UInt8 → Prop) (m : Mem) (frames : ℕ → NodeFrame) :
    List (Open Node) → Prop
  | [] => True
  | o :: anc => Live fit m (frames anc.length) o anc ∧ Chain fit m frames anc

/-- The frame stack, between two tokens. -/
structure Sim (fit : List UInt8 → Prop) (m : Mem) (anc : List (Open Node))
    (hist : ℕ → List Node) (pf : ParsingFrame) : Prop where
  top : pf.top + 1 = anc.length
  depth : anc.length ≤ maxNodeDepth
  chain : Chain fit m pf.nodeFrame anc
  below : ∀ d, Left fit m (pf.nodeFrame (anc.length + d)) (hist d)

/-- A chain looks only at the frames of its own depths. -/
theorem Chain.congr {fit : List UInt8 → Prop} {m : Mem} {frames frames' : ℕ → NodeFrame}
    {anc : List (Open Node)} (h : Chain fit m frames anc)
    (heq : ∀ k, k < anc.length → frames' k = frames k) :
    Chain fit m frames' anc := by
  induction anc with
  | nil => trivial
  | cons o anc ih =>
      refine ⟨?_, ih h.2 fun k hk => heq k (by simp; omega)⟩
      rw [heq anc.length (by simp)]
      exact h.1

/-! ### Strings and cells -/

/-- A branch on `strcmp` is a branch on equality. -/
theorem strcmp_branch {α : Type} {m : Mem} {a : ℕ} {s lit : List UInt8} (hs : StrAt m a s)
    (hlit : (0 : UInt8) ∉ lit) (A B : Exec α) :
    (strcmp m a lit >>= fun r => if r = 0 then A else B) = if s = lit then A else B := by
  obtain ⟨r, hr, hiff⟩ := strcmp_spec hs lit hlit
  rw [hr, ok_bind]
  by_cases h : s = lit
  · rw [if_pos h, if_pos (hiff.mpr h)]
  · rw [if_neg h, if_neg fun hr0 => h (hiff.mp hr0)]

/-- The code's test for ignored nodes is that of the tree. -/
theorem isIgnoredNode_eq {m : Mem} {a : ℕ} {n : Node} (hs : StrAt m a n.name)
    (ha : a ≠ nullptr) : isIgnoredNode m a = .ok n.ignored := by
  have hund : startsWithUnderscores m a = .ok ((cstr "__").isPrefixOf n.name) := by
    have hcstr : cstr "__" = [95, 95] := by decide
    rw [hcstr]
    cases hn : n.name with
    | nil =>
        rw [hn] at hs
        have h0 : m.load a = .ok 0 := Mem.load_eq_ok.mpr (strAt_nil.mp hs)
        simp [startsWithUnderscores, h0]
    | cons c s =>
        rw [hn] at hs
        obtain ⟨hc, -, hs⟩ := strAt_cons.mp hs
        have hload : m.load a = .ok c := Mem.load_eq_ok.mpr hc
        by_cases h95 : c = 95
        · cases s with
          | nil =>
              have h0 : m.load (a + 1) = .ok 0 := Mem.load_eq_ok.mpr (strAt_nil.mp hs)
              simp [startsWithUnderscores, hload, h95, h0]
          | cons d s =>
              obtain ⟨hd, -, -⟩ := strAt_cons.mp hs
              have hload' : m.load (a + 1) = .ok d := Mem.load_eq_ok.mpr hd
              simp only [startsWithUnderscores, hload, h95, hload', ok_bind, if_true, pure_eq_ok,
                List.isPrefixOf]
              by_cases hd95 : d = 95
              · simp [hd95]
              · simp [hd95, Ne.symm hd95]
        · simp [startsWithUnderscores, hload, h95, List.isPrefixOf, Ne.symm h95]
  obtain ⟨r, hr, hiff⟩ := strcmp_spec hs (cstr "aliases") (by decide)
  rw [isIgnoredNode]
  rw [if_neg ha, hund]
  simp only [ok_bind, hr, pure_eq_ok, Node.ignored]
  cases hp : (cstr "__").isPrefixOf n.name
  · by_cases hal : n.name = cstr "aliases"
    · simp [hal, hiff.mpr hal]
    · have : r ≠ 0 := fun h => hal (hiff.mp h)
      simp [hal, this]
  · simp

/-- A cell property reads as its first cell. -/
theorem be32_u32 {m : Mem} {a : ℕ} {p : Property} (h : Holds m a p.value)
    (hlen : 4 ≤ p.value.length) : be32 m a = .ok p.u32 := by
  rw [Property.u32]
  rcases hv : p.value with _ | ⟨b0, _ | ⟨b1, _ | ⟨b2, _ | ⟨b3, rest⟩⟩⟩⟩
  · simp [hv] at hlen
  · simp [hv] at hlen
  · simp [hv] at hlen
  · simp [hv] at hlen
  · rw [hv] at h
    obtain ⟨h0, h1, h2, h3, -⟩ := h
    exact be32_eq_ok.mpr ⟨b0, b1, b2, b3, h0, h1, h2, h3, rfl⟩

/-! ### A property -/

section Add

variable {n : Node} {older : List Node} {p : Property}

/-- A property that is not stored changes no slot. -/
theorem leftIdx_add_of_skipped (h : n.ignored = true ∨ p.name ∈ cellNames) (nm : List UInt8) :
    leftIdx nm (n.add p :: older) = leftIdx nm (n :: older) := by
  simp [leftIdx, kept_add_of_skipped h]

theorem leftSlot_add_of_skipped (h : n.ignored = true ∨ p.name ∈ cellNames) (i : ℕ) :
    leftSlot i (n.add p :: older) = leftSlot i (n :: older) := by
  simp [leftSlot, kept_add_of_skipped h]

/-- A stored property takes the next slot, which is remembered for its name. -/
theorem leftIdx_add_of_stored (h : n.ignored = false) (hp : p.name ∉ cellNames)
    (nm : List UInt8) :
    leftIdx nm (n.add p :: older) =
      if p.name = nm then some n.kept.length else leftIdx nm (n :: older) := by
  simp only [leftIdx, kept_add_of_stored h hp, lastIdx_append, Nat.zero_add]
  by_cases hnm : p.name = nm <;> simp [hnm]

theorem leftSlot_add_of_stored (h : n.ignored = false) (hp : p.name ∉ cellNames) (i : ℕ) :
    leftSlot i (n.add p :: older) =
      if i = n.kept.length then some p else leftSlot i (n :: older) := by
  simp only [leftSlot, kept_add_of_stored h hp]
  rcases lt_trichotomy i n.kept.length with hlt | rfl | hgt
  · rw [List.getElem?_append_left hlt, if_neg (by omega)]
  · simp
  · rw [if_neg (by omega), List.getElem?_eq_none (by simp; omega),
      List.getElem?_eq_none (by omega)]

/-- The cell counts in force after one more property. -/
theorem leftCell_add (c : List UInt8) (dflt : ℕ) :
    leftCell c dflt (n.add p :: older) =
      if n.ignored = false ∧ p.name = c then p.u32 else leftCell c dflt (n :: older) := by
  simp only [leftCell, setCell?_add]
  split_ifs <;> rfl

theorem interruptParent_add {h : List Node} {anc : List (Open Node)} :
    interruptParent (⟨n.add p, h⟩ :: anc) =
      if n.ignored = false ∧ p.name = interruptParentName then p.u32
      else interruptParent (⟨n, h⟩ :: anc) := by
  simp only [interruptParent, setCell?_add]
  split_ifs <;> rfl

end Add

section Property

variable {fit : List UInt8 → Prop} {m : Mem} {f : NodeFrame} {o : Open Node}
  {anc : List (Open Node)} {p : Property}

/-- A live frame stays live across a property that is not stored, if the cells it carries
are brought up to date. -/
theorem Live.skip (h : Live fit m f o anc) (hskip : o.node.ignored = true ∨ p.name ∈ cellNames)
    {cells : NodeCells}
    (haddress : fit addressCells →
      cells.address = leftCell addressCells 2 (o.node.add p :: o.earlier))
    (hsize : fit sizeCells → cells.size = leftCell sizeCells 1 (o.node.add p :: o.earlier))
    (hinterrupt : fit interruptParentName → cells.interruptParent =
      interruptParent (⟨o.node.add p, o.earlier⟩ :: anc)) :
    Live fit m { f with ownCells := cells } ⟨o.node.add p, o.earlier⟩ anc where
  idx k := by
    rw [leftIdx_add_of_skipped hskip, ← h.idx k]
    cases k <;> rfl
  slot i q hq := h.slot i q (by rwa [leftSlot_add_of_skipped hskip] at hq)
  address := haddress
  size := hsize
  bound n' hn' := by
    rcases List.mem_cons.mp hn' with rfl | hn'
    · rw [kept_add_of_skipped hskip]
      exact h.bound _ (by simp)
    · exact h.bound n' (by simp [hn'])
  name := h.name
  named := h.named
  nprops := by rw [kept_add_of_skipped hskip, h.nprops]
  parentAddress := h.parentAddress
  parentSize := h.parentSize
  interrupt := hinterrupt
  parent := h.parent

/-- A live frame stays live when the next slot takes a property. -/
theorem Live.store (h : Live fit m f o anc) (hi : o.node.ignored = false)
    (hp : p.name ∉ cellNames) (hroom : (o.node.add p).kept.length < maxPropsPerNode)
    {pr : PropFrame} (hpr : PropInBlock m pr p) {f' : NodeFrame}
    (hidx : ∀ k, f'.idx k = if p.name = k.propName then (f.nprops : ℤ) else f.idx k)
    (hf' : f' = { f with
      nprops := f.nprops + 1
      props := Function.update f.props f.nprops pr
      compatiblePropIdx := f'.compatiblePropIdx
      deviceTypePropIdx := f'.deviceTypePropIdx }) :
    Live fit m f' ⟨o.node.add p, o.earlier⟩ anc where
  idx k := by
    rw [hidx, leftIdx_add_of_stored hi hp]
    by_cases hk : p.name = k.propName
    · simp [hk, storedIdx, h.nprops]
    · simp [hk, h.idx k]
  slot i q hq := by
    rw [leftSlot_add_of_stored hi hp] at hq
    rw [hf']
    by_cases hin : i = o.node.kept.length
    · obtain rfl : p = q := by simpa [hin] using hq
      simpa [hin, h.nprops] using hpr
    · rw [if_neg hin] at hq
      simpa [h.nprops, hin] using h.slot i q hq
  address hfit := by
    rw [leftCell_add, if_neg fun hc => hp (by simp [cellNames, hc.2]), hf']
    exact h.address hfit
  size hfit := by
    rw [leftCell_add, if_neg fun hc => hp (by simp [cellNames, hc.2]), hf']
    exact h.size hfit
  bound n' hn' := by
    rcases List.mem_cons.mp hn' with rfl | hn'
    · exact hroom
    · exact h.bound n' (by simp [hn'])
  name := by rw [hf']; exact h.name
  named := by rw [hf']; exact h.named
  nprops := by rw [hf']; simp [kept_add_of_stored hi hp, h.nprops]
  parentAddress := by rw [hf']; exact h.parentAddress
  parentSize := by rw [hf']; exact h.parentSize
  interrupt hfit := by
    rw [interruptParent_add, if_neg fun hc => hp (by simp [cellNames, hc.2]), hf']
    exact h.interrupt hfit
  parent := by rw [hf']; exact h.parent

/-- The slot of a property that handlers are matched with is remembered, and nothing else
changes. -/
theorem trackProp_eq {dtp : Parser} (hname : StrAt m dtp.propName p.name) :
    ∃ f', trackProp m f dtp = .ok f' ∧
      (∀ k, f'.idx k = if p.name = k.propName then (f.nprops : ℤ) else f.idx k) ∧
      f' = { f with
        compatiblePropIdx := f'.compatiblePropIdx
        deviceTypePropIdx := f'.deviceTypePropIdx } := by
  have hne : cstr "compatible" ≠ cstr "device_type" := by decide
  rw [trackProp]
  rw [strcmp_branch hname (by decide), strcmp_branch hname (by decide)]
  by_cases hc : p.name = cstr "compatible"
  · refine ⟨_, if_pos hc, fun k => ?_, rfl⟩
    cases k <;> simp [NodeFrame.idx, MatchKind.propName, hc, hne]
  · rw [if_neg hc]
    by_cases hd : p.name = cstr "device_type"
    · refine ⟨_, if_pos hd, fun k => ?_, rfl⟩
      cases k <;> simp [NodeFrame.idx, MatchKind.propName, hd, hne.symm]
    · refine ⟨_, if_neg hd, fun k => ?_, rfl⟩
      cases k <;> simp [NodeFrame.idx, MatchKind.propName, hc, hd]

/-- Storing a property of the tree in the current frame. -/
theorem fullStoreProp_live {frames : ℕ → NodeFrame} {dtp : Parser}
    (hdepth : anc.length < maxNodeDepth) (h : Live fit m f o anc)
    (hread : (Item.prop p).ReadBy m dtp) (hi : o.node.ignored = false)
    (hp : p.name ∉ cellNames) (hroom : (o.node.add p).kept.length < maxPropsPerNode) :
    ∃ f', fullStoreProp m ⟨frames, anc.length⟩ f dtp =
        .ok ⟨Function.update frames anc.length f', anc.length⟩ ∧
      Live fit m f' ⟨o.node.add p, o.earlier⟩ anc := by
  obtain ⟨⟨htok, hname, hvalue, hlen⟩, -, hafter⟩ := hread
  have hpr : PropInBlock m ⟨dtp.propName, dtp.propValue, dtp.propLen⟩ p :=
    ⟨⟨hname, hvalue, hlen⟩, hafter htok⟩
  have hn : f.nprops + 1 < maxPropsPerNode := by
    rw [kept_add_of_stored hi hp] at hroom
    simpa [h.nprops] using hroom
  have hslot : f.nprops < maxPropsPerNode := by omega
  obtain ⟨f₁, htrack, hidx, hf₁⟩ := trackProp_eq (f := { f with
    props := Function.update f.props f.nprops
      ⟨dtp.propName, dtp.propValue, dtp.propLen⟩ }) hname
  have hn₁ : f₁.nprops = f.nprops := by rw [hf₁]
  refine ⟨{ f₁ with nprops := f₁.nprops + 1 }, ?_,
    h.store hi hp hroom hpr (fun k => ?_) ?_⟩
  · simp only [fullStoreProp, NodeFrame.storeProp, inBounds_of hslot, ok_bind, pure_eq_ok,
      htrack, ParsingFrame.setCurrent, inBounds_of hdepth, hn₁, kassert_of hn]
  · have := hidx k
    cases k <;> exact this
  · rw [hn₁, hf₁]

/-- The word that is read for a property is its first cell, if it is that long. -/
theorem be32_of_readBy {dtp : Parser} (hread : (Item.prop p).ReadBy m dtp)
    (hfit : fit p.name → 4 ≤ p.value.length) :
    ∃ v, be32 m dtp.propValue = .ok v ∧ (fit p.name → v = p.u32) := by
  obtain ⟨⟨htok, -, hvalue, -⟩, -, -, hword⟩ := hread
  obtain ⟨v, hv⟩ := hword htok
  refine ⟨v, hv, fun hname => ?_⟩
  rw [be32_u32 hvalue (hfit hname)] at hv
  exact (Except.ok.inj hv).symm

/-- **A property token** takes the frame of a node to the frame of the node with one more
property. -/
theorem fullProp_live {frames : ℕ → NodeFrame} {dtp : Parser}
    (hdepth : anc.length < maxNodeDepth) (h : Live fit m (frames anc.length) o anc)
    (hread : (Item.prop p).ReadBy m dtp)
    (hcell : o.node.ignored = false → fit p.name → 4 ≤ p.value.length)
    (hroom : (o.node.add p).kept.length < maxPropsPerNode) :
    ∃ f', fullProp m ⟨frames, anc.length⟩ dtp =
        .ok ⟨Function.update frames anc.length f', anc.length⟩ ∧
      Live fit m f' ⟨o.node.add p, o.earlier⟩ anc := by
  obtain ⟨-, hname, -, -⟩ := hread.shown
  rw [fullProp]
  simp only [ParsingFrame.current, ParsingFrame.setCurrent, inBounds_of hdepth, ok_bind,
    pure_eq_ok, isIgnoredNode_eq h.name h.named]
  cases hi : o.node.ignored with
  | true =>
      refine ⟨frames anc.length, by simp, h.skip (.inl hi) (fun hfit => ?_) (fun hfit => ?_)
        fun hfit => ?_⟩
      · rw [leftCell_add, hi, h.address hfit]
        simp
      · rw [leftCell_add, hi, h.size hfit]
        simp
      · rw [interruptParent_add, hi, h.interrupt hfit]
        simp
  | false =>
      obtain ⟨v, hv, hu32⟩ := be32_of_readBy hread (hcell hi)
      -- a property of another name leaves a cell as it is
      have haddress : p.name ≠ addressCells → fit addressCells →
          (frames anc.length).ownCells.address =
            leftCell addressCells 2 (o.node.add p :: o.earlier) := fun hne hfit => by
        rw [leftCell_add, if_neg fun hc => hne hc.2, h.address hfit]
      have hsize : p.name ≠ sizeCells → fit sizeCells → (frames anc.length).ownCells.size =
            leftCell sizeCells 1 (o.node.add p :: o.earlier) := fun hne hfit => by
        rw [leftCell_add, if_neg fun hc => hne hc.2, h.size hfit]
      have hinterrupt : p.name ≠ interruptParentName → fit interruptParentName →
          (frames anc.length).ownCells.interruptParent =
            interruptParent (⟨o.node.add p, o.earlier⟩ :: anc) := fun hne hfit => by
        rw [interruptParent_add, if_neg fun hc => hne hc.2, h.interrupt hfit]
      simp only [Bool.false_eq_true, if_false]
      rw [strcmp_branch hname (by decide), strcmp_branch hname (by decide),
        strcmp_branch hname (by decide), hv]
      split_ifs with ha hs hint
      · have hmem : p.name ∈ cellNames := by simp [ha, cellNames, addressCells]
        refine ⟨_, rfl, h.skip (.inr hmem) (fun hfit => ?_)
          (hsize (by rw [ha]; decide)) (hinterrupt (by rw [ha]; decide))⟩
        simp [leftCell_add, hi, ha, addressCells, hu32 (ha ▸ hfit)]
      · have hmem : p.name ∈ cellNames := by simp [hs, cellNames, sizeCells]
        refine ⟨_, rfl, h.skip (.inr hmem) (haddress ha) (fun hfit => ?_)
          (hinterrupt (by rw [hs]; decide))⟩
        simp [leftCell_add, hi, hs, sizeCells, hu32 (hs ▸ hfit)]
      · have hmem : p.name ∈ cellNames := by simp [hint, cellNames, interruptParentName]
        refine ⟨_, rfl, h.skip (.inr hmem) (haddress ha) (hsize hs) (fun hfit => ?_)⟩
        simp [interruptParent_add, hi, hint, interruptParentName, hu32 (hint ▸ hfit)]
      · have hmem : p.name ∉ cellNames := by
          simp only [cellNames, addressCells, sizeCells, interruptParentName, List.mem_cons,
            List.not_mem_nil, or_false, not_or]
          exact ⟨ha, hs, hint⟩
        exact fullStoreProp_live hdepth h hread hi hmem hroom

end Property

/-! ### Whole nodes -/

section Node

variable {fit : List UInt8 → Prop} {m : Mem} {frames : ℕ → NodeFrame} {anc : List (Open Node)}

/-- A turn that only changes the frames makes no call. -/
theorem callsStep_prop {pf pf' : ParsingFrame} {dtp : Parser} (htok : dtp.current = .prop)
    (h : fullProp m pf dtp = .ok pf') : callsStep m pf dtp = .ok ([], pf') := by
  simp [callsStep, fullStep, htok, h]

theorem callsStep_beginNode {pf pf' : ParsingFrame} {dtp : Parser}
    (htok : dtp.current = .beginNode) (h : fullBeginNode m pf dtp = .ok pf') :
    callsStep m pf dtp = .ok ([], pf') := by
  simp [callsStep, fullStep, htok, h]

/-- The limits a node at depth `d` has to keep: only the root has an empty name, the frame
stack is deep enough, the property slots suffice, and cell properties are as long as a
cell. -/
structure Node.Within (d : ℕ) (n : Node) : Prop where
  root : n.name = [] ↔ d = 0
  depth : d < maxNodeDepth
  room : n.kept.length < maxPropsPerNode
  cells : ∀ p ∈ n.props, p.name ∈ cellNames → 4 ≤ p.value.length

instance (d : ℕ) (n : Node) : Decidable (n.Within d) :=
  decidable_of_iff ((n.name = [] ↔ d = 0) ∧ d < maxNodeDepth ∧
      n.kept.length < maxPropsPerNode ∧ ∀ p ∈ n.props, p.name ∈ cellNames → 4 ≤ p.value.length)
    ⟨fun ⟨h1, h2, h3, h4⟩ => ⟨h1, h2, h3, h4⟩, fun ⟨h1, h2, h3, h4⟩ => ⟨h1, h2, h3, h4⟩⟩

/-- The same limits, where only the properties with a name in `fit` are as long as a cell;
those of ignored nodes are not read. -/
structure Node.WithinFor (fit : List UInt8 → Prop) (d : ℕ) (n : Node) : Prop where
  root : n.name = [] ↔ d = 0
  depth : d < maxNodeDepth
  room : n.kept.length < maxPropsPerNode
  cells : n.ignored = false → ∀ p ∈ n.props, fit p.name → 4 ≤ p.value.length

theorem Node.Within.withinFor {d : ℕ} {n : Node} (h : n.Within d) :
    n.WithinFor (· ∈ cellNames) d :=
  ⟨h.root, h.depth, h.room, fun _ => h.cells⟩

/-- Properties only ever fill up slots. -/
theorem kept_length_mono (name : List UInt8) (ps qs : List Property) :
    (⟨name, ps⟩ : Node).kept.length ≤ (⟨name, ps ++ qs⟩ : Node).kept.length := by
  have hi : (⟨name, ps ++ qs⟩ : Node).ignored = (⟨name, ps⟩ : Node).ignored := rfl
  rw [Node.kept, Node.kept]
  rw [hi]
  split
  · exact le_rfl
  · simp

/-- **The properties of a node**, one after the other, in either pass. If each of them takes
the frame of the node read so far to that of the node with one more property, then all of
them lead to the frame of the whole node `n`. The induction is on the properties still to
come. -/
theorem run_props_rule {β : Type} {step : ParsingFrame → Parser → Exec (List β × ParsingFrame)}
    {d : ℕ} {F : NodeFrame → Node → Prop} {n : Node}
    (hstep : ∀ {frames : ℕ → NodeFrame} {done rest : List Property} {p : Property} {k : Parser},
      n.props = done ++ p :: rest → F (frames d) ⟨n.name, done⟩ → (Item.prop p).ReadBy m k →
      ∃ f', step ⟨frames, d⟩ k = .ok ([], ⟨Function.update frames d f', d⟩) ∧
        F f' (Node.add ⟨n.name, done⟩ p))
    {done ps : List Property} {ks : List Parser} (hn : n.props = done ++ ps)
    (hF : F (frames d) ⟨n.name, done⟩)
    (hks : List.Forall₂ (Item.ReadBy m) (ps.map .prop) ks) :
    ∃ f', runOut step ks ⟨frames, d⟩ =
        .ok (ps.map fun _ => [], ⟨Function.update frames d f', d⟩) ∧ F f' n := by
  induction ps generalizing done frames ks with
  | nil =>
      obtain rfl : ks = [] := by simpa using hks
      obtain rfl : done = n.props := by simpa using hn.symm
      exact ⟨frames d, by simp [runOut], hF⟩
  | cons p ps ih =>
      obtain ⟨k, ks, hk, hks', rfl⟩ := List.forall₂_cons_left_iff.mp hks
      obtain ⟨f₁, hstep₁, hF₁⟩ := hstep hn hF hk
      have hF₂ : F (Function.update frames d f₁ d) ⟨n.name, done ++ [p]⟩ := by
        rwa [Function.update_self]
      obtain ⟨f', hrun, hF'⟩ := ih (by simp [hn]) hF₂ hks'
      rw [Function.update_idem] at hrun
      exact ⟨f', runOut_cons_of hstep₁ hrun, hF'⟩

/-- The properties of a node in the second pass. -/
theorem run_props {n : Node} {h : List Node} {ks : List Parser}
    (hlive : Live fit m (frames anc.length) ⟨⟨n.name, []⟩, h⟩ anc)
    (hn : n.WithinFor fit anc.length)
    (hks : List.Forall₂ (Item.ReadBy m) (n.props.map .prop) ks) :
    ∃ f', runOut (callsStep m) ks ⟨frames, anc.length⟩ =
        .ok (n.props.map fun _ => [], ⟨Function.update frames anc.length f', anc.length⟩) ∧
      Live fit m f' ⟨n, h⟩ anc := by
  refine run_props_rule (F := fun f n => Live fit m f ⟨n, h⟩ anc) ?_ (List.nil_append _).symm
    hlive hks
  intro frames done rest p k hprops hdone hk
  have hroom : (Node.add ⟨n.name, done⟩ p).kept.length < maxPropsPerNode := by
    have hmono := kept_length_mono n.name (done ++ [p]) rest
    rw [List.append_assoc, List.singleton_append, ← hprops] at hmono
    exact lt_of_le_of_lt hmono hn.room
  obtain ⟨f', hstep, hlive'⟩ := fullProp_live hn.depth hdone hk
    (fun hi => hn.cells hi p (by simp [hprops])) hroom
  exact ⟨f', callsStep_prop hk.shown.1 hstep, hlive'⟩

/-- A node that begins inside another gets the next frame. -/
theorem fullBeginNode_live {name : List UInt8} {dtp : Parser} {a : Open Node} {older : List Node}
    (hdepth : anc.length + 1 < maxNodeDepth) (hne : name ≠ [])
    (hparent : Live fit m (frames anc.length) a anc)
    (hleft : Left fit m (frames (anc.length + 1)) older)
    (hread : (Item.beginNode name).ReadBy m dtp) :
    ∃ f', fullBeginNode m ⟨frames, anc.length⟩ dtp =
        .ok ⟨Function.update frames (anc.length + 1) f', anc.length + 1⟩ ∧
      Live fit m f' ⟨⟨name, []⟩, older⟩ (a :: anc) := by
  obtain ⟨⟨htok, hname⟩, hnamed, -⟩ := hread
  obtain ⟨r, hr, hiff⟩ := strcmp_spec hname (cstr "") (by decide)
  have hr0 : r ≠ 0 := fun h => hne (by simpa [cstr] using hiff.mp h)
  have hlt : anc.length < maxNodeDepth := by omega
  refine ⟨{ frames (anc.length + 1) with
    name := dtp.nodeName
    nprops := 0
    parentCells := (frames anc.length).ownCells
    parent := some anc.length
    ownCells := { (frames (anc.length + 1)).ownCells with
      interruptParent := (frames anc.length).ownCells.interruptParent } }, ?_, ?_⟩
  · simp [fullBeginNode, hr, hr0, fullEnter, ParsingFrame.current, ParsingFrame.push,
      ParsingFrame.setCurrent, inBounds_of hlt, inBounds_of hdepth, kassert_of hdepth]
  · constructor
    · constructor
      · intro k
        rw [leftIdx_empty, ← hleft.idx k]
        cases k <;> rfl
      · intro i p hp
        exact hleft.slot i p (by simpa using hp)
      · intro hfit
        rw [leftCell_empty, ← hleft.address hfit]
      · intro hfit
        rw [leftCell_empty, ← hleft.size hfit]
      · intro n hn
        rcases List.mem_cons.mp hn with rfl | hn
        · simp [maxPropsPerNode]
        · exact hleft.bound n hn
    · exact hname
    · exact hnamed htok
    · simp
    · exact hparent.address
    · exact hparent.size
    · intro hfit
      simpa [interruptParent] using hparent.interrupt hfit
    · rfl

/-- The root gets the first frame of a fresh stack. -/
theorem fullBeginNode_root (garbage : ℕ → NodeFrame) {dtp : Parser}
    (hread : (Item.beginNode []).ReadBy m dtp) :
    ∃ f', fullBeginNode m (.fresh garbage) dtp =
        .ok ⟨Function.update (ParsingFrame.fresh garbage).nodeFrame 0 f', 0⟩ ∧
      Live fit m f' ⟨⟨[], []⟩, []⟩ [] := by
  obtain ⟨⟨htok, hname⟩, hnamed, -⟩ := hread
  obtain ⟨r, hr, hiff⟩ := strcmp_spec hname (cstr "") (by decide)
  have hr0 : r = 0 := hiff.mpr (by decide)
  have hlt : 0 < maxNodeDepth := by decide
  refine ⟨{ (ParsingFrame.fresh garbage).nodeFrame 0 with
    name := dtp.nodeName
    nprops := 0 }, ?_, ?_⟩
  · simp [fullBeginNode, hr, hr0, ParsingFrame.current, ParsingFrame.setCurrent,
      ParsingFrame.fresh, inBounds_of hlt]
  · constructor
    · constructor
      · intro k
        cases k <;> rfl
      · intro i p hp
        simp [leftSlot] at hp
      · exact fun _ => rfl
      · exact fun _ => rfl
      · intro n hn
        obtain rfl : n = ⟨[], []⟩ := by simpa using hn
        simp [maxPropsPerNode]
    · exact hname
    · exact hnamed htok
    · simp
    · exact fun _ => rfl
    · exact fun _ => rfl
    · simp [interruptParent, ParsingFrame.fresh]
    · rfl

/-- A fresh frame holds nothing of any node. -/
theorem left_fresh (garbage : ℕ → NodeFrame) (d : ℕ) :
    Left fit m ((ParsingFrame.fresh garbage).nodeFrame d) [] where
  idx k := by cases k <;> rfl
  slot i p hp := by simp [leftSlot] at hp
  address _ := rfl
  size _ := rfl
  bound n hn := by simp at hn

/-- The property that dispatch finds for a kind. -/
theorem propIdx_left {f : NodeFrame} {seen : List Node} (h : Left fit m f seen) (k : MatchKind) :
    ∃ op, f.propIdx (f.idx k) = .ok op ∧ OptPropIs m op (slotProp k seen) := by
  rw [h.idx k, slotProp]
  cases hidx : leftIdx k.propName seen with
  | none => exact ⟨none, by simp [NodeFrame.propIdx, storedIdx], trivial⟩
  | some i =>
      obtain ⟨⟨p, hp⟩, n, hn, hi⟩ := leftSlot_of_leftIdx hidx
      have hlt : i < maxPropsPerNode := lt_trans hi (h.bound n hn)
      refine ⟨some (f.props i), ?_, ?_⟩
      · simp [NodeFrame.propIdx, NodeFrame.propAt, storedIdx, inBounds_of hlt]
      · simpa [hp, OptPropIs] using h.slot i p hp

/-- **The end of a node**: the handlers called are those matched with what the frame holds,
and they are called with the stack as it is. -/
theorem callsStep_endNode {o : Open Node} {dtp : Parser}
    (hlive : Live fit m (frames anc.length) o anc) (hdepth : anc.length < maxNodeDepth)
    (htok : dtp.current = .endNode) :
    callsStep m ⟨frames, anc.length⟩ dtp = .ok
      ((dispatched (o.node :: o.earlier)).map fun h => ⟨h, frames, anc.length⟩,
        ParsingFrame.pop ⟨frames, anc.length⟩) := by
  obtain ⟨cp, hcp, hc⟩ := propIdx_left hlive.toLeft .compatible
  obtain ⟨dp, hdp, hd⟩ := propIdx_left hlive.toLeft .deviceType
  have hrec := dispatch_records ⟨frames, anc.length⟩
    (fun k => slotProp k (o.node :: o.earlier)) hc hd
  simp only [NodeFrame.idx] at hcp hdp
  simp [callsStep, fullStep, htok, ParsingFrame.current, inBounds_of hdepth,
    NodeFrame.compatibleProp, NodeFrame.deviceTypeProp, hcp, hdp, hrec, dispatched]

end Node

/-! ### The whole tree -/

/-- The calls made at a token: none, unless a node ends. Then the handlers that match the
properties found in its frame are called, with frames that are those of the open nodes. -/
def TokenCalls (fit : List UInt8 → Prop) (m : Mem) :
    Item × List (Open Node) → List HandlerCall → Prop
  | (.endNode, o :: anc), calls => ∃ frames, Chain fit m frames (o :: anc) ∧
      calls = (dispatched (o.node :: o.earlier)).map fun h => ⟨h, frames, anc.length⟩
  | _, calls => calls = []

/-- The tokens of a node before its subnodes make no call. -/
theorem tokenCalls_opening {fit : List UInt8 → Prop} {m : Mem} (n : Node) (ctx : List (Open Node)) :
    List.Forall₂ (TokenCalls fit m) (n.opening.map (·, ctx)) ([] :: n.props.map fun _ => []) := by
  refine .cons rfl ?_
  rw [List.map_map, List.forall₂_map_left_iff, List.forall₂_map_right_iff, List.forall₂_same]
  exact fun p _ => rfl

/-- A call is made at the end of a node, with the frames of the open nodes. -/
theorem TokenCalls.of_mem {fit : List UInt8 → Prop} {m : Mem} {tok : Item × List (Open Node)}
    {cs : List HandlerCall} {c : HandlerCall} (h : TokenCalls fit m tok cs) (hc : c ∈ cs) :
    ∃ o anc frames hd, tok = (.endNode, o :: anc) ∧ Chain fit m frames (o :: anc) ∧
      c = ⟨hd, frames, anc.length⟩ := by
  obtain ⟨it, ctx⟩ := tok
  cases it with
  | beginNode name =>
      rw [show cs = [] from h] at hc
      simp at hc
  | prop p =>
      rw [show cs = [] from h] at hc
      simp at hc
  | endNode =>
      cases ctx with
      | nil =>
          rw [show cs = [] from h] at hc
          simp at hc
      | cons o anc =>
          obtain ⟨frames, hchain, rfl⟩ := h
          obtain ⟨hd, -, rfl⟩ := List.mem_map.1 hc
          exact ⟨o, anc, frames, hd, rfl, hchain, rfl⟩

section Tree

variable {fit : List UInt8 → Prop} {m : Mem}

/-- Opening a node inside another takes the relation one level down. -/
theorem Sim.opening {n : Node} {anc : List (Open Node)} {hist : ℕ → List Node}
    {pf : ParsingFrame} {ks : List Parser} (hn : n.WithinFor fit anc.length)
    (h : Sim fit m anc hist pf) (hks : List.Forall₂ (Item.ReadBy m) n.opening ks) :
    ∃ pf', runOut (callsStep m) ks pf = .ok ([] :: n.props.map fun _ => [], pf') ∧
      Sim fit m (⟨n, hist 0⟩ :: anc) (fun d => hist (d + 1)) pf' := by
  obtain ⟨frames, top⟩ := pf
  obtain ⟨htop, hdepth, hchain, hbelow⟩ := h
  cases anc with
  | nil => simp at htop
  | cons a anc =>
      obtain rfl : top = anc.length := by simpa using htop
      obtain ⟨k, ks, hk, hks', rfl⟩ := List.forall₂_cons_left_iff.mp hks
      have hname : n.name ≠ [] := fun h0 => by simpa using hn.root.mp h0
      have hlt : anc.length + 1 < maxNodeDepth := by simpa using hn.depth
      obtain ⟨f₁, hstep, hlive₁⟩ := fullBeginNode_live hlt hname hchain.1 (hbelow 0) hk
      have hbegun : Live fit m (Function.update frames (anc.length + 1) f₁ (a :: anc).length)
          ⟨⟨n.name, []⟩, hist 0⟩ (a :: anc) := by
        rwa [List.length_cons, Function.update_self]
      obtain ⟨f₂, hrun, hlive₂⟩ := run_props hbegun hn hks'
      simp only [List.length_cons, Function.update_idem] at hrun
      refine ⟨_, runOut_cons_of (callsStep_beginNode hk.shown.1 hstep) hrun, rfl, hn.depth,
        ⟨by simpa using hlive₂, ?_⟩, fun d => ?_⟩
      · refine hchain.congr fun k hk => Function.update_of_ne ?_ _ _
        simp at hk
        omega
      · have := hbelow (d + 1)
        simp only [List.length_cons] at this ⊢
        rw [Function.update_of_ne (by omega)]
        rwa [show anc.length + 1 + 1 + d = anc.length + 1 + (d + 1) by omega]

/-- Closing a node inside another makes its calls and leaves the frame behind. -/
theorem Sim.closing {n : Node} {h : List Node} {anc : List (Open Node)}
    {hist : ℕ → List Node} {pf : ParsingFrame} {ks : List Parser}
    (hn : n.WithinFor fit anc.length) (hanc : anc ≠ []) (hsim : Sim fit m (⟨n, h⟩ :: anc) hist pf)
    (hks : List.Forall₂ (Item.ReadBy m) n.closing ks) :
    ∃ os pf', runOut (callsStep m) ks pf = .ok (os, pf') ∧
      List.Forall₂ (TokenCalls fit m) (n.closing.map (·, ⟨n, h⟩ :: anc)) os ∧
      Sim fit m anc (fun | 0 => n :: h | d + 1 => hist d) pf' := by
  obtain ⟨frames, top⟩ := pf
  obtain ⟨htop, hdepth, hchain, hbelow⟩ := hsim
  obtain rfl : top = anc.length := by simpa using htop
  obtain ⟨k, ks, hk, hks', rfl⟩ := List.forall₂_cons_left_iff.mp hks
  obtain rfl : ks = [] := by simpa using hks'
  have hpos : 0 < anc.length := List.length_pos_iff.mpr hanc
  have hstep := callsStep_endNode hchain.1 hn.depth hk.shown
  refine ⟨_, _, runOut_cons_of hstep rfl, .cons ⟨frames, hchain, rfl⟩ .nil, ?_, hn.depth.le, ?_, ?_⟩
  · simp [ParsingFrame.pop, hpos]
    omega
  · simpa [ParsingFrame.pop, hpos] using hchain.2
  · intro d
    have hpop : (ParsingFrame.pop ⟨frames, anc.length⟩).nodeFrame = frames := by
      simp [ParsingFrame.pop, hpos]
    rw [hpop]
    cases d with
    | zero => exact hchain.1.toLeft
    | succ d =>
        have := hbelow d
        simp only [List.length_cons] at this
        rwa [show anc.length + (d + 1) = anc.length + 1 + d by omega]

/-- The turns of the recording pass, with their outputs collected. -/
theorem foldlM_callsBody {ks : List Parser} {pf pf' : ParsingFrame}
    {os : List (List HandlerCall)} (h : runOut (callsStep m) ks pf = .ok (os, pf'))
    (log : List (List HandlerCall)) :
    ks.foldlM (callsBody m) (pf, log) = .ok (pf', log ++ os) := by
  induction ks generalizing pf os log with
  | nil =>
      obtain ⟨rfl, rfl⟩ : [] = os ∧ pf = pf' := by simpa [runOut] using h
      simp
  | cons k ks ih =>
      simp only [runOut, bind_eq_ok, pure_eq_ok, Except.ok.injEq, Prod.mk.injEq,
        Prod.exists] at h
      obtain ⟨o, pf₁, hstep, os', pf₂, hrun, rfl, rfl⟩ := h
      simp [callsBody, hstep, ih hrun]

/-- The tree keeps the limits of the second pass. -/
def DeviceTree.Within (t : DeviceTree) : Prop := t.forest.AllAt Node.Within 0

instance (t : DeviceTree) : Decidable t.Within :=
  inferInstanceAs (Decidable (t.forest.AllAt Node.Within 0))

/-- The tree keeps these limits, and the properties with a name in `fit` are as long as a
cell. -/
def DeviceTree.WithinFor (fit : List UInt8 → Prop) (t : DeviceTree) : Prop :=
  t.forest.AllAt (Node.WithinFor fit) 0

theorem DeviceTree.Within.withinFor {t : DeviceTree} (h : t.Within) :
    t.WithinFor (· ∈ cellNames) :=
  Forest.AllAt.mono h fun _ _ _ hn => hn.withinFor

/-- The tokens of a tree, each with the node it belongs to and its ancestors. -/
def DeviceTree.labelled (t : DeviceTree) : List (Item × List (Open Node)) :=
  t.forest.walk Node.opening Node.closing [] fun _ => []

/-- Without the labels they are the items that the parser shows. -/
theorem DeviceTree.map_fst_labelled (t : DeviceTree) : t.labelled.map Prod.fst = t.items :=
  Forest.map_fst_walk Node.opening Node.closing t.forest [] fun _ => []

/-- **The second pass on a tree.** On every flattened tree within the limits it completes,
and makes at each token exactly the calls that the tree demands. -/
theorem parseFramesCalls_flattened {fdt : ℕ} {h : Header} {t : DeviceTree}
    (ht : FlattenedAt m fdt h t) (hw : t.WithinFor fit) (garbage : ℕ → NodeFrame) :
    ∃ calls, parseFramesCalls m fdt garbage = .ok (.ok, calls) ∧
      List.Forall₂ (TokenCalls fit m) t.labelled calls := by
  obtain ⟨qs, hqs, hrun⟩ := walkBlob_flattened (σ := ParsingFrame × List (List HandlerCall)) ht
  obtain ⟨hroot, hchildren, -⟩ := hw
  simp only [DeviceTree.items, DeviceTree.forest, Forest.tokens] at hqs
  obtain ⟨k₁, ks, rfl, hk₁, hks⟩ := forall₂_append_inv hqs
  obtain ⟨k₂, ks, rfl, hk₂, hks⟩ := forall₂_append_inv hks
  obtain ⟨k₃, ks, hk₃, hks', rfl⟩ := List.forall₂_cons_left_iff.mp hks
  obtain rfl : ks = [] := by simpa using hks'
  -- the root
  obtain ⟨k, ks, hk, hks', rfl⟩ := List.forall₂_cons_left_iff.mp hk₁
  obtain ⟨f₁, hstep₁, hlive₁⟩ := fullBeginNode_root garbage hk
  have hbegun : Live fit m (Function.update (ParsingFrame.fresh garbage).nodeFrame 0 f₁
      (List.length ([] : List (Open Node)))) ⟨⟨[], []⟩, []⟩ [] := by
    rwa [List.length_nil, Function.update_self]
  obtain ⟨f₂, hrun₁, hlive₂⟩ := run_props (n := t.root) hbegun hroot hks'
  simp only [List.length_nil, Function.update_idem] at hrun₁
  have hrootRun := runOut_cons_of (callsStep_beginNode hk.shown.1 hstep₁) hrun₁
  have hsim : Sim fit m [⟨t.root, []⟩] (fun _ => [])
      ⟨Function.update (ParsingFrame.fresh garbage).nodeFrame 0 f₂, 0⟩ := by
    refine ⟨rfl, Nat.succ_le_of_lt hroot.depth, ⟨?_, trivial⟩, fun d => ?_⟩
    · simp only [List.length_nil, Function.update_self]
      exact hlive₂
    · simp only [List.length_singleton]
      rw [Function.update_of_ne (by omega)]
      exact left_fresh garbage _
  -- its subnodes, which all stand below it
  have hbelow : t.children.AllAt (fun d n => n.WithinFor fit d ∧ d ≠ 0) 1 :=
    Forest.AllAt.mono hchildren fun e n he hn => ⟨hn, by omega⟩
  obtain ⟨os, ⟨frames, top⟩, hrun₂, hcalls₂, hsim₂⟩ := Forest.walk_rule
    (Item.ReadBy m) (callsStep m) (Sim fit m) (TokenCalls fit m)
    (fun n anc hist pf ks hn hinv hks => by
      obtain ⟨pf', hrun, hsim'⟩ := hinv.opening hn.1 hks
      exact ⟨_, pf', hrun, tokenCalls_opening n _, hsim'⟩)
    (fun n h anc hist pf ks hn hinv hks =>
      hinv.closing hn.1 (fun h0 => hn.2 (by simp [h0])) hks)
    t.children hsim hbelow hk₂
  -- the end of the root
  obtain rfl : top = 0 := by simpa using hsim₂.top
  have hstep₃ := callsStep_endNode hsim₂.chain.1 hroot.depth hk₃.shown
  have hend : runOut (callsStep m) [k₃] ⟨frames, 0⟩ = .ok _ := runOut_cons_of hstep₃ rfl
  have hall := runOut_append_of hrootRun (runOut_append_of hrun₂ hend)
  have hfull := hrun (callsBody m) (.fresh garbage, [])
  rw [foldlM_callsBody hall] at hfull
  refine ⟨_, by rw [parseFramesCalls, hfull]; rfl, ?_⟩
  simp only [DeviceTree.labelled, DeviceTree.forest, Forest.walk, List.append_nil,
    List.nil_append]
  exact List.rel_append (tokenCalls_opening t.root _)
    (List.rel_append hcalls₂ (.cons ⟨frames, hsim₂.chain, rfl⟩ .nil))

end Tree

end Floss
