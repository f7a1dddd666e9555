import Floss.Handlers
import Floss.PassBounds
import Mathlib.Data.List.Nodup

/-!
# The Phandle Table

The first pass fills a table with what the second needs to know about nodes it may not have
reached yet. This module says what the table holds after the first pass over a flattened
tree, and what the handlers of the second pass find in it.

* `Node.mapping`: the entry of a node, in terms of the tree alone;
* `phandlePass_flattened`: the table holds the entries of the nodes that have a phandle, in
  the order in which the nodes end;
* `lookup_of_mem`: a lookup finds the node with the phandle, wherever it stands;
* `phandle_pass_feeds_full`: so during the second pass the interrupt cells of a node are
  those of its interrupt parent.

The first pass is split into a step program that hands out the entries (`phandleOut`) and
the table they are added to, so that `Forest.walk_rule` does the induction over the tree.
-/

namespace Floss

/-! ### Entries -/

def phandleName : List UInt8 := cstr "phandle"

def interruptCellsName : List UInt8 := cstr "#interrupt-cells"

def clockFrequencyName : List UInt8 := cstr "clock-frequency"

def clocksName : List UInt8 := cstr "clocks"

/-- The properties that the first pass reads. -/
def mappingNames : List (List UInt8) :=
  [phandleName, interruptCellsName, clockFrequencyName, clocksName]

namespace Node

/-- The properties that the first pass stores, in document order. -/
def stored (n : Node) : List Property := if n.ignored then [] else n.props

/-- The phandle of a node that is not ignored. -/
def phandle? (n : Node) : Option ℕ := n.setCell? phandleName

/-- The entry of a node: what it has itself, and zero for what it has not. -/
def mapping (n : Node) : NodeMapping where
  phandle := n.phandle?.getD 0
  interruptCells := (n.setCell? interruptCellsName).getD 0
  clockFrequency := (n.setCell? clockFrequencyName).getD 0
  parentClock := (n.setCell? clocksName).getD 0

/-- The entries that a node adds to the table. -/
def mappings (n : Node) : List NodeMapping := if n.mapping.phandle ≠ 0 then [n.mapping] else []

/-- The limits of the first pass for a node at depth `d`: only the root has an empty name,
the frame stack is deep enough, the slots suffice for all properties, and those that are
read are as long as a cell. -/
structure WithinPhandle (d : ℕ) (n : Node) : Prop where
  root : n.name = [] ↔ d = 0
  depth : d < maxNodeDepth
  room : n.stored.length < maxPropsPerNode
  words : ∀ p ∈ n.stored, p.name ∈ mappingNames → 4 ≤ p.value.length

instance (d : ℕ) (n : Node) : Decidable (n.WithinPhandle d) :=
  decidable_of_iff ((n.name = [] ↔ d = 0) ∧ d < maxNodeDepth ∧
      n.stored.length < maxPropsPerNode ∧
      ∀ p ∈ n.stored, p.name ∈ mappingNames → 4 ≤ p.value.length)
    ⟨fun ⟨h1, h2, h3, h4⟩ => ⟨h1, h2, h3, h4⟩, fun ⟨h1, h2, h3, h4⟩ => ⟨h1, h2, h3, h4⟩⟩

end Node

/-- A stored property of which a word can be read. -/
structure PropWord (m : Mem) (pf : PropFrame) (p : Property) : Prop extends PropIs m pf p where
  word : ∃ v, be32 m pf.value = .ok v

section Mapping

variable {m : Mem} {n : Node} {p : Property}

theorem stored_add : (n.add p).stored = if n.ignored then [] else n.stored ++ [p] := by
  unfold Node.stored
  rw [ignored_add]
  split <;> rfl

/-- The word of a property that is read is its first cell. -/
theorem be32_of_propWord {pf : PropFrame} (h : PropWord m pf p)
    (hlen : p.name ∈ mappingNames → 4 ≤ p.value.length) :
    ∃ v, be32 m pf.value = .ok v ∧ (p.name ∈ mappingNames → v = p.u32) := by
  by_cases hname : p.name ∈ mappingNames
  · exact ⟨p.u32, be32_u32 h.value (hlen hname), fun _ => rfl⟩
  · obtain ⟨v, hv⟩ := h.word
    exact ⟨v, hv, fun h => absurd h hname⟩

/-- **One property of a node that ends** changes the entry as it changes the node's. -/
theorem mapProp_eq {f : NodeFrame} {i : ℕ} (hi : i < maxPropsPerNode)
    (hprop : PropWord m (f.props i) p) (hlen : p.name ∈ mappingNames → 4 ≤ p.value.length)
    (hignored : n.ignored = false) :
    mapProp m f n.mapping i = .ok (n.add p).mapping := by
  obtain ⟨v, hv, hu32⟩ := be32_of_propWord hprop hlen
  have hcell : ∀ name, (n.add p).setCell? name =
      if p.name = name then some p.u32 else n.setCell? name := by
    intro name
    rw [setCell?_add]
    simp [hignored]
  rw [mapProp, NodeFrame.propAt, inBounds_of hi, ok_bind, pure_eq_ok, ok_bind, hv, ok_bind]
  rw [strcmp_branch hprop.name (by decide), strcmp_branch hprop.name (by decide),
    strcmp_branch hprop.name (by decide), strcmp_branch hprop.name (by decide)]
  -- at most one of the four names is that of the property
  have hne : ¬ phandleName = interruptCellsName ∧ ¬ phandleName = clockFrequencyName ∧
      ¬ phandleName = clocksName ∧ ¬ interruptCellsName = clockFrequencyName ∧
      ¬ interruptCellsName = clocksName ∧ ¬ clockFrequencyName = clocksName := by decide
  obtain ⟨h12, h13, h14, h23, h24, h34⟩ := hne
  simp only [Node.mapping, Node.phandle?, hcell, pure_eq_ok]
  change (if p.name = phandleName then _ else if p.name = interruptCellsName then _ else
    if p.name = clockFrequencyName then _ else if p.name = clocksName then _ else _) = _
  by_cases h1 : p.name = phandleName
  · have hv' := hu32 (by simp [mappingNames, h1])
    simp [h1, h12, h13, h14, hv']
  by_cases h2 : p.name = interruptCellsName
  · have hv' := hu32 (by simp [mappingNames, h2])
    simp [h2, Ne.symm h12, h23, h24, hv']
  by_cases h3 : p.name = clockFrequencyName
  · have hv' := hu32 (by simp [mappingNames, h3])
    simp [h3, Ne.symm h13, Ne.symm h23, h34, hv']
  by_cases h4 : p.name = clocksName
  · have hv' := hu32 (by simp [mappingNames, h4])
    simp [h4, Ne.symm h14, Ne.symm h24, Ne.symm h34, hv']
  · simp [h1, h2, h3, h4]

/-- **The properties of a node that ends**, one after the other, give its entry. -/
theorem mapProps_eq {f : NodeFrame} {name : List UInt8} {ps : List Property}
    (hignored : (⟨name, ps⟩ : Node).ignored = false) (hroom : ps.length < maxPropsPerNode)
    (hslot : ∀ i p, ps[i]? = some p → PropWord m (f.props i) p)
    (hwords : ∀ p ∈ ps, p.name ∈ mappingNames → 4 ≤ p.value.length) :
    (List.range ps.length).foldlM (mapProp m f) {} = .ok (⟨name, ps⟩ : Node).mapping := by
  induction ps using List.reverseRecOn with
  | nil => simp [Node.mapping, Node.phandle?]
  | append_singleton ps p ih =>
      have hi : ps.length < maxPropsPerNode := by
        simp only [List.length_append, List.length_singleton] at hroom
        omega
      have hlast := hslot ps.length p (by simp)
      have hbefore := ih hignored hi
        (fun i q hq => hslot i q
          (List.getElem?_append_left (List.getElem?_eq_some_iff.1 hq).1 ▸ hq))
        (fun q hq => hwords q (by simp [hq]))
      have hstep := mapProp_eq hi hlast (hwords p (by simp)) (n := ⟨name, ps⟩) hignored
      rw [List.length_append, List.length_singleton, List.range_succ, List.foldlM_append, hbefore,
        ok_bind, List.foldlM_cons, hstep, ok_bind]
      rfl

end Mapping

/-! ### The first pass as a step program -/

/-- One turn of the first pass: the entries it adds to the table. -/
def phandleOut (m : Mem) (pf : ParsingFrame) (dtp : Parser) :
    Exec (List NodeMapping × ParsingFrame) :=
  match dtp.current with
  | .beginNode => do
      return ([], ← phandleBeginNode m pf dtp)
  | .endNode => do
      let f ← pf.current
      let mapping ← (List.range f.nprops).foldlM (mapProp m f) {}
      return (if mapping.phandle ≠ 0 then [mapping] else [], pf.pop)
  | .prop => do
      return ([], ← phandleProp m pf dtp)
  | .nop | .fdtEnd => .ok ([], pf)

/-- A turn of the first pass adds what the step program hands out. -/
theorem phandleStep_of_out {m : Mem} {pf pf' : ParsingFrame} {dtp : Parser}
    {es : List NodeMapping} (h : phandleOut m pf dtp = .ok (es, pf')) {table table' : PhandleTable}
    (hadd : es.foldlM PhandleTable.add table = .ok table') :
    phandleStep m (pf, table) dtp = .ok (pf', table') := by
  cases htok : dtp.current with
  | beginNode | prop =>
      simp only [phandleOut, htok, bind_eq_ok, pure_eq_ok, Except.ok.injEq, Prod.mk.injEq] at h
      obtain ⟨pf₁, hpf₁, rfl, rfl⟩ := h
      obtain rfl : table = table' := by simpa using hadd
      simp [phandleStep, htok, hpf₁]
  | endNode =>
      simp only [phandleOut, htok, bind_eq_ok, pure_eq_ok, Except.ok.injEq, Prod.mk.injEq] at h
      obtain ⟨f, hf, mapping, hmapping, rfl, rfl⟩ := h
      by_cases hphandle : mapping.phandle ≠ 0
      · rw [if_pos hphandle, List.foldlM_cons, bind_eq_ok] at hadd
        obtain ⟨table₁, hadd, hdone⟩ := hadd
        obtain rfl : table₁ = table' := by simpa using hdone
        simp [phandleStep, htok, hf, hmapping, hphandle, hadd]
      · rw [if_neg hphandle] at hadd
        obtain rfl : table = table' := by simpa using hadd
        simp [phandleStep, htok, hf, hmapping, hphandle]
  | nop | fdtEnd =>
      simp only [phandleOut, htok, Except.ok.injEq, Prod.mk.injEq] at h
      obtain ⟨rfl, rfl⟩ := h
      obtain rfl : table = table' := by simpa using hadd
      simp [phandleStep, htok]

/-- The turns of the first pass, with their entries collected. -/
theorem foldlM_phandleStep {m : Mem} {ks : List Parser} {pf pf' : ParsingFrame}
    {os : List (List NodeMapping)} (h : runOut (phandleOut m) ks pf = .ok (os, pf'))
    {table table' : PhandleTable}
    (hadd : os.flatten.foldlM PhandleTable.add table = .ok table') :
    ks.foldlM (phandleStep m) (pf, table) = .ok (pf', table') := by
  induction ks generalizing pf os table with
  | nil =>
      obtain ⟨rfl, rfl⟩ : [] = os ∧ pf = pf' := by simpa [runOut] using h
      obtain rfl : table = table' := by simpa using hadd
      rfl
  | cons k ks ih =>
      simp only [runOut, bind_eq_ok, pure_eq_ok, Except.ok.injEq, Prod.mk.injEq,
        Prod.exists] at h
      obtain ⟨o, pf₁, hstep, os', pf₂, hrun, rfl, rfl⟩ := h
      rw [List.flatten_cons, List.foldlM_append, bind_eq_ok] at hadd
      obtain ⟨table₁, hadd₁, hadd₂⟩ := hadd
      rw [List.foldlM_cons, phandleStep_of_out hstep hadd₁, ok_bind]
      exact ih hrun hadd₂

/-! ### The table -/

/-- The entries in use. -/
def PhandleTable.entries (t : PhandleTable) : List NodeMapping :=
  (List.range t.num).map t.mapping

namespace PhandleTable

@[simp] theorem length_entries (t : PhandleTable) : t.entries.length = t.num := by
  simp [entries]

/-- An entry goes to the end of the table, if there is room for one more. -/
theorem add_eq {t : PhandleTable} (h : t.num + 1 < phandleNodeMappingCapacity)
    (e : NodeMapping) : ∃ t', t.add e = .ok t' ∧ t'.entries = t.entries ++ [e] := by
  refine ⟨⟨t.num + 1, Function.update t.mapping t.num e⟩, ?_, ?_⟩
  · rw [add, inBounds_of (by omega), ok_bind]
    simp [kassert_of h]
  · simp only [entries, List.range_succ, List.map_append, List.map_singleton,
      Function.update_self]
    congr 1
    refine List.map_congr_left fun i hi => Function.update_of_ne ?_ _ _
    have := List.mem_range.1 hi
    omega

/-- **Entries are added in order**. -/
theorem foldlM_add_eq {t : PhandleTable} {es : List NodeMapping}
    (h : t.num + es.length < phandleNodeMappingCapacity) :
    ∃ t', es.foldlM add t = .ok t' ∧ t'.entries = t.entries ++ es := by
  induction es generalizing t with
  | nil => exact ⟨t, rfl, by simp⟩
  | cons e es ih =>
      rw [List.length_cons] at h
      obtain ⟨t₁, hadd, hentries⟩ := add_eq (by omega : t.num + 1 < _) e
      have hnum : t₁.num = t.num + 1 := by
        rw [← length_entries, hentries]
        simp
      obtain ⟨t', hrun, hentries'⟩ := ih (by omega : t₁.num + es.length < _)
      refine ⟨t', by rw [List.foldlM_cons, hadd, ok_bind, hrun], ?_⟩
      rw [hentries', hentries, List.append_assoc, List.singleton_append]

/-- The search finds the first entry with the phandle. -/
theorem find_eq {t : PhandleTable} {left i : ℕ} (h : i + left ≤ phandleNodeMappingCapacity)
    (phandle : ℕ) :
    t.find phandle left i =
      .ok (((List.range' i left).map t.mapping).find? (·.phandle = phandle)) := by
  induction left generalizing i with
  | zero => rfl
  | succ left ih =>
      rw [find, inBounds_of (by omega), ok_bind, List.range'_succ, List.map_cons, List.find?_cons]
      by_cases hfound : (t.mapping i).phandle = phandle
      · simp [hfound]
      · rw [if_neg hfound, ih (by omega : i + 1 + left ≤ _)]
        simp [hfound]

end PhandleTable

/-! ### The frames of the first pass -/

/-- The frame of an open node: it holds the properties read so far. -/
structure PhandleLive (m : Mem) (f : NodeFrame) (n : Node) : Prop where
  name : StrAt m f.name n.name
  named : f.name ≠ nullptr
  nprops : f.nprops = n.stored.length
  slot : ∀ i p, n.stored[i]? = some p → PropWord m (f.props i) p

/-- The frame stack, between two tokens: every open node has its frame, at its depth. The
stack starts at the first frame before the root begins and goes back to it after. -/
structure PhandleSim (m : Mem) (anc : List (Open Node)) (pf : ParsingFrame) : Prop where
  top : pf.top = anc.length - 1
  live : ∀ d o, anc.reverse[d]? = some o → PhandleLive m (pf.nodeFrame d) o.node

section Frames

variable {m : Mem} {frames : ℕ → NodeFrame} {d : ℕ} {n : Node} {p : Property} {dtp : Parser}

/-- A property of an ignored node is skipped. -/
theorem PhandleLive.skip {f : NodeFrame} (h : PhandleLive m f n) (hignored : n.ignored = true) :
    PhandleLive m f (n.add p) := by
  have hstored : (n.add p).stored = n.stored := by simp [Node.stored, hignored]
  exact ⟨h.name, h.named, hstored ▸ h.nprops, hstored ▸ h.slot⟩

/-- Any other property goes to the next slot. -/
theorem PhandleLive.store {f : NodeFrame} (h : PhandleLive m f n) (hignored : n.ignored = false)
    {pr : PropFrame} (hpr : PropWord m pr p) :
    PhandleLive m { f with
      props := Function.update f.props f.nprops pr
      nprops := f.nprops + 1 } (n.add p) := by
  have hstored : (n.add p).stored = n.stored ++ [p] := by simp [stored_add, hignored]
  refine ⟨h.name, h.named, by simp [hstored, h.nprops], fun i q hq => ?_⟩
  rw [hstored] at hq
  by_cases hi : i = f.nprops
  · rw [hi, h.nprops, List.getElem?_append_right le_rfl] at hq
    obtain rfl : p = q := by simpa using hq
    simpa [hi] using hpr
  · simp only [Function.update_of_ne hi]
    rw [h.nprops] at hi
    rw [List.getElem?_append_left] at hq
    · exact h.slot i q hq
    · have hlt := (List.getElem?_eq_some_iff.1 hq).1
      simp only [List.length_append, List.length_singleton] at hlt
      omega

/-- **A property token** of the first pass. -/
theorem phandleProp_live (hdepth : d < maxNodeDepth) (h : PhandleLive m (frames d) n)
    (hread : (Item.prop p).ReadBy m dtp) (hroom : (n.add p).stored.length < maxPropsPerNode) :
    ∃ f', phandleOut m ⟨frames, d⟩ dtp = .ok ([], ⟨Function.update frames d f', d⟩) ∧
      PhandleLive m f' (n.add p) := by
  obtain ⟨⟨htok, hname, hvalue, hlen⟩, -, -, hword⟩ := hread
  have hcur : ParsingFrame.current ⟨frames, d⟩ = .ok (frames d) := current_of hdepth
  simp only [phandleOut, htok, phandleProp, hcur, ok_bind, isIgnoredNode_eq h.name h.named,
    pure_eq_ok]
  cases hignored : n.ignored with
  | true =>
      exact ⟨frames d, by simp, h.skip hignored⟩
  | false =>
      rw [stored_add, hignored] at hroom
      simp only [Bool.false_eq_true, if_false, List.length_append, List.length_singleton,
        ← h.nprops] at hroom
      have hpr : PropWord m ⟨dtp.propName, dtp.propValue, dtp.propLen⟩ p :=
        ⟨⟨hname, hvalue, hlen⟩, hword htok⟩
      refine ⟨_, ?_, h.store hignored hpr⟩
      simp [NodeFrame.storeProp, ParsingFrame.setCurrent,
        inBounds_of (show (frames d).nprops < maxPropsPerNode by omega), inBounds_of hdepth,
        kassert_of hroom]

/-- Properties only ever fill up slots. -/
theorem stored_length_mono (name : List UInt8) (ps qs : List Property) :
    (⟨name, ps⟩ : Node).stored.length ≤ (⟨name, ps ++ qs⟩ : Node).stored.length := by
  have hi : (⟨name, ps ++ qs⟩ : Node).ignored = (⟨name, ps⟩ : Node).ignored := rfl
  rw [Node.stored, Node.stored, hi]
  split
  · exact le_rfl
  · simp

/-- The properties of a node in the first pass. -/
theorem phandle_run_props {ks : List Parser} (hlive : PhandleLive m (frames d) ⟨n.name, []⟩)
    (hn : n.WithinPhandle d) (hks : List.Forall₂ (Item.ReadBy m) (n.props.map .prop) ks) :
    ∃ f', runOut (phandleOut m) ks ⟨frames, d⟩ =
        .ok (n.props.map fun _ => [], ⟨Function.update frames d f', d⟩) ∧
      PhandleLive m f' n := by
  refine run_props_rule ?_ (List.nil_append _).symm hlive hks
  intro frames done rest p k hprops hdone hk
  have hroom : (Node.add ⟨n.name, done⟩ p).stored.length < maxPropsPerNode := by
    have hmono := stored_length_mono n.name (done ++ [p]) rest
    rw [List.append_assoc, List.singleton_append, ← hprops] at hmono
    exact lt_of_le_of_lt hmono hn.room
  exact phandleProp_live hn.depth hdone hk hroom

/-- **A node begins**: the root in the first frame, any other node in the next one. -/
theorem phandleBeginNode_live (frames : ℕ → NodeFrame) {name : List UInt8}
    (hroot : name = [] ↔ d = 0) (hdepth : d < maxNodeDepth)
    (hread : (Item.beginNode name).ReadBy m dtp) :
    ∃ f', phandleOut m ⟨frames, d - 1⟩ dtp = .ok ([], ⟨Function.update frames d f', d⟩) ∧
      PhandleLive m f' ⟨name, []⟩ := by
  obtain ⟨⟨htok, hname⟩, hnamed, -⟩ := hread
  obtain ⟨r, hr, hiff⟩ := strcmp_spec hname (cstr "") (by decide)
  have hempty : ∀ f : NodeFrame,
      PhandleLive m { f with name := dtp.nodeName, nprops := 0 } ⟨name, []⟩ := by
    intro f
    have hstored : (⟨name, []⟩ : Node).stored = [] := by simp [Node.stored]
    exact ⟨hname, hnamed htok, by simp [hstored], by simp [hstored]⟩
  cases d with
  | zero =>
      have hr0 : r = 0 := hiff.mpr (hroot.2 rfl)
      refine ⟨_, ?_, hempty (frames 0)⟩
      simp [phandleOut, htok, phandleBeginNode, hr, hr0, ParsingFrame.current,
        ParsingFrame.setCurrent, inBounds_of hdepth]
  | succ d =>
      have hr0 : r ≠ 0 := fun h => by simpa using hroot.1 (hiff.mp h)
      refine ⟨_, ?_, hempty { frames (d + 1) with parentCells := (frames d).ownCells }⟩
      simp [phandleOut, htok, phandleBeginNode, hr, hr0, phandleEnter, ParsingFrame.current,
        ParsingFrame.push, ParsingFrame.setCurrent, inBounds_of hdepth,
        inBounds_of (show d < maxNodeDepth by omega), kassert_of hdepth]

end Frames

/-! ### The whole tree -/

/-- The entries added at a token: none, unless a node ends. -/
def tokenMappings : Item × List (Open Node) → List NodeMapping
  | (.endNode, o :: _) => o.node.mappings
  | _ => []

section Tree

variable {m : Mem} {n : Node} {anc : List (Open Node)} {pf : ParsingFrame} {ks : List Parser}

/-- Opening a node gives it the frame of its depth. -/
theorem PhandleSim.opening (hn : n.WithinPhandle anc.length) (h : PhandleSim m anc pf)
    (hks : List.Forall₂ (Item.ReadBy m) n.opening ks) (older : List Node) :
    ∃ pf', runOut (phandleOut m) ks pf = .ok ([] :: n.props.map fun _ => [], pf') ∧
      PhandleSim m (⟨n, older⟩ :: anc) pf' := by
  obtain ⟨frames, top⟩ := pf
  obtain ⟨rfl, hlive⟩ := h
  obtain ⟨k, ks, hk, hks', rfl⟩ := List.forall₂_cons_left_iff.mp hks
  obtain ⟨f₁, hstep, hlive₁⟩ := phandleBeginNode_live frames hn.root hn.depth hk
  have hbegun : PhandleLive m (Function.update frames anc.length f₁ anc.length) ⟨n.name, []⟩ := by
    rwa [Function.update_self]
  obtain ⟨f₂, hrun, hlive₂⟩ := phandle_run_props hbegun hn hks'
  rw [Function.update_idem] at hrun
  refine ⟨_, runOut_cons_of hstep hrun, by simp, fun d o ho => ?_⟩
  rw [List.reverse_cons] at ho
  by_cases hd : d = anc.length
  · rw [hd, List.getElem?_append_right (by simp)] at ho
    obtain rfl : ⟨n, older⟩ = o := by simpa using ho
    simp only [hd, Function.update_self]
    exact hlive₂
  · have hlt := (List.getElem?_eq_some_iff.1 ho).1
    simp only [List.length_append, List.length_reverse, List.length_singleton] at hlt
    rw [List.getElem?_append_left (by rw [List.length_reverse]; omega)] at ho
    simp only [Function.update_of_ne hd]
    exact hlive d o ho

/-- **Closing a node** hands out its entry, read from its frame. -/
theorem PhandleSim.closing {older : List Node} (hn : n.WithinPhandle anc.length)
    (h : PhandleSim m (⟨n, older⟩ :: anc) pf)
    (hks : List.Forall₂ (Item.ReadBy m) n.closing ks) :
    ∃ pf', runOut (phandleOut m) ks pf = .ok ([n.mappings], pf') ∧ PhandleSim m anc pf' := by
  obtain ⟨frames, top⟩ := pf
  obtain ⟨htop, hlive⟩ := h
  obtain rfl : top = anc.length := by simpa using htop
  obtain ⟨k, ks, hk, hks', rfl⟩ := List.forall₂_cons_left_iff.mp hks
  obtain rfl : ks = [] := by simpa using hks'
  have htok : k.current = .endNode := hk.shown
  have hlast := hlive anc.length ⟨n, older⟩ (by simp)
  have hcur : ParsingFrame.current ⟨frames, anc.length⟩ = .ok (frames anc.length) :=
    current_of hn.depth
  have hmapping : (List.range (frames anc.length).nprops).foldlM
      (mapProp m (frames anc.length)) {} = .ok n.mapping := by
    have hslot := hlast.slot
    have hroom := hn.room
    have hwords := hn.words
    rw [hlast.nprops]
    cases hignored : n.ignored with
    | true =>
        simp [Node.stored, hignored, Node.mapping, Node.phandle?, Node.setCell?]
    | false =>
        have hstored : n.stored = n.props := by simp [Node.stored, hignored]
        rw [hstored] at hslot hroom hwords ⊢
        exact mapProps_eq (show (⟨n.name, n.props⟩ : Node).ignored = false from hignored) hroom
          hslot hwords
  have hpop : ParsingFrame.pop ⟨frames, anc.length⟩ = ⟨frames, anc.length - 1⟩ := by
    by_cases hpos : 0 < anc.length
    · simp [ParsingFrame.pop, hpos]
    · obtain hzero : anc.length = 0 := by omega
      simp [ParsingFrame.pop, hzero]
  have hstep : phandleOut m ⟨frames, anc.length⟩ k =
      .ok (n.mappings, ⟨frames, anc.length - 1⟩) := by
    simp only [phandleOut, htok, hcur, ok_bind, hmapping, pure_eq_ok, hpop, Node.mappings]
  refine ⟨_, runOut_cons_of hstep rfl, rfl, fun d o ho => hlive d o ?_⟩
  rw [List.reverse_cons, List.getElem?_append_left (List.getElem?_eq_some_iff.1 ho).1]
  exact ho

/-- The nodes of a tree, in the order in which they end. -/
def DeviceTree.nodes (t : DeviceTree) : List Node := t.forest.postorder

/-- The tree keeps the limits of the first pass. -/
structure DeviceTree.WithinPhandle (t : DeviceTree) : Prop where
  nodes : t.forest.AllAt Node.WithinPhandle 0
  capacity : (t.nodes.flatMap Node.mappings).length < phandleNodeMappingCapacity

instance (t : DeviceTree) : Decidable t.WithinPhandle :=
  decidable_of_iff (t.forest.AllAt Node.WithinPhandle 0 ∧
      (t.nodes.flatMap Node.mappings).length < phandleNodeMappingCapacity)
    ⟨fun ⟨h1, h2⟩ => ⟨h1, h2⟩, fun ⟨h1, h2⟩ => ⟨h1, h2⟩⟩

/-- A list whose elements are functions of those of another is its image. -/
theorem eq_map_of_forall₂ {α β : Type} {f : α → β} {l : List α} {r : List β}
    (h : List.Forall₂ (fun a b => b = f a) l r) : r = l.map f := by
  induction h with
  | nil => rfl
  | cons hab _ ih => rw [List.map_cons, hab, ih]

/-- What the walk hands out is what the nodes add, in postorder. -/
theorem flatMap_tokenMappings (t : DeviceTree) :
    t.labelled.flatMap tokenMappings = t.nodes.flatMap Node.mappings := by
  refine Forest.flatMap_walk (fun a h anc => ?_) (fun a h anc => ?_) t.forest [] fun _ => []
  · rw [List.flatMap_eq_nil_iff]
    intro tok htok
    obtain ⟨it, hit, rfl⟩ := List.mem_map.1 htok
    rcases List.mem_cons.1 hit with rfl | hit
    · rfl
    · obtain ⟨p, -, rfl⟩ := List.mem_map.1 hit
      rfl
  · simp [Node.closing, tokenMappings]

/-- **The first pass on a tree.** On every flattened tree within its limits it returns `ok`,
and the table holds the entries of the nodes with a phandle. -/
theorem phandlePass_flattened {fdt : ℕ} {h : Header} {t : DeviceTree}
    (ht : FlattenedAt m fdt h t) (hw : t.WithinPhandle) (garbage : ℕ → NodeFrame)
    (table₀ : PhandleTable) :
    ∃ table, parseFramesPhandle m fdt garbage table₀ = .ok (.ok, table) ∧
      table.entries = t.nodes.flatMap Node.mappings := by
  obtain ⟨qs, hqs, hrun⟩ := walkBlob_flattened (σ := ParsingFrame × PhandleTable) ht
  have hstart : PhandleSim m [] (.fresh garbage) := ⟨rfl, by simp⟩
  have hwalk : ∃ os pf', runOut (phandleOut m) qs (.fresh garbage) = .ok (os, pf') ∧
      List.Forall₂ (fun tok es => es = tokenMappings tok)
        (t.forest.walk Node.opening Node.closing [] fun _ => []) os ∧ PhandleSim m [] pf' := by
    refine Forest.walk_rule (Item.ReadBy m) (phandleOut m) (fun anc _ pf => PhandleSim m anc pf)
      (fun tok es => es = tokenMappings tok) ?_ ?_ t.forest hstart hw.nodes hqs
    · intro n anc hist pf ks hn hinv hks
      obtain ⟨pf', hrun, hsim⟩ := hinv.opening hn hks (hist 0)
      refine ⟨_, pf', hrun, .cons rfl ?_, hsim⟩
      rw [List.map_map, List.forall₂_map_left_iff, List.forall₂_map_right_iff, List.forall₂_same]
      exact fun p _ => rfl
    · intro n older anc hist pf ks hn hinv hks
      obtain ⟨pf', hrun, hsim⟩ := hinv.closing hn hks
      exact ⟨_, pf', hrun, .cons rfl .nil, hsim⟩
  obtain ⟨os, pf', hout, htok, -⟩ := hwalk
  have hflat : os.flatten = t.nodes.flatMap Node.mappings := by
    rw [← flatMap_tokenMappings, eq_map_of_forall₂ htok]
    rfl
  have hroom : (⟨0, table₀.mapping⟩ : PhandleTable).num + os.flatten.length <
      phandleNodeMappingCapacity := by
    rw [hflat, Nat.zero_add]
    exact hw.capacity
  obtain ⟨table, hadd, hentries⟩ := PhandleTable.foldlM_add_eq hroom
  refine ⟨table, ?_, by rw [hentries, hflat]; simp [PhandleTable.entries]⟩
  rw [parseFramesPhandle, hrun, foldlM_phandleStep hout hadd]
  rfl

end Tree

/-! ### Lookups -/

/-- The phandles of the nodes that are not ignored are distinct, and none is zero. -/
structure DeviceTree.PhandlesDistinct (t : DeviceTree) : Prop where
  nonzero : ∀ n ∈ t.nodes, n.phandle? ≠ some 0
  distinct : (t.nodes.filterMap Node.phandle?).Nodup

instance (t : DeviceTree) : Decidable t.PhandlesDistinct :=
  decidable_of_iff ((∀ n ∈ t.nodes, n.phandle? ≠ some 0) ∧
      (t.nodes.filterMap Node.phandle?).Nodup)
    ⟨fun ⟨h1, h2⟩ => ⟨h1, h2⟩, fun ⟨h1, h2⟩ => ⟨h1, h2⟩⟩

section Lookup

variable {n : Node} {p : ℕ}

/-- A node with a phandle adds one entry, any other none. -/
theorem mappings_eq (h : n.phandle? ≠ some 0) :
    n.mappings = if n.phandle?.isSome then [n.mapping] else [] := by
  rw [Node.mappings]
  cases hp : n.phandle? with
  | none => simp [Node.mapping, hp]
  | some p =>
      have hp0 : p ≠ 0 := fun h0 => h (by rw [hp, h0])
      simp [Node.mapping, hp, hp0]

theorem phandle_mapping (h : n.phandle? = some p) : n.mapping.phandle = p := by
  simp [Node.mapping, h]

/-- The entries are those of the nodes with a phandle. -/
theorem flatMap_mappings {ns : List Node} (h : ∀ n ∈ ns, n.phandle? ≠ some 0) :
    ns.flatMap Node.mappings = (ns.filter (·.phandle?.isSome)).map Node.mapping := by
  induction ns with
  | nil => rfl
  | cons n ns ih =>
      rw [List.flatMap_cons, mappings_eq (h n (by simp)), ih fun n hn => h n (by simp [hn]),
        List.filter_cons]
      cases n.phandle?.isSome <;> simp

/-- Their phandles are the phandles of these nodes. -/
theorem map_phandle {ns : List Node} :
    ((ns.filter (·.phandle?.isSome)).map Node.mapping).map NodeMapping.phandle =
      ns.filterMap Node.phandle? := by
  induction ns with
  | nil => rfl
  | cons n ns ih =>
      rw [List.filter_cons]
      cases hp : n.phandle? with
      | none => simpa [hp] using ih
      | some p => simpa [hp, phandle_mapping hp] using ih

variable {t : DeviceTree} {table : PhandleTable}
  (hentries : table.entries = (t.nodes.filter (·.phandle?.isSome)).map Node.mapping)
  (hdistinct : t.PhandlesDistinct)

include hentries

theorem mapping_mem_entries (hn : n ∈ t.nodes) (hp : n.phandle? = some p) :
    n.mapping ∈ table.entries := by
  rw [hentries]
  exact List.mem_map_of_mem (List.mem_filter.2 ⟨hn, by simp [hp]⟩)

include hdistinct

/-- Entries with the same phandle are at the same place. -/
theorem entry_unique {i j : ℕ} (hi : i < table.num) (hj : j < table.num)
    (h : (table.mapping i).phandle = (table.mapping j).phandle) : i = j := by
  have hnodup : ((List.range table.num).map fun i => (table.mapping i).phandle).Nodup := by
    have hmap : (List.range table.num).map (fun i => (table.mapping i).phandle) =
        table.entries.map NodeMapping.phandle := by
      simp [PhandleTable.entries]
    rw [hmap, hentries, map_phandle]
    exact hdistinct.distinct
  exact List.inj_on_of_nodup_map hnodup (List.mem_range.2 hi) (List.mem_range.2 hj) h

/-- **One entry for each node with a phandle**. -/
theorem existsUnique_entry (hn : n ∈ t.nodes) (hp : n.phandle? = some p) :
    ∃! i, i < table.num ∧ (table.mapping i).phandle = p ∧ table.mapping i = n.mapping := by
  obtain ⟨i, hi, hmapping⟩ := List.mem_map.1 (mapping_mem_entries hentries hn hp)
  have hphandle : (table.mapping i).phandle = p := by rw [hmapping, phandle_mapping hp]
  refine ⟨i, ⟨List.mem_range.1 hi, hphandle, hmapping⟩, fun j hj => ?_⟩
  exact entry_unique hentries hdistinct hj.1 (List.mem_range.1 hi) (hj.2.1.trans hphandle.symm)

/-- **A lookup finds the node with the phandle**, wherever it stands in the tree. -/
theorem lookup_of_mem (hnum : table.num ≤ phandleNodeMappingCapacity) (hn : n ∈ t.nodes)
    {c : NodeCells} (hp : n.phandle? = some c.interruptParent)
    (hcells : n.mapping.interruptCells ≠ 0) :
    c.lookupInterruptCells table = .ok n.mapping.interruptCells := by
  have hp0 : c.interruptParent ≠ 0 := fun h0 => hdistinct.nonzero n hn (by rw [hp, h0])
  have hfind : table.find c.interruptParent table.num 0 = .ok (some n.mapping) := by
    rw [PhandleTable.find_eq (by omega), ← List.range_eq_range']
    congr 1
    cases hsearch : ((List.range table.num).map table.mapping).find?
        (·.phandle = c.interruptParent) with
    | none =>
        have hnone := List.find?_eq_none.1 hsearch _ (mapping_mem_entries hentries hn hp)
        simp [phandle_mapping hp] at hnone
    | some e =>
        obtain ⟨j, hj, rfl⟩ := List.mem_map.1 (List.mem_of_find?_eq_some hsearch)
        have hphandle : (table.mapping j).phandle = c.interruptParent := by
          simpa using List.find?_some hsearch
        obtain ⟨i, ⟨hi, hphandle', hmapping⟩, -⟩ :=
          existsUnique_entry hentries hdistinct hn hp
        have hij := entry_unique hentries hdistinct (List.mem_range.1 hj) hi
          (hphandle.trans hphandle'.symm)
        rw [hij, hmapping]
  rw [NodeCells.lookupInterruptCells, kassert_of hp0, ok_bind, hfind, ok_bind]
  simp [kassert_of hcells]

end Lookup

/-- The interrupt parent in the frame of an ancestor is the one in force there. -/
theorem Chain.interrupt_ancestor {fit : List UInt8 → Prop} {m : Mem} {frames : ℕ → NodeFrame}
    {o : Open Node} {anc : List (Open Node)} (h : Chain fit m frames (o :: anc))
    (hfit : fit interruptParentName) {k i : ℕ}
    (hi : Floss.ancestorSlot frames k anc.length = some i) :
    (frames i).ownCells.interruptParent = interruptParent ((o :: anc).drop k) := by
  induction k generalizing o anc with
  | zero =>
      obtain rfl : anc.length = i := by simpa [Floss.ancestorSlot] using hi
      exact h.1.interrupt hfit
  | succ k ih =>
      rw [Floss.ancestorSlot, h.1.parent] at hi
      cases anc with
      | nil => simp [parentSlot] at hi
      | cons a anc => exact ih h.2 hi

/-- The properties of a name are as long as a cell in all nodes that are not ignored. -/
def DeviceTree.CellFits (t : DeviceTree) (name : List UInt8) : Prop :=
  ∀ n ∈ t.nodes, ∀ p ∈ n.stored, p.name = name → 4 ≤ p.value.length

instance (t : DeviceTree) (name : List UInt8) : Decidable (t.CellFits name) :=
  inferInstanceAs (Decidable (∀ n ∈ t.nodes, ∀ p ∈ n.stored, p.name = name →
    4 ≤ p.value.length))

/-- The first pass stores all that the second pass stores. -/
theorem kept_length_le_stored (n : Node) : n.kept.length ≤ n.stored.length := by
  rw [Node.kept, Node.stored]
  split
  · exact le_rfl
  · exact List.length_filter_le _ _

/-- A tree within the limits of the first pass is within those of the second. -/
theorem DeviceTree.WithinPhandle.withinFor {t : DeviceTree} (h : t.WithinPhandle) :
    t.WithinFor t.CellFits := by
  refine h.nodes.imp_of_mem fun d n hn hwithin => ⟨hwithin.root, hwithin.depth, ?_, ?_⟩
  · exact lt_of_le_of_lt (kept_length_le_stored n) hwithin.room
  · intro hi p hp hfits
    exact hfits n hn p (by simpa [Node.stored, hi] using hp) rfl

/-- **The first pass feeds the second.** On every flattened tree within the limits, with
distinct phandles, the first pass returns `ok` and the table then holds one entry for each
node with a phandle that is not ignored, with what the node itself has, and no other entry.
So during the second pass, whenever a handler asks for the interrupt cells of the node it
is called for (`k = 0`) or of one of its ancestors, it gets those of the node with the
phandle in the frame, before or after it in the tree; and that phandle is the interrupt
parent in force there, where `interrupt-parent` properties are as long as a cell. -/
theorem phandle_pass_feeds_full {m : Mem} {fdt : ℕ} {h : Header} {t : DeviceTree}
    (ht : FlattenedAt m fdt h t) (hwp : t.WithinPhandle) (hdistinct : t.PhandlesDistinct)
    (garbage garbage' : ℕ → NodeFrame) (table₀ : PhandleTable) :
    ∃ table calls, parseFramesPhandle m fdt garbage table₀ = .ok (.ok, table) ∧
      table.entries = (t.nodes.filter (·.phandle?.isSome)).map Node.mapping ∧
      (∀ n ∈ t.nodes, ∀ p, n.phandle? = some p →
        ∃! i, i < table.num ∧ (table.mapping i).phandle = p ∧ table.mapping i = n.mapping) ∧
      FullPassCalls m fdt garbage' calls ∧
      List.Forall₂ (fun tok cs => ∀ c ∈ cs, tok.1 = .endNode ∧
        ∀ k f, c.ancestor k = some f →
          (t.CellFits interruptParentName →
            f.ownCells.interruptParent = interruptParent (tok.2.drop k)) ∧
          ∀ n ∈ t.nodes, n.phandle? = some f.ownCells.interruptParent →
            n.mapping.interruptCells ≠ 0 →
            f.ownCells.lookupInterruptCells table = .ok n.mapping.interruptCells)
        t.labelled calls := by
  obtain ⟨table, hpass, hentries⟩ := phandlePass_flattened ht hwp garbage table₀
  have hnum : table.num ≤ phandleNodeMappingCapacity := by
    rw [← table.length_entries, hentries]
    exact hwp.capacity.le
  rw [flatMap_mappings hdistinct.nonzero] at hentries
  obtain ⟨calls, hcalls, htok⟩ := fullPassCalls_flattened ht hwp.withinFor garbage'
  refine ⟨table, calls, hpass, hentries,
    fun n hn p hp => existsUnique_entry hentries hdistinct hn hp, hcalls, htok.imp ?_⟩
  intro tok cs hcs c hc
  obtain ⟨o, anc, frames, hd, rfl, hchain, rfl⟩ := hcs.of_mem hc
  refine ⟨rfl, fun k f hf => ⟨fun hfits => ?_, fun n hn hp hcells => ?_⟩⟩
  · obtain ⟨i, hi, rfl⟩ := Option.map_eq_some_iff.1 hf
    exact Chain.interrupt_ancestor hchain hfits hi
  · exact lookup_of_mem hentries hdistinct hnum hn hp hcells

/-- A board whose UART comes before the interrupt controller it refers to. -/
def forwardTree : DeviceTree where
  props := [⟨cstr "interrupt-parent", bytes32 1⟩]
  children :=
    .cons ⟨cstr "uart@9000000", [⟨cstr "compatible", cstr "arm,pl011" ++ [0]⟩]⟩ .nil
      (.cons ⟨cstr "intc@8000000", [⟨phandleName, bytes32 1⟩,
        ⟨interruptCellsName, bytes32 3⟩]⟩ .nil .nil)

/-- The UART gets the interrupt cells of the controller behind it. -/
theorem phandle_pass_feeds_full_forwardTree :
    ∃ table calls,
      parseFramesPhandle (forwardTree.imageAt 4096) 4096 zeroedFrames {} = .ok (.ok, table) ∧
      table.entries = [{ phandle := 1, interruptCells := 3 }] ∧
      FullPassCalls (forwardTree.imageAt 4096) 4096 zeroedFrames calls ∧
      List.Forall₂ (fun tok cs => interruptParent tok.2 = 1 → ∀ c ∈ cs,
        c.frame.ownCells.lookupInterruptCells table = .ok 3) forwardTree.labelled calls := by
  obtain ⟨table, calls, hpass, hentries, -, hcalls, htok⟩ := phandle_pass_feeds_full
    (flattenedAt_image forwardTree 4096 (by decide +kernel) (by decide) (by decide))
    (by decide +kernel) (by decide +kernel) zeroedFrames zeroedFrames {}
  refine ⟨table, calls, hpass, hentries.trans (by decide +kernel), hcalls, htok.imp ?_⟩
  intro tok cs hcs hparent c hc
  have hmem : (⟨cstr "intc@8000000", [⟨phandleName, bytes32 1⟩,
      ⟨interruptCellsName, bytes32 3⟩]⟩ : Node) ∈ forwardTree.nodes := by decide +kernel
  obtain ⟨hinforce, hlookup⟩ := (hcs c hc).2 0 c.frame rfl
  have hp := hinforce (by decide +kernel)
  rw [List.drop_zero, hparent] at hp
  exact (hlookup _ hmem (by rw [hp]; decide +kernel) (by decide +kernel)).trans
    (by decide +kernel)

end Floss
