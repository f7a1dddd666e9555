import Floss.Platform

/-!
# From the Tree to the Platform

Whatever a blob looks like, byte by byte, the handlers end up with what the tree says. Each of
them is called for some of the nodes, in the order in which the nodes end, and between its
calls the others leave its variables alone; so each has its own share of the second pass.

* `Forest.collect`: what the nodes of a forest say, given the cell counts of their parents;
* `DeviceTree.Clean`: the trees on which no handler is called for a node that does not ask for
  it, and no cell count is another node's. On all others the kernel reads something else than
  the tree says;
* `ram_of_tree`: **the RAM regions are those of the memory nodes**;
* `cores_of_tree`: **the table of cores is the list of cpu nodes**, and the cores asked for are
  all but its first.
-/

namespace Floss

/-! ### One handler's share of the second pass -/

section Share

variable {σ τ α : Type}

/-- A part of the state that each step of a loop treats by itself is treated so by the loop. -/
theorem foldlM_proj {π : σ → τ} {f : σ → α → Exec σ} {g : τ → α → Exec τ}
    (h : ∀ s a s', f s a = .ok s' → g (π s) a = .ok (π s')) {l : List α} {s s' : σ}
    (hrun : l.foldlM f s = .ok s') : l.foldlM g (π s) = .ok (π s') := by
  induction l generalizing s with
  | nil =>
      obtain rfl : s = s' := by simpa using hrun
      rfl
  | cons a l ih =>
      rw [List.foldlM_cons, bind_eq_ok] at hrun
      obtain ⟨t, ht, hrun⟩ := hrun
      rw [List.foldlM_cons, h s a t ht, ok_bind]
      exact ih hrun

/-- The calls of one function; all others leave its variables alone. -/
def onlyFor (k : OnNode) (g : HandlerCall → σ → Exec σ) (s : σ) (c : HandlerCall) : Exec σ :=
  if c.handler.onNode = k then g c s else .ok s

theorem foldlM_onlyFor (k : OnNode) (g : HandlerCall → σ → Exec σ) (cs : List HandlerCall) (s : σ) :
    cs.foldlM (onlyFor k g) s =
      (cs.filter (·.handler.onNode = k)).foldlM (fun s c => g c s) s := by
  induction cs generalizing s with
  | nil => rfl
  | cons c cs ih =>
      by_cases hk : c.handler.onNode = k
      · rw [List.filter_cons_of_pos (by simp [hk]), List.foldlM_cons, List.foldlM_cons, onlyFor,
          if_pos hk]
        exact bind_congr fun t => ih t
      · rw [List.filter_cons_of_neg (by simp [hk]), List.foldlM_cons, onlyFor, if_neg hk, ok_bind,
          ih]

/-- A function with one entry `e` in the table is called at most once when a node ends: if its
entry matches. -/
theorem foldlM_onlyFor_dispatched {k : OnNode} {e : NodeHandler}
    (hone : nodeHandlers.filter (·.onNode = k) = [e]) (g : HandlerCall → σ → Exec σ)
    (seen : List Node) (frames : ℕ → NodeFrame) (i : ℕ) (s : σ) :
    ((dispatched seen).map fun h => (⟨h, frames, i⟩ : HandlerCall)).foldlM (onlyFor k g) s =
      if e.Matches (slotProp e.matchKind seen) then g ⟨e, frames, i⟩ s else .ok s := by
  have hcalls : ((dispatched seen).map fun h => (⟨h, frames, i⟩ : HandlerCall)).filter
      (·.handler.onNode = k) =
        ([e].filter fun h => h.Matches (slotProp h.matchKind seen)).map
          fun h => ⟨h, frames, i⟩ := by
    rw [List.filter_map, ← hone, dispatched, List.filter_filter, List.filter_filter]
    congr 1
    refine List.filter_congr fun h _ => ?_
    simp [Bool.and_comm]
  rw [foldlM_onlyFor, hcalls]
  by_cases he : e.Matches (slotProp e.matchKind seen)
  · rw [List.filter_cons_of_pos (by simp [he]), if_pos he]
    simp
  · rw [List.filter_cons_of_neg (by simp [he]), if_neg he]
    rfl

end Share

/-- **The variables of the handlers are apart**: each function of the table sets its own, and the
calls of the others leave them alone. -/
theorem Platform.onNode_shares {m : Mem} {fuel : ℕ} {garbage : ℕ → RegPair} {table : PhandleTable}
    {s s' : Platform} {c : HandlerCall} (h : s.onNode m fuel garbage table c = .ok s') :
    onlyFor .memoryDtParse (fun c ram => memoryDtParse m c.frame ram) s.ram c = .ok s'.ram ∧
      onlyFor .cpuDtParse (fun c cpus => CpuTable.dtParse m cpus c.frame) s.cpus c = .ok s'.cpus ∧
      onlyFor .psciDtParse (fun c psci => psciDtParse m c.frame psci) s.psci c = .ok s'.psci := by
  rw [Platform.onNode] at h
  simp only [onlyFor]
  split at h <;> rename_i hk <;> simp only [hk]
  all_goals
    simp only [bind_eq_ok, pure_eq_ok, Except.ok.injEq] at h
    obtain ⟨t, ht, rfl⟩ := h
  · exact ⟨rfl, rfl, ht⟩
  · exact ⟨rfl, rfl, rfl⟩
  · exact ⟨ht, rfl, rfl⟩
  · exact ⟨rfl, ht, rfl⟩
  · exact ⟨rfl, rfl, rfl⟩
  · exact ⟨rfl, rfl, rfl⟩
  · exact ⟨rfl, rfl, rfl⟩

/-! ### What a tree says -/

section Collect

variable {γ : Type} (g : ℕ → ℕ → Node → List γ)

/-- What `g` finds at the nodes of a forest, with the cell counts of their parents. A node
comes after its subnodes. -/
def Forest.collect : (address size : ℕ) → Forest Node → List γ
  | _, _, .nil => []
  | address, size, .cons n children rest =>
      Forest.collect n.ownAddress n.ownSize children ++
        (g address size n ++ Forest.collect address size rest)

/-- The cell counts that the innermost of the open nodes sets for its subnodes. -/
def ownCellsOf : List (Open Node) → ℕ × ℕ
  | [] => (2, 1)
  | a :: _ => (a.node.ownAddress, a.node.ownSize)

/-- What `g` finds at a token: at the end of a node, what it finds there. -/
def tokenCollect : Item × List (Open Node) → List γ
  | (.endNode, o :: anc) => g (ownCellsOf anc).1 (ownCellsOf anc).2 o.node
  | _ => []

/-- Token by token, the same is found. -/
theorem flatMap_tokenCollect (f : Forest Node) (anc : List (Open Node)) (hist : ℕ → List Node) :
    (f.walk Node.opening Node.closing anc hist).flatMap (tokenCollect g) =
      f.collect g (ownCellsOf anc).1 (ownCellsOf anc).2 := by
  induction f generalizing anc hist with
  | nil => rfl
  | cons n children rest ihc ihr =>
      have hopen : ∀ ctx, (n.opening.map (·, ctx)).flatMap (tokenCollect g) = [] := by
        intro ctx
        rw [List.flatMap_eq_nil_iff]
        intro tok htok
        obtain ⟨it, hit, rfl⟩ := List.mem_map.mp htok
        simp only [Node.opening, List.mem_cons, List.mem_map] at hit
        rcases hit with rfl | ⟨p, -, rfl⟩
        · rfl
        · rfl
      simp only [Forest.walk, List.flatMap_append, hopen, ihc, ihr, List.nil_append, Forest.collect]
      simp [Node.closing, tokenCollect, ownCellsOf]

end Collect

/-- The trees on which the handlers are given the nodes and the cell counts they should be:
no node is matched by what earlier ones left behind, and no cell count is taken over. -/
structure DeviceTree.Clean (t : DeviceTree) : Prop where
  noStaleMatch : ∀ tok ∈ t.labelled, NoStaleMatch tok
  noStaleCells : ∀ tok ∈ t.labelled, NoStaleCells tok
  fits : ∀ tok ∈ t.labelled, ∀ o ∈ tok.2, o.node.ownAddress + o.node.ownSize < 2 ^ 30

instance (t : DeviceTree) : Decidable t.Clean :=
  decidable_of_iff ((∀ tok ∈ t.labelled, NoStaleMatch tok) ∧
      (∀ tok ∈ t.labelled, NoStaleCells tok) ∧
      ∀ tok ∈ t.labelled, ∀ o ∈ tok.2, o.node.ownAddress + o.node.ownSize < 2 ^ 30)
    ⟨fun ⟨h1, h2, h3⟩ => ⟨h1, h2, h3⟩, fun ⟨h1, h2, h3⟩ => ⟨h1, h2, h3⟩⟩

/-- The frame of a node that is handled in a clean tree shows the node, and the cell counts of
its parent. -/
theorem frame_of_clean {m : Mem} {frames : ℕ → NodeFrame} {o : Open Node} {anc : List (Open Node)}
    (hchain : Chain (· ∈ cellNames) m frames (o :: anc))
    (hcells : NoStaleCells (.endNode, o :: anc)) (hcalled : dispatched (o.node :: o.earlier) ≠ []) :
    FrameOf m o.node (frames anc.length) ∧ o.node.kept.length < maxPropsPerNode ∧
      (frames anc.length).parentCells.address = (ownCellsOf anc).1 ∧
      (frames anc.length).parentCells.size = (ownCellsOf anc).2 := by
  have hlive := hchain.1
  refine ⟨hlive.frameOf, hlive.bound _ (by simp), ?_, ?_⟩
  · rw [hlive.parentAddress (by simp [cellNames])]
    cases anc with
    | nil => rfl
    | cons a anc => exact (hcells hcalled a (by simp)).1
  · rw [hlive.parentSize (by simp [cellNames])]
    cases anc with
    | nil => rfl
    | cons a anc => exact (hcells hcalled a (by simp)).2

theorem dispatched_ne_nil {seen : List Node} {e : NodeHandler} (he : e ∈ nodeHandlers)
    (hcalled : e.Matches (slotProp e.matchKind seen)) : dispatched seen ≠ [] :=
  List.ne_nil_of_mem (List.mem_filter.mpr ⟨he, by simpa using hcalled⟩)

theorem parentCells_lt {f : NodeFrame} {it : Item} {o : Open Node} {anc : List (Open Node)}
    (haddress : f.parentCells.address = (ownCellsOf anc).1)
    (hsize : f.parentCells.size = (ownCellsOf anc).2)
    (hfit : ∀ a ∈ ((it, o :: anc) : Item × List (Open Node)).2,
      a.node.ownAddress + a.node.ownSize < 2 ^ 30) :
    f.parentCells.address + f.parentCells.size < 2 ^ 30 := by
  rw [haddress, hsize]
  cases anc with
  | nil => decide
  | cons a anc => exact hfit a (by simp)

/-- Without stale matches, a node that is not ignored is matched by what it says itself. -/
theorem matches_own_iff {o : Open Node} {anc : List (Open Node)}
    (hmatch : NoStaleMatch (.endNode, o :: anc)) (hi : o.node.ignored = false) {e : NodeHandler}
    (he : e ∈ nodeHandlers) :
    e.Matches (slotProp e.matchKind (o.node :: o.earlier)) ↔
      e.Matches (o.node.prop? e.matchKind.propName) := by
  cases hown : o.node.prop? e.matchKind.propName with
  | some p => rw [slotProp_of_own hi hown]
  | none =>
      have hnot := hmatch hi e he hown
      refine iff_of_false hnot ?_
      rintro ⟨q, hq, -⟩
      exact nomatch hq

/-- **A share of the second pass.** Let `π` be what one function sets, `g` what it should find
at a node, and `R xs s` say that `s` is right after finding `xs`. If the calls at each token take
`R` along, then at the end the function has found what the tree says. -/
theorem share_of_tree {σ γ : Type} {m : Mem} {fdt : ℕ} {h : Header} {t : DeviceTree}
    (ht : FlattenedAt m fdt h t) (hw : t.Within) {garbage : ℕ → NodeFrame}
    {onNode : Platform → HandlerCall → Exec Platform} {P : Platform} {status : Status}
    (hrun : parseFramesFull m fdt garbage onNode {} = .ok (status, P))
    {π : Platform → σ} {f : σ → HandlerCall → Exec σ} {g : ℕ → ℕ → Node → List γ}
    {R : List γ → σ → Prop} (hproj : ∀ s c s', onNode s c = .ok s' → f (π s) c = .ok (π s'))
    (hstart : R [] (π {}))
    (hstep : ∀ tok ∈ t.labelled, ∀ cs xs s s', TokenCalls (· ∈ cellNames) m tok cs → R xs s →
      cs.foldlM f s = .ok s' → R (xs ++ tokenCollect g tok) s') :
    R (t.forest.collect g 2 1) (π P) := by
  obtain ⟨calls, hpass, htok⟩ := fullPassCalls_flattened ht hw.withinFor garbage
  rw [hpass.run, bind_eq_ok] at hrun
  obtain ⟨P', hrun, heq⟩ := hrun
  obtain rfl : P' = P := (Prod.mk.inj (Except.ok.inj heq)).2
  have hshare := foldlM_proj hproj hrun
  have hall : ∀ toks calls xs s, List.Forall₂ (TokenCalls (· ∈ cellNames) m) toks calls →
      (∀ tok ∈ toks, tok ∈ t.labelled) → R xs s → calls.flatten.foldlM f s = .ok (π P') →
        R (xs ++ toks.flatMap (tokenCollect g)) (π P') := by
    intro toks calls xs s hcalls hmem hR hrun
    induction hcalls generalizing xs s with
    | nil =>
        obtain rfl : s = π P' := by simpa using hrun
        simpa using hR
    | @cons tok cs toks calls hcs _ ih =>
        rw [List.flatten_cons, foldlM_append_eq_ok] at hrun
        obtain ⟨u, hfirst, hrest⟩ := hrun
        rw [List.flatMap_cons, ← List.append_assoc]
        exact ih _ u (fun tok' h' => hmem tok' (by simp [h']))
          (hstep tok (hmem tok (by simp)) cs xs s u hcs hR hfirst) hrest
  have hend := hall t.labelled calls [] (π {}) htok (fun _ h => h) hstart hshare
  rwa [List.nil_append, DeviceTree.labelled, flatMap_tokenCollect] at hend

/-! ### RAM -/

/-- The entry of the memory handler. -/
def memoryEntry : NodeHandler := ⟨cstr "memory", .deviceType, .memoryDtParse⟩

/-- A memory node says so itself, and is not ignored. -/
def Node.IsMemory (n : Node) : Prop :=
  n.ignored = false ∧ memoryEntry.Matches (n.prop? (cstr "device_type"))

instance (n : Node) : Decidable n.IsMemory :=
  inferInstanceAs (Decidable (_ ∧ _))

/-- The regions of a node, if it is a memory node. -/
def Node.memory (address size : ℕ) (n : Node) : List Region :=
  if n.IsMemory then n.regions address size else []

/-- **The memory of a tree**: what the `reg` properties of its memory nodes name. -/
def DeviceTree.memory (t : DeviceTree) : List Region := t.forest.collect Node.memory 2 1

/-- At the end of a node, its regions are added. -/
theorem ram_token {m : Mem} {tok : Item × List (Open Node)} {cs : List HandlerCall}
    (hcs : TokenCalls (· ∈ cellNames) m tok cs) (hmatch : NoStaleMatch tok)
    (hcells : NoStaleCells tok)
    (hfit : ∀ o ∈ tok.2, o.node.ownAddress + o.node.ownSize < 2 ^ 30) {ram ram' : List Region}
    (hrun : cs.foldlM (onlyFor .memoryDtParse fun c ram => memoryDtParse m c.frame ram) ram =
      .ok ram') : addRegions ram (tokenCollect Node.memory tok) = .ok ram' := by
  obtain ⟨it, ctx⟩ := tok
  match it, ctx, hcs with
  | .endNode, o :: anc, ⟨frames, hchain, hcs⟩ =>
      have hone : nodeHandlers.filter (·.onNode = .memoryDtParse) = [memoryEntry] := by decide
      have hentry : memoryEntry ∈ nodeHandlers := by decide
      rw [hcs, foldlM_onlyFor_dispatched hone] at hrun
      by_cases hcalled : memoryEntry.Matches (slotProp memoryEntry.matchKind (o.node :: o.earlier))
      · obtain ⟨hframe, hroom, haddress, hsize⟩ :=
          frame_of_clean hchain hcells (dispatched_ne_nil hentry hcalled)
        rw [if_pos hcalled] at hrun
        have hsum := parentCells_lt haddress hsize hfit
        have hadd := ((memoryDtParse_eq_ok hframe hroom hsum).mp hrun).2
        rw [haddress, hsize] at hadd
        rw [tokenCollect, Node.memory]
        by_cases hi : o.node.ignored = false
        · rwa [if_pos ⟨hi, (matches_own_iff hmatch hi hentry).mp hcalled⟩]
        · -- an ignored node has no properties to read
          have hkept : o.node.kept = [] := by simp [Node.kept, hi]
          rw [Node.regions, hkept] at hadd
          rwa [if_neg fun hmem => hi hmem.1]
      · rw [if_neg hcalled] at hrun
        obtain rfl : ram = ram' := by simpa using hrun
        rw [tokenCollect, Node.memory, if_neg ?_]
        · rfl
        · rintro ⟨hi, hown⟩
          exact hcalled ((matches_own_iff hmatch hi hentry).mpr hown)
  | .endNode, [], hcs | .beginNode _, _, hcs | .prop _, _, hcs =>
      obtain rfl : cs = [] := hcs
      exact hrun

/-- On the blob of a clean tree, the RAM regions are those of the memory nodes, added in the
order in which the nodes end. -/
theorem ram_added {m : Mem} {fdt : ℕ} {h : Header} {t : DeviceTree} (ht : FlattenedAt m fdt h t)
    (hw : t.Within) (hclean : t.Clean) {garbage : ℕ → NodeFrame} {fuel : ℕ}
    {regs : ℕ → RegPair} {table : PhandleTable} {P : Platform} {status : Status}
    (hrun : parseFramesFull m fdt garbage (Platform.onNode m fuel regs table) {} =
      .ok (status, P)) : addRegions [] t.memory = .ok P.ram := by
  refine @share_of_tree _ _ m fdt h t ht hw garbage _ P status hrun Platform.ram
    (onlyFor .memoryDtParse fun c ram => memoryDtParse m c.frame ram) Node.memory
    (fun xs ram => addRegions [] xs = .ok ram) (fun s c s' h => (Platform.onNode_shares h).1) rfl ?_
  intro tok hmem cs xs ram ram' hcs hadded hrun
  have htok := ram_token hcs (hclean.noStaleMatch tok hmem) (hclean.noStaleCells tok hmem)
    (hclean.fits tok hmem) hrun
  exact addRegions_append_eq_ok.mpr ⟨ram, hadded, htok⟩

/-! ### Cores -/

/-- The entry of the cpu handler. -/
def cpuEntry : NodeHandler := ⟨cstr "cpu", .deviceType, .cpuDtParse⟩

/-- A cpu node says so itself, and is not ignored. -/
def Node.IsCpu (n : Node) : Prop :=
  n.ignored = false ∧ cpuEntry.Matches (n.prop? (cstr "device_type"))

instance (n : Node) : Decidable n.IsCpu :=
  inferInstanceAs (Decidable (_ ∧ _))

/-- The core of a node, if it is a cpu node. -/
def Node.cores (address _size : ℕ) (n : Node) : List CpuInformation :=
  if n.IsCpu then [n.core address] else []

/-- **The cores of a tree**, in the order in which their nodes end. A node ends after its
subnodes. -/
def DeviceTree.cores (t : DeviceTree) : List CpuInformation := t.forest.collect Node.cores 2 1

/-- At the end of a node: the properties of a cpu node have values of their types, and a node
that is ignored does not find what a cpu node left behind. -/
def CoreToken : Item × List (Open Node) → Prop
  | (.endNode, o :: _) => (o.node.IsCpu → o.node.CoreTyped) ∧
      (o.node.ignored = true →
        ¬ cpuEntry.Matches (slotProp cpuEntry.matchKind (o.node :: o.earlier)))
  | _ => True

instance : DecidablePred CoreToken
  | (.endNode, o :: _) => inferInstanceAs (Decidable ((o.node.IsCpu → o.node.CoreTyped) ∧
      (o.node.ignored = true →
        ¬ cpuEntry.Matches (slotProp cpuEntry.matchKind (o.node :: o.earlier)))))
  | (.endNode, []) | (.beginNode _, _) | (.prop _, _) => inferInstanceAs (Decidable True)

/-- One more core in the table. -/
theorem dtParse_ofList {m : Mem} {f : NodeFrame} {infos : List CpuInformation} {t : CpuTable}
    (h : CpuTable.dtParse m (.ofList infos) f = .ok t) :
    ∃ info, cpuInfo m f {} = .ok info ∧ t = .ofList (infos ++ [info]) := by
  have hempty : infos.getD infos.length ({} : CpuInformation) = {} := by simp
  simp only [CpuTable.dtParse, CpuTable.ofList, bind_eq_ok, hempty, pure_eq_ok,
    Except.ok.injEq] at h
  obtain ⟨_, -, info, hinfo, rfl⟩ := h
  refine ⟨info, hinfo, ?_⟩
  rw [update_getD, CpuTable.ofList, List.length_append, List.length_singleton]

/-- At the end of a node, its core is recorded. -/
theorem cores_token {m : Mem} {tok : Item × List (Open Node)} {cs : List HandlerCall}
    (hcs : TokenCalls (· ∈ cellNames) m tok cs) (hmatch : NoStaleMatch tok)
    (hcells : NoStaleCells tok)
    (hfit : ∀ o ∈ tok.2, o.node.ownAddress + o.node.ownSize < 2 ^ 30) (hcore : CoreToken tok)
    {infos : List CpuInformation} {t : CpuTable}
    (hrun : cs.foldlM (onlyFor .cpuDtParse fun c cpus => CpuTable.dtParse m cpus c.frame)
      (.ofList infos) = .ok t) : t = .ofList (infos ++ tokenCollect Node.cores tok) := by
  obtain ⟨it, ctx⟩ := tok
  match it, ctx, hcs with
  | .endNode, o :: anc, ⟨frames, hchain, hcs⟩ =>
      have hone : nodeHandlers.filter (·.onNode = .cpuDtParse) = [cpuEntry] := by decide
      have hentry : cpuEntry ∈ nodeHandlers := by decide
      rw [hcs, foldlM_onlyFor_dispatched hone] at hrun
      by_cases hcalled : cpuEntry.Matches (slotProp cpuEntry.matchKind (o.node :: o.earlier))
      · have hi : o.node.ignored = false := by
          by_contra hi
          exact hcore.2 (by simpa using hi) hcalled
        have hcpu : o.node.IsCpu := ⟨hi, (matches_own_iff hmatch hi hentry).mp hcalled⟩
        obtain ⟨hframe, hroom, haddress, hsize⟩ :=
          frame_of_clean hchain hcells (dispatched_ne_nil hentry hcalled)
        rw [if_pos hcalled] at hrun
        obtain ⟨info, hinfo, rfl⟩ := dtParse_ofList hrun
        have hsum := parentCells_lt haddress hsize hfit
        have heq := cpuInfo_core hframe hi hroom hsum (hcore.1 hcpu) hinfo
        rw [tokenCollect, Node.cores, if_pos hcpu, heq, haddress]
      · rw [if_neg hcalled] at hrun
        obtain rfl : CpuTable.ofList infos = t := by simpa using hrun
        rw [tokenCollect, Node.cores, if_neg ?_, List.append_nil]
        rintro ⟨hi, hown⟩
        exact hcalled ((matches_own_iff hmatch hi hentry).mpr hown)
  | .endNode, [], hcs | .beginNode _, _, hcs | .prop _, _, hcs =>
      obtain rfl : cs = [] := hcs
      obtain rfl : CpuTable.ofList infos = t := by simpa using hrun
      exact congrArg _ (List.append_nil _).symm

/-! ### PSCI -/

/-- The entry of the PSCI handler. -/
def psciEntry : NodeHandler := ⟨cstr "arm,psci-1.0", .compatible, .psciDtParse⟩

/-- A PSCI node says so itself, and is not ignored. -/
def Node.IsPsci (n : Node) : Prop :=
  n.ignored = false ∧ psciEntry.Matches (n.prop? (cstr "compatible"))

instance (n : Node) : Decidable n.IsPsci :=
  inferInstanceAs (Decidable (_ ∧ _))

def Node.psciNodes (_address _size : ℕ) (n : Node) : List Node := if n.IsPsci then [n] else []

/-- **What the PSCI nodes of a tree set**, each over those before it and the first over the
defaults. -/
def DeviceTree.psci (t : DeviceTree) : Psci :=
  (t.forest.collect Node.psciNodes 2 1).foldl Node.psci {}

/-- At the end of a node: the method of a PSCI node is a string. -/
def PsciToken : Item × List (Open Node) → Prop
  | (.endNode, o :: _) => o.node.PsciTyped
  | _ => True

instance : DecidablePred PsciToken
  | (.endNode, o :: _) => inferInstanceAs (Decidable o.node.PsciTyped)
  | (.endNode, []) | (.beginNode _, _) | (.prop _, _) => inferInstanceAs (Decidable True)

/-- At the end of a node, what it says is set. -/
theorem psci_token {m : Mem} {tok : Item × List (Open Node)} {cs : List HandlerCall}
    (hcs : TokenCalls (· ∈ cellNames) m tok cs) (hmatch : NoStaleMatch tok)
    (hcells : NoStaleCells tok) (htyped : PsciToken tok) {s s' : Psci}
    (hrun : cs.foldlM (onlyFor .psciDtParse fun c psci => psciDtParse m c.frame psci) s = .ok s') :
    s' = (tokenCollect Node.psciNodes tok).foldl Node.psci s ∧
      (s.method ≠ .unknown → s'.method ≠ .unknown) := by
  obtain ⟨it, ctx⟩ := tok
  match it, ctx, hcs with
  | .endNode, o :: anc, ⟨frames, hchain, hcs⟩ =>
      have hone : nodeHandlers.filter (·.onNode = .psciDtParse) = [psciEntry] := by decide
      have hentry : psciEntry ∈ nodeHandlers := by decide
      rw [hcs, foldlM_onlyFor_dispatched hone] at hrun
      rw [tokenCollect, Node.psciNodes]
      by_cases hcalled : psciEntry.Matches (slotProp psciEntry.matchKind (o.node :: o.earlier))
      · obtain ⟨hframe, hroom, -, -⟩ :=
          frame_of_clean hchain hcells (dispatched_ne_nil hentry hcalled)
        rw [if_pos hcalled] at hrun
        obtain ⟨heq, hknown⟩ := psciDtParse_psci hframe hroom htyped hrun
        refine ⟨?_, hknown⟩
        by_cases hi : o.node.ignored = false
        · rw [if_neg (by simp [hi])] at heq
          rw [if_pos ⟨hi, (matches_own_iff hmatch hi hentry).mp hcalled⟩]
          exact heq
        · rw [if_pos (by simpa using hi)] at heq
          rw [if_neg fun hpsci => hi hpsci.1]
          exact heq
      · rw [if_neg hcalled] at hrun
        obtain rfl : s = s' := by simpa using hrun
        refine ⟨?_, id⟩
        rw [if_neg ?_]
        · rfl
        · rintro ⟨hi, hown⟩
          exact hcalled ((matches_own_iff hmatch hi hentry).mpr hown)
  | .endNode, [], hcs | .beginNode _, _, hcs | .prop _, _, hcs =>
      obtain rfl : cs = [] := hcs
      obtain rfl : s = s' := by simpa using hrun
      exact ⟨rfl, id⟩

/-! ### Starting the cores -/

/-- What is done to start a core: a call into the firmware with four arguments, or a store to
the address that the core watches. -/
inductive BootRequest
  | call (method : PsciMethod) (x0 x1 x2 x3 : ℕ)
  | store (address value : ℕ)
  deriving DecidableEq, Repr

/-- `PSCI::boot_core`. An unknown method does nothing. -/
def psciBootCore (psci : Psci) (targetCpu entryPointAddress contextId : ℕ) : List BootRequest :=
  match psci.method with
  | .hypervisor => [.call .hypervisor psci.cpuOn targetCpu entryPointAddress contextId]
  | .secureMonitor => [.call .secureMonitor psci.cpuOn targetCpu entryPointAddress contextId]
  | .unknown => []

/-- `SpinTable::boot_core`. -/
def spinTableBootCore (spinAddress entryPointAddress : ℕ) : List BootRequest :=
  [.store spinAddress entryPointAddress]

/-- The loop of `CPU::boot_secondary_cores` from entry `i` on, with what it does and how it
ends. -/
def bootRequests (psci : Psci) (secondaryStart : ℕ) :
    (i : ℕ) → List CpuInformation → List BootRequest × Exec Unit
  | _, [] => ([], .ok ())
  | i, info :: rest =>
      match info.enableMethod with
      | .psci =>
          if psci.cpuOn ≠ 0 then
            let (log, r) := bootRequests psci secondaryStart (i + 1) rest
            (psciBootCore psci info.reg secondaryStart i ++ log, r)
          else
            ([], .error (.panic "precond\n"))
      | .spinTable =>
          let (log, r) := bootRequests psci secondaryStart (i + 1) rest
          (spinTableBootCore info.releaseAddress secondaryStart ++ log, r)
      | .unknown => ([], .error (.panic "CPU (%z) with unknown enable method\n"))

/-- `CPU::boot_secondary_cores`. -/
def CpuTable.bootRequests (psci : Psci) (secondaryStart : ℕ) (t : CpuTable) :
    List BootRequest × Exec Unit :=
  Floss.bootRequests psci secondaryStart 1 ((List.range' 1 (t.num - 1)).map t.info)

/-- The one request for a core at position `i` of the table. -/
def CpuInformation.request (psci : Psci) (secondaryStart i : ℕ) (info : CpuInformation) :
    BootRequest :=
  if info.enableMethod = .psci then .call psci.method psci.cpuOn info.reg secondaryStart i
  else .store info.releaseAddress secondaryStart

/-- One request for each core up to one that cannot be asked for. -/
theorem fst_bootRequests {psci : Psci} (hknown : psci.method ≠ .unknown) (secondaryStart i : ℕ)
    (infos : List CpuInformation) :
    (bootRequests psci secondaryStart i infos).1 =
      (infos.takeWhile fun c => c.Bootable psci.cpuOn).mapIdx fun j c =>
        c.request psci secondaryStart (i + j) := by
  induction infos generalizing i with
  | nil => rfl
  | cons info rest ih =>
      obtain ⟨reg, method, release⟩ := info
      have hcall : ∀ c, psciBootCore psci reg secondaryStart c =
          [.call psci.method psci.cpuOn reg secondaryStart c] := by
        intro c
        rw [psciBootCore]
        cases hmethod : psci.method with
        | hypervisor => rfl
        | secureMonitor => rfl
        | unknown => exact absurd hmethod hknown
      have hshift : ∀ j (c : CpuInformation), c.request psci secondaryStart (i + 1 + j) =
          c.request psci secondaryStart (i + (j + 1)) := by
        intro j c
        rw [Nat.add_assoc, Nat.add_comm 1]
      cases method with
      | psci =>
          by_cases hon : psci.cpuOn = 0
          · have hnot : ¬ CpuInformation.Bootable psci.cpuOn ⟨reg, .psci, release⟩ := fun h => h hon
            rw [List.takeWhile_cons_of_neg (by simpa using hnot)]
            simp [bootRequests, hon]
          · have hboot : CpuInformation.Bootable psci.cpuOn ⟨reg, .psci, release⟩ := hon
            rw [List.takeWhile_cons_of_pos (by simpa using hboot), List.mapIdx_cons]
            simp only [bootRequests, if_pos hon, hcall, ih, hshift, List.singleton_append]
            rfl
      | spinTable =>
          have hboot : CpuInformation.Bootable psci.cpuOn ⟨reg, .spinTable, release⟩ := trivial
          rw [List.takeWhile_cons_of_pos (by simpa using hboot), List.mapIdx_cons]
          simp only [bootRequests, spinTableBootCore, ih, hshift, List.singleton_append]
          rfl
      | unknown =>
          have hnot : ¬ CpuInformation.Bootable psci.cpuOn ⟨reg, .unknown, release⟩ := id
          rw [List.takeWhile_cons_of_neg (by simpa using hnot)]
          rfl

section Tree

variable {m : Mem} {fdt : ℕ} {h : Header} {t : DeviceTree} {garbage : ℕ → NodeFrame} {fuel : ℕ}
  {regs : ℕ → RegPair} {table : PhandleTable} {P : Platform} {status : Status}

/-- The table of cores. -/
theorem cores_recorded (ht : FlattenedAt m fdt h t) (hw : t.Within) (hclean : t.Clean)
    (hcore : ∀ tok ∈ t.labelled, CoreToken tok)
    (hrun : parseFramesFull m fdt garbage (Platform.onNode m fuel regs table) {} =
      .ok (status, P)) : P.cpus = .ofList t.cores := by
  refine @share_of_tree _ _ m fdt h t ht hw garbage _ P status hrun Platform.cpus
    (onlyFor .cpuDtParse fun c cpus => CpuTable.dtParse m cpus c.frame) Node.cores
    (fun xs cpus => cpus = .ofList xs) (fun s c s' h => (Platform.onNode_shares h).2.1) rfl ?_
  rintro tok hmem cs xs _ cpus' hcs rfl hrun
  exact cores_token hcs (hclean.noStaleMatch tok hmem) (hclean.noStaleCells tok hmem)
    (hclean.fits tok hmem) (hcore tok hmem) hrun

/-- The way to call PSCI. -/
theorem psci_set (ht : FlattenedAt m fdt h t) (hw : t.Within) (hclean : t.Clean)
    (hpsci : ∀ tok ∈ t.labelled, PsciToken tok)
    (hrun : parseFramesFull m fdt garbage (Platform.onNode m fuel regs table) {} =
      .ok (status, P)) : P.psci = t.psci ∧ t.psci.method ≠ .unknown := by
  have hend := @share_of_tree _ _ m fdt h t ht hw garbage _ P status hrun Platform.psci
    (onlyFor .psciDtParse fun c psci => psciDtParse m c.frame psci) Node.psciNodes
    (fun xs psci => psci = xs.foldl Node.psci {} ∧ psci.method ≠ .unknown)
    (fun s c s' h => (Platform.onNode_shares h).2.2) ⟨rfl, by simp⟩ ?_
  · have heq : P.psci = t.psci := hend.1
    exact ⟨heq, heq ▸ hend.2⟩
  · rintro tok hmem cs xs psci psci' hcs ⟨rfl, hknown⟩ hrun
    obtain ⟨heq, hknown'⟩ := psci_token hcs (hclean.noStaleMatch tok hmem)
      (hclean.noStaleCells tok hmem) (hpsci tok hmem) hrun
    exact ⟨by rw [heq, List.foldl_append], hknown' hknown⟩

/-- Both passes; the second one made the calls. -/
theorem full_of_parseFrames {garbage' : ℕ → NodeFrame} {table' : PhandleTable}
    (hrun : parseFrames m fdt garbage garbage' (Platform.onNode m fuel regs) table {} =
      .ok (.ok, table', P)) :
    parseFramesFull m fdt garbage' (Platform.onNode m fuel regs table') {} = .ok (.ok, P) := by
  simp only [parseFrames, bind_eq_ok] at hrun
  obtain ⟨⟨status, table₁⟩, -, hrun⟩ := hrun
  by_cases hok : status = .ok
  · simp only [hok, ne_eq, not_true_eq_false, if_false, bind_eq_ok, pure_eq_ok, Except.ok.injEq,
      Prod.mk.injEq, Prod.exists] at hrun
    obtain ⟨status', P', hfull, rfl, rfl, rfl⟩ := hrun
    exact hfull
  · simp [hok] at hrun

end Tree

/-! ### The results -/

/-- **RAM is what the memory nodes name.** On the blob of a clean tree, whenever `parse_frames`
returns with success, the RAM regions cover the addresses in the `reg` properties of the
memory nodes and no others; and they are disjoint if those are. -/
theorem ram_of_tree {m : Mem} {fdt : ℕ} {h : Header} {t : DeviceTree} (ht : FlattenedAt m fdt h t)
    (hw : t.Within) (hclean : t.Clean) (hwrap : NoWrap t.memory) {garbage garbage' : ℕ → NodeFrame}
    {fuel : ℕ} {regs : ℕ → RegPair} {table table' : PhandleTable} {P : Platform}
    (hrun : parseFrames m fdt garbage garbage' (Platform.onNode m fuel regs) table {} =
      .ok (.ok, table', P)) :
    (∀ a, Covers P.ram a ↔ Covers t.memory a) ∧
      (PairwiseDisjoint t.memory → PairwiseDisjoint P.ram) :=
  (addRegions_spec hwrap (ram_added ht hw hclean (full_of_parseFrames hrun))).2

/-- **Cores are started as the cpu nodes say.** On the blob of a clean tree whose cpu and PSCI
nodes have values of their types, whenever `parse_frames` returns with success, the table of
cores is the list of cpu nodes in the order in which they end, and `boot_secondary_cores` makes
one request for each of them but the first, in this order, up to one that cannot be asked for: a
`CPU_ON` call by the method and with the function that the PSCI nodes name, or a store to the
release address. -/
theorem cores_of_tree {m : Mem} {fdt : ℕ} {h : Header} {t : DeviceTree}
    (ht : FlattenedAt m fdt h t) (hw : t.Within) (hclean : t.Clean)
    (hcore : ∀ tok ∈ t.labelled, CoreToken tok) (hpsci : ∀ tok ∈ t.labelled, PsciToken tok)
    {garbage garbage' : ℕ → NodeFrame} {fuel : ℕ} {regs : ℕ → RegPair}
    {table table' : PhandleTable} {P : Platform}
    (hrun : parseFrames m fdt garbage garbage' (Platform.onNode m fuel regs) table {} =
      .ok (.ok, table', P)) :
    P.cpus = .ofList t.cores ∧ ∀ secondaryStart,
      (P.cpus.bootRequests P.psci secondaryStart).1 =
        (t.cores.tail.takeWhile fun c => c.Bootable t.psci.cpuOn).mapIdx fun j c =>
          c.request t.psci secondaryStart (1 + j) := by
  have hfull := full_of_parseFrames hrun
  obtain ⟨heq, hknown⟩ := psci_set ht hw hclean hpsci hfull
  have hcores := cores_recorded ht hw hclean hcore hfull
  refine ⟨hcores, fun secondaryStart => ?_⟩
  have hnum : (CpuTable.ofList t.cores).num = t.cores.length := rfl
  rw [hcores, heq, CpuTable.bootRequests, hnum, map_ofList_range', fst_bootRequests hknown]

/-! ### A board with two cores -/

/-- One GiB of RAM, and two cores of which the second is started by PSCI. -/
def twoCoreTree : DeviceTree where
  props := []
  children :=
    .cons ⟨cstr "cpus", [⟨cstr "#address-cells", bytes32 1⟩, ⟨cstr "#size-cells", bytes32 0⟩]⟩
      (.cons ⟨cstr "cpu@0", [⟨cstr "device_type", cstr "cpu"⟩, ⟨cstr "reg", bytes32 0⟩]⟩ .nil
        (.cons ⟨cstr "cpu@1", [⟨cstr "device_type", cstr "cpu"⟩, ⟨cstr "reg", bytes32 1⟩,
          ⟨cstr "enable-method", cstr "psci" ++ [0]⟩]⟩ .nil .nil))
    (.cons ⟨cstr "memory", [⟨cstr "device_type", cstr "memory"⟩,
        ⟨cstr "reg", bytes32 0 ++ bytes32 0x40000000 ++ bytes32 0x40000000⟩]⟩ .nil
      (.cons ⟨cstr "psci", [⟨cstr "compatible", cstr "arm,psci-1.0"⟩,
        ⟨cstr "method", cstr "hvc" ++ [0]⟩]⟩ .nil .nil))

theorem flattenedAt_twoCoreTree :
    FlattenedAt (twoCoreTree.imageAt 4096) 4096 twoCoreTree.imageHeader twoCoreTree :=
  flattenedAt_image twoCoreTree 4096 (by decide +kernel) (by decide) (by decide)

/-- The regions that the passes leave, if they return with success. -/
def regionsLeft : Exec (Status × PhandleTable × Platform) → Option (List Region × List Region)
  | .ok (.ok, _, P) => some (P.ram, P.devices)
  | _ => none

theorem exists_of_regionsLeft {r : Exec (Status × PhandleTable × Platform)}
    {ram devices : List Region} (h : regionsLeft r = some (ram, devices)) :
    ∃ table P, r = .ok (.ok, table, P) ∧ P.ram = ram ∧ P.devices = devices := by
  rcases r with e | ⟨status, table, P⟩
  · exact nomatch h
  · cases status with
    | ok =>
        obtain ⟨hram, hdevices⟩ := Prod.mk.inj (Option.some.inj h)
        exact ⟨table, P, rfl, hram, hdevices⟩
    | _ => exact nomatch h

/-- The passes run through. -/
theorem parseFrames_twoCoreTree :
    ∃ table P, parseFrames (twoCoreTree.imageAt 4096) 4096 zeroedFrames zeroedFrames
        (Platform.onNode (twoCoreTree.imageAt 4096) 0 fun _ => ⟨0, 0⟩) {} {} =
          .ok (.ok, table, P) ∧
      P.ram = [⟨0x40000000, 0x40000000⟩] ∧ P.devices = [] :=
  exists_of_regionsLeft (by decide +kernel)

theorem memory_twoCoreTree : twoCoreTree.memory = [⟨0x40000000, 0x40000000⟩] := by
  decide +kernel

theorem noWrap_twoCoreTree : NoWrap twoCoreTree.memory := by
  rw [memory_twoCoreTree, NoWrap]
  simp

theorem within_twoCoreTree : twoCoreTree.Within := by
  decide +kernel

theorem clean_twoCoreTree : twoCoreTree.Clean := by
  decide +kernel

theorem ram_of_tree_twoCoreTree :
    ∃ table P, parseFrames (twoCoreTree.imageAt 4096) 4096 zeroedFrames zeroedFrames
        (Platform.onNode (twoCoreTree.imageAt 4096) 0 fun _ => ⟨0, 0⟩) {} {} =
          .ok (.ok, table, P) ∧
      ∀ a, Covers P.ram a ↔ 0x40000000 ≤ a ∧ a < 0x80000000 := by
  obtain ⟨table, P, hrun, -⟩ := parseFrames_twoCoreTree
  obtain ⟨hcov, -⟩ := ram_of_tree flattenedAt_twoCoreTree within_twoCoreTree clean_twoCoreTree
    noWrap_twoCoreTree hrun
  refine ⟨table, P, hrun, fun a => (hcov a).trans ?_⟩
  simp [memory_twoCoreTree, Covers, Region.Contains]

theorem cores_of_tree_twoCoreTree :
    ∃ table P, parseFrames (twoCoreTree.imageAt 4096) 4096 zeroedFrames zeroedFrames
        (Platform.onNode (twoCoreTree.imageAt 4096) 0 fun _ => ⟨0, 0⟩) {} {} =
          .ok (.ok, table, P) ∧
      (P.cpus.bootRequests P.psci 0x40080000).1 =
        [.call .hypervisor 0xC4000003 1 0x40080000 1] := by
  obtain ⟨table, P, hrun, -⟩ := parseFrames_twoCoreTree
  obtain ⟨-, hrequests⟩ := cores_of_tree flattenedAt_twoCoreTree within_twoCoreTree
    clean_twoCoreTree (by decide +kernel) (by decide +kernel) hrun
  exact ⟨table, P, hrun, (hrequests 0x40080000).trans (by decide +kernel)⟩

end Floss
