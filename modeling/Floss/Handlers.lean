import Floss.FrameSim

/-!
# What Handlers Get to See

The second pass calls a handler with the frame of a node. What the handler reads there is
compared with the node of the tree: its properties, its ancestors, its interrupt parent,
the cell counts, and whether it should have been called at all.

A frame is reused by all nodes of a depth and only part of it is reset, so some of this is
the node's own and some is not.

* `handler_frame_is_node`: properties, ancestors and interrupt parent are the node's own.
* `handlers_called_for_own_iff`: **phantom calls**. The remembered slots of `compatible` and
  `device_type` are not reset; the handlers called are those the node itself asks for
  exactly when no node finds a match in what earlier nodes of its depth left behind.
* `cells_scoped_iff`: **stale cells**. The cell counts are not reset; they are those of the
  ancestors themselves exactly when none of them takes over another value from an earlier
  node of its depth.
-/

namespace Floss

/-- The slot reached by following `_parent` a number of times. -/
def ancestorSlot (frames : ℕ → NodeFrame) : (k i : ℕ) → Option ℕ
  | 0, i => some i
  | k + 1, i => (frames i).parent.bind (ancestorSlot frames k)

/-- The frame the handler reaches by following `_parent` `k` times. -/
def HandlerCall.ancestor (c : HandlerCall) (k : ℕ) : Option NodeFrame :=
  (ancestorSlot c.frames k c.node).map c.frames

/-- The handler calls of the second pass, token by token: those it records, and those it
runs any handlers on. -/
structure FullPassCalls (m : Mem) (fdt : ℕ) (garbage : ℕ → NodeFrame)
    (calls : List (List HandlerCall)) : Prop where
  recorded : parseFramesCalls m fdt garbage = .ok (.ok, calls)
  run : ∀ (σ : Type) (onNode : σ → HandlerCall → Exec σ) (s : σ),
    parseFramesFull m fdt garbage onNode s =
      (do let s ← calls.flatten.foldlM onNode s; return (.ok, s))

/-- The second pass makes the calls that the tree demands. -/
theorem fullPassCalls_flattened {fit : List UInt8 → Prop} {m : Mem} {fdt : ℕ} {h : Header}
    {t : DeviceTree} (ht : FlattenedAt m fdt h t) (hw : t.WithinFor fit)
    (garbage : ℕ → NodeFrame) :
    ∃ calls, FullPassCalls m fdt garbage calls ∧
      List.Forall₂ (TokenCalls fit m) t.labelled calls := by
  obtain ⟨calls, hcalls, htok⟩ := parseFramesCalls_flattened ht hw garbage
  exact ⟨calls, ⟨hcalls, fun σ onNode s => parseFramesFull_of_calls onNode hcalls s⟩, htok⟩

/-- If the outputs of a walk are related to its tokens by `P`, and under `P` a property of
token and output is a property of the token, then it is so for the whole walk. -/
theorem forall₂_iff_forall_mem {α β : Type} {P R : α → β → Prop} {Q : α → Prop} {l : List α}
    {r : List β} (h : ∀ a b, P a b → (R a b ↔ Q a)) (hP : List.Forall₂ P l r) :
    List.Forall₂ R l r ↔ ∀ a ∈ l, Q a := by
  induction hP with
  | nil => simp
  | cons hab _ ih => simp [List.forall₂_cons, h _ _ hab, ih]

/-- Two optional values stay related when one is mapped along. -/
theorem rel_map_right {α β γ : Type} {P : α → β → Prop} {R : α → γ → Prop} {f : β → γ}
    {x : Option α} {y : Option β} (h : Option.Rel P x y)
    (hR : ∀ a b, x = some a → P a b → R a (f b)) : Option.Rel R x (y.map f) := by
  cases h with
  | some hab => exact .some (hR _ _ rfl hab)
  | none => exact .none

/-- Following `_parent` from a live frame visits the live frames of the ancestors, and ends
after the root. The induction is on the open nodes. -/
theorem Chain.ancestorSlot {fit : List UInt8 → Prop} {m : Mem} {frames : ℕ → NodeFrame}
    {o : Open Node} {anc : List (Open Node)} (h : Chain fit m frames (o :: anc)) (k : ℕ) :
    Option.Rel (fun a i => ∃ up, Live fit m (frames i) a up) (o :: anc)[k]?
      (ancestorSlot frames k anc.length) := by
  induction k generalizing o anc with
  | zero => exact .some ⟨anc, h.1⟩
  | succ k ih =>
      rw [Floss.ancestorSlot, h.1.parent]
      cases anc with
      | nil => exact .none
      | cons a anc => exact ih h.2

/-! ### The frame is the node -/

/-- The frame shows a node: its name and its stored properties, in document order. -/
structure FrameOf (m : Mem) (n : Node) (f : NodeFrame) : Prop where
  name : StrAt m f.name n.name
  nprops : f.nprops = n.kept.length
  props : ∀ i p, n.kept[i]? = some p → PropIs m (f.props i) p

/-- A handler sees a node inside its ancestors: the `k`-th frame it reaches is that of the
`k`-th ancestor, the node itself being the first, and its interrupt parent is the nearest
one. -/
structure HandlerCall.Sees (m : Mem) (c : HandlerCall) (ctx : List (Open Node)) : Prop where
  ancestors : ∀ k, Option.Rel (fun o f => FrameOf m o.node f) ctx[k]? (c.ancestor k)
  interrupt : c.frame.ownCells.interruptParent = interruptParent ctx

/-- The frame of an open node shows the node. -/
theorem Live.frameOf {fit : List UInt8 → Prop} {m : Mem} {f : NodeFrame} {o : Open Node}
    {anc : List (Open Node)} (h : Live fit m f o anc) : FrameOf m o.node f where
  name := h.name
  nprops := h.nprops
  props i p hp := (h.slot i p (by simp [leftSlot, hp])).toPropIs

/-- **The frame a handler sees is the node.** Every call of the second pass is made when a
node ends, for that node; the properties in the frame, the frames reached through
`_parent` and the interrupt parent are those of the node and its ancestors. -/
theorem handler_frame_is_node {fit : List UInt8 → Prop} {m : Mem} {fdt : ℕ} {h : Header}
    {t : DeviceTree} (ht : FlattenedAt m fdt h t) (hw : t.WithinFor fit)
    (hfit : fit interruptParentName) (garbage : ℕ → NodeFrame) :
    ∃ calls, FullPassCalls m fdt garbage calls ∧
      List.Forall₂ (fun tok cs => ∀ c ∈ cs, tok.1 = .endNode ∧ c.Sees m tok.2)
        t.labelled calls := by
  obtain ⟨calls, hpass, htok⟩ := fullPassCalls_flattened ht hw garbage
  refine ⟨calls, hpass, htok.imp ?_⟩
  intro tok cs hcs c hc
  obtain ⟨o, anc, frames, hd, rfl, hchain, rfl⟩ := hcs.of_mem hc
  refine ⟨rfl, fun k => ?_, hchain.1.interrupt hfit⟩
  refine rel_map_right (hchain.ancestorSlot k) ?_
  rintro a i - ⟨up, hlive⟩
  exact hlive.frameOf

/-- The handlers of a board with one UART see its nodes. -/
theorem handler_frame_is_node_uartTree :
    uartTree.Within ∧ ∃ calls, FullPassCalls (uartTree.imageAt 4096) 4096 zeroedFrames calls ∧
      List.Forall₂ (fun tok cs => ∀ c ∈ cs, tok.1 = .endNode ∧
        c.Sees (uartTree.imageAt 4096) tok.2) uartTree.labelled calls := by
  have hw : uartTree.Within := by decide +kernel
  exact ⟨hw, handler_frame_is_node flattenedAt_uartTree hw.withinFor (by simp [cellNames])
    zeroedFrames⟩

/-! ### Who is called -/

/-- When a node ends that is not ignored, exactly those handlers are called that match a
property of the node itself. No other token makes a call. -/
def CalledForOwn : Item × List (Open Node) → List HandlerCall → Prop
  | (.endNode, o :: _), cs => o.node.ignored = false → ∀ h ∈ nodeHandlers,
      (∃ c ∈ cs, c.handler = h) ↔ h.Matches (o.node.prop? h.matchKind.propName)
  | _, cs => cs = []

/-- A node that lacks the property of a handler's kind does not find a match for it in the
slot that earlier nodes of its depth left remembered. -/
def NoStaleMatch : Item × List (Open Node) → Prop
  | (.endNode, o :: _) => o.node.ignored = false → ∀ h ∈ nodeHandlers,
      o.node.prop? h.matchKind.propName = none →
        ¬ h.Matches (slotProp h.matchKind (o.node :: o.earlier))
  | _ => True

/-- The handlers called when a node ends. -/
theorem exists_call_iff {seen : List Node} {frames : ℕ → NodeFrame} {i : ℕ} {h : NodeHandler} :
    (∃ c ∈ (dispatched seen).map fun h => (⟨h, frames, i⟩ : HandlerCall), c.handler = h) ↔
      h ∈ nodeHandlers ∧ h.Matches (slotProp h.matchKind seen) := by
  simp [dispatched]

/-- At each token, the calls are the node's own exactly when there is no stale match. -/
theorem calledForOwn_iff {fit : List UInt8 → Prop} {m : Mem} (tok : Item × List (Open Node))
    (cs : List HandlerCall) (hcs : TokenCalls fit m tok cs) :
    CalledForOwn tok cs ↔ NoStaleMatch tok := by
  obtain ⟨it, ctx⟩ := tok
  match it, ctx, hcs with
  | .endNode, o :: anc, ⟨frames, _, hcs⟩ =>
      simp only [CalledForOwn, NoStaleMatch, hcs, exists_call_iff]
      refine forall_congr' fun hi => forall₂_congr fun h hh => ?_
      cases hown : o.node.prop? h.matchKind.propName with
      | some p => simp [hh, slotProp_of_own hi hown]
      | none => simp [hh, NodeHandler.Matches]
  | .endNode, [], hcs | .beginNode _, _, hcs | .prop _, _, hcs =>
      obtain rfl : cs = [] := hcs
      simp [CalledForOwn, NoStaleMatch]

/-- **Phantom calls, exactly.** On a flattened tree within the limits the second pass calls
handlers on a node's own properties only if and only if no node without such a property
finds a match in what earlier nodes of its depth left behind. -/
theorem handlers_called_for_own_iff {fit : List UInt8 → Prop} {m : Mem} {fdt : ℕ} {h : Header}
    {t : DeviceTree} (ht : FlattenedAt m fdt h t) (hw : t.WithinFor fit)
    (garbage : ℕ → NodeFrame) :
    ∃ calls, FullPassCalls m fdt garbage calls ∧
      (List.Forall₂ CalledForOwn t.labelled calls ↔ ∀ tok ∈ t.labelled, NoStaleMatch tok) := by
  obtain ⟨calls, hpass, htok⟩ := fullPassCalls_flattened ht hw garbage
  exact ⟨calls, hpass, forall₂_iff_forall_mem calledForOwn_iff htok⟩

instance : DecidablePred NoStaleMatch
  | (.endNode, o :: _) => inferInstanceAs (Decidable (o.node.ignored = false →
      ∀ h ∈ nodeHandlers, o.node.prop? h.matchKind.propName = none →
        ¬ h.Matches (slotProp h.matchKind (o.node :: o.earlier))))
  | (.endNode, []) | (.beginNode _, _) | (.prop _, _) => inferInstanceAs (Decidable True)

/-- A board whose last node is the UART: nothing comes after it that could find a match. -/
def uartLastTree : DeviceTree where
  props := []
  children := .cons ⟨cstr "chosen", []⟩ .nil
    (.cons ⟨cstr "uart", [⟨cstr "compatible", cstr "arm,pl011"⟩]⟩ .nil .nil)

/-- Without stale matches, handlers are called for the nodes that ask for them. -/
theorem handlers_called_for_own_uartLastTree :
    ∃ calls, FullPassCalls (uartLastTree.imageAt 4096) 4096 zeroedFrames calls ∧
      List.Forall₂ CalledForOwn uartLastTree.labelled calls := by
  obtain ⟨calls, hpass, hiff⟩ := handlers_called_for_own_iff
    (flattenedAt_image uartLastTree 4096 (by decide +kernel) (by decide) (by decide))
    (DeviceTree.Within.withinFor (by decide +kernel)) zeroedFrames
  exact ⟨calls, hpass, hiff.mpr (by decide +kernel)⟩

/-- **A phantom UART.** `chosen` has no property at all, and the UART handler is called for
it, because the node before it was a UART. -/
theorem phantom_call_for_chosen :
    FlattenedAt (uartTree.imageAt 4096) 4096 uartTree.imageHeader uartTree ∧
      uartTree.Within ∧ ∀ garbage, ∃ calls,
        FullPassCalls (uartTree.imageAt 4096) 4096 garbage calls ∧
          ¬ List.Forall₂ CalledForOwn uartTree.labelled calls := by
  have hw : uartTree.Within := by decide +kernel
  refine ⟨flattenedAt_uartTree, hw, fun garbage => ?_⟩
  obtain ⟨calls, hpass, htok⟩ := fullPassCalls_flattened flattenedAt_uartTree hw.withinFor garbage
  have hstale : ¬ ∀ tok ∈ uartTree.labelled, NoStaleMatch tok := by decide +kernel
  exact ⟨calls, hpass, fun hown =>
    hstale ((forall₂_iff_forall_mem calledForOwn_iff htok).mp hown)⟩

/-! ### Cell counts -/

/-- The node's own `#address-cells`, or the default. -/
def Node.ownAddress (n : Node) : ℕ := (n.cell? addressCells).getD 2

/-- The node's own `#size-cells`, or the default. -/
def Node.ownSize (n : Node) : ℕ := (n.cell? sizeCells).getD 1

/-- At every call, the cell counts of the parent and those in the frames of all ancestors
are the ancestors' own. No other token makes a call. -/
def CellsScoped : Item × List (Open Node) → List HandlerCall → Prop
  | (.endNode, _ :: anc), cs => ∀ c ∈ cs,
      (∀ a ∈ anc.head?, c.frame.parentCells.address = a.node.ownAddress ∧
        c.frame.parentCells.size = a.node.ownSize) ∧
      ∀ k, Option.Rel (fun a f => f.ownCells.address = a.node.ownAddress ∧
        f.ownCells.size = a.node.ownSize) anc[k]? (c.ancestor (k + 1))
  | _, cs => cs = []

/-- If a handler is called for a node, then none of its ancestors takes over a cell count
other than its own from the nodes before it, its own being the default where it has
none. -/
def NoStaleCells : Item × List (Open Node) → Prop
  | (.endNode, o :: anc) => dispatched (o.node :: o.earlier) ≠ [] → ∀ a ∈ anc,
      leftCell addressCells 2 (a.node :: a.earlier) = a.node.ownAddress ∧
      leftCell sizeCells 1 (a.node :: a.earlier) = a.node.ownSize
  | _ => True

/-- At each token, the cell counts are scoped exactly when none is stale. -/
theorem cellsScoped_iff_noStaleCells {m : Mem} (tok : Item × List (Open Node))
    (cs : List HandlerCall) (hcs : TokenCalls (· ∈ cellNames) m tok cs) :
    CellsScoped tok cs ↔ NoStaleCells tok := by
  obtain ⟨it, ctx⟩ := tok
  match it, ctx, hcs with
  | .endNode, o :: anc, ⟨frames, hchain, hcs⟩ =>
      have haddress : addressCells ∈ cellNames := by simp [cellNames]
      have hsize : sizeCells ∈ cellNames := by simp [cellNames]
      have hrel : ∀ k, Option.Rel (fun a i => ∃ up, Live (· ∈ cellNames) m (frames i) a up) anc[k]?
          (ancestorSlot frames (k + 1) anc.length) := fun k => hchain.ancestorSlot (k + 1)
      simp only [CellsScoped, NoStaleCells, hcs]
      constructor
      · intro hscoped hne a ha
        obtain ⟨h, hh⟩ := List.exists_mem_of_ne_nil _ hne
        obtain ⟨-, hall⟩ := hscoped ⟨h, frames, anc.length⟩ (List.mem_map_of_mem hh)
        obtain ⟨k, hk⟩ := List.mem_iff_getElem?.mp ha
        have hk' := hall k
        have hlive := hrel k
        rw [hk] at hk' hlive
        simp only [HandlerCall.ancestor] at hk'
        generalize ancestorSlot frames (k + 1) anc.length = i at hk' hlive
        cases hlive with
        | some hlive =>
            obtain ⟨up, hlive⟩ := hlive
            cases hk' with
            | some hk' =>
                rw [← hlive.address haddress, ← hlive.size hsize]
                exact hk'
      · intro hfresh c hc
        obtain ⟨h, hh, rfl⟩ := List.mem_map.mp hc
        have hown := hfresh (List.ne_nil_of_mem hh)
        refine ⟨fun a ha => ?_, fun k => ?_⟩
        · have hparentAddress := hchain.1.parentAddress haddress
          have hparentSize := hchain.1.parentSize hsize
          cases anc with
          | nil => simp at ha
          | cons b anc =>
              obtain rfl : b = a := by simpa using ha
              rw [HandlerCall.frame, hparentAddress, hparentSize]
              exact hown b (by simp)
        · refine rel_map_right (hrel k) ?_
          rintro a i hk ⟨up, hlive⟩
          rw [hlive.address haddress, hlive.size hsize]
          exact hown a (List.mem_of_getElem? hk)
  | .endNode, [], hcs | .beginNode _, _, hcs | .prop _, _, hcs =>
      obtain rfl : cs = [] := hcs
      simp [CellsScoped, NoStaleCells]

/-- **Stale cells, exactly.** On a flattened tree within the limits the cell counts a
handler sees are those of the ancestors themselves if and only if no ancestor of a node
that is handled takes over another count from an earlier node of its depth. -/
theorem cells_scoped_iff {m : Mem} {fdt : ℕ} {h : Header} {t : DeviceTree}
    (ht : FlattenedAt m fdt h t) (hw : t.Within) (garbage : ℕ → NodeFrame) :
    ∃ calls, FullPassCalls m fdt garbage calls ∧
      (List.Forall₂ CellsScoped t.labelled calls ↔ ∀ tok ∈ t.labelled, NoStaleCells tok) := by
  obtain ⟨calls, hpass, htok⟩ := fullPassCalls_flattened ht hw.withinFor garbage
  exact ⟨calls, hpass, forall₂_iff_forall_mem cellsScoped_iff_noStaleCells htok⟩

instance : DecidablePred NoStaleCells
  | (.endNode, o :: anc) => inferInstanceAs (Decidable (dispatched (o.node :: o.earlier) ≠ [] →
      ∀ a ∈ anc, leftCell addressCells 2 (a.node :: a.earlier) = a.node.ownAddress ∧
        leftCell sizeCells 1 (a.node :: a.earlier) = a.node.ownSize))
  | (.endNode, []) | (.beginNode _, _) | (.prop _, _) => inferInstanceAs (Decidable True)

/-- On a board without buses the cell counts are the root's. -/
theorem cells_scoped_uartLastTree :
    ∃ calls, FullPassCalls (uartLastTree.imageAt 4096) 4096 zeroedFrames calls ∧
      List.Forall₂ CellsScoped uartLastTree.labelled calls := by
  obtain ⟨calls, hpass, hiff⟩ := cells_scoped_iff
    (flattenedAt_image uartLastTree 4096 (by decide +kernel) (by decide) (by decide))
    (by decide +kernel) zeroedFrames
  exact ⟨calls, hpass, hiff.mpr (by decide +kernel)⟩

/-- Two buses: the first sets `#address-cells`, the second leaves it at its default and
holds a UART. -/
def twoBusTree : DeviceTree where
  props := []
  children := .cons ⟨cstr "cpus", [⟨cstr "#address-cells", bytes32 1⟩]⟩ .nil
    (.cons ⟨cstr "soc", []⟩
      (.cons ⟨cstr "uart", [⟨cstr "compatible", cstr "arm,pl011"⟩]⟩ .nil .nil) .nil)

/-- **A stale cell count.** The UART in `soc` is handled with the `#address-cells` of
`cpus`. -/
theorem stale_cells_in_soc :
    FlattenedAt (twoBusTree.imageAt 4096) 4096 twoBusTree.imageHeader twoBusTree ∧
      twoBusTree.Within ∧ ∀ garbage, ∃ calls,
        FullPassCalls (twoBusTree.imageAt 4096) 4096 garbage calls ∧
          ¬ List.Forall₂ CellsScoped twoBusTree.labelled calls := by
  have hw : twoBusTree.Within := by decide +kernel
  have hflat : FlattenedAt (twoBusTree.imageAt 4096) 4096 twoBusTree.imageHeader twoBusTree :=
    flattenedAt_image twoBusTree 4096 (by decide +kernel) (by decide) (by decide)
  refine ⟨hflat, hw, fun garbage => ?_⟩
  obtain ⟨calls, hpass, htok⟩ := fullPassCalls_flattened hflat hw.withinFor garbage
  have hstale : ¬ ∀ tok ∈ twoBusTree.labelled, NoStaleCells tok := by decide +kernel
  exact ⟨calls, hpass, fun hscoped =>
    hstale ((forall₂_iff_forall_mem cellsScoped_iff_noStaleCells htok).mp hscoped)⟩

end Floss
