import Floss.FrameCells

/-!
# What Handlers Load

A handler loads the properties of its own node. The handlers of a UART and of the GIC also
translate addresses, and so load properties of the frames that `_parent` leads to, up to the
bottom of the stack.

* `LiveCell`: the cells that hold something in a frame that has been begun;
* `Translates`: the addresses that a call gets to translate;
* `loadsIn_onNodeProg`: apart from these translations, handlers load live cells of their node;
* `aboveBottom`: the frames with the way to the bottom slot cut off. `loads_translateAddressProg`
  and `loads_bottom_of_translate`: a translation loads cells of the bottom slot **if and only
  if** it gets through the frames above it.
-/

namespace Floss

open CellProgram

/-- The cells that hold something in a frame that has been begun: its name, the number of its
properties, and as many of them. -/
def LiveCell (cells : FrameCells) (r : ℕ × FrameField) : Prop :=
  match r.2 with
  | .name | .nprops => True
  | .prop j => j < (cells (r.1, .nprops) : ℕ)

/-! ### Loads of a frame -/

section Own

variable {σ : Type} {m : Mem} {cells : FrameCells} {frames : ℕ → NodeFrame} {node : ℕ}
  {P : ℕ × FrameField → Prop}

theorem loadsIn_propAtProg {j : ℕ} (h : P (node, .prop j)) :
    LoadsIn P (propAtProg node j) cells :=
  (loadsIn_lift _).bind (computes_lift _ _) fun _ _ => loadsIn_get h

/-- The turns before that of counter `j`. -/
theorem prefix_of_range {n j : ℕ} {pre post : List ℕ} (h : List.range n = pre ++ j :: post) :
    pre = List.range j ∧ j < n := by
  have hlen : pre.length < n := by
    have := congrArg List.length h
    simp at this
    omega
  have hj : j = pre.length := by
    have := congrArg (·[pre.length]?) h
    simpa [hlen] using this.symm
  have htake := congrArg (List.take pre.length) h
  rw [List.take_left, List.take_range, min_eq_left hlen.le, ← hj] at htake
  exact ⟨htake.symm, hj ▸ hlen⟩

theorem range_split {n j : ℕ} (h : j < n) : ∃ post, List.range n = List.range j ++ j :: post := by
  obtain ⟨k, rfl⟩ := Nat.exists_eq_add_of_lt h
  refine ⟨(List.range k).map (j + 1 + ·), ?_⟩
  rw [show j + k + 1 = (j + 1) + k by omega, List.range_add, List.range_succ, List.append_assoc,
    List.singleton_append]

/-- A loop over properties loads them, and what its turns load. -/
theorem loadsIn_eachProp (frames : ℕ → NodeFrame) {body : σ → PropFrame → FrameProgram σ}
    {k : σ → PropFrame → Exec σ} {g : σ → ℕ → Exec σ}
    (hbody : ∀ s prop, Computes (body s prop) cells (k s prop))
    (hg : ∀ s j, g s j = (withCells frames cells node).propAt j >>= k s)
    (hown : ∀ fld, LiveCell cells (node, fld) → P (node, fld)) {s : σ}
    (hloads : ∀ j < (withCells frames cells node).nprops, ∀ t prop,
      (List.range j).foldlM g s = .ok t → (withCells frames cells node).propAt j = .ok prop →
      LoadsIn P (body t prop) cells) :
    LoadsIn P (eachProp node body s) cells := by
  obtain rfl : g = fun s j => (withCells frames cells node).propAt j >>= k s := funext₂ hg
  refine (loadsIn_get (hown .nprops trivial)).bind (computes_get cells _) fun n hn => ?_
  obtain rfl : cells (node, FrameField.nprops) = n := Except.ok.inj hn
  refine loadsIn_foldlM (fun s j => (computes_propAtProg frames j).bind fun prop _ => hbody s prop)
    fun pre j post t hsplit hpre => ?_
  obtain ⟨rfl, hj⟩ := prefix_of_range hsplit
  exact (loadsIn_propAtProg (hown (.prop j) hj)).bind (computes_propAtProg frames j)
    fun prop hprop => hloads j hj t prop hpre hprop

theorem loadsIn_findPropFromProg (name : List UInt8) {left j : ℕ}
    (h : ∀ k < j + left, P (node, .prop k)) :
    LoadsIn P (findPropFromProg m node name left j) cells := by
  induction left generalizing j with
  | zero => exact loadsIn_pure _
  | succ left ih =>
      refine (loadsIn_propAtProg (h j (by omega))).bind
        (computes_propAtProg zeroedFrames j) fun prop _ => ?_
      refine (loadsIn_lift _).bind (computes_lift _ _) fun r _ => ?_
      split
      · exact loadsIn_pure _
      · exact ih fun k hk => h k (by omega)

theorem loadsIn_findPropProg (name : List UInt8)
    (hown : ∀ fld, LiveCell cells (node, fld) → P (node, fld)) :
    LoadsIn P (findPropProg m node name) cells := by
  refine (loadsIn_get (hown .nprops trivial)).bind (computes_get cells _) fun n hn => ?_
  obtain rfl : cells (node, FrameField.nprops) = n := Except.ok.inj hn
  exact loadsIn_findPropFromProg name fun k hk => hown (.prop k) (by simpa [LiveCell] using hk)

theorem loadsIn_uartDisabledProg {left j : ℕ} (h : ∀ k < j + left, P (node, .prop k)) :
    LoadsIn P (uartDisabledProg m node left j) cells := by
  induction left generalizing j with
  | zero => exact loadsIn_pure _
  | succ left ih =>
      have hrest : LoadsIn P (uartDisabledProg m node left (j + 1)) cells :=
        ih fun k hk => h k (by omega)
      refine (loadsIn_propAtProg (h j (by omega))).bind
        (computes_propAtProg zeroedFrames j) fun prop _ => ?_
      refine (loadsIn_lift _).bind (computes_lift _ _) fun r _ => ?_
      split
      · refine (loadsIn_lift _).bind (computes_lift _ _) fun r _ => ?_
        split
        · exact loadsIn_pure _
        · exact hrest
      · exact hrest

end Own

/-! ### Loads of a translation -/

/-- `_parent` leads from each frame to the one below, and from the bottom nowhere. -/
structure ParentsBelow (frames : ℕ → NodeFrame) (top : ℕ) : Prop where
  bottom : (frames 0).parent = none
  succ : ∀ i < top, (frames (i + 1)).parent = some i

/-- The frames with the way to the bottom slot cut off. -/
def aboveBottom (frames : ℕ → NodeFrame) (i : ℕ) : NodeFrame :=
  if (frames i).parent = some 0 then { frames i with parent := none } else frames i

section Translate

variable {m : Mem} {cells : FrameCells} {frames : ℕ → NodeFrame}

/-- Properties are found without `_parent`. -/
theorem findPropFrom_parent (f : NodeFrame) (parent : Option ℕ) (name : List UInt8) (left j : ℕ) :
    { f with parent := parent }.findPropFrom m name left j = f.findPropFrom m name left j := by
  induction left generalizing j with
  | zero => rfl
  | succ left ih =>
      rw [NodeFrame.findPropFrom, NodeFrame.findPropFrom, ih]
      rfl

/-- One bus above the bottom. -/
theorem translateFrom_aboveBottom_succ (fuel i address : ℕ) :
    translateFrom m (aboveBottom frames) (fuel + 1) (some i) address = (do
      let ranges ← (frames i).findProp m (cstr "ranges")
      let address ← translateRanges m (frames i) ranges address
      translateFrom m (aboveBottom frames) fuel (aboveBottom frames i).parent address) := by
  have hfind : (aboveBottom frames i).findProp m (cstr "ranges") =
      (frames i).findProp m (cstr "ranges") := by
    rw [aboveBottom]
    split
    · exact findPropFrom_parent (frames i) none _ _ 0
    · rfl
  have hranges : translateRanges m (aboveBottom frames i) = translateRanges m (frames i) := by
    rw [aboveBottom]
    split <;> rfl
  rw [translateFrom, hfind, hranges]

/-- The way up from a frame, without the bottom slot. -/
theorem parent_aboveBottom (frames : ℕ → NodeFrame) {k : ℕ}
    (h : (frames (k + 1)).parent = some k) :
    (aboveBottom frames (k + 1)).parent = if k = 0 then none else some k := by
  rw [aboveBottom, h]
  by_cases hk : k = 0
  · simp [hk]
  · simp [hk, h]

/-- The buses of a translation are below its node. It gets to load cells of the bottom slot
**only if** it gets through the frames above. -/
theorem loads_translateFromProg {node : ℕ} (hparents : ParentsBelow frames node)
    (fuel address : ℕ) :
    LoadsIn (fun r => r.1 < node ∧ LiveCell cells r ∧ (r.1 = 0 → ∃ phys,
        translateFrom m (aboveBottom (withCells frames cells)) fuel
          (aboveBottom (withCells frames cells) node).parent address = .ok phys))
      (translateFromProg m frames fuel (frames node).parent address) cells := by
  induction node generalizing fuel address with
  | zero =>
      rw [hparents.bottom]
      cases fuel <;> exact loadsIn_pure _
  | succ k ih =>
      have hparent : (frames (k + 1)).parent = some k := hparents.succ k k.lt_succ_self
      have hbelow : ParentsBelow frames k :=
        ⟨hparents.bottom, fun i hi => hparents.succ i (by omega)⟩
      have hup := parent_aboveBottom (withCells frames cells) hparent
      rw [hparent, hup]
      cases fuel with
      | zero => exact loadsIn_lift _
      | succ fuel =>
          refine LoadsIn.bind (loadsIn_findPropProg _ fun fld hlive => ?_)
            (computes_findPropProg frames _) fun ranges hfind => ?_
          · exact ⟨k.lt_succ_self, hlive, fun hk => ⟨address, by rw [if_pos hk, translateFrom]⟩⟩
          refine (loadsIn_lift _).bind (computes_lift _ _) fun bus hbus => ?_
          intro r hr
          obtain ⟨hlt, hlive, hthrough⟩ := ih hbelow fuel bus r hr
          refine ⟨by omega, hlive, fun hzero => ?_⟩
          rw [if_neg (by omega), translateFrom_aboveBottom_succ, hfind, ok_bind]
          obtain ⟨phys, hphys⟩ := hthrough hzero
          exact ⟨phys, bind_eq_ok.2 ⟨bus, hbus, hphys⟩⟩

/-- A translation that gets through the frames above the bottom **loads cells of the bottom
slot**. -/
theorem loads_bottom_of_translate {node : ℕ} (hparents : ParentsBelow frames (node + 1))
    {fuel address phys : ℕ} (hfuel : node < fuel)
    (h : translateFrom m (aboveBottom (withCells frames cells)) fuel
      (aboveBottom (withCells frames cells) (node + 1)).parent address = .ok phys) :
    .load (0, .nprops) ∈
      (translateFromProg m frames fuel (frames (node + 1)).parent address).trace cells := by
  induction node generalizing fuel address with
  | zero =>
      obtain ⟨fuel, rfl⟩ : ∃ n, fuel = n + 1 := ⟨fuel - 1, by omega⟩
      rw [hparents.succ 0 Nat.one_pos, translateFromProg,
        (computes_findPropProg frames _).mem_trace_bind]
      exact .inl List.mem_cons_self
  | succ k ih =>
      obtain ⟨fuel, rfl⟩ : ∃ n, fuel = n + 1 := ⟨fuel - 1, by omega⟩
      have hparent : (frames (k + 2)).parent = some (k + 1) :=
        hparents.succ (k + 1) (k + 1).lt_succ_self
      have hbelow : ParentsBelow frames (k + 1) :=
        ⟨hparents.bottom, fun i hi => hparents.succ i (by omega)⟩
      rw [parent_aboveBottom (withCells frames cells) hparent, if_neg k.succ_ne_zero,
        translateFrom_aboveBottom_succ] at h
      obtain ⟨ranges, hfind, h⟩ := bind_eq_ok.1 h
      obtain ⟨bus, hbus, h⟩ := bind_eq_ok.1 h
      rw [hparent, translateFromProg, (computes_findPropProg frames _).mem_trace_bind]
      refine .inr ⟨ranges, hfind, ?_⟩
      rw [(computes_lift _ _).mem_trace_bind]
      exact .inr ⟨bus, hbus, ih hbelow (by omega) h⟩

end Translate

/-! ### Loads of a handler -/

/-- **The addresses that a call gets to translate**, from the platform `s`. -/
inductive Translates (m : Mem) (table : PhandleTable) (fuel : ℕ) (garbage : ℕ → RegPair)
    (s : Platform) (c : HandlerCall) : ℕ → Prop
  /-- the first pair in a `reg` of a UART that is not disabled -/
  | uart {j n : ℕ} {t : UartNode} {prop : PropFrame} {rp : RegPair}
      (kind : c.handler.onNode = .uartDtParse)
      (enabled : uartDisabled m c.frame c.frame.nprops 0 = .ok false)
      (slot : j < c.frame.nprops)
      (earlier : (List.range j).foldlM (uartProp m table c.frames c.node fuel)
        { s.uart with devices := s.devices } = .ok t)
      (found : c.frame.propAt j = .ok prop)
      (isReg : strcmp m prop.name (cstr "reg") = .ok 0)
      (pairs : udiv prop.len c.frame.parentCells.byteSize = .ok n) (some_pair : 0 < n)
      (whole : umod prop.len c.frame.parentCells.byteSize = .ok 0)
      (first : readRegPair m c.frame.parentCells prop.value = .ok rp) :
      Translates m table fuel garbage s c rp.address
  /-- the distributor of the GIC -/
  | gicd {regs : ℕ → RegPair}
      (kind : c.handler.onNode = .gicDtParseV2 ∨ c.handler.onNode = .gicDtParseV3)
      (unset : s.gic.driver = none) (read : gicParseDt m c.frame garbage = .ok regs) :
      Translates m table fuel garbage s c (regs 0).address
  /-- its CPU interface or redistributors -/
  | second {regs : ℕ → RegPair} {gicd : ℕ}
      (kind : c.handler.onNode = .gicDtParseV2 ∨ c.handler.onNode = .gicDtParseV3)
      (unset : s.gic.driver = none) (read : gicParseDt m c.frame garbage = .ok regs)
      (translated : translateAddress m c.frames maxNodeDepth c.node (regs 0).address = .ok gicd) :
      Translates m table fuel garbage s c (regs 1).address

section Handlers

variable {σ : Type} {m : Mem} {cells : FrameCells} {frames : ℕ → NodeFrame} {node : ℕ}
  {P : ℕ × FrameField → Prop} {table : PhandleTable}

theorem loadsIn_uartRegProg {regCells : NodeCells} {prop : PropFrame}
    {first : σ → RegPair → FrameProgram σ} {g : σ → RegPair → Exec σ}
    (hfirst : ∀ s rp, Computes (first s rp) cells (g s rp)) {s : σ}
    (hloads : ∀ n rp, udiv prop.len regCells.byteSize = .ok n → 0 < n →
      umod prop.len regCells.byteSize = .ok 0 → readRegPair m regCells prop.value = .ok rp →
      LoadsIn P (first s rp) cells) :
    LoadsIn P (uartRegProg m regCells prop first s) cells := by
  refine (loadsIn_lift _).bind (computes_lift _ _) fun n hn => ?_
  refine (loadsIn_lift _).bind (computes_lift _ _) fun r hr => ?_
  refine (loadsIn_lift _).bind (computes_lift _ _) fun _ hzero => ?_
  obtain rfl : r = 0 := kassert_eq_ok.1 hzero
  refine loadsIn_foldlM (computes_uartRegTurn hfirst) fun pre j post t hsplit hpre => ?_
  refine (loadsIn_lift _).bind (computes_lift _ _) fun rp hrp => ?_
  obtain ⟨rfl, hj⟩ := prefix_of_range hsplit
  by_cases hzero : j = 0
  · subst hzero
    obtain rfl : s = t := Except.ok.inj hpre
    rw [if_pos rfl]
    exact hloads n rp hn hj hr (by simpa using hrp)
  · rw [if_neg hzero]
    exact loadsIn_pure _

theorem mem_trace_uartRegProg {regCells : NodeCells} {prop : PropFrame}
    {first : σ → RegPair → FrameProgram σ} {g : σ → RegPair → Exec σ}
    (hfirst : ∀ s rp, Computes (first s rp) cells (g s rp)) {s : σ} {n : ℕ} {rp : RegPair}
    {a : CellAccess (ℕ × FrameField)} (hpairs : udiv prop.len regCells.byteSize = .ok n)
    (hpos : 0 < n) (hwhole : umod prop.len regCells.byteSize = .ok 0)
    (hrp : readRegPair m regCells prop.value = .ok rp) (ha : a ∈ (first s rp).trace cells) :
    a ∈ (uartRegProg m regCells prop first s).trace cells := by
  refine (computes_lift _ _).mem_trace_right hpairs ?_
  refine (computes_lift _ _).mem_trace_right hwhole ?_
  refine (computes_lift _ _).mem_trace_right (kassert_of rfl _) ?_
  obtain ⟨post, hsplit⟩ := range_split hpos
  refine (mem_trace_foldlM (computes_uartRegTurn hfirst)).2 ⟨[], 0, post, s, hsplit, rfl, ?_⟩
  exact (computes_lift _ _).mem_trace_right (by simpa using hrp) (by simpa using ha)

/-- Handlers that only go over the properties of their node. -/
theorem loadsIn_ownProps {k : σ → PropFrame → Exec σ}
    (hown : ∀ fld, LiveCell cells (node, fld) → P (node, fld)) (s : σ) :
    LoadsIn P (eachProp node (fun s prop => liftM (k s prop)) s) cells :=
  loadsIn_eachProp zeroedFrames (fun _ _ => computes_lift _ _) (fun _ _ => rfl) hown
    fun _ _ _ _ _ _ => loadsIn_lift _

theorem loadsIn_uartDtParseProg {fuel : ℕ} {s : UartNode}
    (hown : ∀ fld, LiveCell cells (node, fld) → P (node, fld))
    (hbus : ∀ j n t prop rp, uartDisabled m (withCells frames cells node)
        (withCells frames cells node).nprops 0 = .ok false →
      j < (withCells frames cells node).nprops →
      (List.range j).foldlM (uartProp m table (withCells frames cells) node fuel) s = .ok t →
      (withCells frames cells node).propAt j = .ok prop →
      strcmp m prop.name (cstr "reg") = .ok 0 →
      udiv prop.len (frames node).parentCells.byteSize = .ok n → 0 < n →
      umod prop.len (frames node).parentCells.byteSize = .ok 0 →
      readRegPair m (frames node).parentCells prop.value = .ok rp →
      LoadsIn P (translateAddressProg m frames maxNodeDepth node rp.address) cells) :
    LoadsIn P (uartDtParseProg m frames table node fuel s) cells := by
  refine (loadsIn_get (hown .nprops trivial)).bind (computes_get cells _) fun n hn => ?_
  obtain rfl : cells (node, FrameField.nprops) = n := Except.ok.inj hn
  refine LoadsIn.bind (loadsIn_uartDisabledProg fun k hk => hown (.prop k) ?_)
    (computes_uartDisabledProg frames _ 0) fun disabled hdisabled => ?_
  · simpa [LiveCell] using hk
  cases disabled with
  | true => exact loadsIn_pure _
  | false =>
      refine loadsIn_eachProp frames (computes_uartPropProg fuel) (uartProp_eq fuel) hown
        fun j hj t prop ht hprop => ?_
      refine (loadsIn_lift _).bind (computes_lift _ _) fun r hr => ?_
      by_cases hreg : r = 0
      · subst hreg
        rw [if_pos rfl]
        refine loadsIn_uartRegProg computes_uartFirstProg fun n rp hpairs hpos hwhole hrp => ?_
        refine (hbus j n t prop rp hdisabled hj ht hprop hr hpairs hpos hwhole hrp).bind
          (computes_translateFromProg _ _ _) fun _ _ => ?_
        exact (loadsIn_lift _).bind (computes_lift _ _) fun _ _ => loadsIn_pure _
      · rw [if_neg hreg]
        exact loadsIn_lift _

theorem loadsIn_gicDtParseProg {version : GicVersion} {garbage : ℕ → RegPair} {s : GicNode}
    (hown : ∀ fld, LiveCell cells (node, fld) → P (node, fld))
    (hbus : ∀ regs, s.driver = none →
      gicParseDt m (withCells frames cells node) garbage = .ok regs →
      LoadsIn P (translateAddressProg m frames maxNodeDepth node (regs 0).address) cells ∧
        ∀ gicd, translateAddress m (withCells frames cells) maxNodeDepth node (regs 0).address =
          .ok gicd →
          LoadsIn P (translateAddressProg m frames maxNodeDepth node (regs 1).address) cells) :
    LoadsIn P (gicDtParseProg m frames node version garbage s) cells := by
  refine (loadsIn_lift _).bind (computes_lift _ _) fun _ hunset => ?_
  refine (loadsIn_ownProps hown _).bind
    (computes_ownProps frames (fun _ _ => rfl) _) fun regs hregs => ?_
  obtain ⟨hfirst, hsecond⟩ := hbus regs (kassert_eq_ok.1 hunset) hregs
  refine hfirst.bind (computes_translateFromProg _ _ _) fun gicd hgicd => ?_
  refine (hsecond gicd hgicd).bind (computes_translateFromProg _ _ _) fun _ _ => ?_
  refine (loadsIn_lift _).bind (computes_lift _ _) fun _ _ => ?_
  exact (loadsIn_lift _).bind (computes_lift _ _) fun _ _ => loadsIn_pure _

/-- **A handler loads live cells of its own node**, and what the translations load that it gets
to make. -/
theorem loadsIn_onNodeProg {fuel : ℕ} {garbage : ℕ → RegPair} {s : Platform} {c : HandlerCall}
    (hown : ∀ fld, LiveCell cells (c.node, fld) → P (c.node, fld))
    (hbus : ∀ address, Translates m table fuel garbage s (c.withCells cells) address →
      LoadsIn P (translateAddressProg m c.frames maxNodeDepth c.node address) cells) :
    LoadsIn P (onNodeProg m table fuel garbage s c) cells := by
  obtain ⟨handler, frames, node⟩ := c
  have hgic : ∀ version, handler.onNode = .gicDtParseV2 ∨ handler.onNode = .gicDtParseV3 →
      LoadsIn P (gicDtParseProg m frames node version garbage { s.gic with devices := s.devices })
        cells := by
    refine fun version hkind => loadsIn_gicDtParseProg hown fun regs hunset hread => ⟨?_, ?_⟩
    · exact hbus _ (.gicd hkind hunset hread)
    · exact fun gicd hgicd => hbus _ (.second hkind hunset hread hgicd)
  rw [onNodeProg]
  cases hkind : handler.onNode with
  | psciDtParse =>
      exact (loadsIn_ownProps hown _).bind
        (computes_ownProps frames (fun _ _ => rfl) _) fun _ _ => loadsIn_pure _
  | uartDtParse =>
      refine LoadsIn.bind (loadsIn_uartDtParseProg hown ?_) (computes_uartDtParseProg fuel _)
        fun _ _ => loadsIn_pure _
      exact fun j n t prop rp henabled hj ht hprop hreg hpairs hpos hwhole hrp =>
        hbus _ (.uart hkind henabled hj ht hprop hreg hpairs hpos hwhole hrp)
  | memoryDtParse =>
      exact (loadsIn_ownProps hown _).bind
        (computes_ownProps frames (fun _ _ => rfl) _) fun _ _ => loadsIn_pure _
  | cpuDtParse =>
      refine LoadsIn.bind ?_ (computes_cpuDtParseProg _) fun _ _ => loadsIn_pure _
      refine (loadsIn_lift _).bind (computes_lift _ _) fun _ _ => ?_
      exact (loadsIn_ownProps hown _).bind
        (computes_ownProps frames (fun _ _ => rfl) _) fun _ _ => loadsIn_pure _
  | timerDtParse =>
      exact (loadsIn_ownProps hown _).bind
        (computes_ownProps frames (fun _ _ => rfl) _) fun _ _ => loadsIn_pure _
  | gicDtParseV2 =>
      exact (hgic .v2 (.inl hkind)).bind (computes_gicDtParseProg .v2 garbage _)
        fun _ _ => loadsIn_pure _
  | gicDtParseV3 =>
      exact (hgic .v3 (.inr hkind)).bind (computes_gicDtParseProg .v3 garbage _)
        fun _ _ => loadsIn_pure _

/-- The addresses that a call gets to translate **are translated**. -/
theorem Translates.mem_trace {fuel : ℕ} {garbage : ℕ → RegPair} {s : Platform} {c : HandlerCall}
    {address : ℕ} (h : Translates m table fuel garbage s (c.withCells cells) address)
    {a : CellAccess (ℕ × FrameField)}
    (ha : a ∈ (translateAddressProg m c.frames maxNodeDepth c.node address).trace cells) :
    a ∈ (onNodeProg m table fuel garbage s c).trace cells := by
  obtain ⟨handler, frames, node⟩ := c
  have hgic : ∀ version regs, s.gic.driver = none →
      gicParseDt m (withCells frames cells node) garbage = .ok regs →
      (address = (regs 0).address ∨ address = (regs 1).address ∧ ∃ gicd, translateAddress m
        (withCells frames cells) maxNodeDepth node (regs 0).address = .ok gicd) →
      a ∈ (gicDtParseProg m frames node version garbage
        { s.gic with devices := s.devices }).trace cells := by
    intro version regs hunset hread haddress
    refine (computes_lift _ _).mem_trace_right (kassert_of hunset _) ?_
    refine (computes_ownProps frames (fun _ _ => rfl) _).mem_trace_right hread ?_
    rcases haddress with rfl | ⟨rfl, gicd, hgicd⟩
    · exact (computes_translateFromProg _ _ _).mem_trace_left ha
    · refine (computes_translateFromProg _ _ _).mem_trace_right hgicd ?_
      exact (computes_translateFromProg _ _ _).mem_trace_left ha
  rw [onNodeProg]
  cases h with
  | @uart j n t prop rp kind enabled slot earlier found isReg pairs some_pair whole first =>
      rw [show handler.onNode = .uartDtParse from kind]
      refine (computes_uartDtParseProg fuel _).mem_trace_left ?_
      refine (computes_get cells (node, FrameField.nprops)).mem_trace_right rfl ?_
      refine (computes_uartDisabledProg frames _ 0).mem_trace_right enabled ?_
      refine (computes_get cells (node, FrameField.nprops)).mem_trace_right rfl ?_
      obtain ⟨post, hsplit⟩ := range_split slot
      refine (mem_trace_foldlM (fun s j => (computes_propAtProg frames j).bind fun prop _ =>
        computes_uartPropProg fuel s prop)).2 ⟨_, j, post, t, hsplit, ?_, ?_⟩
      · rw [← earlier]
        exact congrArg (fun g => List.foldlM g _ (List.range j))
          (funext₂ fun s j => (uartProp_eq fuel s j).symm)
      refine (computes_propAtProg frames j).mem_trace_right found ?_
      refine (computes_lift _ _).mem_trace_right isReg ?_
      rw [if_pos rfl]
      refine mem_trace_uartRegProg computes_uartFirstProg pairs some_pair whole first ?_
      exact (computes_translateFromProg _ _ _).mem_trace_left ha
  | @gicd regs kind unset read =>
      rcases kind with hkind | hkind
      · rw [show handler.onNode = .gicDtParseV2 from hkind]
        exact (computes_gicDtParseProg .v2 garbage _).mem_trace_left
          (hgic .v2 regs unset read (.inl rfl))
      · rw [show handler.onNode = .gicDtParseV3 from hkind]
        exact (computes_gicDtParseProg .v3 garbage _).mem_trace_left
          (hgic .v3 regs unset read (.inl rfl))
  | @second regs gicd kind unset read translated =>
      rcases kind with hkind | hkind
      · rw [show handler.onNode = .gicDtParseV2 from hkind]
        exact (computes_gicDtParseProg .v2 garbage _).mem_trace_left
          (hgic .v2 regs unset read (.inr ⟨rfl, gicd, translated⟩))
      · rw [show handler.onNode = .gicDtParseV3 from hkind]
        exact (computes_gicDtParseProg .v3 garbage _).mem_trace_left
          (hgic .v3 regs unset read (.inr ⟨rfl, gicd, translated⟩))

/-- A call gets an address **through all frames above the bottom**. -/
def TranslatesThrough (m : Mem) (table : PhandleTable) (fuel : ℕ) (garbage : ℕ → RegPair)
    (s : Platform) (c : HandlerCall) : Prop :=
  ∃ address phys, Translates m table fuel garbage s c address ∧
    translateAddress m (aboveBottom c.frames) maxNodeDepth c.node address = .ok phys

section Call

variable {fuel : ℕ} {garbage : ℕ → RegPair} {s : Platform} {c : HandlerCall}

/-- A call loads live cells of its node and of those above, and of the bottom slot **only if**
it gets an address there. -/
theorem loads_onNodeProg (hparents : ParentsBelow c.frames c.node) :
    LoadsIn (fun r => r.1 ≤ c.node ∧ LiveCell cells r ∧ (r.1 = 0 → c.node = 0 ∨
        TranslatesThrough m table fuel garbage s (c.withCells cells)))
      (onNodeProg m table fuel garbage s c) cells := by
  refine loadsIn_onNodeProg (fun fld hlive => ⟨le_rfl, hlive, .inl⟩) fun address haddress r hr => ?_
  obtain ⟨hlt, hlive, hthrough⟩ := loads_translateFromProg hparents maxNodeDepth address r hr
  refine ⟨hlt.le, hlive, fun hzero => .inr ?_⟩
  obtain ⟨phys, hphys⟩ := hthrough hzero
  exact ⟨address, phys, haddress, hphys⟩

/-- A call that gets an address through **loads from the bottom slot**. -/
theorem TranslatesThrough.loads_bottom
    (h : TranslatesThrough m table fuel garbage s (c.withCells cells))
    (hparents : ParentsBelow c.frames c.node) (hnode : c.node ≠ 0)
    (hlimit : c.node ≤ maxNodeDepth) :
    .load (0, .nprops) ∈ (onNodeProg m table fuel garbage s c).trace cells := by
  obtain ⟨address, phys, haddress, hphys⟩ := h
  refine haddress.mem_trace ?_
  obtain ⟨handler, frames, node⟩ := c
  obtain ⟨k, rfl⟩ := Nat.exists_eq_succ_of_ne_zero hnode
  exact loads_bottom_of_translate hparents hlimit hphys

end Call

end Handlers

/-! ### Loads of a pass -/

/-- When the node of the current slot ends, the pass **calls** `handler`, and its state is `s'`
then. -/
inductive Called {σ : Type} (m : Mem) (onNode : σ → HandlerCall → Exec σ) (pf : ParsingFrame)
    (s s' : σ) (handler : NodeHandler) : Prop
  | mk {f : NodeFrame} {compatibleProp deviceTypeProp : Option PropFrame} {prop : PropFrame}
      {pre post : List NodeHandler} (current : pf.current = .ok f)
      (compatible : f.compatibleProp = .ok compatibleProp)
      (deviceType : f.deviceTypeProp = .ok deviceTypeProp)
      (split : nodeHandlers = pre ++ handler :: post)
      (earlier : pre.foldlM (dispatchEntry m onNode pf compatibleProp deviceTypeProp) s = .ok s')
      (kind : handlerMatch compatibleProp deviceTypeProp handler.matchKind = some prop)
      (listed : compatibleListContains m prop.value prop.len handler.matchString = .ok true)

section Pass

variable {σ : Type} {m : Mem} {cells : FrameCells} {P : ℕ × FrameField → Prop}
  {onNode : σ → HandlerCall → FrameProgram σ} {onNode' : σ → HandlerCall → Exec σ}
  {pf : ParsingFrame} {s : σ} {dtp : Parser}

theorem loadsIn_propIdxProg {node : ℕ} {idx : ℤ} (h : 0 ≤ idx → P (node, .prop idx.toNat)) :
    LoadsIn P (propIdxProg node idx) cells := by
  rw [propIdxProg]
  split
  · exact loadsIn_pure _
  · exact (loadsIn_propAtProg (h (by omega))).bind (computes_propAtProg zeroedFrames _)
      fun _ _ => loadsIn_pure _

/-- At the end of a node the second pass stores nothing. -/
theorem computes_fullEnd (hon : ∀ s c, Computes (onNode s c) cells (onNode' s (c.withCells cells)))
    (htok : dtp.current = .endNode) :
    Computes (fullStepProg m onNode (pf, s) dtp) cells (do
      let f ← pf.current
      let compatibleProp ← (withCells pf.nodeFrame cells pf.top).propIdx f.compatiblePropIdx
      let deviceTypeProp ← (withCells pf.nodeFrame cells pf.top).propIdx f.deviceTypePropIdx
      let s ← nodeHandlers.foldlM
        (dispatchEntry m onNode' (pf.withCells cells) compatibleProp deviceTypeProp) s
      return (pf.pop, s)) := by
  rw [fullStepProg, htok]
  refine (computes_lift _ _).bind fun f _ => ?_
  refine (computes_propIdxProg pf.nodeFrame _).bind fun cp _ => ?_
  refine (computes_propIdxProg pf.nodeFrame _).bind fun dp _ => ?_
  refine (computes_foldlM (computes_dispatchEntryProg hon cp dp) s).bind fun s' _ => ?_
  exact computes_pure _ _

/-- At the end of a node the second pass loads the properties that handlers are matched with,
and what the called handlers load. -/
theorem loadsIn_fullEnd (hon : ∀ s c, Computes (onNode s c) cells (onNode' s (c.withCells cells)))
    (htok : dtp.current = .endNode)
    (hidx : ∀ k, 0 ≤ (pf.nodeFrame pf.top).idx k →
      P (pf.top, .prop ((pf.nodeFrame pf.top).idx k).toNat))
    (hcall : ∀ s' handler, Called m onNode' (pf.withCells cells) s s' handler →
      LoadsIn P (onNode s' ⟨handler, pf.nodeFrame, pf.top⟩) cells) :
    LoadsIn P (fullStepProg m onNode (pf, s) dtp) cells := by
  rw [fullStepProg, htok]
  refine (loadsIn_lift _).bind (computes_lift _ _) fun f hf => ?_
  have hcurrent : (pf.withCells cells).current = .ok (f.withCells cells pf.top) := by
    rw [current_withCells, hf]
    rfl
  obtain ⟨-, rfl⟩ := current_eq_ok.1 hf
  refine (loadsIn_propIdxProg (hidx .compatible)).bind (computes_propIdxProg pf.nodeFrame _)
    fun cp hcp => ?_
  refine (loadsIn_propIdxProg (hidx .deviceType)).bind (computes_propIdxProg pf.nodeFrame _)
    fun dp hdp => ?_
  have hentry : ∀ s handler, Computes (dispatchEntryProg m onNode pf cp dp s handler) cells
      (dispatchEntry m onNode' (pf.withCells cells) cp dp s handler) :=
    computes_dispatchEntryProg hon cp dp
  refine (loadsIn_foldlM hentry fun pre handler post s' hsplit hpre => ?_).bind
    (computes_foldlM hentry s) fun _ _ => loadsIn_pure _
  rw [dispatchEntryProg]
  cases hkind : handlerMatch cp dp handler.matchKind with
  | none => exact loadsIn_pure _
  | some prop =>
      refine (loadsIn_lift _).bind (computes_lift _ _) fun b hb => ?_
      cases b with
      | false => exact loadsIn_pure _
      | true => exact hcall s' handler ⟨hcurrent, hcp, hdp, hsplit, hpre, hkind, hb⟩

/-- What a called handler loads **is loaded**. -/
theorem Called.mem_trace {s' : σ} {handler : NodeHandler}
    (h : Called m onNode' (pf.withCells cells) s s' handler)
    (hon : ∀ s c, Computes (onNode s c) cells (onNode' s (c.withCells cells)))
    (htok : dtp.current = .endNode) {a : CellAccess (ℕ × FrameField)}
    (ha : a ∈ (onNode s' ⟨handler, pf.nodeFrame, pf.top⟩).trace cells) :
    a ∈ (fullStepProg m onNode (pf, s) dtp).trace cells := by
  obtain @⟨f, cp, dp, prop, pre, post, hcurrent, hcp, hdp, hsplit, hpre, hkind, hlisted⟩ := h
  obtain ⟨htop, rfl⟩ := current_eq_ok.1 hcurrent
  rw [fullStepProg, htok]
  have hcurrent' : pf.current = .ok (pf.nodeFrame pf.top) := current_eq_ok.2 ⟨htop, rfl⟩
  refine (computes_lift _ _).mem_trace_right hcurrent' ?_
  refine (computes_propIdxProg pf.nodeFrame _).mem_trace_right hcp ?_
  refine (computes_propIdxProg pf.nodeFrame _).mem_trace_right hdp ?_
  have hentry : ∀ s handler, Computes (dispatchEntryProg m onNode pf cp dp s handler) cells
      (dispatchEntry m onNode' (pf.withCells cells) cp dp s handler) :=
    computes_dispatchEntryProg hon cp dp
  refine (computes_foldlM hentry s).mem_trace_left ?_
  refine (mem_trace_foldlM hentry).2 ⟨pre, handler, post, s', hsplit, hpre, ?_⟩
  rw [dispatchEntryProg, hkind]
  refine (computes_lift _ _).mem_trace_right hlisted ?_
  exact ha

end Pass

end Floss
