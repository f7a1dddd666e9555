import Floss.FrameWalk

/-!
# The Limits of the Two Passes

Both passes of `parse_frames` check the depth of the frame stack and the number of
properties only after counting up, and they store different properties. This module
compares them token by token, for structure blocks whose tokens come in any order.

* `FramesFit`: the stack position and the property counts of the live frames are within
  the limits; both passes keep it from the first node on;
* `Trails pf₁ pf₂`: the second pass stands where the first one stood, with no more
  properties;
* `fullStep_trails`: one token, from the run of the first pass to that of the second;
* `second_pass_within_first`: the result for both passes over a blob.
-/

namespace Floss

/-! ### Reads of the passes -/

section Reads

variable {bad : Fault → Prop} (haccess : ∀ a, ¬ bad (.access a)) (hfuel : ¬ bad .fuel)

include haccess

theorem isIgnoredNode_avoids (m : Mem) (name : ℕ) : Avoids (isIgnoredNode m name) bad := by
  rw [isIgnoredNode]
  split
  · exact avoids_ok _
  refine Avoids.bind ?_ fun b _ => ?_
  · rw [startsWithUnderscores]
    refine Avoids.bind (load_avoids haccess m name) fun c _ => ?_
    split
    · exact Avoids.bind (load_avoids haccess m _) fun _ _ => avoids_ok _
    · exact avoids_ok _
  · split
    · exact avoids_ok _
    · exact Avoids.bind (strcmp_avoids haccess m name _) fun _ _ => avoids_ok _

include hfuel

/-- The list search stops with access faults, or when its iteration bound is used up. -/
theorem compatibleListContains_avoids (m : Mem) (value len : ℕ) (needle : List UInt8) :
    Avoids (compatibleListContains m value len needle) bad := by
  have hloop : ∀ fuel offset, Avoids (containsLoop m value len needle fuel offset) bad := by
    intro fuel
    induction fuel with
    | zero =>
        intro offset
        rw [containsLoop]
        split
        · exact avoids_error hfuel
        · exact avoids_ok _
    | succ fuel ih =>
        intro offset
        rw [containsLoop]
        split
        · refine Avoids.bind (strnlen_avoids haccess m _ _) fun slen _ => ?_
          refine Avoids.bind ?_ fun found _ => ?_
          · rw [equalsNeedle]
            split
            · exact Avoids.bind (strncmp_avoids haccess m _ _ _ _) fun _ _ => avoids_ok _
            · exact avoids_ok _
          · split
            · exact avoids_ok _
            · refine Avoids.bind ?_ fun nul _ => ?_
              · rw [nulAt]
                split
                · exact Avoids.bind (load_avoids haccess m _) fun _ _ => avoids_ok _
                · exact avoids_ok _
              · split
                · exact ih _
                · exact ih _
        · exact avoids_ok _
  exact hloop len 0

/-- Dispatch stops only as its handlers do, or with a fault of a read. -/
theorem dispatchIfPropMatch_avoids {σ : Type} (m : Mem) {onNode : σ → HandlerCall → Exec σ}
    (hon : ∀ s c, Avoids (onNode s c) bad) (pf : ParsingFrame) (cp dp : Option PropFrame)
    (s : σ) : Avoids (dispatchIfPropMatch m onNode pf cp dp s) bad := by
  refine foldlM_avoids_of_mem (fun handler _ t => ?_) s
  rw [dispatchEntry]
  split
  · exact avoids_ok _
  · refine Avoids.bind (compatibleListContains_avoids haccess hfuel m _ _ _) fun b _ => ?_
    split
    · exact hon t _
    · exact avoids_ok _

end Reads

/-! ### What a token does to the frames -/

/-- The limits that both passes keep. The remembered slots stay in the frames for good, so
they are bounded in all of them. -/
structure FramesFit (pf : ParsingFrame) : Prop where
  top : pf.top < maxNodeDepth
  nprops : ∀ i ≤ pf.top, (pf.nodeFrame i).nprops < maxPropsPerNode
  idx : ∀ i k, (pf.nodeFrame i).idx k < maxPropsPerNode

/-- What `BeginNode` does in either pass: one frame starts anew. -/
structure NodeBegun (m : Mem) (dtp : Parser) (pf pf' : ParsingFrame) : Prop where
  top : ∃ r, strcmp m dtp.nodeName (cstr "") = .ok r ∧
    pf'.top = if r ≠ 0 then pf.top + 1 else pf.top
  limit : pf'.top < maxNodeDepth
  others : ∀ i, i ≠ pf'.top → pf'.nodeFrame i = pf.nodeFrame i
  name : (pf'.nodeFrame pf'.top).name = dtp.nodeName
  nprops : (pf'.nodeFrame pf'.top).nprops = 0
  idx : ∀ k, (pf'.nodeFrame pf'.top).idx k = (pf.nodeFrame pf'.top).idx k

/-- What `Prop` does in either pass to the frame of a node; the node is ignored if `b`. -/
structure PropSeen (m : Mem) (b : Bool) (pf pf' : ParsingFrame) : Prop where
  ignored : isIgnoredNode m (pf.nodeFrame pf.top).name = .ok b
  top : pf'.top = pf.top
  others : ∀ i, i ≠ pf.top → pf'.nodeFrame i = pf.nodeFrame i
  name : (pf'.nodeFrame pf.top).name = (pf.nodeFrame pf.top).name
  nprops : (pf'.nodeFrame pf.top).nprops = (pf.nodeFrame pf.top).nprops ∨ b = false ∧
    (pf'.nodeFrame pf.top).nprops = (pf.nodeFrame pf.top).nprops + 1 ∧
    (pf.nodeFrame pf.top).nprops + 1 < maxPropsPerNode
  idx : ∀ k, (pf'.nodeFrame pf.top).idx k = (pf.nodeFrame pf.top).idx k ∨
    (pf'.nodeFrame pf.top).idx k = (pf.nodeFrame pf.top).nprops

/-- What a token does to the frames in either pass. -/
def TokenSeen (m : Mem) (dtp : Parser) (pf pf' : ParsingFrame) : Token → Prop
  | .beginNode => NodeBegun m dtp pf pf'
  | .endNode => pf' = pf.pop
  | .prop => ∃ b, PropSeen m b pf pf'
  | .nop | .fdtEnd => pf' = pf

/-- The first pass counts every property of a node that is not ignored. -/
def CountsProp (m : Mem) (dtp : Parser) (pf pf' : ParsingFrame) : Prop :=
  dtp.current = .prop → isIgnoredNode m (pf.nodeFrame pf.top).name = .ok false →
    (pf'.nodeFrame pf.top).nprops = (pf.nodeFrame pf.top).nprops + 1

section Effects

variable {m : Mem} {pf pf' : ParsingFrame} {dtp : Parser}

theorem current_eq_ok {f : NodeFrame} :
    pf.current = .ok f ↔ pf.top < maxNodeDepth ∧ f = pf.nodeFrame pf.top := by
  simp only [ParsingFrame.current, bind_eq_ok, inBounds_eq_ok, pure_eq_ok, Except.ok.injEq]
  constructor
  · rintro ⟨-, htop, rfl⟩
    exact ⟨htop, rfl⟩
  · rintro ⟨htop, rfl⟩
    exact ⟨(), htop, rfl⟩

theorem setCurrent_eq_ok {f : NodeFrame} :
    pf.setCurrent f = .ok pf' ↔
      pf.top < maxNodeDepth ∧ pf' = ⟨Function.update pf.nodeFrame pf.top f, pf.top⟩ := by
  simp only [ParsingFrame.setCurrent, bind_eq_ok, inBounds_eq_ok, pure_eq_ok, Except.ok.injEq]
  constructor
  · rintro ⟨-, htop, rfl⟩
    exact ⟨htop, rfl⟩
  · rintro ⟨htop, rfl⟩
    exact ⟨(), htop, rfl⟩

/-- Entering the slot of a subnode changes what it inherits, and neither its name nor its
properties. -/
structure SlotEntered (pf pf' : ParsingFrame) : Prop where
  top : pf'.top = pf.top + 1
  limit : pf.top + 1 < maxNodeDepth
  others : ∀ i, i ≠ pf.top + 1 → pf'.nodeFrame i = pf.nodeFrame i
  idx : ∀ k, (pf'.nodeFrame (pf.top + 1)).idx k = (pf.nodeFrame (pf.top + 1)).idx k

theorem slotEntered_of_phandleEnter (h : phandleEnter pf = .ok pf') : SlotEntered pf pf' := by
  simp only [phandleEnter, ParsingFrame.push, bind_eq_ok, current_eq_ok, kassert_eq_ok,
    pure_eq_ok, Except.ok.injEq, setCurrent_eq_ok] at h
  obtain ⟨-, -, -, ⟨-, hlimit, rfl⟩, -, ⟨-, rfl⟩, -, rfl⟩ := h
  exact ⟨rfl, hlimit, fun i hi => by simp [hi], fun k => by cases k <;> simp [NodeFrame.idx]⟩

theorem slotEntered_of_fullEnter (h : fullEnter pf = .ok pf') : SlotEntered pf pf' := by
  simp only [fullEnter, ParsingFrame.push, bind_eq_ok, current_eq_ok, kassert_eq_ok,
    pure_eq_ok, Except.ok.injEq, setCurrent_eq_ok] at h
  obtain ⟨-, -, -, ⟨-, hlimit, rfl⟩, -, ⟨-, rfl⟩, -, rfl⟩ := h
  exact ⟨rfl, hlimit, fun i hi => by simp [hi], fun k => by cases k <;> simp [NodeFrame.idx]⟩

/-- `BeginNode` of both passes, which differ in how a slot is entered. -/
theorem nodeBegun_of_enter {enter : ParsingFrame → Exec ParsingFrame}
    (henter : ∀ pf', enter pf = .ok pf' → SlotEntered pf pf')
    (h : (do
      let notRoot ← strcmp m dtp.nodeName (cstr "")
      let pf ← if notRoot ≠ 0 then enter pf else .ok pf
      pf.setCurrent { (← pf.current) with name := dtp.nodeName, nprops := 0 }) = .ok pf') :
    NodeBegun m dtp pf pf' := by
  obtain ⟨r, hr, h⟩ := bind_eq_ok.1 h
  by_cases hroot : r ≠ 0
  · simp only [if_pos hroot] at h
    obtain ⟨pf₁, hpf₁, h⟩ := bind_eq_ok.1 h
    obtain ⟨f, hf, h⟩ := bind_eq_ok.1 h
    obtain ⟨hlimit, rfl⟩ := current_eq_ok.1 hf
    obtain ⟨-, rfl⟩ := setCurrent_eq_ok.1 h
    obtain ⟨htop, -, hothers, hidx⟩ := henter pf₁ hpf₁
    refine ⟨⟨r, hr, by rw [if_pos hroot]; exact htop⟩, hlimit, fun i hi => ?_, by simp, by simp,
      fun k => ?_⟩
    · exact (Function.update_of_ne hi _ _).trans (hothers i (htop ▸ hi))
    · have hk := hidx k
      cases k <;> simpa [NodeFrame.idx, htop] using hk
  · simp only [if_neg hroot, ok_bind] at h
    obtain ⟨f, hf, h⟩ := bind_eq_ok.1 h
    obtain ⟨hlimit, rfl⟩ := current_eq_ok.1 hf
    obtain ⟨-, rfl⟩ := setCurrent_eq_ok.1 h
    refine ⟨⟨r, hr, by rw [if_neg hroot]⟩, hlimit, fun i hi => ?_, by simp, by simp,
      fun k => by cases k <;> simp [NodeFrame.idx]⟩
    exact Function.update_of_ne hi _ _

theorem nodeBegun_of_phandle (h : phandleBeginNode m pf dtp = .ok pf') :
    NodeBegun m dtp pf pf' :=
  nodeBegun_of_enter (fun _ => slotEntered_of_phandleEnter) h

theorem nodeBegun_of_full (h : fullBeginNode m pf dtp = .ok pf') : NodeBegun m dtp pf pf' :=
  nodeBegun_of_enter (fun _ => slotEntered_of_fullEnter) h

theorem storeProp_eq_ok {f f' : NodeFrame} (h : f.storeProp dtp = .ok f') :
    f' = { f with
      props := Function.update f.props f.nprops ⟨dtp.propName, dtp.propValue, dtp.propLen⟩ } := by
  simp only [NodeFrame.storeProp, bind_eq_ok, pure_eq_ok, Except.ok.injEq] at h
  obtain ⟨-, -, rfl⟩ := h
  rfl

/-- The node is ignored, and so is its property. -/
theorem propSeen_ignored (h : isIgnoredNode m (pf.nodeFrame pf.top).name = .ok true) :
    PropSeen m true pf pf :=
  ⟨h, rfl, fun _ _ => rfl, rfl, .inl rfl, fun _ => .inl rfl⟩

theorem propSeen_of_phandle (h : phandleProp m pf dtp = .ok pf') :
    (∃ b, PropSeen m b pf pf') ∧ CountsProp m dtp pf pf' := by
  rw [phandleProp] at h
  obtain ⟨f, hf, h⟩ := bind_eq_ok.1 h
  obtain ⟨-, rfl⟩ := current_eq_ok.1 hf
  obtain ⟨b, hb, h⟩ := bind_eq_ok.1 h
  cases b with
  | true =>
      obtain rfl : pf = pf' := by simpa using h
      exact ⟨⟨true, propSeen_ignored hb⟩, fun _ hb' => by simp [hb] at hb'⟩
  | false =>
      simp only [Bool.false_eq_true, if_false] at h
      obtain ⟨f, hf, h⟩ := bind_eq_ok.1 h
      obtain rfl := storeProp_eq_ok hf
      obtain ⟨pf₁, hset, h⟩ := bind_eq_ok.1 h
      obtain ⟨-, rfl⟩ := setCurrent_eq_ok.1 hset
      obtain ⟨_, hlimit, h⟩ := bind_eq_ok.1 h
      obtain rfl := Except.ok.inj h
      refine ⟨⟨false, hb, rfl, fun i hi => by simp [hi], by simp, ?_, fun k => ?_⟩,
        fun _ _ => by simp⟩
      · exact .inr ⟨rfl, by simp, kassert_eq_ok.1 hlimit⟩
      · cases k <;> simp [NodeFrame.idx]

/-- `trackProp` remembers the current slot at most. -/
theorem trackProp_eq_ok {f f' : NodeFrame} (h : trackProp m f dtp = .ok f') :
    f'.name = f.name ∧ f'.nprops = f.nprops ∧ ∀ k, f'.idx k = f.idx k ∨ f'.idx k = f.nprops := by
  rw [trackProp] at h
  obtain ⟨r, -, h⟩ := bind_eq_ok.1 h
  split at h
  · obtain rfl := Except.ok.inj h
    exact ⟨rfl, rfl, fun k => by cases k <;> simp [NodeFrame.idx]⟩
  · obtain ⟨r, -, h⟩ := bind_eq_ok.1 h
    split at h
    · obtain rfl := Except.ok.inj h
      exact ⟨rfl, rfl, fun k => by cases k <;> simp [NodeFrame.idx]⟩
    · obtain rfl := Except.ok.inj h
      exact ⟨rfl, rfl, fun k => .inl rfl⟩

/-- A cell property sets cells, and leaves the rest of the frame as it is. -/
theorem propSeen_of_cells (hb : isIgnoredNode m (pf.nodeFrame pf.top).name = .ok false)
    {cells : NodeCells}
    (h : pf.setCurrent { pf.nodeFrame pf.top with ownCells := cells } = .ok pf') :
    PropSeen m false pf pf' := by
  obtain ⟨-, rfl⟩ := setCurrent_eq_ok.1 h
  exact ⟨hb, rfl, fun i hi => by simp [hi], by simp, by simp,
    fun k => by cases k <;> simp [NodeFrame.idx]⟩

/-- The second pass counts a property at most. -/
theorem propSeen_of_full (h : fullProp m pf dtp = .ok pf') : ∃ b, PropSeen m b pf pf' := by
  rw [fullProp] at h
  obtain ⟨f, hf, h⟩ := bind_eq_ok.1 h
  obtain ⟨-, rfl⟩ := current_eq_ok.1 hf
  obtain ⟨b, hb, h⟩ := bind_eq_ok.1 h
  cases b with
  | true =>
      obtain rfl : pf = pf' := by simpa using h
      exact ⟨true, propSeen_ignored hb⟩
  | false =>
      refine ⟨false, ?_⟩
      simp only [Bool.false_eq_true, if_false] at h
      obtain ⟨r, -, h⟩ := bind_eq_ok.1 h
      split at h
      · obtain ⟨v, -, h⟩ := bind_eq_ok.1 h
        exact propSeen_of_cells hb h
      obtain ⟨r, -, h⟩ := bind_eq_ok.1 h
      split at h
      · obtain ⟨v, -, h⟩ := bind_eq_ok.1 h
        exact propSeen_of_cells hb h
      obtain ⟨r, -, h⟩ := bind_eq_ok.1 h
      split at h
      · obtain ⟨v, -, h⟩ := bind_eq_ok.1 h
        exact propSeen_of_cells hb h
      rw [fullStoreProp] at h
      obtain ⟨f, hf, h⟩ := bind_eq_ok.1 h
      obtain rfl := storeProp_eq_ok hf
      obtain ⟨f, htrack, h⟩ := bind_eq_ok.1 h
      obtain ⟨hname, hnprops, hidx⟩ := trackProp_eq_ok htrack
      obtain ⟨pf₁, hset, h⟩ := bind_eq_ok.1 h
      obtain ⟨-, rfl⟩ := setCurrent_eq_ok.1 hset
      obtain ⟨_, hlimit, h⟩ := bind_eq_ok.1 h
      obtain rfl := Except.ok.inj h
      have hlimit' := kassert_eq_ok.1 hlimit
      rw [hnprops] at hlimit'
      refine ⟨hb, rfl, fun i hi => by simp [hi], by simpa using hname,
        .inr ⟨rfl, by simpa using hnprops, hlimit'⟩, fun k => ?_⟩
      have hk := hidx k
      cases k <;> simpa [NodeFrame.idx] using hk

end Effects

/-! ### Limits are kept -/

namespace FramesFit

variable {m : Mem} {b : Bool} {pf pf' : ParsingFrame} {dtp : Parser}

/-- The frame of the node that begins need not have been in use. -/
theorem of_begun (hnprops : ∀ i ≤ pf.top, i ≠ pf'.top →
      (pf.nodeFrame i).nprops < maxPropsPerNode)
    (hidx : ∀ i k, (pf.nodeFrame i).idx k < maxPropsPerNode) (h : NodeBegun m dtp pf pf') :
    FramesFit pf' := by
  obtain ⟨r, -, htop⟩ := h.top
  refine ⟨h.limit, fun i hi => ?_, fun i k => ?_⟩
  · by_cases hcur : i = pf'.top
    · rw [hcur, h.nprops]
      decide
    · rw [h.others i hcur]
      refine hnprops i ?_ hcur
      split at htop <;> omega
  · by_cases hcur : i = pf'.top
    · rw [hcur, h.idx k]
      exact hidx _ k
    · rw [h.others i hcur]
      exact hidx i k

theorem begun (hfit : FramesFit pf) (h : NodeBegun m dtp pf pf') : FramesFit pf' :=
  of_begun (fun i hi _ => hfit.nprops i hi) hfit.idx h

theorem propSeen (hfit : FramesFit pf) (h : PropSeen m b pf pf') : FramesFit pf' := by
  have hcount := hfit.nprops pf.top le_rfl
  refine ⟨h.top ▸ hfit.top, fun i hi => ?_, fun i k => ?_⟩
  · by_cases hcur : i = pf.top
    · have hnprops := h.nprops
      rw [hcur]
      omega
    · rw [h.others i hcur]
      exact hfit.nprops i (h.top ▸ hi)
  · by_cases hcur : i = pf.top
    · have hold := hfit.idx pf.top k
      have hidx := h.idx k
      rw [hcur]
      omega
    · rw [h.others i hcur]
      exact hfit.idx i k

theorem pop (hfit : FramesFit pf) : FramesFit pf.pop := by
  rw [ParsingFrame.pop]
  split
  · have htop := hfit.top
    exact ⟨by simp only; omega, fun i hi => hfit.nprops i (by simp only at hi; omega),
      hfit.idx⟩
  · exact hfit

/-- **A token keeps the limits**, in either pass. -/
theorem tokenSeen (hfit : FramesFit pf) {tok : Token} (h : TokenSeen m dtp pf pf' tok) :
    FramesFit pf' := by
  cases tok with
  | beginNode => exact hfit.begun h
  | endNode => exact h ▸ hfit.pop
  | prop =>
      obtain ⟨b, hseen⟩ := h
      exact hfit.propSeen hseen
  | nop | fdtEnd => exact h ▸ hfit

end FramesFit

/-- After a node with an empty name the stack position is what it was. -/
theorem NodeBegun.top_eq {m : Mem} {dtp : Parser} {pf pf' : ParsingFrame}
    (hroot : m dtp.nodeName = some 0) (h : NodeBegun m dtp pf pf') : pf'.top = pf.top := by
  obtain ⟨r, hr, htop⟩ := h.top
  have hload : m.load dtp.nodeName = .ok 0 := Mem.load_eq_ok.mpr hroot
  have hzero : strcmp m dtp.nodeName (cstr "") = .ok 0 := by
    rw [show cstr "" = [] by decide, strcmp, hload]
    rfl
  obtain rfl : r = 0 := Except.ok.inj (hr.symm.trans hzero)
  rw [htop, if_neg (by simp)]

/-- The first node of the blob initialises the frame it uses. -/
theorem framesFit_of_first {m : Mem} {dtp : Parser} {garbage : ℕ → NodeFrame}
    {pf : ParsingFrame} (hroot : m dtp.nodeName = some 0)
    (h : NodeBegun m dtp (.fresh garbage) pf) : FramesFit pf := by
  have htop : pf.top = 0 := h.top_eq hroot
  refine .of_begun (fun i hi hne => ?_) (fun i k => ?_) h
  · exact absurd ((Nat.le_zero.1 hi).trans htop.symm) hne
  · cases k <;> simp [NodeFrame.idx, ParsingFrame.fresh, maxPropsPerNode]

/-! ### The second pass trails the first -/

/-- The second pass stands where the first one stood, in the same nodes, and has no more
properties in any of them. -/
structure Trails (pf₁ pf₂ : ParsingFrame) : Prop where
  top : pf₂.top = pf₁.top
  name : ∀ i ≤ pf₁.top, (pf₂.nodeFrame i).name = (pf₁.nodeFrame i).name
  nprops : ∀ i ≤ pf₁.top, (pf₂.nodeFrame i).nprops ≤ (pf₁.nodeFrame i).nprops

namespace Trails

variable {m : Mem} {b₁ b₂ : Bool} {pf₁ pf₁' pf₂ pf₂' : ParsingFrame} {dtp : Parser}

theorem of_begun (htop : pf₂.top = pf₁.top)
    (hlive : ∀ i ≤ pf₁.top, i ≠ pf₁'.top →
      (pf₂.nodeFrame i).name = (pf₁.nodeFrame i).name ∧
      (pf₂.nodeFrame i).nprops ≤ (pf₁.nodeFrame i).nprops)
    (h₁ : NodeBegun m dtp pf₁ pf₁') (h₂ : NodeBegun m dtp pf₂ pf₂') : Trails pf₁' pf₂' := by
  obtain ⟨r, hr₁, htop₁⟩ := h₁.top
  obtain ⟨r₂, hr₂, htop₂⟩ := h₂.top
  obtain rfl : r = r₂ := Except.ok.inj (hr₁.symm.trans hr₂)
  have htop' : pf₂'.top = pf₁'.top := by rw [htop₂, htop₁, htop]
  have hbelow : ∀ i ≤ pf₁'.top, i ≠ pf₁'.top → i ≤ pf₁.top := by
    intro i hi hne
    split at htop₁ <;> omega
  refine ⟨htop', fun i hi => ?_, fun i hi => ?_⟩
  · by_cases hcur : i = pf₁'.top
    · rw [hcur, h₁.name, ← htop', h₂.name]
    · rw [h₁.others i hcur, h₂.others i (htop' ▸ hcur)]
      exact (hlive i (hbelow i hi hcur) hcur).1
  · by_cases hcur : i = pf₁'.top
    · rw [hcur, h₁.nprops, ← htop', h₂.nprops]
    · rw [h₁.others i hcur, h₂.others i (htop' ▸ hcur)]
      exact (hlive i (hbelow i hi hcur) hcur).2

theorem begun (h : Trails pf₁ pf₂) (h₁ : NodeBegun m dtp pf₁ pf₁')
    (h₂ : NodeBegun m dtp pf₂ pf₂') : Trails pf₁' pf₂' :=
  of_begun h.top (fun i hi _ => ⟨h.name i hi, h.nprops i hi⟩) h₁ h₂

/-- Both passes ignore the same nodes. -/
theorem ignored_eq (h : Trails pf₁ pf₂) (h₁ : PropSeen m b₁ pf₁ pf₁')
    (hb₂ : isIgnoredNode m (pf₂.nodeFrame pf₂.top).name = .ok b₂) : b₂ = b₁ := by
  rw [h.top, h.name pf₁.top le_rfl] at hb₂
  exact Except.ok.inj (hb₂.symm.trans h₁.ignored)

theorem propSeen (h : Trails pf₁ pf₂) (h₁ : PropSeen m b₁ pf₁ pf₁')
    (hcount : b₁ = false →
      (pf₁'.nodeFrame pf₁.top).nprops = (pf₁.nodeFrame pf₁.top).nprops + 1)
    (h₂ : PropSeen m b₂ pf₂ pf₂') : Trails pf₁' pf₂' := by
  obtain rfl := h.ignored_eq h₁ h₂.ignored
  obtain ⟨-, htop₂, hothers₂, hname₂, hnprops₂, -⟩ := h₂
  rw [h.top] at htop₂ hothers₂ hname₂ hnprops₂
  refine ⟨by rw [htop₂, h₁.top], fun i hi => ?_, fun i hi => ?_⟩
  · rw [h₁.top] at hi
    by_cases hcur : i = pf₁.top
    · rw [hcur, hname₂, h₁.name, h.name _ le_rfl]
    · rw [hothers₂ i hcur, h₁.others i hcur, h.name i hi]
  · rw [h₁.top] at hi
    by_cases hcur : i = pf₁.top
    · have hold := h.nprops pf₁.top le_rfl
      have hnprops₁ := h₁.nprops
      rw [hcur]
      cases b₂ with
      | false =>
          have hone := hcount rfl
          omega
      | true =>
          simp only [Bool.true_eq_false, false_and, or_false] at hnprops₁ hnprops₂
          omega
    · rw [hothers₂ i hcur, h₁.others i hcur]
      exact h.nprops i hi

theorem pop (h : Trails pf₁ pf₂) : Trails pf₁.pop pf₂.pop := by
  rw [ParsingFrame.pop, ParsingFrame.pop, h.top]
  split
  · refine ⟨rfl, fun i hi => h.name i ?_, fun i hi => h.nprops i ?_⟩
    · simp only at hi
      omega
    · simp only at hi
      omega
  · exact h

/-- **A token seen by both passes.** -/
theorem tokenSeen (h : Trails pf₁ pf₂) (h₁ : TokenSeen m dtp pf₁ pf₁' dtp.current)
    (hcount : CountsProp m dtp pf₁ pf₁') (h₂ : TokenSeen m dtp pf₂ pf₂' dtp.current) :
    Trails pf₁' pf₂' := by
  cases htok : dtp.current with
  | beginNode =>
      rw [htok] at h₁ h₂
      exact h.begun h₁ h₂
  | endNode =>
      rw [htok] at h₁ h₂
      rw [show pf₁' = pf₁.pop from h₁, show pf₂' = pf₂.pop from h₂]
      exact h.pop
  | prop =>
      rw [htok] at h₁ h₂
      obtain ⟨b₁, hseen₁⟩ := h₁
      obtain ⟨b₂, hseen₂⟩ := h₂
      exact h.propSeen hseen₁ (fun hb => hcount htok (hb ▸ hseen₁.ignored)) hseen₂
  | nop | fdtEnd =>
      rw [htok] at h₁ h₂
      rw [show pf₁' = pf₁ from h₁, show pf₂' = pf₂ from h₂]
      exact h

end Trails

/-! ### One token -/

section Step

variable {bad : Fault → Prop} (haccess : ∀ a, ¬ bad (.access a)) {m : Mem}
  {pf : ParsingFrame} {dtp : Parser}

theorem current_of (htop : pf.top < maxNodeDepth) : pf.current = .ok (pf.nodeFrame pf.top) :=
  current_eq_ok.2 ⟨htop, rfl⟩

theorem setCurrent_avoids (htop : pf.top < maxNodeDepth) (f : NodeFrame) :
    Avoids (pf.setCurrent f) bad := by
  rw [setCurrent_eq_ok.2 ⟨htop, rfl⟩]
  exact avoids_ok _

/-- Entering a slot, as both passes do: the depth is checked before the slot is used. -/
theorem enter_avoids (htop : pf.top < maxNodeDepth)
    (hpost : bad (.panic "postcond\n") → pf.top + 1 < maxNodeDepth)
    (frame : NodeCells → ℕ → NodeFrame → NodeFrame) :
    Avoids (do
      let parentCells := (← pf.current).ownCells
      let pf ← pf.push
      let f ← pf.current
      pf.setCurrent (frame parentCells pf.top f)) bad := by
  rw [current_of htop, ok_bind]
  refine Avoids.bind ?_ fun pf₁ hpush => ?_
  · rw [ParsingFrame.push]
    refine Avoids.bind (avoids_kassert fun hlimit hbad => ?_) fun _ _ => avoids_ok _
    exact hlimit (hpost hbad)
  · rw [ParsingFrame.push] at hpush
    obtain ⟨_, hlimit, hpush⟩ := bind_eq_ok.1 hpush
    obtain rfl := Except.ok.inj hpush
    have htop₁ := kassert_eq_ok.1 hlimit
    rw [current_of htop₁, ok_bind]
    exact setCurrent_avoids htop₁ _

/-- The remembered slot of a frame that fits is in bounds. -/
theorem propIdx_avoids (hfit : FramesFit pf) (k : MatchKind) :
    Avoids ((pf.nodeFrame pf.top).propIdx ((pf.nodeFrame pf.top).idx k)) bad := by
  have hidx := hfit.idx pf.top k
  rw [NodeFrame.propIdx]
  split
  · exact avoids_ok _
  · rw [NodeFrame.propAt, inBounds_of (by omega)]
    exact avoids_ok _

include haccess

/-- `BeginNode`, as both passes have it. -/
theorem beginNode_avoids {enter : ParsingFrame → Exec ParsingFrame}
    (henter : ∀ pf', enter pf = .ok pf' → SlotEntered pf pf') (htop : pf.top < maxNodeDepth)
    (hpush : ∀ r, strcmp m dtp.nodeName (cstr "") = .ok r → r ≠ 0 → Avoids (enter pf) bad) :
    Avoids (do
      let notRoot ← strcmp m dtp.nodeName (cstr "")
      let pf ← if notRoot ≠ 0 then enter pf else .ok pf
      pf.setCurrent { (← pf.current) with name := dtp.nodeName, nprops := 0 }) bad := by
  refine Avoids.bind (strcmp_avoids haccess m _ _) fun r hr => ?_
  by_cases hroot : r ≠ 0
  · simp only [if_pos hroot]
    refine Avoids.bind (hpush r hr hroot) fun pf₁ hpf₁ => ?_
    obtain ⟨htop₁, hlimit, -⟩ := henter pf₁ hpf₁
    rw [← htop₁] at hlimit
    rw [current_of hlimit, ok_bind]
    exact setCurrent_avoids hlimit _
  · simp only [if_neg hroot, ok_bind]
    rw [current_of htop, ok_bind]
    exact setCurrent_avoids htop _

theorem phandleBeginNode_avoids (htop : pf.top < maxNodeDepth)
    (hpanic : ∀ detail, ¬ bad (.panic detail)) : Avoids (phandleBeginNode m pf dtp) bad :=
  beginNode_avoids haccess (fun _ => slotEntered_of_phandleEnter) htop fun _ _ _ =>
    enter_avoids htop (fun hbad => absurd hbad (hpanic _))
      fun parentCells _ f => { f with parentCells := parentCells }

theorem fullBeginNode_avoids (htop : pf.top < maxNodeDepth)
    (hpost : ∀ r, strcmp m dtp.nodeName (cstr "") = .ok r → r ≠ 0 →
      bad (.panic "postcond\n") → pf.top + 1 < maxNodeDepth) :
    Avoids (fullBeginNode m pf dtp) bad :=
  beginNode_avoids haccess (fun _ => slotEntered_of_fullEnter) htop fun r hr hroot =>
    enter_avoids htop (hpost r hr hroot)
      fun parentCells top f => { f with
        parentCells := parentCells
        parent := some (top - 1)
        ownCells := { f.ownCells with interruptParent := parentCells.interruptParent } }

/-- A property that the first pass stores. -/
theorem phandleProp_avoids (hfit : FramesFit pf) (hpanic : ∀ detail, ¬ bad (.panic detail)) :
    Avoids (phandleProp m pf dtp) bad := by
  have hcount := hfit.nprops pf.top le_rfl
  rw [phandleProp, current_of hfit.top, ok_bind]
  refine Avoids.bind (isIgnoredNode_avoids haccess m _) fun b _ => ?_
  split
  · exact avoids_ok _
  · refine Avoids.bind ?_ fun f _ => ?_
    · rw [NodeFrame.storeProp, inBounds_of hcount]
      exact avoids_ok _
    · refine Avoids.bind (setCurrent_avoids hfit.top _) fun _ _ => ?_
      exact Avoids.bind (avoids_kassert fun _ => hpanic _) fun _ _ => avoids_ok _

/-- A property that the second pass reads or stores. -/
theorem fullProp_avoids (hfit : FramesFit pf)
    (hpost : isIgnoredNode m (pf.nodeFrame pf.top).name = .ok false →
      bad (.panic "postcond\n") → (pf.nodeFrame pf.top).nprops + 1 < maxPropsPerNode) :
    Avoids (fullProp m pf dtp) bad := by
  have hcount := hfit.nprops pf.top le_rfl
  have hset : ∀ f, Avoids (pf.setCurrent f) bad := setCurrent_avoids hfit.top
  rw [fullProp, current_of hfit.top, ok_bind]
  refine Avoids.bind (isIgnoredNode_avoids haccess m _) fun b hb => ?_
  cases b with
  | true => exact avoids_ok _
  | false =>
      simp only [Bool.false_eq_true, if_false]
      refine Avoids.bind (strcmp_avoids haccess m _ _) fun r _ => ?_
      split
      · exact Avoids.bind (be32_avoids haccess m _) fun v _ => hset _
      refine Avoids.bind (strcmp_avoids haccess m _ _) fun r _ => ?_
      split
      · exact Avoids.bind (be32_avoids haccess m _) fun v _ => hset _
      refine Avoids.bind (strcmp_avoids haccess m _ _) fun r _ => ?_
      split
      · exact Avoids.bind (be32_avoids haccess m _) fun v _ => hset _
      rw [fullStoreProp]
      refine Avoids.bind ?_ fun f hf => ?_
      · rw [NodeFrame.storeProp, inBounds_of hcount]
        exact avoids_ok _
      obtain rfl := storeProp_eq_ok hf
      refine Avoids.bind ?_ fun f htrack => ?_
      · rw [trackProp]
        refine Avoids.bind (strcmp_avoids haccess m _ _) fun r _ => ?_
        split
        · exact avoids_ok _
        · refine Avoids.bind (strcmp_avoids haccess m _ _) fun r _ => ?_
          split <;> exact avoids_ok _
      obtain ⟨-, hnprops, -⟩ := trackProp_eq_ok htrack
      refine Avoids.bind (hset _) fun _ _ => ?_
      refine Avoids.bind (avoids_kassert fun hlimit hbad => hlimit ?_) fun _ _ => avoids_ok _
      rw [hnprops]
      exact hpost hb hbad

/-- The mapping of a node that ends is read from its slots. -/
theorem mapProps_avoids (hfit : FramesFit pf) :
    Avoids ((List.range (pf.nodeFrame pf.top).nprops).foldlM
      (mapProp m (pf.nodeFrame pf.top)) {}) bad := by
  have hcount := hfit.nprops pf.top le_rfl
  refine foldlM_avoids_of_mem (fun i hi mapping => ?_) _
  have hi := List.mem_range.1 hi
  rw [mapProp, NodeFrame.propAt, inBounds_of (by omega), ok_bind, pure_eq_ok, ok_bind]
  refine Avoids.bind (be32_avoids haccess m _) fun value _ => ?_
  refine Avoids.bind (strcmp_avoids haccess m _ _) fun r _ => ?_
  split
  · exact avoids_ok _
  refine Avoids.bind (strcmp_avoids haccess m _ _) fun r _ => ?_
  split
  · exact avoids_ok _
  refine Avoids.bind (strcmp_avoids haccess m _ _) fun r _ => ?_
  split
  · exact avoids_ok _
  refine Avoids.bind (strcmp_avoids haccess m _ _) fun r _ => ?_
  split <;> exact avoids_ok _

/-- **One token of the first pass** stays in bounds. -/
theorem phandleStep_avoids {table : PhandleTable} (hfit : FramesFit pf)
    (hnum : table.num < phandleNodeMappingCapacity)
    (hpanic : ∀ detail, ¬ bad (.panic detail)) :
    Avoids (phandleStep m (pf, table) dtp) bad := by
  rw [phandleStep]
  split
  · exact Avoids.bind (phandleBeginNode_avoids haccess hfit.top hpanic) fun _ _ => avoids_ok _
  · rw [current_of hfit.top, ok_bind]
    refine Avoids.bind (mapProps_avoids haccess hfit) fun mapping _ => ?_
    by_cases hphandle : mapping.phandle ≠ 0
    · simp only [if_pos hphandle, PhandleTable.add, inBounds_of hnum, ok_bind]
      refine Avoids.bind ?_ fun _ _ => avoids_ok _
      exact Avoids.bind (avoids_kassert fun _ => hpanic _) fun _ _ => avoids_ok _
    · simp only [if_neg hphandle, pure_eq_ok, ok_bind]
      exact avoids_ok _
  · exact Avoids.bind (phandleProp_avoids haccess hfit hpanic) fun _ _ => avoids_ok _
  · exact avoids_ok _
  · exact avoids_ok _

/-- **One token of the second pass** stays in bounds, and within the limits it checks where
the next slot is within them. -/
theorem fullStep_avoids {σ : Type} {onNode : σ → HandlerCall → Exec σ} (hfuel : ¬ bad .fuel)
    (hon : ∀ s c, Avoids (onNode s c) bad) (hfit : FramesFit pf)
    (hdepth : dtp.current = .beginNode → ∀ r, strcmp m dtp.nodeName (cstr "") = .ok r → r ≠ 0 →
      bad (.panic "postcond\n") → pf.top + 1 < maxNodeDepth)
    (hroom : dtp.current = .prop → isIgnoredNode m (pf.nodeFrame pf.top).name = .ok false →
      bad (.panic "postcond\n") → (pf.nodeFrame pf.top).nprops + 1 < maxPropsPerNode) (s : σ) :
    Avoids (fullStep m onNode (pf, s) dtp) bad := by
  rw [fullStep]
  split
  · rename_i htok
    exact Avoids.bind (fullBeginNode_avoids haccess hfit.top (hdepth htok)) fun _ _ => avoids_ok _
  · rw [current_of hfit.top, ok_bind]
    refine Avoids.bind (propIdx_avoids hfit .compatible) fun cp _ => ?_
    refine Avoids.bind (propIdx_avoids hfit .deviceType) fun dp _ => ?_
    refine Avoids.bind ?_ fun _ _ => avoids_ok _
    exact dispatchIfPropMatch_avoids haccess hfuel m hon pf cp dp s
  · rename_i htok
    exact Avoids.bind (fullProp_avoids haccess hfit (hroom htok)) fun _ _ => avoids_ok _
  · exact avoids_ok _
  · exact avoids_ok _

end Step

/-! ### Runs -/

section Runs

variable {m : Mem} {pf pf' : ParsingFrame} {dtp : Parser}

/-- What a token of the first pass does to the frames and to the length of the table. -/
theorem tokenSeen_of_phandleStep {table table' : PhandleTable}
    (h : phandleStep m (pf, table) dtp = .ok (pf', table')) :
    TokenSeen m dtp pf pf' dtp.current ∧ CountsProp m dtp pf pf' ∧
      (table'.num = table.num ∨ table'.num < phandleNodeMappingCapacity) := by
  cases htok : dtp.current with
  | beginNode =>
      simp only [phandleStep, htok, bind_eq_ok, pure_eq_ok, Except.ok.injEq, Prod.mk.injEq] at h
      obtain ⟨pf₁, hbegin, rfl, rfl⟩ := h
      exact ⟨nodeBegun_of_phandle hbegin, fun hprop => by simp [htok] at hprop, .inl rfl⟩
  | endNode =>
      simp only [phandleStep, htok, bind_eq_ok] at h
      obtain ⟨f, hf, mapping, hmapping, h⟩ := h
      by_cases hphandle : mapping.phandle ≠ 0
      · simp only [if_pos hphandle, PhandleTable.add, bind_eq_ok, kassert_eq_ok, pure_eq_ok,
          Except.ok.injEq, Prod.mk.injEq] at h
        obtain ⟨table₁, ⟨-, -, -, hlimit, rfl⟩, rfl, rfl⟩ := h
        exact ⟨rfl, fun hprop => by simp [htok] at hprop, .inr hlimit⟩
      · simp only [if_neg hphandle, pure_eq_ok, ok_bind, Except.ok.injEq, Prod.mk.injEq] at h
        obtain ⟨rfl, rfl⟩ := h
        exact ⟨rfl, fun hprop => by simp [htok] at hprop, .inl rfl⟩
  | prop =>
      simp only [phandleStep, htok, bind_eq_ok, pure_eq_ok, Except.ok.injEq, Prod.mk.injEq] at h
      obtain ⟨pf₁, hprop, rfl, rfl⟩ := h
      obtain ⟨hseen, hcount⟩ := propSeen_of_phandle hprop
      exact ⟨hseen, hcount, .inl rfl⟩
  | nop | fdtEnd =>
      simp only [phandleStep, htok, Except.ok.injEq, Prod.mk.injEq] at h
      obtain ⟨rfl, rfl⟩ := h
      exact ⟨rfl, fun hprop => by simp [htok] at hprop, .inl rfl⟩

variable {σ : Type} {onNode : σ → HandlerCall → Exec σ} {s s' : σ}

/-- What a token of the second pass does to the frames. -/
theorem tokenSeen_of_fullStep (h : fullStep m onNode (pf, s) dtp = .ok (pf', s')) :
    TokenSeen m dtp pf pf' dtp.current := by
  cases htok : dtp.current with
  | beginNode =>
      simp only [fullStep, htok, bind_eq_ok, pure_eq_ok, Except.ok.injEq, Prod.mk.injEq] at h
      obtain ⟨pf₁, hbegin, rfl, -⟩ := h
      exact nodeBegun_of_full hbegin
  | endNode =>
      simp only [fullStep, htok, bind_eq_ok, pure_eq_ok, Except.ok.injEq, Prod.mk.injEq] at h
      obtain ⟨f, hf, cp, hcp, dp, hdp, s₁, hs₁, rfl, -⟩ := h
      rfl
  | prop =>
      simp only [fullStep, htok, bind_eq_ok, pure_eq_ok, Except.ok.injEq, Prod.mk.injEq] at h
      obtain ⟨pf₁, hprop, rfl, -⟩ := h
      exact propSeen_of_full hprop
  | nop | fdtEnd =>
      simp only [fullStep, htok, Except.ok.injEq, Prod.mk.injEq] at h
      exact h.1.symm

/-- A token of the first pass keeps the limits. -/
theorem phandleStep_fit {table table' : PhandleTable} (hfit : FramesFit pf)
    (hnum : table.num < phandleNodeMappingCapacity)
    (h : phandleStep m (pf, table) dtp = .ok (pf', table')) :
    FramesFit pf' ∧ table'.num < phandleNodeMappingCapacity := by
  obtain ⟨hseen, -, hcount⟩ := tokenSeen_of_phandleStep h
  exact ⟨hfit.tokenSeen hseen, by omega⟩

/-- **A token that the first pass admits**: the second pass admits it and trails on. -/
theorem fullStep_trails {pf₁ pf₁' pf₂ : ParsingFrame} {table table' : PhandleTable}
    {bad : Fault → Prop} (haccess : ∀ a, ¬ bad (.access a)) (hfuel : ¬ bad .fuel)
    (hon : ∀ s c, Avoids (onNode s c) bad) (hfit₁ : FramesFit pf₁) (hfit₂ : FramesFit pf₂)
    (h : Trails pf₁ pf₂) (h₁ : phandleStep m (pf₁, table) dtp = .ok (pf₁', table')) (s : σ) :
    Avoids (fullStep m onNode (pf₂, s) dtp) bad ∧
      ∀ pf₂' s', fullStep m onNode (pf₂, s) dtp = .ok (pf₂', s') → Trails pf₁' pf₂' := by
  obtain ⟨hseen₁, hcount, -⟩ := tokenSeen_of_phandleStep h₁
  refine ⟨fullStep_avoids haccess hfuel hon hfit₂ ?_ ?_ s, fun pf₂' s' h₂ => ?_⟩
  · intro htok r hr hroot _
    rw [htok] at hseen₁
    obtain ⟨r₁, hr₁, htop₁⟩ := hseen₁.top
    obtain rfl : r = r₁ := Except.ok.inj (hr.symm.trans hr₁)
    have hlimit := hseen₁.limit
    rw [htop₁, if_pos hroot] at hlimit
    rw [h.top]
    exact hlimit
  · intro htok hignored _
    rw [h.top, h.name pf₁.top le_rfl] at hignored
    have hone := hcount htok hignored
    rw [htok] at hseen₁
    obtain ⟨b, hseen₁⟩ := hseen₁
    have hlimit := (hfit₁.propSeen hseen₁).nprops pf₁.top hseen₁.top.ge
    have hle := h.nprops pf₁.top le_rfl
    rw [h.top]
    omega
  · exact h.tokenSeen hseen₁ hcount (tokenSeen_of_fullStep h₂)

/-- **Tokens that the first pass admits**, from two states that trail. -/
theorem fullRun_trails {bad : Fault → Prop} (haccess : ∀ a, ¬ bad (.access a))
    (hfuel : ¬ bad .fuel) (hon : ∀ s c, Avoids (onNode s c) bad) {qs : List Parser}
    {pf₁ pf₁' pf₂ : ParsingFrame} {table table' : PhandleTable} (hfit₁ : FramesFit pf₁)
    (hnum : table.num < phandleNodeMappingCapacity) (hfit₂ : FramesFit pf₂)
    (h : Trails pf₁ pf₂) (h₁ : qs.foldlM (phandleStep m) (pf₁, table) = .ok (pf₁', table'))
    (s : σ) :
    Avoids (qs.foldlM (fullStep m onNode) (pf₂, s)) bad ∧
      ∀ pf₂' s', qs.foldlM (fullStep m onNode) (pf₂, s) = .ok (pf₂', s') →
        Trails pf₁' pf₂' := by
  induction qs generalizing pf₁ pf₂ table s with
  | nil =>
      obtain ⟨rfl, rfl⟩ : pf₁ = pf₁' ∧ table = table' := by simpa using h₁
      refine ⟨avoids_ok _, fun pf₂' s' h₂ => ?_⟩
      obtain ⟨rfl, -⟩ : pf₂ = pf₂' ∧ s = s' := by simpa using h₂
      exact h
  | cons dtp qs ih =>
      rw [List.foldlM_cons, bind_eq_ok] at h₁
      obtain ⟨⟨pf₁₁, table₁⟩, hstep₁, h₁⟩ := h₁
      obtain ⟨hfit₁', hnum'⟩ := phandleStep_fit hfit₁ hnum hstep₁
      obtain ⟨havoid, htrails⟩ := fullStep_trails haccess hfuel hon hfit₁ hfit₂ h hstep₁ s
      rw [List.foldlM_cons]
      constructor
      · refine havoid.bind fun st hstep₂ => ?_
        obtain ⟨pf₂₁, s₁⟩ := st
        have hfit₂' := hfit₂.tokenSeen (tokenSeen_of_fullStep hstep₂)
        exact (ih hfit₁' hnum' hfit₂' (htrails _ _ hstep₂) h₁ s₁).1
      · intro pf₂' s' h₂
        obtain ⟨⟨pf₂₁, s₁⟩, hstep₂, h₂⟩ := bind_eq_ok.1 h₂
        have hfit₂' := hfit₂.tokenSeen (tokenSeen_of_fullStep hstep₂)
        exact (ih hfit₁' hnum' hfit₂' (htrails _ _ hstep₂) h₁ s₁).2 _ _ h₂

/-- The first token of the blob begins a node with an empty name. -/
def StartsWithRoot (m : Mem) (qs : List Parser) : Prop :=
  ∃ q rest, qs = q :: rest ∧ q.current = .beginNode ∧ m q.nodeName = some 0

/-- A pass over a blob that starts with a root: the first token initialises its frame. -/
theorem phandleRun_avoids {bad : Fault → Prop} (haccess : ∀ a, ¬ bad (.access a))
    (hpanic : ∀ detail, ¬ bad (.panic detail)) {qs : List Parser} (hroot : StartsWithRoot m qs)
    (garbage : ℕ → NodeFrame) (mapping : ℕ → NodeMapping) :
    Avoids (qs.foldlM (phandleStep m) (.fresh garbage, ⟨0, mapping⟩)) bad := by
  obtain ⟨q, rest, rfl, htok, hname⟩ := hroot
  rw [List.foldlM_cons]
  refine Avoids.bind ?_ fun st hstep => ?_
  · simp only [phandleStep, htok]
    exact Avoids.bind (phandleBeginNode_avoids haccess (Nat.zero_lt_succ _) hpanic)
      fun _ _ => avoids_ok _
  · simp only [phandleStep, htok, bind_eq_ok, pure_eq_ok, Except.ok.injEq] at hstep
    obtain ⟨pf, hbegin, rfl⟩ := hstep
    refine foldlM_avoids (fun _ st => FramesFit st.1 ∧ st.2.num < phandleNodeMappingCapacity)
      ⟨framesFit_of_first hname (nodeBegun_of_phandle hbegin),
        by simp [phandleNodeMappingCapacity]⟩ ?_
    rintro done dtp rest' ⟨pf', table⟩ - ⟨hfit, hnum⟩
    exact ⟨phandleStep_avoids haccess hfit hnum hpanic,
      fun st' hstep => phandleStep_fit hfit hnum hstep⟩

theorem fullRun_avoids {bad : Fault → Prop} (haccess : ∀ a, ¬ bad (.access a))
    (hfuel : ¬ bad .fuel) (hpanic : ∀ detail, ¬ bad (.panic detail))
    (hon : ∀ s c, Avoids (onNode s c) bad) {qs : List Parser} (hroot : StartsWithRoot m qs)
    (garbage : ℕ → NodeFrame) (s : σ) :
    Avoids (qs.foldlM (fullStep m onNode) (.fresh garbage, s)) bad := by
  obtain ⟨q, rest, rfl, htok, hname⟩ := hroot
  rw [List.foldlM_cons]
  refine Avoids.bind ?_ fun st hstep => ?_
  · simp only [fullStep, htok]
    refine Avoids.bind (fullBeginNode_avoids haccess (Nat.zero_lt_succ _) ?_)
      fun _ _ => avoids_ok _
    exact fun _ _ _ hbad => absurd hbad (hpanic _)
  · simp only [fullStep, htok, bind_eq_ok, pure_eq_ok, Except.ok.injEq] at hstep
    obtain ⟨pf, hbegin, rfl⟩ := hstep
    refine foldlM_avoids (fun _ st => FramesFit st.1)
      (framesFit_of_first hname (nodeBegun_of_full hbegin)) ?_
    rintro done dtp rest' ⟨pf', s'⟩ - hfit
    refine ⟨fullStep_avoids haccess hfuel hon hfit ?_ ?_ s',
      fun st' hstep => hfit.tokenSeen (tokenSeen_of_fullStep hstep)⟩
    · exact fun _ _ _ _ hbad => absurd hbad (hpanic _)
    · exact fun _ _ hbad => absurd hbad (hpanic _)

/-- **After each token of a blob that starts with a root and that the first pass admits**:
the second pass has admitted it too, and trails. -/
theorem fullRun_trails_of_root {bad : Fault → Prop} (haccess : ∀ a, ¬ bad (.access a))
    (hfuel : ¬ bad .fuel) (hon : ∀ s c, Avoids (onNode s c) bad) {qs : List Parser}
    (hroot : StartsWithRoot m qs) {garbage garbage' : ℕ → NodeFrame}
    {mapping : ℕ → NodeMapping} {pf₁ : ParsingFrame} {table : PhandleTable}
    (h₁ : qs.foldlM (phandleStep m) (.fresh garbage, ⟨0, mapping⟩) = .ok (pf₁, table)) (s : σ) :
    Avoids (qs.foldlM (fullStep m onNode) (.fresh garbage', s)) bad ∧
      ∀ pf₂ s', qs.foldlM (fullStep m onNode) (.fresh garbage', s) = .ok (pf₂, s') →
        Trails pf₁ pf₂ := by
  obtain ⟨q, rest, rfl, htok, hname⟩ := hroot
  rw [List.foldlM_cons, bind_eq_ok] at h₁
  obtain ⟨⟨pf₁₁, table₁⟩, hstep₁, h₁⟩ := h₁
  simp only [phandleStep, htok, bind_eq_ok, pure_eq_ok, Except.ok.injEq, Prod.mk.injEq] at hstep₁
  obtain ⟨pf, hbegin₁, rfl, rfl⟩ := hstep₁
  have hb₁ := nodeBegun_of_phandle hbegin₁
  have hfirst : ∀ pf₂₁, fullBeginNode m (.fresh garbage') q = .ok pf₂₁ →
      FramesFit pf₂₁ ∧ Trails pf pf₂₁ := by
    intro pf₂₁ hbegin₂
    have hb₂ := nodeBegun_of_full hbegin₂
    have htop : (ParsingFrame.fresh garbage').top = (ParsingFrame.fresh garbage).top := rfl
    refine ⟨framesFit_of_first hname hb₂, .of_begun htop (fun i hi hne => ?_) hb₁ hb₂⟩
    exact absurd ((Nat.le_zero.1 hi).trans (hb₁.top_eq hname).symm) hne
  have hrest := fun pf₂₁ hbegin₂ => fullRun_trails haccess hfuel hon (framesFit_of_first hname hb₁)
    (by simp [phandleNodeMappingCapacity]) (hfirst pf₂₁ hbegin₂).1 (hfirst pf₂₁ hbegin₂).2 h₁ s
  have hstep₂ : fullStep m onNode (.fresh garbage', s) q =
      (do let pf₂ ← fullBeginNode m (.fresh garbage') q; return (pf₂, s)) := by
    simp only [fullStep, htok]
  rw [List.foldlM_cons, hstep₂]
  constructor
  · refine Avoids.bind (Avoids.bind ?_ fun _ _ => avoids_ok _) fun st hst => ?_
    · exact fullBeginNode_avoids haccess (Nat.zero_lt_succ _)
        fun _ _ _ _ => (by decide : 0 + 1 < maxNodeDepth)
    · obtain ⟨pf₂₁, hbegin₂, hst⟩ := bind_eq_ok.1 hst
      obtain rfl := Except.ok.inj hst
      exact (hrest pf₂₁ hbegin₂).1
  · intro pf₂ s' h₂
    obtain ⟨st, hst, h₂⟩ := bind_eq_ok.1 h₂
    obtain ⟨pf₂₁, hbegin₂, hst⟩ := bind_eq_ok.1 hst
    obtain rfl := Except.ok.inj hst
    exact (hrest pf₂₁ hbegin₂).2 pf₂ s' h₂

end Runs

/-- **The second pass stays within what the first pass admitted**, for every accepted blob
whose first token begins a node with an empty name, whatever the other tokens are. Neither
pass leaves the frame stack, a property array or the phandle table; handlers aside, if the
first pass returns `ok` then no check of the depth or of the property count fires in the
second, and after each token it stands where the first pass stood, with no more properties
in any live frame. `walkBlob_eq_foldlM` says that the passes are folds over `qs`. -/
theorem second_pass_within_first {m : Mem} {fdt : ℕ} {h : Header} (hfdt : fdt ≠ nullptr)
    (hh : HeaderAt m fdt h) (hc : h.Consistent) (hblob : m.Readable fdt (fdt + h.totalsize))
    {qs : List Parser} (hqs : tokenStates m fdt = .ok (.ok, qs)) (hroot : StartsWithRoot m qs)
    {σ : Type} (onNode : σ → HandlerCall → Exec σ) (garbage garbage' : ℕ → NodeFrame)
    (table : PhandleTable) (s : σ) :
    Avoids (parseFramesPhandle m fdt garbage table) Fault.IsBounds ∧
    ((∀ s c, Avoids (onNode s c) Fault.IsBounds) →
      Avoids (parseFramesFull m fdt garbage' onNode s) Fault.IsBounds) ∧
    ∀ table', parseFramesPhandle m fdt garbage table = .ok (.ok, table') →
      ((∀ s c, Avoids (onNode s c) (· = .panic "postcond\n")) →
        Avoids (parseFramesFull m fdt garbage' onNode s) (· = .panic "postcond\n")) ∧
      ∀ n, 0 < n → ∃ pf₁ t₁,
        (qs.take n).foldlM (phandleStep m) (.fresh garbage, { table with num := 0 }) =
          .ok (pf₁, t₁) ∧
        ∀ pf₂ s', (qs.take n).foldlM (fullStep m onNode) (.fresh garbage', s) =
          .ok (pf₂, s') →
          pf₂.top = pf₁.top ∧
          ∀ i ≤ pf₁.top, (pf₂.nodeFrame i).nprops ≤ (pf₁.nodeFrame i).nprops := by
  obtain ⟨qs', hqs', hwalk⟩ := walkBlob_eq_foldlM hfdt hh hc hblob
  obtain rfl : qs' = qs := by
    rw [hqs'] at hqs
    exact (Prod.mk.inj (Except.ok.inj hqs)).2
  have hphandle : parseFramesPhandle m fdt garbage table = (do
      let st ← qs'.foldlM (phandleStep m) (.fresh garbage, { table with num := 0 })
      return (.ok, st.2)) := by
    rw [parseFramesPhandle, hwalk]
    simp
  have hfull : parseFramesFull m fdt garbage' onNode s = (do
      let st ← qs'.foldlM (fullStep m onNode) (.fresh garbage', s)
      return (.ok, st.2)) := by
    rw [parseFramesFull, hwalk]
    simp
  rw [hphandle, hfull]
  refine ⟨?_, fun hon => ?_, fun table' hrun => ⟨fun hon => ?_, fun n hn => ?_⟩⟩
  · refine Avoids.bind ?_ fun _ _ => avoids_ok _
    exact phandleRun_avoids (by simp [Fault.IsBounds]) (by simp [Fault.IsBounds]) hroot garbage _
  · refine Avoids.bind ?_ fun _ _ => avoids_ok _
    exact fullRun_avoids (by simp [Fault.IsBounds]) (by simp [Fault.IsBounds])
      (by simp [Fault.IsBounds]) hon hroot garbage' s
  · obtain ⟨⟨pf₁, t₁⟩, hrun₁, -⟩ := bind_eq_ok.1 hrun
    refine Avoids.bind ?_ fun _ _ => avoids_ok _
    exact (fullRun_trails_of_root (by simp) (by simp) hon hroot hrun₁ s).1
  · obtain ⟨⟨pf₁, t₁⟩, hrun₁, -⟩ := bind_eq_ok.1 hrun
    rw [← List.take_append_drop n qs', foldlM_append_eq_ok] at hrun₁
    obtain ⟨⟨pf₁, t₁⟩, htake, -⟩ := hrun₁
    refine ⟨pf₁, t₁, htake, fun pf₂ s' h₂ => ?_⟩
    have hroot' : StartsWithRoot m (qs'.take n) := by
      obtain ⟨q, rest, hq, htok, hname⟩ := hroot
      obtain ⟨k, rfl⟩ : ∃ k, n = k + 1 := ⟨n - 1, by omega⟩
      exact ⟨q, rest.take k, by rw [hq, List.take_succ_cons], htok, hname⟩
    have htrails := (fullRun_trails_of_root (fun _ => not_false) not_false
      (fun s c e _ => not_false) hroot' htake s).2 pf₂ s' h₂
    exact ⟨htrails.top, htrails.nprops⟩

/-- A blob with a root, a node inside it and an `EndNode` too many. -/
def unbalancedBlob : List UInt8 :=
  [fdtMagic, 88, 56, 88, 40, 17, 16, 0, 0, 32].flatMap bytes32 ++ List.replicate 16 0 ++
    [1, 0, 1, 0x61000000, 2, 2, 2, 9].flatMap bytes32

/-- The header of `unbalancedBlob`. -/
def unbalancedHeader : Header := ⟨fdtMagic, 88, 56, 88, 40, 17, 0, 32⟩

theorem headerAt_unbalanced : HeaderAt (Mem.ofBytes 4096 unbalancedBlob) 4096 unbalancedHeader := by
  constructor <;> exact be32_of_holds (by decide) (by decide +kernel)

theorem consistent_unbalanced : unbalancedHeader.Consistent := by
  constructor <;> decide

theorem readable_unbalanced :
    (Mem.ofBytes 4096 unbalancedBlob).Readable 4096 (4096 + unbalancedHeader.totalsize) :=
  readable_ofBytes 4096 unbalancedBlob

theorem startsWithRoot_unbalanced {qs : List Parser}
    (hqs : tokenStates (Mem.ofBytes 4096 unbalancedBlob) 4096 = .ok (.ok, qs)) :
    StartsWithRoot (Mem.ofBytes 4096 unbalancedBlob) qs := by
  have hfirst : (tokenStates (Mem.ofBytes 4096 unbalancedBlob) 4096).map
      (fun st => st.2.head?.map fun q => (q.current, q.nodeName)) =
        .ok (some (.beginNode, 4156)) := by decide +kernel
  rw [hqs] at hfirst
  obtain ⟨q, hq, hpair⟩ := Option.map_eq_some_iff.1 (Except.ok.inj hfirst)
  obtain ⟨htok, hname⟩ := Prod.mk.inj hpair
  obtain ⟨rest, hrest⟩ := List.head?_eq_some_iff.1 hq
  exact ⟨q, rest, hrest, htok, by rw [hname]; decide +kernel⟩

/-- On `unbalancedBlob` the first pass returns `ok`, so the second keeps all limits. -/
theorem second_pass_within_first_unbalanced :
    ∃ table, parseFramesPhandle (Mem.ofBytes 4096 unbalancedBlob) 4096 zeroedFrames {} =
        .ok (.ok, table) ∧
      Avoids (parseFramesFull (Mem.ofBytes 4096 unbalancedBlob) 4096 zeroedFrames recordCall [])
        Fault.IsBounds ∧
      Avoids (parseFramesFull (Mem.ofBytes 4096 unbalancedBlob) 4096 zeroedFrames recordCall [])
        (· = .panic "postcond\n") := by
  obtain ⟨qs, hqs, -⟩ := walkBlob_eq_foldlM (by decide) headerAt_unbalanced consistent_unbalanced
    readable_unbalanced
  have hrecord : ∀ bad : Fault → Prop, ∀ log c, Avoids (recordCall log c) bad :=
    fun _ _ _ => avoids_ok _
  obtain ⟨-, hbounds, hlimits⟩ := second_pass_within_first (by decide) headerAt_unbalanced
    consistent_unbalanced readable_unbalanced hqs (startsWithRoot_unbalanced hqs)
    recordCall zeroedFrames zeroedFrames {} []
  have hrun : (parseFramesPhandle (Mem.ofBytes 4096 unbalancedBlob) 4096 zeroedFrames {}).map
      Prod.fst = .ok .ok := by decide +kernel
  obtain ⟨⟨status, table⟩, hpass, hstatus⟩ := map_eq_ok.1 hrun
  obtain rfl : status = .ok := hstatus
  exact ⟨table, hpass, hbounds (hrecord _), (hlimits table hpass).1 (hrecord _)⟩

end Floss
