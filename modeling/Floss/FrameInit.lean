import Floss.FrameLoads

/-!
# Which Members of a Frame Are Written

The members `_name`, `_nprops` and `_props` of a frame have no initialiser. `BeginNode`
writes the first two, in the slot that it makes the current one; `Prop` and `EndNode` use the
current slot as it is, and a handler may go down to the bottom slot. This module compares what
the passes load with what they have stored before.

* `placeAfter m qs`: the position of the stack after the tokens `qs` and whether its bottom
  slot has been begun, in terms of the tokens alone; `Ready` and `AllReady`;
* `Written`: what a pass has stored in between tokens; `Written.phandleTurn` and
  `Written.fullTurn` are the steps;
* `UsesWritten`, `FramesInitialised`: all loads of a pass, and of both passes with their
  handlers, are of cells that it has stored into;
* `TokensReady`, `BottomUnused`: the tokens that a pass gets to are ready, and no handler gets
  an address to the bottom slot before that has been begun;
* `frames_initialised_iff`: frames are initialised exactly under these conditions;
  `StartsWithRoot.framesInitialised` says that a blob which begins with the root meets them, and
  `FramesInitialised.parseFrames_eq` that then the passes do not depend on what was in the
  frames.
-/

namespace Floss

open CellProgram

/-! ### The place of a token -/

/-- The kind of a token, and for `BeginNode` whether the node's name is empty. -/
def tokenKind (m : Mem) (q : Parser) : Token × Bool :=
  (q.current, decide (m q.nodeName = some 0))

/-- One token: the position of the stack, and whether its bottom slot has been begun. -/
def placeStep (place : ℕ × Bool) : Token × Bool → ℕ × Bool
  | (.beginNode, true) => (place.1, place.2 || place.1 == 0)
  | (.beginNode, false) => (place.1 + 1, place.2)
  | (.endNode, _) => (place.1 - 1, place.2)
  | (.prop, _) | (.nop, _) | (.fdtEnd, _) => place

/-- The place after the tokens `qs`. -/
def placeAfter (m : Mem) (qs : List Parser) : ℕ × Bool :=
  (qs.map (tokenKind m)).foldl placeStep (0, false)

/-- The current slot has been begun: the stack is not at the bottom, or the bottom slot has
been begun. -/
def Begun (place : ℕ × Bool) : Prop := place.1 ≠ 0 ∨ place.2 = true

/-- A token is **ready**: `Prop` and `EndNode` come when the current slot has been begun. -/
def Ready (m : Mem) (done : List Parser) (q : Parser) : Prop :=
  q.current = .prop ∨ q.current = .endNode → Begun (placeAfter m done)

/-- All tokens of the list are ready, each after those before it. -/
def AllReady (m : Mem) (qs : List Parser) : Prop :=
  ∀ done q rest, qs = done ++ q :: rest → Ready m done q

theorem placeAfter_snoc (m : Mem) (done : List Parser) (q : Parser) :
    placeAfter m (done ++ [q]) = placeStep (placeAfter m done) (tokenKind m q) := by
  simp [placeAfter]

theorem foldl_placeStep_begun (kinds : List (Token × Bool)) {place : ℕ × Bool}
    (h : place.2 = true) : (kinds.foldl placeStep place).2 = true := by
  induction kinds generalizing place with
  | nil => exact h
  | cons kind kinds ih =>
      refine ih ?_
      obtain ⟨tok, root⟩ := kind
      cases tok <;> cases root <;> simp [placeStep, h]

/-- If the first token begins a node with an empty name, then the bottom slot **has been begun**
wherever a property comes or a node ends. -/
theorem StartsWithRoot.bottom_begun {m : Mem} {qs done rest : List Parser} {q : Parser}
    (h : StartsWithRoot m qs) (hsplit : qs = done ++ q :: rest)
    (htok : q.current = .prop ∨ q.current = .endNode) : (placeAfter m done).2 = true := by
  obtain ⟨root, rest', hqs, hroot, hname⟩ := h
  rw [hqs] at hsplit
  cases done with
  | nil =>
      obtain rfl : root = q := (List.cons.inj hsplit).1
      simp [hroot] at htok
  | cons d done =>
      obtain rfl : root = d := (List.cons.inj hsplit).1
      rw [placeAfter, List.map_cons, List.foldl_cons]
      exact foldl_placeStep_begun _ (by simp [tokenKind, hroot, hname, placeStep])

/-- Then **all tokens are ready**, in whichever order they come. -/
theorem StartsWithRoot.allReady {m : Mem} {qs : List Parser} (h : StartsWithRoot m qs) :
    AllReady m qs :=
  fun _ _ _ hsplit htok => .inr (h.bottom_begun hsplit htok)

/-! ### What has been stored -/

/-- The cells that a pass has stored into in between tokens, when it stands at `place`. -/
structure Written (place : ℕ × Bool) (pf : ParsingFrame) (w : List (ℕ × FrameField)) : Prop where
  top : pf.top = place.1
  /-- the slots in use have been begun, and then their properties are written -/
  slots : ∀ i ≤ pf.top, i ≠ 0 ∨ place.2 = true →
    (i, .name) ∈ w ∧ (i, .nprops) ∈ w ∧ (pf.nodeFrame i).nprops < maxPropsPerNode ∧
      ∀ j < (pf.nodeFrame i).nprops, (i, .prop j) ∈ w
  /-- what a remembered index points to is written, in whichever node it was -/
  idx : ∀ i k, 0 ≤ (pf.nodeFrame i).idx k → (i, .prop ((pf.nodeFrame i).idx k).toNat) ∈ w
  /-- a bottom slot that has not been begun is not written -/
  bottom : place.2 = false → (0, .name) ∉ w ∧ (0, .nprops) ∉ w

/-- What `Prop` does to the current frame, if the property is stored and if it is not. -/
structure StoreSeen (stores : Bool) (pf pf' : ParsingFrame) : Prop where
  nprops : (pf'.nodeFrame pf.top).nprops =
    (pf.nodeFrame pf.top).nprops + if stores then 1 else 0
  idx : ∀ k, (pf'.nodeFrame pf.top).idx k = (pf.nodeFrame pf.top).idx k ∨
    stores = true ∧ (pf'.nodeFrame pf.top).idx k = (pf.nodeFrame pf.top).nprops

theorem storeSeen_refl (pf : ParsingFrame) : StoreSeen false pf pf :=
  ⟨rfl, fun _ => .inl rfl⟩

/-- What a token stores in either pass, from `pf` to `pf'`. -/
def TokenStores (pf pf' : ParsingFrame) (w w' : List (ℕ × FrameField)) : Token → Prop
  | .beginNode => w' = w ++ [(pf'.top, .name), (pf'.top, .nprops)]
  | .prop => ∃ stores, StoreSeen stores pf pf' ∧ w' = w ++ if stores then
      [(pf.top, .prop (pf.nodeFrame pf.top).nprops), (pf.top, .nprops)] else []
  | .endNode | .nop | .fdtEnd => w' = w

/-- A node with a name that is not empty gets the next slot. -/
theorem NodeBegun.top_succ {m : Mem} {dtp : Parser} {pf pf' : ParsingFrame}
    (hname : m dtp.nodeName ≠ some 0) (h : NodeBegun m dtp pf pf') : pf'.top = pf.top + 1 := by
  obtain ⟨r, hr, htop⟩ := h.top
  rw [show cstr "" = [] by decide, strcmp] at hr
  obtain ⟨c, hc, hr⟩ := bind_eq_ok.1 hr
  have hne : r ≠ 0 := by
    rintro rfl
    have hzero : c.toNat = (0 : UInt8).toNat := by simpa using hr
    obtain rfl := UInt8.toNat_inj.1 hzero
    exact hname (Mem.load_eq_ok.1 hc)
  rw [htop, if_pos hne]

namespace Written

variable {m : Mem} {place : ℕ × Bool} {pf pf' : ParsingFrame} {dtp : Parser}
  {w : List (ℕ × FrameField)}

/-- Nothing is stored when a pass begins. -/
theorem fresh (garbage : ℕ → NodeFrame) : Written (0, false) (.fresh garbage) [] where
  top := rfl
  slots i hi hbegun := by
    rcases hbegun with hne | hfalse
    · exact absurd (Nat.le_zero.1 hi) hne
    · simp at hfalse
  idx i k hk := by cases k <;> simp [NodeFrame.idx, ParsingFrame.fresh] at hk
  bottom _ := by simp

/-- A node begins in a slot: the current one, if it is not the bottom or is begun by this,
or the next. -/
theorem begun (hw : Written place pf w) (h : NodeBegun m dtp pf pf') {begun : Bool}
    (htop : pf'.top = pf.top ∧ begun = (place.2 || pf.top == 0) ∨
      pf'.top = pf.top + 1 ∧ begun = place.2) :
    Written (pf'.top, begun) pf' (w ++ [(pf'.top, .name), (pf'.top, .nprops)]) where
  top := rfl
  slots i hi hbegun := by
    by_cases hcur : i = pf'.top
    · rw [hcur, h.nprops]
      exact ⟨by simp, by simp, Nat.zero_lt_succ _, fun j hj => absurd hj (Nat.not_lt_zero j)⟩
    · have hbegun' : i ≠ 0 ∨ place.2 = true := by
        rcases hbegun with hne | hbegun
        · exact .inl hne
        · rcases htop with ⟨htop, hflag⟩ | ⟨-, hflag⟩
          · by_cases hzero : i = 0
            · -- the bottom slot, which is not the one that begins
              have hne : pf.top ≠ 0 := fun h0 => hcur (by omega)
              exact .inr (by simpa [hflag, hne] using hbegun)
            · exact .inl hzero
          · exact .inr (hflag ▸ hbegun)
      obtain ⟨hname, hnprops, hlt, hprops⟩ := hw.slots i (by omega) hbegun'
      rw [h.others i hcur]
      exact ⟨List.mem_append_left _ hname, List.mem_append_left _ hnprops, hlt,
        fun j hj => List.mem_append_left _ (hprops j hj)⟩
  idx i k hk := by
    refine List.mem_append_left _ ?_
    by_cases hcur : i = pf'.top
    · rw [hcur] at hk ⊢
      rw [h.idx k] at hk ⊢
      exact hw.idx _ k hk
    · rw [h.others i hcur] at hk ⊢
      exact hw.idx i k hk
  bottom hfalse := by
    have hne : pf'.top ≠ 0 := by
      rcases htop with ⟨htop, hflag⟩ | ⟨htop, -⟩
      · intro h0
        have : begun = true := by simp [hflag, ← htop, h0]
        simp [this] at hfalse
      · omega
    have hplace : place.2 = false := by
      rcases htop with ⟨-, hflag⟩ | ⟨-, hflag⟩
      · have hor : (place.2 || pf.top == 0) = false := hflag ▸ hfalse
        exact (Bool.or_eq_false_iff.1 hor).1
      · exact hflag ▸ hfalse
    obtain ⟨hname, hnprops⟩ := hw.bottom hplace
    simp [hname, hnprops, Ne.symm hne]

/-- A property is stored in a slot that has been begun, or it is not stored. -/
theorem prop {b stores : Bool} (hw : Written place pf w) (h : PropSeen m b pf pf')
    (hstore : StoreSeen stores pf pf') (hbegun : Begun place) :
    Written place pf' (w ++ if stores then
      [(pf.top, .prop (pf.nodeFrame pf.top).nprops), (pf.top, .nprops)] else []) where
  top := h.top.trans hw.top
  slots i hi hslot := by
    rw [h.top] at hi
    obtain ⟨hname, hnprops, hlt, hprops⟩ := hw.slots i hi hslot
    refine ⟨List.mem_append_left _ hname, List.mem_append_left _ hnprops, ?_, fun j hj => ?_⟩
    · by_cases hcur : i = pf.top
      · have hcount := h.nprops
        rw [hcur] at hlt ⊢
        omega
      · rw [h.others i hcur]
        exact hlt
    · by_cases hcur : i = pf.top
      · rw [hcur, hstore.nprops] at hj
        rw [hcur] at hprops ⊢
        cases stores with
        | false => exact List.mem_append_left _ (hprops j (by simpa using hj))
        | true =>
            rcases Nat.lt_succ_iff_lt_or_eq.1 (by simpa using hj) with hj | rfl
            · exact List.mem_append_left _ (hprops j hj)
            · simp
      · rw [h.others i hcur] at hj
        exact List.mem_append_left _ (hprops j hj)
  idx i k hk := by
    by_cases hcur : i = pf.top
    · rw [hcur] at hk ⊢
      rcases hstore.idx k with hidx | ⟨hstores, hidx⟩
      · rw [hidx] at hk ⊢
        exact List.mem_append_left _ (hw.idx _ k hk)
      · rw [hidx, hstores]
        simp
    · rw [h.others i hcur] at hk ⊢
      exact List.mem_append_left _ (hw.idx i k hk)
  bottom hfalse := by
    obtain ⟨hname, hnprops⟩ := hw.bottom hfalse
    have hne : pf.top ≠ 0 := by
      rcases hbegun with hne | htrue
      · exact hw.top ▸ hne
      · simp [hfalse] at htrue
    cases stores with
    | false => simpa using ⟨hname, hnprops⟩
    | true => simp [hname, hnprops, Ne.symm hne]

/-- A node ends: the slots below it stay as they are. -/
theorem pop (hw : Written place pf w) : Written (place.1 - 1, place.2) pf.pop w := by
  have htop : pf.pop.top = pf.top - 1 := by
    rw [ParsingFrame.pop]
    split
    · rfl
    · omega
  have hframe : pf.pop.nodeFrame = pf.nodeFrame := by
    rw [ParsingFrame.pop]
    split <;> rfl
  exact {
    top := by rw [htop, hw.top]
    slots := fun i hi hslot => by
      rw [hframe]
      exact hw.slots i (by omega) hslot
    idx := fun i k hk => by
      rw [hframe] at hk ⊢
      exact hw.idx i k hk
    bottom := hw.bottom }

/-- **A token that is ready** keeps in order what has been stored, in either pass. -/
theorem token {w' : List (ℕ × FrameField)} {done : List Parser}
    (hw : Written (placeAfter m done) pf w) (hready : Ready m done dtp)
    (hseen : TokenSeen m dtp pf pf' dtp.current) (hstores : TokenStores pf pf' w w' dtp.current) :
    Written (placeAfter m (done ++ [dtp])) pf' w' := by
  rw [placeAfter_snoc, tokenKind]
  cases htok : dtp.current with
  | beginNode =>
      rw [htok] at hseen hstores
      rw [hstores]
      have htop := hw.top
      by_cases hroot : m dtp.nodeName = some 0
      · have heq := NodeBegun.top_eq hroot hseen
        have hbegun := hw.begun hseen (.inl ⟨heq, rfl⟩)
        rw [heq, htop] at hbegun
        simpa [placeStep, hroot, heq, htop] using hbegun
      · have hsucc := NodeBegun.top_succ hroot hseen
        have hbegun := hw.begun hseen (.inr ⟨hsucc, rfl⟩)
        rw [hsucc, htop] at hbegun
        simpa [placeStep, hroot, hsucc, htop] using hbegun
  | endNode =>
      rw [htok] at hseen hstores
      rw [show pf' = pf.pop from hseen, show w' = w from hstores]
      exact hw.pop
  | prop =>
      rw [htok] at hseen hstores
      obtain ⟨b, hseen⟩ := hseen
      obtain ⟨stores, hstore, rfl⟩ := hstores
      exact hw.prop hseen hstore (hready (.inl htok))
  | nop | fdtEnd =>
      rw [htok] at hseen hstores
      rw [show pf' = pf from hseen, show w' = w from hstores]
      exact hw

/-- A slot that has been begun has a name, a count, and room for one more property. -/
theorem of_begun (hw : Written place pf w) (hbegun : Begun place) :
    (pf.top, .name) ∈ w ∧ (pf.top, .nprops) ∈ w ∧
      (pf.nodeFrame pf.top).nprops < maxPropsPerNode ∧
      ∀ j < (pf.nodeFrame pf.top).nprops, (pf.top, .prop j) ∈ w :=
  hw.slots pf.top le_rfl (hw.top ▸ hbegun)

/-- Of a slot that has not been begun, neither name nor count is written. -/
theorem not_mem (hw : Written place pf w) (hbegun : ¬ Begun place) :
    (pf.top, .name) ∉ w ∧ (pf.top, .nprops) ∉ w := by
  obtain ⟨hzero, hflag⟩ : place.1 = 0 ∧ place.2 = false := by
    simpa [Begun] using hbegun
  rw [hw.top, hzero]
  exact hw.bottom hflag

end Written

/-! ### What a token loads and stores -/

section Turns

variable {σ : Type} {m : Mem} {pf : ParsingFrame} {dtp : Parser} {cells : FrameCells}
  {w : List (ℕ × FrameField)}

/-- `BeginNode` loads nothing. -/
theorem writesFirst_beginNodeProg (enter : ParsingFrame → Exec ParsingFrame) :
    WritesFirst (beginNodeProg m enter pf dtp) cells w fun pf' _ w' =>
      w' = w ++ [(pf'.top, .name), (pf'.top, .nprops)] := by
  refine writesFirst_lift_bind fun r _ => writesFirst_lift_bind fun pf₁ _ =>
    writesFirst_lift_bind fun _ _ => writesFirst_set_bind (writesFirst_set_bind ?_)
  exact writesFirst_pure (by simp)

/-- A property that is stored: the number of properties is loaded, the property stored and the
number too. -/
theorem writesFirst_storePropProg {track : ℕ → Exec NodeFrame}
    (hnprops : (pf.top, .nprops) ∈ w)
    (htrack : ∀ n f, track n = .ok f → ∀ k, f.idx k = (pf.nodeFrame pf.top).idx k ∨ f.idx k = n) :
    WritesFirst (storePropProg track pf dtp) cells w fun pf' cells' w' =>
      TokenStores (pf.withCells cells) (pf'.withCells cells') w w' .prop := by
  refine writesFirst_get_bind hnprops (writesFirst_lift_bind fun _ _ => writesFirst_set_bind ?_)
  refine writesFirst_lift_bind fun f hf => writesFirst_lift_bind fun pf₁ hset => ?_
  obtain ⟨-, rfl⟩ := setCurrent_eq_ok.1 hset
  refine writesFirst_set_bind (writesFirst_lift_bind fun _ _ => writesFirst_pure ?_)
  refine ⟨true, ⟨?_, fun k => ?_⟩, by simp [ParsingFrame.withCells, withCells, NodeFrame.withCells]⟩
  · simp [ParsingFrame.withCells, withCells, NodeFrame.withCells]
  · have hk := htrack _ f hf k
    cases k <;> simpa [ParsingFrame.withCells, withCells, NodeFrame.withCells, NodeFrame.idx]
      using hk

/-- A property that only sets cells of the frame. -/
theorem writesFirst_setCurrent {f : NodeFrame} (hidx : ∀ k, f.idx k = (pf.nodeFrame pf.top).idx k) :
    WritesFirst (liftM (pf.setCurrent f) : FrameProgram ParsingFrame) cells w fun pf' cells' w' =>
      TokenStores (pf.withCells cells) (pf'.withCells cells') w w' .prop := by
  refine (computes_lift _ _).writesFirst (loadsIn_lift _) fun pf' hset => ?_
  obtain ⟨-, rfl⟩ := setCurrent_eq_ok.1 hset
  refine ⟨false, ⟨rfl, fun k => .inl ?_⟩, by simp⟩
  have hk := hidx k
  cases k <;> simpa [ParsingFrame.withCells, withCells, NodeFrame.withCells, NodeFrame.idx]
    using hk

/-- `Prop` of the first pass. -/
theorem writesFirst_phandlePropProg (hname : (pf.top, .name) ∈ w)
    (hnprops : (pf.top, .nprops) ∈ w) :
    WritesFirst (phandlePropProg m pf dtp) cells w fun pf' cells' w' =>
      TokenStores (pf.withCells cells) (pf'.withCells cells') w w' .prop := by
  refine writesFirst_lift_bind fun f hf => writesFirst_get_bind hname ?_
  refine writesFirst_lift_bind fun b _ => ?_
  obtain ⟨-, rfl⟩ := current_eq_ok.1 hf
  cases b with
  | true => exact writesFirst_pure ⟨false, storeSeen_refl _, by simp⟩
  | false =>
      refine writesFirst_storePropProg hnprops fun n f hf k => .inl ?_
      rw [← Except.ok.inj hf]

/-- `Prop` of the second pass. -/
theorem writesFirst_fullPropProg (hname : (pf.top, .name) ∈ w)
    (hnprops : (pf.top, .nprops) ∈ w) :
    WritesFirst (fullPropProg m pf dtp) cells w fun pf' cells' w' =>
      TokenStores (pf.withCells cells) (pf'.withCells cells') w w' .prop := by
  refine writesFirst_lift_bind fun f hf => writesFirst_get_bind hname ?_
  refine writesFirst_lift_bind fun b _ => ?_
  obtain ⟨-, rfl⟩ := current_eq_ok.1 hf
  cases b with
  | true => exact writesFirst_pure ⟨false, storeSeen_refl _, by simp⟩
  | false =>
      refine writesFirst_lift_bind fun r _ => ?_
      by_cases hr : r = 0
      · rw [if_pos hr]
        exact writesFirst_lift_bind fun v _ => writesFirst_setCurrent fun k => by cases k <;> rfl
      rw [if_neg hr]
      refine writesFirst_lift_bind fun r _ => ?_
      by_cases hr : r = 0
      · rw [if_pos hr]
        exact writesFirst_lift_bind fun v _ => writesFirst_setCurrent fun k => by cases k <;> rfl
      rw [if_neg hr]
      refine writesFirst_lift_bind fun r _ => ?_
      by_cases hr : r = 0
      · rw [if_pos hr]
        exact writesFirst_lift_bind fun v _ => writesFirst_setCurrent fun k => by cases k <;> rfl
      rw [if_neg hr]
      refine writesFirst_storePropProg hnprops fun n f hf k => ?_
      have hk := (trackProp_eq_ok hf).2.2 k
      cases k <;> exact hk

/-- A turn of the first pass. -/
theorem writesFirst_phandleStepProg {table : PhandleTable}
    (hprop : dtp.current = .prop → (pf.top, .name) ∈ w ∧ (pf.top, .nprops) ∈ w)
    (hend : dtp.current = .endNode → ∀ fld, LiveCell cells (pf.top, fld) → (pf.top, fld) ∈ w) :
    WritesFirst (phandleStepProg m (pf, table) dtp) cells w fun st' cells' w' =>
      TokenStores (pf.withCells cells) (st'.1.withCells cells') w w' dtp.current := by
  rw [phandleStepProg]
  cases htok : dtp.current with
  | beginNode => exact (writesFirst_beginNodeProg _).bind fun _ _ _ h => writesFirst_pure h
  | endNode =>
      refine writesFirst_lift_bind fun f _ => ?_
      refine (computes_ownProps pf.nodeFrame (fun _ _ => rfl) _).writesFirst_bind
        (loadsIn_ownProps (hend htok) _) fun mapping _ => ?_
      by_cases hphandle : mapping.phandle ≠ 0
      · simp only [if_pos hphandle]
        exact writesFirst_lift_bind fun _ _ => writesFirst_pure rfl
      · simp only [if_neg hphandle]
        exact writesFirst_pure rfl
  | prop =>
      obtain ⟨hname, hnprops⟩ := hprop htok
      exact (writesFirst_phandlePropProg hname hnprops).bind fun _ _ _ h => writesFirst_pure h
  | nop | fdtEnd => exact writesFirst_pure rfl

/-- A turn of the second pass. -/
theorem writesFirst_fullStepProg {onNode : σ → HandlerCall → FrameProgram σ}
    {onNode' : σ → HandlerCall → Exec σ} {s : σ}
    (hon : ∀ s c, Computes (onNode s c) cells (onNode' s (c.withCells cells)))
    (hprop : dtp.current = .prop → (pf.top, .name) ∈ w ∧ (pf.top, .nprops) ∈ w)
    (hidx : ∀ k, 0 ≤ (pf.nodeFrame pf.top).idx k →
      (pf.top, .prop ((pf.nodeFrame pf.top).idx k).toNat) ∈ w)
    (hcall : dtp.current = .endNode → ∀ s' handler,
      Called m onNode' (pf.withCells cells) s s' handler →
      LoadsIn (· ∈ w) (onNode s' ⟨handler, pf.nodeFrame, pf.top⟩) cells) :
    WritesFirst (fullStepProg m onNode (pf, s) dtp) cells w fun st' cells' w' =>
      TokenStores (pf.withCells cells) (st'.1.withCells cells') w w' dtp.current := by
  cases htok : dtp.current with
  | beginNode =>
      rw [fullStepProg, htok]
      exact (writesFirst_beginNodeProg _).bind fun _ _ _ h => writesFirst_pure h
  | endNode =>
      exact (computes_fullEnd hon htok).writesFirst (loadsIn_fullEnd hon htok hidx (hcall htok))
        fun _ _ => rfl
  | prop =>
      obtain ⟨hname, hnprops⟩ := hprop htok
      rw [fullStepProg, htok]
      exact (writesFirst_fullPropProg hname hnprops).bind fun _ _ _ h => writesFirst_pure h
  | nop | fdtEnd =>
      rw [fullStepProg, htok]
      exact writesFirst_pure rfl

end Turns

/-! ### Parents -/

section Parents

variable {σ : Type} {m : Mem} {pf pf' : ParsingFrame} {dtp : Parser}

theorem parent_of_setCurrent {f : NodeFrame} (h : pf.setCurrent f = .ok pf')
    (hf : f.parent = (pf.nodeFrame pf.top).parent) (i : ℕ) :
    (pf'.nodeFrame i).parent = (pf.nodeFrame i).parent := by
  obtain ⟨-, rfl⟩ := setCurrent_eq_ok.1 h
  by_cases hi : i = pf.top
  · simp [hi, hf]
  · simp [hi]

theorem parent_of_fullStoreProp (h : fullStoreProp m pf (pf.nodeFrame pf.top) dtp = .ok pf')
    (i : ℕ) : (pf'.nodeFrame i).parent = (pf.nodeFrame i).parent := by
  rw [fullStoreProp] at h
  obtain ⟨f, hf, h⟩ := bind_eq_ok.1 h
  obtain rfl := storeProp_eq_ok hf
  obtain ⟨f, htrack, h⟩ := bind_eq_ok.1 h
  obtain ⟨pf₁, hset, h⟩ := bind_eq_ok.1 h
  obtain ⟨-, -, h⟩ := bind_eq_ok.1 h
  obtain rfl := Except.ok.inj h
  refine parent_of_setCurrent hset ?_ i
  rw [trackProp] at htrack
  obtain ⟨r, -, htrack⟩ := bind_eq_ok.1 htrack
  split at htrack
  · rw [← Except.ok.inj htrack]
  obtain ⟨r, -, htrack⟩ := bind_eq_ok.1 htrack
  split at htrack
  · rw [← Except.ok.inj htrack]
  · rw [← Except.ok.inj htrack]

/-- `Prop` leaves `_parent` as it is. -/
theorem parent_of_fullProp (h : fullProp m pf dtp = .ok pf') (i : ℕ) :
    (pf'.nodeFrame i).parent = (pf.nodeFrame i).parent := by
  rw [fullProp] at h
  obtain ⟨f, hf, h⟩ := bind_eq_ok.1 h
  obtain ⟨-, rfl⟩ := current_eq_ok.1 hf
  obtain ⟨b, -, h⟩ := bind_eq_ok.1 h
  cases b with
  | true =>
      obtain rfl : pf = pf' := by simpa using h
      rfl
  | false =>
      simp only [Bool.false_eq_true, if_false] at h
      obtain ⟨r, -, h⟩ := bind_eq_ok.1 h
      split at h
      · obtain ⟨v, -, h⟩ := bind_eq_ok.1 h
        exact parent_of_setCurrent h rfl i
      obtain ⟨r, -, h⟩ := bind_eq_ok.1 h
      split at h
      · obtain ⟨v, -, h⟩ := bind_eq_ok.1 h
        exact parent_of_setCurrent h rfl i
      obtain ⟨r, -, h⟩ := bind_eq_ok.1 h
      split at h
      · obtain ⟨v, -, h⟩ := bind_eq_ok.1 h
        exact parent_of_setCurrent h rfl i
      exact parent_of_fullStoreProp h i

theorem parent_of_fullEnter (h : fullEnter pf = .ok pf') :
    (pf'.nodeFrame (pf.top + 1)).parent = some pf.top := by
  simp only [fullEnter, ParsingFrame.push, bind_eq_ok, current_eq_ok, kassert_eq_ok,
    pure_eq_ok, Except.ok.injEq, setCurrent_eq_ok] at h
  obtain ⟨-, -, -, ⟨-, -, rfl⟩, -, ⟨-, rfl⟩, -, rfl⟩ := h
  simp

/-- `BeginNode` leads from a new slot to the one below. -/
theorem ParentsBelow.begun (hp : ParentsBelow pf.nodeFrame pf.top)
    (h : fullBeginNode m pf dtp = .ok pf') : ParentsBelow pf'.nodeFrame pf'.top := by
  rw [fullBeginNode] at h
  obtain ⟨r, -, h⟩ := bind_eq_ok.1 h
  by_cases hr : r ≠ 0
  · simp only [if_pos hr] at h
    obtain ⟨pf₁, henter, h⟩ := bind_eq_ok.1 h
    obtain ⟨f, hf, h⟩ := bind_eq_ok.1 h
    obtain ⟨-, rfl⟩ := current_eq_ok.1 hf
    have hsame := parent_of_setCurrent h rfl
    obtain ⟨-, rfl⟩ := setCurrent_eq_ok.1 h
    have hslot := slotEntered_of_fullEnter henter
    have htop : pf₁.top = pf.top + 1 := hslot.top
    refine ⟨?_, fun i hi => ?_⟩
    · rw [hsame, hslot.others 0 (by omega)]
      exact hp.bottom
    · rw [hsame]
      have hi : i < pf₁.top := hi
      by_cases hcur : i = pf.top
      · rw [hcur]
        exact parent_of_fullEnter henter
      · rw [hslot.others (i + 1) (by omega)]
        exact hp.succ i (by omega)
  · simp only [if_neg hr, ok_bind] at h
    obtain ⟨f, hf, h⟩ := bind_eq_ok.1 h
    obtain ⟨-, rfl⟩ := current_eq_ok.1 hf
    have hsame := parent_of_setCurrent h rfl
    obtain ⟨-, rfl⟩ := setCurrent_eq_ok.1 h
    exact ⟨(hsame 0).trans hp.bottom, fun i hi => (hsame (i + 1)).trans (hp.succ i hi)⟩

/-- A turn of the second pass keeps the way down to the bottom. -/
theorem ParentsBelow.step {onNode : σ → HandlerCall → Exec σ} {s s' : σ}
    (hp : ParentsBelow pf.nodeFrame pf.top) (h : fullStep m onNode (pf, s) dtp = .ok (pf', s')) :
    ParentsBelow pf'.nodeFrame pf'.top := by
  have hseen := tokenSeen_of_fullStep h
  cases htok : dtp.current with
  | beginNode =>
      simp only [fullStep, htok, bind_eq_ok, pure_eq_ok, Except.ok.injEq, Prod.mk.injEq] at h
      obtain ⟨pf₁, hbegin, rfl, -⟩ := h
      exact hp.begun hbegin
  | endNode =>
      rw [htok] at hseen
      rw [show pf' = pf.pop from hseen, ParsingFrame.pop]
      split
      · exact ⟨hp.bottom, fun i hi => hp.succ i (lt_of_lt_of_le hi (Nat.sub_le _ _))⟩
      · exact hp
  | prop =>
      rw [htok] at hseen
      obtain ⟨b, hseen⟩ := hseen
      simp only [fullStep, htok, bind_eq_ok, pure_eq_ok, Except.ok.injEq, Prod.mk.injEq] at h
      obtain ⟨pf₁, hprop, rfl, -⟩ := h
      have hsame := parent_of_fullProp hprop
      rw [hseen.top]
      exact ⟨(hsame 0).trans hp.bottom, fun i hi => (hsame (i + 1)).trans (hp.succ i hi)⟩
  | nop | fdtEnd =>
      rw [htok] at hseen
      rw [show pf' = pf from hseen]
      exact hp

end Parents

/-! ### Turns keep the invariant -/

namespace Written

variable {m : Mem} {pf : ParsingFrame} {dtp : Parser} {cells : FrameCells}
  {w : List (ℕ × FrameField)} {done : List Parser}

/-- In a slot that has been begun, all live cells are stored. -/
theorem live (hw : Written (placeAfter m done) (pf.withCells cells) w) {r : ℕ × FrameField}
    (hle : r.1 ≤ pf.top) (hlive : LiveCell cells r)
    (hbegun : r.1 ≠ 0 ∨ (placeAfter m done).2 = true) : r ∈ w := by
  obtain ⟨i, fld⟩ := r
  obtain ⟨hname, hnprops, -, hprops⟩ := hw.slots i hle hbegun
  cases fld with
  | name => exact hname
  | nprops => exact hnprops
  | prop j => exact hprops j hlive

/-- **A turn of the first pass** at a token that is ready. -/
theorem phandleTurn {table : PhandleTable}
    (hw : Written (placeAfter m done) (pf.withCells cells) w) (hready : Ready m done dtp) :
    WritesFirst (phandleStepProg m (pf, table) dtp) cells w fun st' cells' w' =>
      Written (placeAfter m (done ++ [dtp])) (st'.1.withCells cells') w' := by
  refine (writesFirst_phandleStepProg (fun hprop => ?_) fun hend fld hlive => ?_).with_run.mono
    fun st' cells' w' ⟨hrun, hstores⟩ => ?_
  · obtain ⟨hname, hnprops, -⟩ := hw.of_begun (hready (.inl hprop))
    exact ⟨hname, hnprops⟩
  · have hbegun : pf.top ≠ 0 ∨ (placeAfter m done).2 = true := by
      have htop : pf.top = (placeAfter m done).1 := hw.top
      rw [htop]
      exact hready (.inr hend)
    exact hw.live le_rfl hlive hbegun
  · exact hw.token hready
      (tokenSeen_of_phandleStep ((realizes_phandleStepProg _ _ _).of_run hrun)).1 hstores

/-- **A token that is not ready** makes the first pass load what is not stored. -/
theorem ready_of_covered {table : PhandleTable}
    (hw : Written (placeAfter m done) (pf.withCells cells) w)
    (h : Covered w ((phandleStepProg m (pf, table) dtp).trace cells)) : Ready m done dtp := by
  intro htok
  by_contra hbegun
  obtain ⟨hname, hnprops⟩ := hw.not_mem hbegun
  have hzero : pf.top = 0 := by
    have htop : pf.top = (placeAfter m done).1 := hw.top
    by_contra hne
    exact hbegun (.inl (htop ▸ hne))
  have hcurrent : pf.current = .ok (pf.nodeFrame pf.top) :=
    current_eq_ok.2 ⟨by rw [hzero]; decide, rfl⟩
  rcases htok with htok | htok
  · rw [phandleStepProg, htok, phandlePropProg, hcurrent] at h
    exact hname h.1
  · rw [phandleStepProg, htok, hcurrent] at h
    exact hnprops h.1

/-- **A turn of the second pass** at a token that is ready, if no handler gets to a bottom slot
that has not been begun. -/
theorem fullTurn {table : PhandleTable} {fuel : ℕ} {garbage : ℕ → RegPair} {s : Platform}
    (hw : Written (placeAfter m done) (pf.withCells cells) w)
    (hparents : ParentsBelow pf.nodeFrame pf.top) (hready : Ready m done dtp)
    (hbottom : dtp.current = .endNode → (placeAfter m done).2 = false → ∀ s' handler,
      Called m (Platform.onNode m fuel garbage table) (pf.withCells cells) s s' handler →
      ¬ TranslatesThrough m table fuel garbage s'
        ⟨handler, (pf.withCells cells).nodeFrame, pf.top⟩) :
    WritesFirst (fullStepProg m (onNodeProg m table fuel garbage) (pf, s) dtp) cells w
      fun st' cells' w' => Written (placeAfter m (done ++ [dtp])) (st'.1.withCells cells') w' ∧
        ParentsBelow st'.1.nodeFrame st'.1.top := by
  have hon : ∀ s c, Computes (onNodeProg m table fuel garbage s c) cells
      (Platform.onNode m fuel garbage table s (c.withCells cells)) :=
    fun s c => computes_onNodeProg fuel garbage s c cells
  have hidx : ∀ k, 0 ≤ (pf.nodeFrame pf.top).idx k →
      (pf.top, .prop ((pf.nodeFrame pf.top).idx k).toNat) ∈ w := fun k hk => hw.idx pf.top k hk
  refine (writesFirst_fullStepProg hon (fun hprop => ?_) hidx
    fun hend s' handler hcall r hr => ?_).with_run.mono fun st' cells' w' ⟨hrun, hstores⟩ => ?_
  · obtain ⟨hname, hnprops, -⟩ := hw.of_begun (hready (.inl hprop))
    exact ⟨hname, hnprops⟩
  · obtain ⟨hle, hlive, hthrough⟩ := loads_onNodeProg hparents r hr
    refine hw.live hle hlive ?_
    by_contra hnot
    obtain ⟨hzero, hflag⟩ := not_or.1 hnot
    have hflag : (placeAfter m done).2 = false := Bool.eq_false_iff.2 hflag
    rcases hthrough (not_not.1 hzero) with hnode | hthrough
    · have htop : pf.top = (placeAfter m done).1 := hw.top
      rcases hready (.inr hend) with hne | hbegun
      · exact hne (htop ▸ hnode)
      · simp [hflag] at hbegun
    · exact hbottom hend hflag s' handler hcall hthrough
  · have hstep := (realizes_fullStepProg_onNode fuel garbage table _ _ _).of_run hrun
    have hparents' : ParentsBelow (pf.withCells cells).nodeFrame (pf.withCells cells).top :=
      ⟨hparents.bottom, hparents.succ⟩
    obtain ⟨hb, hs⟩ := hparents'.step hstep
    exact ⟨hw.token hready (tokenSeen_of_fullStep hstep) hstores, hb, hs⟩

/-- A handler that gets to a bottom slot that has not been begun loads what is not stored. -/
theorem bottomUnused_of_covered {table : PhandleTable} {fuel : ℕ} {garbage : ℕ → RegPair}
    {s s' : Platform} {handler : NodeHandler}
    (hw : Written (placeAfter m done) (pf.withCells cells) w)
    (hparents : ParentsBelow pf.nodeFrame pf.top) (hready : Ready m done dtp)
    (h : Covered w
      ((fullStepProg m (onNodeProg m table fuel garbage) (pf, s) dtp).trace cells))
    (hend : dtp.current = .endNode) (hflag : (placeAfter m done).2 = false)
    (hcall : Called m (Platform.onNode m fuel garbage table) (pf.withCells cells) s s' handler) :
    ¬ TranslatesThrough m table fuel garbage s'
      ⟨handler, (pf.withCells cells).nodeFrame, pf.top⟩ := by
  intro hthrough
  have hon : ∀ s c, Computes (onNodeProg m table fuel garbage s c) cells
      (Platform.onNode m fuel garbage table s (c.withCells cells)) :=
    fun s c => computes_onNodeProg fuel garbage s c cells
  have htop : pf.top = (placeAfter m done).1 := hw.top
  have hne : pf.top ≠ 0 := by
    rcases hready (.inr hend) with hne | hbegun
    · exact htop ▸ hne
    · simp [hflag] at hbegun
  have hlimit : pf.top < maxNodeDepth := by
    obtain @⟨_, _, _, _, _, _, hcurrent, -, -, -, -, -, -⟩ := hcall
    exact (current_eq_ok.1 hcurrent).1
  refine (hw.bottom hflag).2 ((covered_iff_of_stored (computes_fullEnd hon hend).pure).1 h _ ?_)
  exact hcall.mem_trace hon hend (TranslatesThrough.loads_bottom hthrough hparents hne hlimit.le)

end Written

/-! ### Runs of the passes -/

section Runs

variable {m : Mem} {σ : Type}

/-- **A pass uses only members that it has written**, from the contents `garbage`: its loads are
of cells that it has stored into, and where a property comes the current frame has room. -/
structure UsesWritten (prog : ParsingFrame × σ → Parser → FrameProgram (ParsingFrame × σ))
    (garbage : ℕ → NodeFrame) (s : σ) (qs : List Parser) : Prop where
  loads : Covered [] ((qs.foldlM prog (.fresh zeroedFrames, s)).trace (cellsOf garbage))
  room : ∀ done q rest st cells, qs = done ++ q :: rest → q.current = .prop →
    (done.foldlM prog (.fresh zeroedFrames, s)).run (cellsOf garbage) = .ok (st, cells) →
    (cells (st.1.top, .nprops) : ℕ) ≤ maxPropsPerNode - 1

/-- The tokens that a pass gets to are ready. -/
def TokensReady (m : Mem) (step : σ → Parser → Exec σ) (init : σ) (qs : List Parser) : Prop :=
  ∀ done q rest st, qs = done ++ q :: rest → done.foldlM step init = .ok st → Ready m done q

/-- If every token that a pass gets to is ready, then so are all that it has gone over. -/
theorem TokensReady.allReady {step : σ → Parser → Exec σ} {init st : σ} {qs : List Parser}
    (h : TokensReady m step init qs) (hrun : qs.foldlM step init = .ok st) : AllReady m qs := by
  intro done q rest hqs
  rw [hqs, foldlM_append_eq_ok] at hrun
  obtain ⟨st', hdone, -⟩ := hrun
  exact h done q rest st' hqs hdone

/-- When the second pass gets to the end of a node and the bottom slot has not been begun, **no
handler** that it calls gets an address through all frames above. -/
def BottomUnused (m : Mem) (table : PhandleTable) (fuel : ℕ) (regs : ℕ → RegPair)
    (garbage : ℕ → NodeFrame) (s : Platform) (qs : List Parser) : Prop :=
  ∀ done q rest st, qs = done ++ q :: rest →
    done.foldlM (fullStep m (Platform.onNode m fuel regs table)) (.fresh garbage, s) = .ok st →
    q.current = .endNode → (placeAfter m done).2 = false → ∀ s' handler,
      Called m (Platform.onNode m fuel regs table) st.1 st.2 s' handler →
      ¬ TranslatesThrough m table fuel regs s' ⟨handler, st.1.nodeFrame, st.1.top⟩

/-- A pass is a run of its program, whatever is in the frames. -/
theorem realizes_pass {prog : ParsingFrame × σ → Parser → FrameProgram (ParsingFrame × σ)}
    {step : ParsingFrame × σ → Parser → Exec (ParsingFrame × σ)}
    (hstep : ∀ st q cells,
      Realizes (prog st q) cells passWithCells (step (passWithCells st cells) q))
    (garbage : ℕ → NodeFrame) (s : σ) (qs : List Parser) :
    Realizes (qs.foldlM prog (.fresh zeroedFrames, s)) (cellsOf garbage) passWithCells
      (qs.foldlM step (.fresh garbage, s)) :=
  realizes_foldlM hstep (.fresh zeroedFrames, s) (cellsOf garbage)

theorem realizes_phandlePass (garbage : ℕ → NodeFrame) (table : PhandleTable)
    (qs : List Parser) :
    Realizes (qs.foldlM (phandleStepProg m) (.fresh zeroedFrames, table)) (cellsOf garbage)
      passWithCells (qs.foldlM (phandleStep m) (.fresh garbage, table)) :=
  realizes_pass realizes_phandleStepProg garbage table qs

theorem realizes_fullPass (table : PhandleTable) (fuel : ℕ) (regs : ℕ → RegPair)
    (garbage : ℕ → NodeFrame) (s : Platform) (qs : List Parser) :
    Realizes (qs.foldlM (fullStepProg m (onNodeProg m table fuel regs)) (.fresh zeroedFrames, s))
      (cellsOf garbage) passWithCells
      (qs.foldlM (fullStep m (Platform.onNode m fuel regs table)) (.fresh garbage, s)) :=
  realizes_pass (realizes_fullStepProg_onNode fuel regs table) garbage s qs

/-- The invariant of the first pass, in between tokens. -/
def PhandleKept (m : Mem) (done : List Parser) (st : ParsingFrame × PhandleTable)
    (cells : FrameCells) (w : List (ℕ × FrameField)) : Prop :=
  Written (placeAfter m done) (st.1.withCells cells) w

/-- The invariant of the second pass: `_parent` also leads down to the bottom. -/
def FullKept (m : Mem) (done : List Parser) (st : ParsingFrame × Platform)
    (cells : FrameCells) (w : List (ℕ × FrameField)) : Prop :=
  Written (placeAfter m done) (st.1.withCells cells) w ∧ ParentsBelow st.1.nodeFrame st.1.top

/-- Both passes: if the turns of a pass use written members exactly when `C` holds, then so does
the pass exactly when `C` holds of all tokens that it gets to. -/
theorem usesWritten_iff {prog : ParsingFrame × σ → Parser → FrameProgram (ParsingFrame × σ)}
    {step : ParsingFrame × σ → Parser → Exec (ParsingFrame × σ)}
    (hstep : ∀ st q cells,
      Realizes (prog st q) cells passWithCells (step (passWithCells st cells) q))
    (Kept : List Parser → ParsingFrame × σ → FrameCells → List (ℕ × FrameField) → Prop)
    (C : List Parser → Parser → ParsingFrame × σ → Prop)
    {garbage : ℕ → NodeFrame} {s : σ} {qs : List Parser}
    (h0 : Kept [] (.fresh zeroedFrames, s) (cellsOf garbage) [])
    (hturn : ∀ done q rest st cells w, qs = done ++ q :: rest → Kept done st cells w →
      (Covered w ((prog st q).trace cells) → C done q (passWithCells st cells)) ∧
        (C done q (passWithCells st cells) →
          WritesFirst (prog st q) cells w (Kept (done ++ [q])) ∧
            (q.current = .prop → (cells (st.1.top, .nprops) : ℕ) < maxPropsPerNode))) :
    UsesWritten prog garbage s qs ↔ ∀ done q rest st, qs = done ++ q :: rest →
      done.foldlM step (.fresh garbage, s) = .ok st → C done q st := by
  have hloads := covered_foldlM_iff Kept (fun done q st cells => C done q (passWithCells st cells))
    h0 (l := qs) (f := prog) fun done q rest st cells w hqs hkept =>
      ⟨(hturn done q rest st cells w hqs hkept).1,
        fun hC => ((hturn done q rest st cells w hqs hkept).2 hC).1⟩
  have hreached := realizes_pass hstep garbage s
  constructor
  · intro h done q rest st hqs hrun
    obtain ⟨st', cells, hprog, rfl⟩ := (hreached done).exists_run hrun
    exact hloads.1 h.loads done q rest st' cells hqs hprog
  · intro h
    have hall : ∀ done q rest st cells, qs = done ++ q :: rest →
        (done.foldlM prog (.fresh zeroedFrames, s)).run (cellsOf garbage) = .ok (st, cells) →
        C done q (passWithCells st cells) := fun done q rest st cells hqs hprog =>
      h done q rest _ hqs ((hreached done).of_run hprog)
    refine ⟨hloads.2 hall, fun done q rest st cells hqs hprop hprog => ?_⟩
    have hkept : Kept done st cells _ := (writesFirst_foldlM Kept h0
      fun pre q' rest' st' cells' w hdone hpre hkept => by
        have hqs' : qs = pre ++ q' :: (rest' ++ q :: rest) := by simp [hqs, hdone]
        exact ((hturn pre q' _ st' cells' w hqs' hkept).2
          (hall pre q' _ st' cells' hqs' hpre)).1).2 st cells hprog
    have hroom := ((hturn done q rest st cells _ hqs hkept).2
      (hall done q rest st cells hqs hprog)).2 hprop
    exact Nat.le_sub_one_of_lt hroom

/-- The first pass uses written members as far as it gets **if and only if** every token that
it gets to is ready. -/
theorem phandle_usesWritten_iff {garbage : ℕ → NodeFrame} {table : PhandleTable}
    {qs : List Parser} :
    UsesWritten (phandleStepProg m) garbage table qs ↔
      TokensReady m (phandleStep m) (.fresh garbage, table) qs := by
  refine usesWritten_iff realizes_phandleStepProg (PhandleKept m) (fun done q _ => Ready m done q)
    (Written.fresh garbage) fun done q rest st cells w _ hw => ⟨?_, fun hready => ⟨?_, ?_⟩⟩
  · exact Written.ready_of_covered hw
  · exact Written.phandleTurn hw hready
  · exact fun hprop => (Written.of_begun hw (hready (.inl hprop))).2.2.1

/-- The second pass uses written members, if all tokens are ready, **if and only if** no handler
gets to a bottom slot that has not been begun. -/
theorem full_usesWritten_iff {table : PhandleTable} {fuel : ℕ} {regs : ℕ → RegPair}
    {garbage : ℕ → NodeFrame} {s : Platform} {qs : List Parser} (hready : AllReady m qs) :
    UsesWritten (fullStepProg m (onNodeProg m table fuel regs)) garbage s qs ↔
      BottomUnused m table fuel regs garbage s qs := by
  refine usesWritten_iff (realizes_fullStepProg_onNode fuel regs table) (FullKept m)
    (fun done q st => q.current = .endNode → (placeAfter m done).2 = false →
      ∀ s' handler, Called m (Platform.onNode m fuel regs table) st.1 st.2 s' handler →
      ¬ TranslatesThrough m table fuel regs s' ⟨handler, st.1.nodeFrame, st.1.top⟩)
    ⟨Written.fresh garbage, rfl, fun i hi => absurd hi (Nat.not_lt_zero i)⟩
    fun done q rest st cells w hqs hkept => ⟨?_, fun hunused => ⟨?_, ?_⟩⟩
  · intro hcovered hend hflag s' handler hcall
    exact hkept.1.bottomUnused_of_covered hkept.2 (hready done q rest hqs) hcovered hend hflag hcall
  · exact hkept.1.fullTurn hkept.2 (hready done q rest hqs) hunused
  · exact fun hprop => (hkept.1.of_begun (hready done q rest hqs (.inl hprop))).2.2.1

end Runs

/-! ### Both passes -/

/-- Both passes use frames **only after they were written**: the first pass, and if it returns
`ok` then also the second with all its handlers. `garbage` and `garbage'` are in the frames
before. -/
def FramesInitialised (m : Mem) (fdt : ℕ) (garbage garbage' : ℕ → NodeFrame)
    (table : PhandleTable) (fuel : ℕ) (regs : ℕ → RegPair) (s : Platform) (qs : List Parser) :
    Prop :=
  UsesWritten (phandleStepProg m) garbage { table with num := 0 } qs ∧
    ∀ table', parseFramesPhandle m fdt garbage table = .ok (.ok, table') →
      UsesWritten (fullStepProg m (onNodeProg m table' fuel regs)) garbage' s qs

section Passes

variable {m : Mem} {fdt : ℕ} {garbage garbage' : ℕ → NodeFrame} {table : PhandleTable} {fuel : ℕ}
  {regs : ℕ → RegPair} {s : Platform} {qs : List Parser}

theorem parseFramesPhandle_of_walk (garbage : ℕ → NodeFrame) (table : PhandleTable)
    (hwalk : ∀ (σ : Type) (body : σ → Parser → Exec σ) (s : σ),
      walkBlob m fdt body s = (do let s ← qs.foldlM body s; return (.ok, s))) :
    parseFramesPhandle m fdt garbage table =
      ((qs.foldlM (phandleStep m) (.fresh garbage, { table with num := 0 })).map Prod.snd).map
        fun filled => (.ok, filled) := by
  rw [parseFramesPhandle, hwalk]
  cases qs.foldlM (phandleStep m) (.fresh garbage, { table with num := 0 }) <;> rfl

theorem parseFramesFull_of_walk {σ : Type} (onNode : σ → HandlerCall → Exec σ)
    (garbage : ℕ → NodeFrame) (s : σ)
    (hwalk : ∀ (σ : Type) (body : σ → Parser → Exec σ) (s : σ),
      walkBlob m fdt body s = (do let s ← qs.foldlM body s; return (.ok, s))) :
    parseFramesFull m fdt garbage onNode s =
      ((qs.foldlM (fullStep m onNode) (.fresh garbage, s)).map Prod.snd).map
        fun s => (.ok, s) := by
  rw [parseFramesFull, hwalk]
  cases qs.foldlM (fullStep m onNode) (.fresh garbage, s) <;> rfl

/-- **Frames are initialised exactly when tokens are ready and the bottom is not used.** For
every accepted blob, the passes are folds over its tokens `qs`, and their programs do what they
do. They use frames only after they were written if and only if each `Prop` and each `EndNode`
that the first pass gets to comes when the current slot has been begun, and no handler of the
second pass gets an address to the bottom slot before that has been begun. -/
theorem frames_initialised_iff {m : Mem} {fdt : ℕ} {h : Header} (hfdt : fdt ≠ nullptr)
    (hh : HeaderAt m fdt h) (hc : h.Consistent) (hblob : m.Readable fdt (fdt + h.totalsize))
    (garbage garbage' : ℕ → NodeFrame) (table : PhandleTable) (fuel : ℕ) (regs : ℕ → RegPair)
    (s : Platform) :
    ∃ qs, tokenStates m fdt = .ok (.ok, qs) ∧
      (∀ (σ : Type) (body : σ → Parser → Exec σ) (s : σ),
        walkBlob m fdt body s = (do let s ← qs.foldlM body s; return (.ok, s))) ∧
      (∀ (garbage : ℕ → NodeFrame) (table : PhandleTable),
        Realizes (qs.foldlM (phandleStepProg m) (.fresh zeroedFrames, table)) (cellsOf garbage)
          passWithCells (qs.foldlM (phandleStep m) (.fresh garbage, table))) ∧
      (∀ (garbage : ℕ → NodeFrame) (table : PhandleTable),
        Realizes
          (qs.foldlM (fullStepProg m (onNodeProg m table fuel regs)) (.fresh zeroedFrames, s))
          (cellsOf garbage) passWithCells
          (qs.foldlM (fullStep m (Platform.onNode m fuel regs table)) (.fresh garbage, s))) ∧
      (FramesInitialised m fdt garbage garbage' table fuel regs s qs ↔
        TokensReady m (phandleStep m) (.fresh garbage, { table with num := 0 }) qs ∧
          ∀ table', parseFramesPhandle m fdt garbage table = .ok (.ok, table') →
            BottomUnused m table' fuel regs garbage' s qs) := by
  obtain ⟨qs, hqs, hwalk⟩ := walkBlob_eq_foldlM hfdt hh hc hblob
  refine ⟨qs, hqs, hwalk, fun garbage table => realizes_phandlePass garbage table qs,
    fun garbage table => realizes_fullPass table fuel regs garbage s qs, ?_⟩
  rw [FramesInitialised, phandle_usesWritten_iff]
  refine and_congr_right fun hready => forall₂_congr fun table' hpass => full_usesWritten_iff ?_
  rw [parseFramesPhandle_of_walk garbage table hwalk] at hpass
  obtain ⟨filled, hfilled, -⟩ := map_eq_ok.1 hpass
  obtain ⟨st, hrun, -⟩ := map_eq_ok.1 hfilled
  exact hready.allReady hrun

/-- `unbalancedBlob` begins with the root, so its tokens are all ready. -/
theorem frames_initialised_unbalanced :
    ∃ qs, tokenStates (Mem.ofBytes 4096 unbalancedBlob) 4096 = .ok (.ok, qs) ∧
      FramesInitialised (Mem.ofBytes 4096 unbalancedBlob) 4096 zeroedFrames zeroedFrames {} 0
        (fun _ => ⟨0, 0⟩) {} qs := by
  obtain ⟨qs, hqs, -, -, -, hiff⟩ := frames_initialised_iff (by decide) headerAt_unbalanced
    consistent_unbalanced readable_unbalanced zeroedFrames zeroedFrames {} 0 (fun _ => ⟨0, 0⟩) {}
  have hroot := startsWithRoot_unbalanced hqs
  refine ⟨qs, hqs, hiff.2 ⟨fun done q rest st hsplit _ => hroot.allReady done q rest hsplit, ?_⟩⟩
  intro table' _ done q rest st hsplit _ hend hflag
  simp [hroot.bottom_begun hsplit (.inr hend)] at hflag

/-- A blob whose structure block begins with a property. -/
def rootlessBlob : List UInt8 :=
  [fdtMagic, 76, 56, 72, 40, 17, 16, 0, 4, 16].flatMap bytes32 ++ List.replicate 16 0 ++
    [3, 0, 0, 9].flatMap bytes32 ++ [114, 101, 103, 0]

/-- The first token of `rootlessBlob` makes the first pass read a name that nobody wrote. -/
theorem frames_uninitialised_rootless :
    ¬ ∀ (m : Mem) (fdt : ℕ) (h : Header) (qs : List Parser) (garbage garbage' : ℕ → NodeFrame)
        (table : PhandleTable) (fuel : ℕ) (regs : ℕ → RegPair) (s : Platform),
      fdt ≠ nullptr → HeaderAt m fdt h → h.Consistent → m.Readable fdt (fdt + h.totalsize) →
        tokenStates m fdt = .ok (.ok, qs) →
          FramesInitialised m fdt garbage garbage' table fuel regs s qs := by
  intro hall
  have hh : HeaderAt (Mem.ofBytes 4096 rootlessBlob) 4096
      ⟨fdtMagic, 76, 56, 72, 40, 17, 4, 16⟩ := by
    constructor <;> exact be32_of_holds (by decide) (by decide +kernel)
  have hfirst : (tokenStates (Mem.ofBytes 4096 rootlessBlob) 4096).map
      (fun st => (st.1, st.2.map Parser.current)) = .ok (.ok, [.prop]) := by decide +kernel
  obtain ⟨⟨status, qs⟩, hqs, hpair⟩ := map_eq_ok.1 hfirst
  obtain ⟨rfl, hkinds⟩ : status = .ok ∧ qs.map Parser.current = [.prop] := Prod.mk.inj hpair
  obtain ⟨q, rfl, hprop⟩ := List.map_eq_singleton_iff.1 hkinds
  obtain ⟨hfirst, -⟩ := hall _ 4096 _ _ zeroedFrames zeroedFrames {} 0 (fun _ => ⟨0, 0⟩) {}
    (by decide) hh (by constructor <;> decide) (readable_ofBytes 4096 rootlessBlob) hqs
  have hready := phandle_usesWritten_iff.1 hfirst [] q [] _ rfl rfl (.inl hprop)
  simp [Begun, placeAfter] at hready

/-- A blob that begins with the root **initialises its frames**, whatever comes then. -/
theorem StartsWithRoot.framesInitialised (hroot : StartsWithRoot m qs) :
    FramesInitialised m fdt garbage garbage' table fuel regs s qs := by
  refine ⟨phandle_usesWritten_iff.2 ?_, fun table' _ =>
    (full_usesWritten_iff hroot.allReady).2 ?_⟩
  · exact fun done q rest st hsplit _ => hroot.allReady done q rest hsplit
  intro done q rest st hsplit _ hend hflag
  simp [hroot.bottom_begun hsplit (.inr hend)] at hflag

/-- The end of a pass that uses only what it has written **does not depend on what was in the
frames**. -/
theorem UsesWritten.end_eq {σ : Type}
    {prog : ParsingFrame × σ → Parser → FrameProgram (ParsingFrame × σ)}
    {step : ParsingFrame × σ → Parser → Exec (ParsingFrame × σ)} {s : σ}
    (hstep : ∀ st q cells,
      Realizes (prog st q) cells passWithCells (step (passWithCells st cells) q))
    (h : UsesWritten prog garbage s qs) (other : ℕ → NodeFrame) :
    (qs.foldlM step (.fresh garbage, s)).map Prod.snd =
      (qs.foldlM step (.fresh other, s)).map Prod.snd := by
  have hagree : ∀ r ∈ ([] : List (ℕ × FrameField)), cellsOf garbage r = cellsOf other r := by simp
  obtain ⟨herror, hok⟩ := (realizes_pass hstep garbage s qs).footprint
    (realizes_pass hstep other s qs) h.loads hagree
  cases hrun : qs.foldlM step (.fresh garbage, s) with
  | error e => rw [herror e hrun]
  | ok st =>
      obtain ⟨next, cells, cells', rfl, hother, -⟩ := hok st hrun
      rw [hother]
      rfl

/-- **What was in the frames does not matter**: if frames are used only after they were written,
then `parse_frames` ends the same from all contents. -/
theorem FramesInitialised.parseFrames_eq
    (h : FramesInitialised m fdt garbage garbage' table fuel regs s qs)
    (hwalk : ∀ (σ : Type) (body : σ → Parser → Exec σ) (s : σ),
      walkBlob m fdt body s = (do let s ← qs.foldlM body s; return (.ok, s)))
    (other other' : ℕ → NodeFrame) :
    parseFrames m fdt garbage garbage' (Platform.onNode m fuel regs) table s =
      parseFrames m fdt other other' (Platform.onNode m fuel regs) table s := by
  obtain ⟨hfirst, hsecond⟩ := h
  have hphandle :
      parseFramesPhandle m fdt garbage table = parseFramesPhandle m fdt other table := by
    rw [parseFramesPhandle_of_walk garbage table hwalk,
      parseFramesPhandle_of_walk other table hwalk,
      hfirst.end_eq realizes_phandleStepProg other]
  have hfull : ∀ table', parseFramesPhandle m fdt other table = .ok (.ok, table') →
      parseFramesFull m fdt garbage' (Platform.onNode m fuel regs table') s =
        parseFramesFull m fdt other' (Platform.onNode m fuel regs table') s := by
    intro table' hpass
    rw [parseFramesFull_of_walk _ garbage' s hwalk, parseFramesFull_of_walk _ other' s hwalk,
      (hsecond table' (hphandle ▸ hpass)).end_eq (realizes_fullStepProg_onNode fuel regs table')
        other']
  rw [parseFrames, parseFrames, hphandle]
  cases hpass : parseFramesPhandle m fdt other table with
  | error e => rfl
  | ok r =>
      obtain ⟨status, table'⟩ := r
      by_cases hstatus : status = .ok
      · subst hstatus
        simp only [ok_bind, hfull table' hpass]
      · simp only [ok_bind, ne_eq, hstatus, not_false_eq_true, if_true]

end Passes

end Floss
