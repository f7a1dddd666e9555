import Floss.FrameWalk

/-!
# What Dispatch Matches

`compatible_list_contains` walks over the strings of a property value with its own
`strnlen`, `strlen` and `strncmp`. On a value that is followed by a readable byte it
decides membership in the list of NUL-separated strings
(`compatibleListContains_exact`), and a whole dispatch records the handlers whose property
has their match string, in table order (`dispatch_records`). `calls_each_once_iff` says when
it calls no function twice.
-/

namespace Floss

/-- The NUL-separated strings of a property value. -/
def Property.strings (p : Property) : List (List UInt8) := p.value.splitOn 0

/-- A stored property is the property `p` of the tree: name and value are in memory. -/
structure PropIs (m : Mem) (pf : PropFrame) (p : Property) : Prop where
  name : StrAt m pf.name p.name
  value : Holds m pf.value p.value
  len : pf.len = p.value.length

/-- A stored property whose value is followed by one more readable byte. -/
structure PropInBlock (m : Mem) (pf : PropFrame) (p : Property) : Prop extends
    PropIs m pf p where
  after : ∃ b, m (pf.value + pf.len) = some b

theorem holds_drop {m : Mem} {a : ℕ} {bs : List UInt8} (h : Holds m a bs) {o : ℕ}
    (ho : o ≤ bs.length) : Holds m (a + o) (bs.drop o) := by
  have happ : Holds m a (bs.take o ++ bs.drop o) := by rwa [List.take_append_drop]
  have hlen : (bs.take o).length = o := by simp [ho]
  simpa [hlen] using (holds_append.mp happ).2

/-- A list that is not empty starts with a NUL-free segment that reaches its end or is
followed by a NUL. -/
theorem split_first_segment (bs : List UInt8) :
    ((0 : UInt8) ∉ bs.takeWhile (· ≠ 0)) ∧
      (bs = bs.takeWhile (· ≠ 0) ∨
        ∃ rest, bs = bs.takeWhile (· ≠ 0) ++ 0 :: rest) := by
  induction bs with
  | nil => simp
  | cons b bs ih =>
      by_cases hb : b = 0
      · simp [hb]
      · obtain ⟨hmem, hcase⟩ := ih
        have htw : (b :: bs).takeWhile (· ≠ 0) = b :: bs.takeWhile (· ≠ 0) := by simp [hb]
        rw [htw]
        refine ⟨by simpa [Ne.symm hb] using hmem, ?_⟩
        rcases hcase with h | ⟨rest, h⟩
        · exact .inl (by rw [← h])
        · exact .inr ⟨rest, by rw [List.cons_append, ← h]⟩

/-- The comparison of one candidate: it equals the needle or it does not. -/
theorem equalsNeedle_eq {m : Mem} {s : ℕ} {seg needle : List UInt8} (hseg : Holds m s seg)
    (h0 : (0 : UInt8) ∉ seg) (hn0 : (0 : UInt8) ∉ needle) (hne : needle ≠ []) :
    equalsNeedle m s seg.length needle = .ok (decide (seg = needle)) := by
  rw [equalsNeedle, strlen_eq hn0]
  by_cases hlen : needle.length = seg.length
  · have hlit : Holds (litMem needle) 0 needle :=
      (holds_append.mp (holds_ofBytes 0 (needle ++ [0]))).1
    have hsne : seg ≠ [] := by
      intro h
      rw [h] at hlen
      exact hne (List.length_eq_zero_iff.mp hlen)
    obtain ⟨r, hr, hiff⟩ := strncmp_spec hseg hlit hlen.symm h0 hsne
    simp [hlen, hr, hiff]
  · have hsn : seg ≠ needle := fun h => hlen (by rw [h])
    simp [hlen, hsn]

/-- The loop from `offset` on decides whether the needle is among the strings of the rest
of the value. Every turn takes one string and the NUL after it. -/
theorem containsLoop_eq {m : Mem} {value : ℕ} {bs needle : List UInt8} {fuel offset : ℕ}
    (hbs : Holds m value bs) (hnext : ∃ b, m (value + bs.length) = some b)
    (hn0 : (0 : UInt8) ∉ needle) (hne : needle ≠ []) (ho : offset ≤ bs.length)
    (hfuel : bs.length - offset ≤ fuel) :
    containsLoop m value bs.length needle fuel offset =
      .ok (decide (needle ∈ (bs.drop offset).splitOn 0)) := by
  induction fuel generalizing offset with
  | zero =>
      obtain rfl : offset = bs.length := by omega
      simp [containsLoop, hne]
  | succ fuel ih =>
      by_cases hlt : offset < bs.length
      · have hrest := holds_drop hbs ho
        have hlen : (bs.drop offset).length = bs.length - offset := List.length_drop
        obtain ⟨h0, hcase⟩ := split_first_segment (bs.drop offset)
        set seg := (bs.drop offset).takeWhile (· ≠ 0) with hseg
        have hslen : strnlen m (value + offset) (bs.length - offset) = .ok seg.length := by
          rw [← hlen]
          refine strnlen_spec hrest fun _ => ?_
          rw [hlen, show value + offset + (bs.length - offset) = value + bs.length by omega]
          exact hnext
        have hsegHolds : Holds m (value + offset) seg := by
          rcases hcase with h | ⟨rest, h⟩
          · rwa [← h]
          · rw [h] at hrest
            exact (holds_append.mp hrest).1
        have hcand := equalsNeedle_eq hsegHolds h0 hn0 hne
        simp only [containsLoop, if_pos hlt, hslen, ok_bind, hcand]
        by_cases heq : seg = needle
        · have hmem : needle ∈ (bs.drop offset).splitOn 0 := by
            rcases hcase with h | ⟨rest, h⟩
            · rw [h, List.splitOn_eq_singleton h0]
              simp [heq]
            · rw [h, List.splitOn_append_cons_self_of_not_mem h0]
              simp [heq]
          simp [heq, hmem]
        · simp only [heq, decide_false, Bool.false_eq_true, if_false]
          rcases hcase with h | ⟨rest, h⟩
          · -- the last string of the value, without a terminator
            have hend : offset + seg.length = bs.length := by
              have := congrArg List.length h
              omega
            rw [nulAt, if_neg (by omega), ok_bind, if_neg (by simp), hend, ih le_rfl (by omega),
              h, List.splitOn_eq_singleton h0]
            simp [hne, Ne.symm heq]
          · -- a string and its terminator
            have hlt' : offset + seg.length < bs.length := by
              have := congrArg List.length h
              simp only [List.length_append, List.length_cons] at this
              omega
            have hnul : m (value + (offset + seg.length)) = some 0 := by
              rw [h] at hrest
              have := (holds_append.mp hrest).2.1
              rwa [Nat.add_assoc] at this
            have hdrop : bs.drop (offset + seg.length + 1) = rest := by
              rw [Nat.add_assoc, ← List.drop_drop, h]
              simp
            have hload : m.load (value + (offset + seg.length)) = .ok 0 :=
              Mem.load_eq_ok.mpr hnul
            simp only [nulAt, if_pos hlt', hload, ok_bind, pure_eq_ok, decide_true, if_true]
            rw [ih (by omega) (by omega), hdrop, h,
              List.splitOn_append_cons_self_of_not_mem h0]
            simp [Ne.symm heq]
      · obtain rfl : offset = bs.length := by omega
        simp [containsLoop, hne]

/-- **`compatible_list_contains` is list membership**, for every buffer, terminated or not,
and whatever byte `b` follows it: the loop ends, and the answer is whether the needle is one
of the strings between the NUL bytes. -/
theorem compatibleListContains_exact {m : Mem} {value : ℕ} {bs needle : List UInt8} {b : UInt8}
    (hbs : Holds m value (bs ++ [b])) (hn0 : (0 : UInt8) ∉ needle) (hne : needle ≠ []) :
    compatibleListContains m value bs.length needle =
      .ok (decide (needle ∈ bs.splitOn 0)) := by
  obtain ⟨hvalue, hafter⟩ := holds_append.1 hbs
  exact containsLoop_eq hvalue ⟨b, hafter.1⟩ hn0 hne (Nat.zero_le _) le_rfl

/-- The last string of this buffer is `arm`, although the byte behind it is a comma. -/
theorem compatibleListContains_unterminated :
    compatibleListContains (Mem.ofBytes 64 (cstr "a" ++ 0 :: cstr "arm" ++ [44])) 64 5
        (cstr "arm") = .ok true ∧
      compatibleListContains (Mem.ofBytes 64 (cstr "a" ++ 0 :: cstr "arm" ++ [44])) 64 5
        (cstr "arm,") = .ok false := by
  have hbs := holds_ofBytes 64 (cstr "a" ++ 0 :: cstr "arm" ++ [44])
  constructor
  · exact (compatibleListContains_exact hbs (by decide) (by decide)).trans rfl
  · exact (compatibleListContains_exact hbs (by decide) (by decide)).trans rfl

/-! ### Dispatch -/

/-- The match strings of the handler table are proper strings. -/
theorem nodeHandlers_matchString :
    ∀ h ∈ nodeHandlers, (0 : UInt8) ∉ h.matchString ∧ h.matchString ≠ [] := by
  decide

/-- A stored value that is followed by one more readable byte. -/
structure ValueInBlock (m : Mem) (pf : PropFrame) (bs : List UInt8) : Prop where
  value : Holds m pf.value bs
  len : pf.len = bs.length
  after : ∃ b, m (pf.value + pf.len) = some b

/-- What the value of a property pointer of dispatch is. -/
def OptValueIs (m : Mem) : Option PropFrame → Option (List UInt8) → Prop
  | none, none => True
  | some pf, some bs => ValueInBlock m pf bs
  | _, _ => False

/-- The value that handlers of a kind are matched with. -/
def valueOfKind (compatible deviceType : Option (List UInt8)) : MatchKind → Option (List UInt8)
  | .compatible => compatible
  | .deviceType => deviceType

/-- Whether a handler matches a value: its string is one of those between the NULs. -/
def NodeHandler.MatchesValue (h : NodeHandler) (v : Option (List UInt8)) : Prop :=
  ∃ bs, v = some bs ∧ h.matchString ∈ bs.splitOn 0

instance (h : NodeHandler) (v : Option (List UInt8)) : Decidable (h.MatchesValue v) :=
  match v with
  | none => .isFalse (by simp [NodeHandler.MatchesValue])
  | some bs => decidable_of_iff (h.matchString ∈ bs.splitOn 0) (by simp [NodeHandler.MatchesValue])

/-- Whether a handler matches the property found for its kind. -/
def NodeHandler.Matches (h : NodeHandler) (p : Option Property) : Prop :=
  ∃ q, p = some q ∧ h.matchString ∈ q.strings

instance (h : NodeHandler) (p : Option Property) : Decidable (h.Matches p) :=
  match p with
  | none => .isFalse (by simp [NodeHandler.Matches])
  | some q => decidable_of_iff (h.matchString ∈ q.strings) (by simp [NodeHandler.Matches])

/-- What a property pointer of dispatch denotes. -/
def OptPropIs (m : Mem) : Option PropFrame → Option Property → Prop
  | none, none => True
  | some pf, some p => PropInBlock m pf p
  | _, _ => False

/-- **Dispatch** on two values records one call for each handler that matches the value of
its kind, in table order, all with the same frame. -/
theorem dispatch_records_values {m : Mem} (pf : ParsingFrame) {cp dp : Option PropFrame}
    (found : MatchKind → Option (List UInt8)) (hc : OptValueIs m cp (found .compatible))
    (hd : OptValueIs m dp (found .deviceType)) :
    dispatchIfPropMatch m recordCall pf cp dp [] = .ok
      ((nodeHandlers.filter fun h => h.MatchesValue (found h.matchKind)).map
        fun h => ⟨h, pf.nodeFrame, pf.top⟩) := by
  have hkind : ∀ k, OptValueIs m (handlerMatch cp dp k) (found k) := by
    intro k
    cases k
    · exact hc
    · exact hd
  have hrun : ∀ (hs : List NodeHandler) (log : List HandlerCall), (∀ h ∈ hs, h ∈ nodeHandlers) →
      hs.foldlM (dispatchEntry m recordCall pf cp dp) log = .ok (log ++
        (hs.filter fun h => h.MatchesValue (found h.matchKind)).map
          fun h => ⟨h, pf.nodeFrame, pf.top⟩) := by
    intro hs
    induction hs with
    | nil => simp
    | cons h hs ih =>
        intro log hmem
        obtain ⟨hn0, hne⟩ := nodeHandlers_matchString h (hmem h (by simp))
        have hrest := fun log' => ih log' fun h' hh' => hmem h' (by simp [hh'])
        have hk := hkind h.matchKind
        rw [List.foldlM_cons, dispatchEntry]
        cases hm : handlerMatch cp dp h.matchKind with
        | none =>
            cases hf : found h.matchKind with
            | some p => simp [hm, hf, OptValueIs] at hk
            | none => simp [hrest, NodeHandler.MatchesValue, hf]
        | some prop =>
            cases hf : found h.matchKind with
            | none => simp [hm, hf, OptValueIs] at hk
            | some bs =>
                rw [hm, hf] at hk
                obtain ⟨hvalue, hlen, hafter⟩ := hk
                rw [hlen] at hafter
                have hcontains : compatibleListContains m prop.value prop.len h.matchString =
                    .ok (decide (h.matchString ∈ bs.splitOn 0)) := by
                  rw [hlen]
                  exact containsLoop_eq hvalue hafter hn0 hne (Nat.zero_le _) le_rfl
                simp only [hcontains, ok_bind]
                by_cases hin : h.matchString ∈ bs.splitOn 0
                · simp [hin, recordCall, hrest, NodeHandler.MatchesValue, hf]
                · simp [hin, hrest, NodeHandler.MatchesValue, hf]
  simpa [dispatchIfPropMatch] using hrun nodeHandlers [] fun h hh => hh

/-- **Dispatch** on two properties of the tree. -/
theorem dispatch_records {m : Mem} (pf : ParsingFrame) {cp dp : Option PropFrame}
    (found : MatchKind → Option Property) (hc : OptPropIs m cp (found .compatible))
    (hd : OptPropIs m dp (found .deviceType)) :
    dispatchIfPropMatch m recordCall pf cp dp [] = .ok
      ((nodeHandlers.filter fun h => h.Matches (found h.matchKind)).map
        fun h => ⟨h, pf.nodeFrame, pf.top⟩) := by
  have hvalues : ∀ {op : Option PropFrame} {p : Option Property}, OptPropIs m op p →
      OptValueIs m op (p.map Property.value) := by
    intro op p h
    cases op with
    | none =>
        cases p with
        | none => trivial
        | some p => simp [OptPropIs] at h
    | some pf =>
        cases p with
        | none => simp [OptPropIs] at h
        | some p =>
            have h : PropInBlock m pf p := h
            exact ⟨h.value, h.len, h.after⟩
  have hmatches : ∀ h : NodeHandler, h.Matches (found h.matchKind) ↔
      h.MatchesValue ((found h.matchKind).map Property.value) := by
    intro h
    simp [NodeHandler.Matches, NodeHandler.MatchesValue, Property.strings]
  rw [dispatch_records_values pf (fun k => (found k).map Property.value) (hvalues hc) (hvalues hd)]
  simp only [hmatches]

/-! ### How often a function is called -/

/-- Dispatch calls **no function twice** for the node: with any handlers, it runs them on a
list of calls in which no function occurs more than once. -/
def CallsEachOnce (m : Mem) (pf : ParsingFrame) (cp dp : Option PropFrame) : Prop :=
  ∃ calls : List HandlerCall,
    (∀ (σ : Type) (onNode : σ → HandlerCall → Exec σ) (s : σ),
      dispatchIfPropMatch m onNode pf cp dp s = calls.foldlM onNode s) ∧
    (calls.map fun c => c.handler.onNode).Nodup

/-- Two entries of the table share a function, and no other two do. -/
theorem nodup_nodeHandlers_filter (p : NodeHandler → Bool) :
    ((nodeHandlers.filter p).map NodeHandler.onNode).Nodup ↔
      ¬ (p ⟨cstr "arm,gic-400", .compatible, .gicDtParseV2⟩ ∧
        p ⟨cstr "arm,cortex-a15-gic", .compatible, .gicDtParseV2⟩) := by
  rw [List.Nodup, List.pairwise_map, List.pairwise_filter]
  simp [nodeHandlers]

/-- **When a node is handed to each function at most once**: for every value of its
`compatible` and `device_type` properties, if and only if `compatible` does not name both
`arm,gic-400` and `arm,cortex-a15-gic`. -/
theorem calls_each_once_iff {m : Mem} (pf : ParsingFrame) {cp dp : Option PropFrame}
    {compatible deviceType : Option (List UInt8)} (hc : OptValueIs m cp compatible)
    (hd : OptValueIs m dp deviceType) :
    CallsEachOnce m pf cp dp ↔
      ¬ ∃ bs, compatible = some bs ∧ cstr "arm,gic-400" ∈ bs.splitOn 0 ∧
        cstr "arm,cortex-a15-gic" ∈ bs.splitOn 0 := by
  have hrecord := dispatch_records_values pf (valueOfKind compatible deviceType) hc hd
  generalize hhs : (nodeHandlers.filter fun h =>
    decide (h.MatchesValue (valueOfKind compatible deviceType h.matchKind))) = hs at hrecord
  have hfun : (hs.map fun h => (⟨h, pf.nodeFrame, pf.top⟩ : HandlerCall)).map
      (fun c => c.handler.onNode) = hs.map NodeHandler.onNode := by
    rw [List.map_map]
    rfl
  have hiff : (hs.map NodeHandler.onNode).Nodup ↔
      ¬ ∃ bs, compatible = some bs ∧ cstr "arm,gic-400" ∈ bs.splitOn 0 ∧
        cstr "arm,cortex-a15-gic" ∈ bs.splitOn 0 := by
    rw [← hhs, nodup_nodeHandlers_filter]
    simp only [NodeHandler.MatchesValue, valueOfKind]
    cases compatible <;> simp
  rw [← hiff]
  constructor
  · rintro ⟨calls, hrun, hnodup⟩
    -- the calls are those that recording handlers see
    have hcalls : calls.foldlM recordCall [] = .ok calls := foldlM_collect calls []
    rw [hrun, hcalls] at hrecord
    rw [← hfun, ← Except.ok.inj hrecord]
    exact hnodup
  · intro hnodup
    refine ⟨_, fun σ onNode s => ?_, hfun ▸ hnodup⟩
    obtain ⟨calls, hlog, hrun⟩ := dispatch_of_record onNode hrecord
    rw [List.nil_append] at hlog
    exact hlog ▸ hrun s

/-- The compatible list of a GIC-400 that also names the Cortex-A15 GIC. -/
def gic400Compatible : List UInt8 := cstr "arm,gic-400" ++ 0 :: cstr "arm,cortex-a15-gic" ++ [0]

/-- Memory with this list and one byte more. -/
def gic400Mem : Mem := Mem.ofBytes 64 (gic400Compatible ++ [0])

theorem gic400_value : ValueInBlock gic400Mem ⟨nullptr, 64, 31⟩ gic400Compatible := by
  obtain ⟨hvalue, hafter⟩ := holds_append.1 (holds_ofBytes 64 (gic400Compatible ++ [0]))
  exact ⟨hvalue, rfl, 0, hafter.1⟩

/-- A node with this list is handed to `GIC::dt_parse_v2` twice. -/
theorem gic400_called_twice : ¬ ∀ (m : Mem) (pf : ParsingFrame) (cp dp : Option PropFrame)
    (compatible deviceType : Option (List UInt8)), OptValueIs m cp compatible →
      OptValueIs m dp deviceType → CallsEachOnce m pf cp dp := by
  intro h
  obtain ⟨calls, hrun, hnodup⟩ := h gic400Mem (.fresh zeroedFrames) (some ⟨nullptr, 64, 31⟩) none
    (some gic400Compatible) none gic400_value trivial
  have hrecord := (hrun _ recordCall []).symm.trans (dispatch_records_values (.fresh zeroedFrames)
    (valueOfKind (some gic400Compatible) none) gic400_value trivial)
  rw [show calls.foldlM recordCall [] = .ok calls from foldlM_collect calls []] at hrecord
  rw [Except.ok.inj hrecord, List.map_map] at hnodup
  revert hnodup
  decide +kernel

/-- A node that names only the GIC-400 is handed out once. -/
theorem calls_each_once_gic400 :
    CallsEachOnce (Mem.ofBytes 64 (cstr "arm,gic-400" ++ [0] ++ [0])) (.fresh zeroedFrames)
      (some ⟨nullptr, 64, 12⟩) none := by
  obtain ⟨hvalue, hafter⟩ := holds_append.1 (holds_ofBytes 64 (cstr "arm,gic-400" ++ [0] ++ [0]))
  have hc : OptValueIs (Mem.ofBytes 64 (cstr "arm,gic-400" ++ [0] ++ [0]))
      (some ⟨nullptr, 64, 12⟩) (some (cstr "arm,gic-400" ++ [0])) := ⟨hvalue, rfl, 0, hafter.1⟩
  have hd : OptValueIs (Mem.ofBytes 64 (cstr "arm,gic-400" ++ [0] ++ [0])) none none := trivial
  refine (calls_each_once_iff (.fresh zeroedFrames) hc hd).2 ?_
  rintro ⟨bs, hbs, -, ha15⟩
  rw [← Option.some.inj hbs] at ha15
  revert ha15
  decide +kernel

end Floss
