import Floss.Chains
import Floss.Phandles

/-!
# Clock Frequencies

`lookup_clock_frequency` follows the parent clocks of a phandle through the table of the
first pass until a mapping has a frequency. The links are taken from the device tree as they
are, so they may lead back to a clock that was visited before.

* `PhandleTable.lookupClockFrequency`: the loop;
* `parentOf`, `frequencyOf`: one turn of it, as a link and an answer;
* `lookup_clock_ends_iff`: for every table that the first pass leaves, the lookup ends
  exactly when the chain of parent clocks does not run into a cycle.
-/

namespace Floss

namespace PhandleTable

variable {t : PhandleTable} {phandle : ℕ}

/-- `DeviceTree::lookup_clock_frequency`. The loop has no bound of its own; `fuel` is the
number of turns it may make. -/
def lookupClockFrequency (t : PhandleTable) : (fuel phandle : ℕ) → Exec ℕ
  | 0, _ => .error .fuel
  | fuel + 1, phandle =>
      if phandle ≠ 0 then do
        match ← t.find phandle t.num 0 with
        | none => .error (.panic "ShouldNotReachHere")
        | some mapping =>
            if mapping.clockFrequency ≠ 0 then
              return mapping.clockFrequency
            else
              lookupClockFrequency t fuel mapping.parentClock
      else
        .error (.panic "ShouldNotReachHere")

/-- The mapping of a phandle: the first one in the table. Zero is not a phandle. -/
def mappingOf (t : PhandleTable) (phandle : ℕ) : Option NodeMapping :=
  if phandle ≠ 0 then t.entries.find? (·.phandle = phandle) else none

/-- The next clock of the chain: the parent of a clock without a frequency. -/
def parentOf (t : PhandleTable) (phandle : ℕ) : Option ℕ :=
  (t.mappingOf phandle).bind fun mapping =>
    if mapping.clockFrequency = 0 then some mapping.parentClock else none

/-- The frequency of a clock that has one. -/
def frequencyOf (t : PhandleTable) (phandle : ℕ) : Option ℕ :=
  (t.mappingOf phandle).bind fun mapping =>
    if mapping.clockFrequency = 0 then none else some mapping.clockFrequency

/-- What the lookup does at the end of a chain. -/
def clockAnswer : Option ℕ → Exec ℕ
  | some frequency => .ok frequency
  | none => .error (.panic "ShouldNotReachHere")

/-- The lookup of a phandle **ends**: after finitely many turns it answers with the
frequency of the first clock of the chain that has one, and panics if the chain ends
without one. -/
def LookupEnds (t : PhandleTable) (phandle : ℕ) : Prop :=
  ∃ last, Relation.ReflTransGen (Follows t.parentOf) phandle last ∧ t.parentOf last = none ∧
    ∃ turns, ∀ fuel ≥ turns,
      t.lookupClockFrequency fuel phandle = clockAnswer (t.frequencyOf last)

/-- **A turn of the lookup**: go on to the parent clock, or answer. -/
theorem lookupClockFrequency_succ (hnum : t.num ≤ phandleNodeMappingCapacity) (fuel : ℕ) :
    t.lookupClockFrequency (fuel + 1) phandle =
      (t.parentOf phandle).elim (clockAnswer (t.frequencyOf phandle))
        (t.lookupClockFrequency fuel) := by
  rw [lookupClockFrequency]
  by_cases h0 : phandle ≠ 0
  · have hfind : t.find phandle t.num 0 = .ok (t.mappingOf phandle) := by
      rw [find_eq (by omega), ← List.range_eq_range', mappingOf, if_pos h0, entries]
    rw [if_pos h0, hfind, ok_bind, parentOf, frequencyOf]
    cases hm : t.mappingOf phandle with
    | none => rfl
    | some mapping =>
        by_cases hfreq : mapping.clockFrequency = 0
        · simp [hfreq]
        · simp [hfreq, clockAnswer]
  · simp [h0, parentOf, frequencyOf, mappingOf, clockAnswer]

/-- Only the phandles of the table have a parent clock. -/
theorem mem_of_parentOf {p : ℕ} (h : Follows t.parentOf phandle p) :
    phandle ∈ {q | q ∈ t.entries.map NodeMapping.phandle} := by
  obtain ⟨mapping, hmapping, -⟩ := Option.bind_eq_some_iff.1 h
  rw [mappingOf] at hmapping
  split at hmapping
  · have hmem := List.mem_of_find?_eq_some hmapping
    have heq : mapping.phandle = phandle := by simpa using List.find?_some hmapping
    exact List.mem_map.2 ⟨mapping, hmem, heq⟩
  · simp at hmapping

/-- The lookup follows a chain to its end. -/
theorem lookupEnds_of_ends (hnum : t.num ≤ phandleNodeMappingCapacity)
    (h : Ends t.parentOf phandle) : t.LookupEnds phandle := by
  obtain ⟨last, hchain, hlast⟩ := h
  refine ⟨last, hchain, hlast, ?_⟩
  induction hchain using Relation.ReflTransGen.head_induction_on with
  | refl =>
      refine ⟨1, fun fuel hfuel => ?_⟩
      obtain ⟨fuel, rfl⟩ : ∃ n, fuel = n + 1 := ⟨fuel - 1, by omega⟩
      rw [lookupClockFrequency_succ hnum, hlast, Option.elim_none]
  | head hstep _ ih =>
      obtain ⟨turns, hturns⟩ := ih
      refine ⟨turns + 1, fun fuel hfuel => ?_⟩
      obtain ⟨fuel, rfl⟩ : ∃ n, fuel = n + 1 := ⟨fuel - 1, by omega⟩
      rw [lookupClockFrequency_succ hnum, show t.parentOf _ = some _ from hstep,
        Option.elim_some]
      exact hturns fuel (by omega)

/-- The lookup does not come to an end of a chain that has none. -/
theorem lookup_of_not_ends (hnum : t.num ≤ phandleNodeMappingCapacity)
    (h : ¬ Ends t.parentOf phandle) (fuel : ℕ) :
    t.lookupClockFrequency fuel phandle = .error .fuel := by
  induction fuel generalizing phandle with
  | zero => rfl
  | succ fuel ih =>
      rw [lookupClockFrequency_succ hnum]
      cases hparent : t.parentOf phandle with
      | none => exact absurd ⟨phandle, .refl, hparent⟩ h
      | some p =>
          refine ih ?_
          rintro ⟨last, hchain, hlast⟩
          exact h ⟨last, .head hparent hchain, hlast⟩

end PhandleTable

/-! ### Tables of the first pass -/

/-- What every turn of the token loop preserves holds after it. -/
theorem walkTokens_invariant {σ : Type} {m : Mem} {body : σ → Parser → Exec σ}
    (Inv : σ → Prop) (hstep : ∀ s q s', Inv s → body s q = .ok s' → Inv s') {fuel : ℕ}
    {p : Parser} {s s' : σ} (hs : Inv s) (h : walkTokens m body fuel p s = .ok s') :
    Inv s' := by
  induction fuel generalizing p s with
  | zero => simp [walkTokens] at h
  | succ fuel ih =>
      rw [walkTokens] at h
      obtain ⟨q, -, h⟩ := bind_eq_ok.1 h
      by_cases htok : q.current = .fdtEnd
      · rw [if_pos htok] at h
        rwa [← Except.ok.inj h]
      · rw [if_neg htok] at h
        obtain ⟨s₁, hbody, h⟩ := bind_eq_ok.1 h
        exact ih (hstep s q s₁ hs hbody) h

/-- The first pass leaves room in its table, whatever the tokens of the blob are. -/
theorem parseFramesPhandle_num_lt {m : Mem} {fdt : ℕ} {garbage : ℕ → NodeFrame}
    {table t : PhandleTable} (h : parseFramesPhandle m fdt garbage table = .ok (.ok, t)) :
    t.num < phandleNodeMappingCapacity := by
  simp only [parseFramesPhandle, walkBlob, bind_eq_ok, pure_eq_ok, Except.ok.injEq,
    Prod.mk.injEq, Prod.exists] at h
  obtain ⟨status, pf, filled, ⟨init, dtp, -, h⟩, rfl, rfl⟩ := h
  rw [if_pos rfl]
  by_cases hinit : init = .ok
  · simp only [hinit, ne_eq, not_true_eq_false, if_false, bind_eq_ok, Prod.exists,
      Except.ok.injEq, Prod.mk.injEq, true_and] at h
    obtain ⟨pf', filled', hwalk, rfl, rfl⟩ := h
    refine walkTokens_invariant (fun st => st.2.num < phandleNodeMappingCapacity) ?_
      (Nat.zero_lt_succ _) hwalk
    rintro ⟨pf, t⟩ q ⟨pf', t'⟩ ht hstep
    have ht : t.num < phandleNodeMappingCapacity := ht
    obtain ⟨-, -, hcount⟩ := tokenSeen_of_phandleStep hstep
    show t'.num < phandleNodeMappingCapacity
    omega
  · simp only [ne_eq, hinit, not_false_eq_true, if_true, Except.ok.injEq, Prod.mk.injEq] at h
    exact h.1.elim

/-- **When a clock lookup ends**: for every table that the first pass leaves and every
phandle, it ends with the frequency of the first clock of the chain that has one, or with a
panic if there is none, if and only if the chain does not run into a cycle of clocks without
a frequency. Otherwise the loop never ends. -/
theorem lookup_clock_ends_iff {m : Mem} {fdt : ℕ} {garbage : ℕ → NodeFrame}
    {table t : PhandleTable} (h : parseFramesPhandle m fdt garbage table = .ok (.ok, t))
    (phandle : ℕ) :
    (t.LookupEnds phandle ↔
      ∀ clock, Relation.ReflTransGen (Follows t.parentOf) phandle clock →
        ¬ Relation.TransGen (Follows t.parentOf) clock clock) ∧
    (¬ t.LookupEnds phandle → ∀ fuel, t.lookupClockFrequency fuel phandle = .error .fuel) := by
  have hnum := (parseFramesPhandle_num_lt h).le
  have hends : t.LookupEnds phandle ↔ Ends t.parentOf phandle := by
    constructor
    · rintro ⟨last, hchain, hlast, -⟩
      exact ⟨last, hchain, hlast⟩
    · exact PhandleTable.lookupEnds_of_ends hnum
  rw [hends]
  exact ⟨ends_iff_no_cycle (List.finite_toSet _) (fun _ _ => PhandleTable.mem_of_parentOf) phandle,
    PhandleTable.lookup_of_not_ends hnum⟩

/-- A blob whose only node has the phandle 1 and the given words in two further properties,
`clocks` and `clock-frequency`. -/
def clockBlob (clocks frequency : ℕ) : List UInt8 :=
  [fdtMagic, 151, 56, 120, 40, 17, 16, 0, 31, 64].flatMap bytes32 ++ List.replicate 16 0 ++
    [1, 0, 3, 4, 0, 1, 3, 4, 8, clocks, 3, 4, 15, frequency, 2, 9].flatMap bytes32 ++
    cstr "phandle" ++ 0 :: cstr "clocks" ++ 0 :: cstr "clock-frequency" ++ [0]

/-- What the first pass leaves for such a blob. -/
def clockTable (clocks frequency : ℕ) : Exec (Status × PhandleTable) :=
  parseFramesPhandle (Mem.ofBytes 4096 (clockBlob clocks frequency)) 4096 zeroedFrames {}

/-- A clock whose parent is the clock itself is looked up without end. -/
theorem lookup_clock_self_parent :
    ¬ ∀ (m : Mem) (fdt : ℕ) (garbage : ℕ → NodeFrame) (table t : PhandleTable),
      parseFramesPhandle m fdt garbage table = .ok (.ok, t) →
        ∀ phandle, t.LookupEnds phandle := by
  intro hall
  have hparse : (clockTable 1 0).map (fun r => (r.1, r.2.parentOf 1)) = .ok (.ok, some 1) := by
    decide +kernel
  obtain ⟨⟨status, t⟩, htable, hpair⟩ := map_eq_ok.1 hparse
  obtain ⟨rfl, hself⟩ := Prod.mk.inj hpair
  obtain ⟨last, hchain, hlast, -⟩ := hall _ _ _ _ t htable 1
  exact not_cycle_of_end hchain hlast (.single hself)

/-- A clock that has a frequency of its own is looked up, whatever its parent is. -/
theorem lookup_clock_ends_frequency :
    ∃ t, clockTable 1 24 = .ok (.ok, t) ∧ t.LookupEnds 1 := by
  have hparse : (clockTable 1 24).map (fun r => (r.1, r.2.parentOf 1)) = .ok (.ok, none) := by
    decide +kernel
  obtain ⟨⟨status, t⟩, htable, hpair⟩ := map_eq_ok.1 hparse
  obtain ⟨rfl, hnone⟩ := Prod.mk.inj hpair
  refine ⟨t, htable, (lookup_clock_ends_iff htable 1).1.2 fun clock hclock => ?_⟩
  exact not_cycle_of_end (reflTransGen_end .refl hnone hclock) hnone

end Floss
