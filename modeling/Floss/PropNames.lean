import Floss.ParserSafety

/-!
# Names of Properties

A property record refers to its name by an offset into the strings block. `next` checks the
offset against the size of the block, and nothing else: it hands out a null pointer for an
offset that is too large, and it does not look for a terminator, as it does for node names.

* `NameUsable m p q`: the name of the current property is a string inside the strings block;
* `next_propName`: the name that `next` hands out, from the record it has read;
* `prop_name_usable_iff`: for every property of every accepted blob, the name is usable
  exactly when the strings block has a NUL byte at or behind the offset.
-/

namespace Floss

namespace Parser

variable {m : Mem} {p q : Parser}

/-- The name of the current property is usable: it is not null, and its terminator lies in
the strings block. -/
structure NameUsable (m : Mem) (p q : Parser) : Prop where
  notNull : q.propName ≠ nullptr
  terminated : ∃ s, StrAt m q.propName s ∧ p.strings ≤ q.propName + s.length ∧
    q.propName + s.length < p.strings + p.stringsSize

/-- The name of the current property is the one of a record in memory; its value begins
right behind the record. -/
def NamedByRecord (m : Mem) (p q : Parser) : Prop :=
  ∃ nameoff, be32 m (q.propValue - 4) = .ok nameoff ∧
    q.propName = if nameoff < p.stringsSize then p.strings + nameoff else nullptr

/-- A turn that returns a property has read its record. -/
theorem nextTurn_propName (h : p.nextTurn m = .ok (.ret q)) (htok : q.token = .prop) :
    NamedByRecord m p q := by
  rw [nextTurn] at h
  by_cases h4 : p.pos + 4 > p.structEnd
  · rw [if_pos h4] at h
    obtain rfl : p.finish = q := by simpa using h
    simp [finish] at htok
  rw [if_neg h4] at h
  obtain ⟨raw, -, h⟩ := bind_eq_ok.1 h
  cases hraw : Token.ofRaw raw with
  | none =>
      simp only [hraw, pure_eq_ok, Except.ok.injEq, Turn.ret.injEq] at h
      simp [← h, finish] at htok
  | some tok =>
      cases tok with
      | beginNode =>
          simp only [hraw] at h
          obtain ⟨z, -, h⟩ := bind_eq_ok.1 h
          split at h
          · simp only [pure_eq_ok, Except.ok.injEq, Turn.ret.injEq] at h
            simp [← h, finish] at htok
          · simp only [pure_eq_ok, Except.ok.injEq, Turn.ret.injEq] at h
            simp [← h] at htok
      | endNode =>
          simp only [hraw, pure_eq_ok, Except.ok.injEq, Turn.ret.injEq] at h
          simp [← h] at htok
      | prop =>
          simp only [hraw] at h
          split at h
          · simp only [pure_eq_ok, Except.ok.injEq, Turn.ret.injEq] at h
            simp [← h, finish] at htok
          · obtain ⟨len, -, h⟩ := bind_eq_ok.1 h
            obtain ⟨nameoff, hname, h⟩ := bind_eq_ok.1 h
            split at h
            · simp only [pure_eq_ok, Except.ok.injEq, Turn.ret.injEq] at h
              simp [← h, finish] at htok
            · simp only [pure_eq_ok, Except.ok.injEq, Turn.ret.injEq] at h
              refine ⟨nameoff, ?_, ?_⟩
              · rw [← hname, ← h]
                simp [propValue]
              · rw [← h]
                simp [propName]
      | nop => simp [hraw] at h
      | fdtEnd =>
          simp only [hraw, pure_eq_ok, Except.ok.injEq, Turn.ret.injEq] at h
          simp [← h, finish] at htok

/-- **One call**: the name of a property is the one of its record. -/
theorem next_propName (hr : m.Readable p.pos p.structEnd) (h : p.next m = .ok q)
    (htok : q.token = .prop) : NamedByRecord m p q := by
  have hloop : ∀ fuel (p : Parser), m.Readable p.pos p.structEnd →
      nextLoop m fuel p = .ok q → NamedByRecord m p q := by
    intro fuel
    induction fuel with
    | zero =>
        intro p _ h
        simp [nextLoop] at h
    | succ fuel ih =>
        intro p hr h
        obtain ⟨t, ht, hspec⟩ := nextTurn_spec hr
        rw [nextLoop, ht, ok_bind] at h
        cases t with
        | ret q' =>
            obtain rfl : q' = q := by simpa using h
            exact nextTurn_propName ht htok
        | again p' =>
            cases hspec with
            | nop h4 => exact ih { p with pos := p.pos + 4 } (hr.mono (by simp) le_rfl) h
  rw [next] at h
  split at h
  · obtain rfl := Except.ok.inj h
    simp at htok
  · exact hloop _ p hr h

/-- **A run of calls**: so is the name of every property it returns. -/
theorem nexts_propName {n : ℕ} {qs : List Parser} (hr : m.Readable p.pos p.structEnd)
    (hv : p.valid = true) (h : p.nexts m n = .ok qs) :
    ∀ q ∈ qs, q.token = .prop → NamedByRecord m p q := by
  induction n generalizing p qs with
  | zero =>
      obtain rfl : [] = qs := by simpa [nexts] using h
      simp
  | succ n ih =>
      obtain ⟨q, hq, hspec⟩ := next_spec hr hv
      obtain ⟨-, hend, hstrings, hsize, hvalid⟩ := hspec.block
      simp only [nexts, hq, ok_bind, bind_eq_ok, pure_eq_ok, Except.ok.injEq] at h
      obtain ⟨qs', hqs', rfl⟩ := h
      intro r hmem htok
      rcases List.mem_cons.1 hmem with rfl | hmem
      · exact next_propName hr hq htok
      · obtain ⟨nameoff, hrecord, hname⟩ :=
          ih (hr.mono hspec.mono hend.le) (hvalid.trans hv) hqs' r hmem htok
        exact ⟨nameoff, hrecord, by rw [hname, hstrings, hsize]⟩

end Parser

/-- Where a readable range has a NUL byte, a string ends at or before it. -/
theorem exists_strAt {m : Mem} {a z : ℕ} (hr : m.Readable a z) (haz : a ≤ z)
    (hz : m z = some 0) : ∃ s, StrAt m a s ∧ a + s.length ≤ z := by
  obtain ⟨n, rfl⟩ := Nat.exists_eq_add_of_le haz
  induction n generalizing a with
  | zero => exact ⟨[], strAt_nil.2 hz, le_rfl⟩
  | succ n ih =>
      obtain ⟨b, hb⟩ := hr a le_rfl (by omega)
      by_cases hzero : b = 0
      · exact ⟨[], strAt_nil.2 (hzero ▸ hb), by simp⟩
      · have hnext : a + (n + 1) = a + 1 + n := by omega
        rw [hnext] at hr hz
        obtain ⟨s, hs, hlen⟩ := ih (hr.mono (by omega) le_rfl) (by omega) hz
        exact ⟨b :: s, strAt_cons.2 ⟨hb, hzero, hs⟩, by rw [List.length_cons]; omega⟩

/-- **When a property name is usable**: for every accepted blob and every property that
`next` returns, exactly when the strings block has a NUL byte at or behind the name offset
that the property's record gives. -/
theorem prop_name_usable_iff {m : Mem} {fdt : ℕ} {p₀ p : Parser}
    (hinit : p₀.init m fdt = .ok (.ok, p)) (hblob : m.Readable fdt p.blobEnd) {n : ℕ}
    {qs : List Parser} (hqs : p.nexts m n = .ok qs) {q : Parser} (hq : q ∈ qs)
    (htok : q.current = .prop) :
    ∃ nameoff, be32 m (q.propValue - 4) = .ok nameoff ∧
      (p.NameUsable m q ↔
        ∃ z, nameoff ≤ z ∧ z < p.stringsSize ∧ m (p.strings + z) = some 0) := by
  obtain ⟨hfdt, h, -, hc, rfl⟩ := init_eq_ok_iff.1 hinit
  have hstruct := hc.struct
  have hstrings := hc.strings
  have hr : m.Readable (Parser.start fdt h).pos (Parser.start fdt h).structEnd :=
    hblob.mono (by simp [Parser.start]) (by simp only [Parser.start]; omega)
  obtain ⟨nameoff, hrecord, hname⟩ :=
    Parser.nexts_propName hr (by simp [Parser.start]) hqs q hq htok
  refine ⟨nameoff, hrecord, ?_⟩
  constructor
  · rintro ⟨hnull, s, hs, -, hend⟩
    by_cases hlt : nameoff < (Parser.start fdt h).stringsSize
    · rw [if_pos hlt] at hname
      rw [hname] at hs hend
      refine ⟨nameoff + s.length, by omega, by omega, ?_⟩
      have hnul := (holds_append.1 hs.1).2.1
      rwa [Nat.add_assoc] at hnul
    · rw [if_neg hlt] at hname
      exact absurd hname hnull
  · rintro ⟨z, hle, hlt, hz⟩
    rw [if_pos (by omega)] at hname
    have hread : m.Readable ((Parser.start fdt h).strings + nameoff)
        ((Parser.start fdt h).strings + z) := by
      simp only [Parser.start] at hlt ⊢
      exact hblob.mono (by omega) (by simp only [Parser.start]; omega)
    obtain ⟨s, hs, hend⟩ := exists_strAt hread (by omega) hz
    have hpos : 0 < fdt := Nat.pos_of_ne_zero hfdt
    refine ⟨?_, s, hname ▸ hs, by omega, by omega⟩
    rw [hname, nullptr]
    simp only [Parser.start]
    omega

/-- A blob with a root that has one property. Its name is at offset 0 of the strings block,
of which the header gives the size. -/
def namedBlob (sizeDtStrings : ℕ) : List UInt8 :=
  [fdtMagic, 88, 56, 84, 40, 17, 16, 0, sizeDtStrings, 28].flatMap bytes32 ++
    List.replicate 16 0 ++ [1, 0, 3, 0, 0, 2, 9].flatMap bytes32 ++ [114, 101, 103, 0]

/-- The parser at the start of such a blob. -/
def namedStart (sizeDtStrings : ℕ) : Parser :=
  .start 4096 ⟨fdtMagic, 88, 56, 84, 40, 17, sizeDtStrings, 28⟩

theorem init_namedBlob {sizeDtStrings : ℕ} (h : sizeDtStrings = 0 ∨ sizeDtStrings = 4) :
    Parser.init {} (Mem.ofBytes 4096 (namedBlob sizeDtStrings)) 4096 =
      .ok (.ok, namedStart sizeDtStrings) := by
  refine init_eq_ok_iff.2 ⟨by decide, _, ?_, ?_, rfl⟩
  · rcases h with rfl | rfl
    all_goals constructor <;> exact be32_of_holds (by decide) (by decide +kernel)
  · rcases h with rfl | rfl
    all_goals constructor <;> decide

/-- With four bytes, the strings block has the name and its terminator. -/
theorem prop_name_usable_reg :
    ∃ qs, (namedStart 4).nexts (Mem.ofBytes 4096 (namedBlob 4)) 2 = .ok qs ∧
      ∃ q ∈ qs, q.current = .prop ∧
        (namedStart 4).NameUsable (Mem.ofBytes 4096 (namedBlob 4)) q := by
  have hread : (Mem.ofBytes 4096 (namedBlob 4)).Readable 4096 (4096 + 88) :=
    readable_ofBytes 4096 (namedBlob 4)
  have hrun : ((namedStart 4).nexts (Mem.ofBytes 4096 (namedBlob 4)) 2).map
      (fun qs => qs.map fun q => (q.current, q.propValue)) =
        .ok [(.beginNode, nullptr), (.prop, 4172)] := by decide +kernel
  obtain ⟨qs, hqs, hmap⟩ := map_eq_ok.1 hrun
  have hmem : (Token.prop, 4172) ∈ qs.map fun q => (q.current, q.propValue) := by
    rw [hmap]
    simp
  obtain ⟨q, hq, hpair⟩ := List.mem_map.1 hmem
  obtain ⟨htok, hvalue⟩ := Prod.mk.inj hpair
  refine ⟨qs, hqs, q, hq, htok, ?_⟩
  obtain ⟨nameoff, hrecord, hiff⟩ := prop_name_usable_iff (init_namedBlob (.inr rfl)) hread hqs hq
    htok
  have hzero : be32 (Mem.ofBytes 4096 (namedBlob 4)) (4172 - 4) = .ok 0 :=
    be32_of_holds (by decide) (by decide +kernel)
  rw [hvalue, hzero, Except.ok.injEq] at hrecord
  exact hiff.2 ⟨3, by omega, by decide, by decide +kernel⟩

/-- With a strings block of no bytes, the name is a null pointer. -/
theorem prop_name_null :
    ¬ ∀ (m : Mem) (fdt : ℕ) (p₀ p : Parser) (n : ℕ) (qs : List Parser) (q : Parser),
      p₀.init m fdt = .ok (.ok, p) → m.Readable fdt p.blobEnd → p.nexts m n = .ok qs → q ∈ qs →
        q.current = .prop → p.NameUsable m q := by
  intro hall
  have hread : (Mem.ofBytes 4096 (namedBlob 0)).Readable 4096 (4096 + 88) :=
    readable_ofBytes 4096 (namedBlob 0)
  have hrun : ((namedStart 0).nexts (Mem.ofBytes 4096 (namedBlob 0)) 2).map
      (fun qs => qs.map fun q => (q.current, q.propName)) =
        .ok [(.beginNode, nullptr), (.prop, nullptr)] := by decide +kernel
  obtain ⟨qs, hqs, hmap⟩ := map_eq_ok.1 hrun
  have hmem : (Token.prop, nullptr) ∈ qs.map fun q => (q.current, q.propName) := by
    rw [hmap]
    simp
  obtain ⟨q, hq, hpair⟩ := List.mem_map.1 hmem
  obtain ⟨htok, hnull⟩ := Prod.mk.inj hpair
  exact (hall _ _ _ _ _ _ q (init_namedBlob (.inl rfl)) hread hqs hq htok).notNull hnull

end Floss
