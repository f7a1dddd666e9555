import Floss.Parser

/-!
# The Scanner Stays Inside the Structure Block

Whatever the bytes of the structure block are, the scanner reads only inside the block,
hands out only pointers into it, and ends. The argument has two halves.

* `nextTurn_spec` says everything a turn of the token loop can do, on any readable
  block: `TurnSpec` has one constructor for each way out of the turn, with the
  positions it involves. `next_spec` lifts this to a whole call (`NextSpec`): the cursor
  moves by at least one word past every token returned, and an `fdtEnd` leaves it at or
  past the end of the block. The cursor may overshoot the end by up to three bytes, when
  the block ends inside the padding of a name or a value; the check at the entry of the
  next call catches this.
* `nextTurn_restrict` says that no turn looks outside the block.

`nexts_spec` and `nexts_restrict` follow by induction on the number of calls, and
`parser_walk_safe` puts them together for an accepted blob.
-/

namespace Floss

theorem align4_eq (p : ℕ) : align4 p = (p + 3) / 4 * 4 := by
  have h : p &&& 3 = p % 4 := Nat.and_two_pow_sub_one_eq_mod p 2
  simp only [align4, h]
  split_ifs <;> omega

namespace Parser

/-! ### The name scan -/

/-- On readable bytes the name scan stops at the first NUL, or at the end. -/
theorem scanName_spec {m : Mem} (left scan : ℕ) (hr : m.Readable scan (scan + left)) :
    ∃ z, scanName m left scan = .ok z ∧ scan ≤ z ∧ z ≤ scan + left ∧
      (z < scan + left → m z = some 0) ∧ ∀ a, scan ≤ a → a < z → m a ≠ some 0 := by
  induction left generalizing scan with
  | zero => exact ⟨scan, rfl, by omega, by omega, by omega, by omega⟩
  | succ left ih =>
      obtain ⟨b, hb⟩ := hr scan (by omega) (by omega)
      have hload : m.load scan = .ok b := Mem.load_eq_ok.mpr hb
      by_cases h0 : b = 0
      · refine ⟨scan, ?_, by omega, by omega, fun _ => h0 ▸ hb, by omega⟩
        simp [scanName, hload, h0]
      · obtain ⟨z, hz, hle, hle', hnul, hno⟩ :=
          ih (scan + 1) (hr.mono (by omega) (by omega))
        refine ⟨z, ?_, by omega, by omega, fun h => hnul (by omega), ?_⟩
        · simp [scanName, hload, h0, hz]
        · intro a ha haz
          rcases Nat.eq_or_lt_of_le ha with rfl | ha
          · simpa [hb] using h0
          · exact hno a (by omega) haz

/-- The name scan reads only the bytes left to it. -/
theorem scanName_restrict {m : Mem} {left scan lo hi : ℕ} (hlo : lo ≤ scan)
    (hhi : scan + left ≤ hi) : scanName (m.restrict lo hi) left scan = scanName m left scan := by
  induction left generalizing scan with
  | zero => rfl
  | succ left ih =>
      simp only [scanName]
      rw [Mem.load_restrict hlo (by omega), ih (by omega) (by omega)]

/-! ### One turn -/

/-- The state in which a turn returns a node whose name ends at `z`. -/
def atBeginNode (p : Parser) (z : ℕ) : Parser :=
  { p with
    pos := align4 (z + 1)
    nodeNamePtr := p.pos + 4
    openNodes := (p.openNodes + 1) % 2 ^ 32
    token := .beginNode }

/-- The state in which a turn returns the end of a node. -/
def atEndNode (p : Parser) : Parser :=
  { p with
    pos := p.pos + 4
    openNodes := if p.openNodes > 0 then p.openNodes - 1 else p.openNodes
    token := .endNode }

/-- The state in which a turn returns a property of `len` value bytes. -/
def atProp (p : Parser) (len nameoff : ℕ) : Parser :=
  { p with
    pos := align4 (p.pos + 12 + len)
    propBytes := len
    propValuePtr := p.pos + 12
    propNamePtr := if nameoff < p.stringsSize then p.strings + nameoff else nullptr
    token := .prop }

/-- Everything a turn of the token loop can do. -/
inductive TurnSpec (m : Mem) (p : Parser) : Turn → Prop
  /-- the block is exhausted, truncated, ended or not understood -/
  | finish : TurnSpec m p (.ret p.finish)
  /-- a node whose name ends at `z` -/
  | beginNode (z : ℕ) (hz : p.pos + 4 ≤ z) (hz' : z < p.structEnd) (hnul : m z = some 0)
      (hno : ∀ a, p.pos + 4 ≤ a → a < z → m a ≠ some 0) :
      TurnSpec m p (.ret (p.atBeginNode z))
  | endNode (h : p.pos + 4 ≤ p.structEnd) : TurnSpec m p (.ret p.atEndNode)
  | prop (len nameoff : ℕ) (h : p.pos + 12 + len ≤ p.structEnd) :
      TurnSpec m p (.ret (p.atProp len nameoff))
  | nop (h : p.pos + 4 ≤ p.structEnd) : TurnSpec m p (.again { p with pos := p.pos + 4 })

/-- **One turn.** On a readable block a turn completes, and does what `TurnSpec`
allows. -/
theorem nextTurn_spec {m : Mem} {p : Parser} (hr : m.Readable p.pos p.structEnd) :
    ∃ t, p.nextTurn m = .ok t ∧ TurnSpec m p t := by
  rw [nextTurn]
  by_cases h4 : p.pos + 4 > p.structEnd
  · exact ⟨_, by rw [if_pos h4, pure_eq_ok], .finish⟩
  obtain ⟨raw, hraw⟩ := be32_isOk hr le_rfl (not_lt.mp h4)
  simp only [if_neg h4, hraw, ok_bind]
  cases htok : Token.ofRaw raw with
  | none => exact ⟨_, rfl, .finish⟩
  | some tok =>
      cases tok with
      | beginNode =>
          obtain ⟨z, hz, hle, hle', hnul, hno⟩ := scanName_spec
            (p.structEnd - (p.pos + 4)) (p.pos + 4) (hr.mono (by omega) (by omega))
          simp only [hz, ok_bind]
          by_cases hend : z ≥ p.structEnd
          · exact ⟨_, by rw [if_pos hend]; rfl, .finish⟩
          · exact ⟨_, by rw [if_neg hend]; rfl,
              .beginNode z hle (by omega) (hnul (by omega)) hno⟩
      | endNode => exact ⟨_, rfl, .endNode (by omega)⟩
      | prop =>
          by_cases h8 : p.pos + 4 + 8 > p.structEnd
          · exact ⟨_, by simp only [if_pos h8]; rfl, .finish⟩
          obtain ⟨len, hlen⟩ := be32_isOk (p := p.pos + 4) hr (by omega) (by omega)
          obtain ⟨nameoff, hname⟩ := be32_isOk (p := p.pos + 4 + 4) hr (by omega) (by omega)
          simp only [if_neg h8, hlen, hname, ok_bind]
          by_cases hfit : p.pos + 4 + 8 + len > p.structEnd
          · exact ⟨_, by simp only [if_pos hfit]; rfl, .finish⟩
          · exact ⟨_, by simp only [if_neg hfit]; rfl, .prop len nameoff (by omega)⟩
      | nop => exact ⟨_, rfl, .nop (by omega)⟩
      | fdtEnd => exact ⟨_, rfl, .finish⟩

/-- A turn looks only at bytes between the cursor and the end of the block. -/
theorem nextTurn_restrict {m : Mem} {p : Parser} {lo : ℕ} (hlo : lo ≤ p.pos) :
    p.nextTurn (m.restrict lo p.structEnd) = p.nextTurn m := by
  rw [nextTurn, nextTurn]
  by_cases h4 : p.pos + 4 > p.structEnd
  · rw [if_pos h4, if_pos h4]
  rw [if_neg h4, if_neg h4, be32_restrict hlo (by omega)]
  refine bind_congr fun raw => ?_
  cases htok : Token.ofRaw raw with
  | none => rfl
  | some tok =>
      cases tok with
      | beginNode =>
          simp only
          rw [scanName_restrict (by omega) (by omega)]
      | prop =>
          by_cases h8 : p.pos + 4 + 8 > p.structEnd
          · simp only [if_pos h8]
          · simp only [if_neg h8]
            rw [be32_restrict (by omega) (by omega), be32_restrict (by omega) (by omega)]
      | endNode | nop | fdtEnd => rfl

/-! ### One call -/

/-- The parts of the state that no `next` call changes. -/
def SameBlock (p q : Parser) : Prop :=
  q.struct = p.struct ∧ q.structEnd = p.structEnd ∧ q.strings = p.strings ∧
    q.stringsSize = p.stringsSize ∧ q.valid = p.valid

/-- What a call that starts at cursor `p.pos` can return. -/
structure NextSpec (m : Mem) (p q : Parser) : Prop where
  block : SameBlock p q
  mono : p.pos ≤ q.pos
  finished : q.token = .fdtEnd → p.structEnd ≤ q.pos
  /-- every other token takes at least one word of the block -/
  advanced : q.token ≠ .fdtEnd → p.pos + 4 ≤ p.structEnd ∧ p.pos + 4 ≤ q.pos
  name : q.token = .beginNode →
    p.pos ≤ q.nodeName ∧ ∃ z, q.nodeName ≤ z ∧ z < p.structEnd ∧ m z = some 0
  value : q.token = .prop →
    p.pos ≤ q.propValue ∧ q.propValue + q.propLen ≤ p.structEnd

/-- Going round again from a later cursor can only do what was possible before. -/
theorem NextSpec.of_pos {m : Mem} {p q : Parser} {pos : ℕ}
    (h : NextSpec m { p with pos := pos } q) (hpos : p.pos ≤ pos) : NextSpec m p q where
  block := h.block
  mono := hpos.trans h.mono
  finished := h.finished
  advanced hne := by
    have := h.advanced hne
    simp only at this
    omega
  name hq := by
    obtain ⟨h1, h2⟩ := h.name hq
    exact ⟨hpos.trans h1, h2⟩
  value hq := by
    obtain ⟨h1, h2⟩ := h.value hq
    exact ⟨hpos.trans h1, h2⟩

/-- A turn that returns meets the specification of the call. -/
theorem TurnSpec.nextSpec {m : Mem} {p q : Parser} (hp : p.pos ≤ p.structEnd)
    (h : TurnSpec m p (.ret q)) : NextSpec m p q := by
  have hblock : ∀ {q : Parser}, q.struct = p.struct → q.structEnd = p.structEnd →
      q.strings = p.strings → q.stringsSize = p.stringsSize → q.valid = p.valid →
      SameBlock p q := fun h1 h2 h3 h4 h5 => ⟨h1, h2, h3, h4, h5⟩
  cases h with
  | finish =>
      exact ⟨hblock rfl rfl rfl rfl rfl, hp, fun _ => le_rfl, fun h => absurd rfl h,
        fun h => (nomatch h), fun h => (nomatch h)⟩
  | beginNode z hz hz' hnul hno =>
      refine ⟨hblock rfl rfl rfl rfl rfl, ?_, fun h => (nomatch h), fun _ => ?_, fun _ => ?_,
        fun h => (nomatch h)⟩
      · simp only [atBeginNode, align4_eq]
        omega
      · simp only [atBeginNode, align4_eq]
        omega
      · exact ⟨by simp [nodeName, atBeginNode], z,
          by simpa [nodeName, atBeginNode] using hz, hz', hnul⟩
  | endNode h4 =>
      exact ⟨hblock rfl rfl rfl rfl rfl, by simp [atEndNode], fun h => (nomatch h),
        fun _ => ⟨h4, le_rfl⟩, fun h => (nomatch h), fun h => (nomatch h)⟩
  | prop len nameoff hfit =>
      refine ⟨hblock rfl rfl rfl rfl rfl, ?_, fun h => (nomatch h), fun _ => ?_,
        fun h => (nomatch h), fun _ => ?_⟩
      · simp only [atProp, align4_eq]
        omega
      · simp only [atProp, align4_eq]
        omega
      · simp only [propValue, propLen, atProp, if_true]
        omega

/-- The token loop, given a word of fuel for every word left in the block and one more,
completes and meets the specification of the call. -/
theorem nextLoop_spec {m : Mem} {p : Parser} {fuel : ℕ} (hp : p.pos ≤ p.structEnd)
    (hfuel : (p.structEnd - p.pos) / 4 < fuel) (hr : m.Readable p.pos p.structEnd) :
    ∃ q, nextLoop m fuel p = .ok q ∧ NextSpec m p q := by
  induction fuel generalizing p with
  | zero => omega
  | succ fuel ih =>
      obtain ⟨t, ht, hspec⟩ := nextTurn_spec hr
      simp only [nextLoop, ht, ok_bind]
      cases t with
      | ret q => exact ⟨q, rfl, hspec.nextSpec hp⟩
      | again q =>
          cases hspec with
          | nop h4 =>
              obtain ⟨q, hq, hqs⟩ := ih (p := { p with pos := p.pos + 4 }) h4
                (by simp only; omega) (hr.mono (by simp) le_rfl)
              exact ⟨q, hq, hqs.of_pos (by omega)⟩

/-- **One call.** On a readable block `next` completes and meets its specification. -/
theorem next_spec {m : Mem} {p : Parser} (hr : m.Readable p.pos p.structEnd)
    (hv : p.valid = true) : ∃ q, p.next m = .ok q ∧ NextSpec m p q := by
  rw [next]
  by_cases h : p.pos ≥ p.structEnd
  · exact ⟨{ p with token := .fdtEnd }, by rw [if_pos (Or.inr h)],
      ⟨rfl, rfl, rfl, rfl, rfl⟩, le_rfl, fun _ => h, fun h => absurd rfl h,
      fun h => (nomatch h), fun h => (nomatch h)⟩
  · rw [if_neg (by simp [hv, h])]
    exact nextLoop_spec (by omega) (by omega) hr

/-- The token loop looks only inside the block. -/
theorem nextLoop_restrict {m : Mem} {p : Parser} {fuel lo : ℕ} (hlo : lo ≤ p.pos)
    (hr : m.Readable p.pos p.structEnd) :
    nextLoop (m.restrict lo p.structEnd) fuel p = nextLoop m fuel p := by
  induction fuel generalizing p with
  | zero => rfl
  | succ fuel ih =>
      obtain ⟨t, ht, hspec⟩ := nextTurn_spec hr
      simp only [nextLoop, nextTurn_restrict hlo, ht, ok_bind]
      cases hspec with
      | nop h4 =>
          exact ih (p := { p with pos := p.pos + 4 }) (by simp only; omega)
            (hr.mono (by simp) le_rfl)
      | finish | beginNode | endNode | prop => rfl

/-- A call looks only inside the block. -/
theorem next_restrict {m : Mem} {p : Parser} {lo : ℕ} (hlo : lo ≤ p.pos)
    (hr : m.Readable p.pos p.structEnd) :
    p.next (m.restrict lo p.structEnd) = p.next m := by
  rw [next, next, nextLoop_restrict hlo hr]

/-! ### Any number of calls -/

/-- Once the cursor is at the end of the block, every further call returns `fdtEnd` and
changes nothing else. -/
theorem nexts_finished {m : Mem} {p : Parser} (n : ℕ) (hend : p.structEnd ≤ p.pos) :
    p.nexts m n = .ok (List.replicate n { p with token := .fdtEnd }) := by
  induction n generalizing p with
  | zero => rfl
  | succ n ih =>
      have hnext : p.next m = .ok { p with token := .fdtEnd } := by
        rw [next, if_pos (Or.inr hend)]
      simp only [nexts, hnext, ok_bind, ih (p := { p with token := .fdtEnd }) hend,
        pure_eq_ok, List.replicate_succ]

/-- **A run of calls.** On a readable block every call of a run completes; the pointers
handed out lie between the cursor and the end of the block, every token other than
`fdtEnd` takes a word, and `fdtEnd` is final. -/
theorem nexts_spec {m : Mem} {p : Parser} (n : ℕ) (hr : m.Readable p.pos p.structEnd)
    (hv : p.valid = true) :
    ∃ qs, p.nexts m n = .ok qs ∧ qs.length = n ∧
      (∀ q ∈ qs, (q.current = .beginNode →
          p.pos ≤ q.nodeName ∧ ∃ z, q.nodeName ≤ z ∧ z < p.structEnd ∧ m z = some 0) ∧
        (q.current = .prop →
          p.pos ≤ q.propValue ∧ q.propValue + q.propLen ≤ p.structEnd)) ∧
      (qs.filter fun q => q.current ≠ .fdtEnd).length ≤ (p.structEnd - p.pos) / 4 ∧
      qs.Pairwise fun a b => a.current = .fdtEnd → b.current = .fdtEnd := by
  induction n generalizing p with
  | zero => exact ⟨[], rfl, rfl, by simp, by simp, by simp⟩
  | succ n ih =>
      obtain ⟨q, hq, hspec⟩ := next_spec hr hv
      obtain ⟨-, hend, -, -, hvalid⟩ := hspec.block
      obtain ⟨qs, hqs, hlen, hdata, hcount, hpair⟩ :=
        ih (p := q) (hr.mono hspec.mono hend.le) (hvalid.trans hv)
      rw [hend] at hdata hcount
      refine ⟨q :: qs, by simp [nexts, hq, hqs], by simp [hlen], ?_, ?_, ?_⟩
      · intro r hr'
        rcases List.mem_cons.mp hr' with rfl | hmem
        · exact ⟨hspec.name, hspec.value⟩
        · obtain ⟨hname, hvalue⟩ := hdata r hmem
          exact ⟨fun h => ⟨hspec.mono.trans (hname h).1, (hname h).2⟩,
            fun h => ⟨hspec.mono.trans (hvalue h).1, (hvalue h).2⟩⟩
      · by_cases hqt : q.token = .fdtEnd
        · have := hspec.mono
          simp only [List.filter_cons, current, hqt] at hcount ⊢
          simp only [ne_eq, not_true_eq_false, decide_false, Bool.false_eq_true, if_false]
            at hcount ⊢
          omega
        · have := hspec.advanced hqt
          simp only [List.filter_cons, current, hqt, ne_eq, not_false_eq_true, decide_true,
            if_true, List.length_cons] at hcount ⊢
          omega
      · refine List.pairwise_cons.mpr ⟨fun r hr' hqt => ?_, hpair⟩
        rw [nexts_finished n (by rw [hend]; exact hspec.finished hqt), Except.ok.injEq] at hqs
        rw [← hqs] at hr'
        exact congrArg token (List.eq_of_mem_replicate hr')

/-- A run of calls looks only inside the block. -/
theorem nexts_restrict {m : Mem} {p : Parser} {lo : ℕ} (n : ℕ) (hlo : lo ≤ p.pos)
    (hr : m.Readable p.pos p.structEnd) (hv : p.valid = true) :
    p.nexts (m.restrict lo p.structEnd) n = p.nexts m n := by
  induction n generalizing p with
  | zero => rfl
  | succ n ih =>
      obtain ⟨q, hq, hspec⟩ := next_spec hr hv
      obtain ⟨-, hend, -, -, hvalid⟩ := hspec.block
      have hih := ih (p := q) (hlo.trans hspec.mono) (hr.mono hspec.mono hend.le)
        (hvalid.trans hv)
      rw [hend] at hih
      simp only [nexts, next_restrict hlo hr, hq, ok_bind, hih]

end Parser

/-- **The walk is safe on every accepted blob**, whatever its structure block holds. Any
number of `next` calls complete, and complete unchanged when only the structure block is
readable; every node name handed out has its NUL terminator inside the block and every
property value lies inside it; at most `size_dt_struct / 4` calls return a token other
than `fdtEnd`; and `fdtEnd` is final. -/
theorem parser_walk_safe {m : Mem} {fdt : ℕ} {p₀ p : Parser}
    (hinit : p₀.init m fdt = .ok (.ok, p)) (hblob : m.Readable fdt p.blobEnd) (n : ℕ) :
    ∃ size qs, be32 m (fdt + 36) = .ok size ∧ p.structEnd = p.struct + size ∧
      p.nexts m n = .ok qs ∧ p.nexts (m.restrict p.struct p.structEnd) n = .ok qs ∧
      qs.length = n ∧
      (∀ q ∈ qs, (q.current = .beginNode →
          p.struct ≤ q.nodeName ∧ ∃ z, q.nodeName ≤ z ∧ z < p.structEnd ∧ m z = some 0) ∧
        (q.current = .prop →
          p.struct ≤ q.propValue ∧ q.propValue + q.propLen ≤ p.structEnd)) ∧
      (qs.filter fun q => q.current ≠ .fdtEnd).length ≤ size / 4 ∧
      qs.Pairwise fun a b => a.current = .fdtEnd → b.current = .fdtEnd := by
  obtain ⟨-, h, hh, hc, rfl⟩ := init_eq_ok_iff.mp hinit
  have hstruct := hc.struct
  have hr : m.Readable (Parser.start fdt h).pos (Parser.start fdt h).structEnd :=
    hblob.mono (by simp [Parser.start]) (by simp only [Parser.start]; omega)
  obtain ⟨qs, hqs, hlen, hdata, hcount, hpair⟩ :=
    Parser.nexts_spec n hr (by simp [Parser.start])
  have hsize : (Parser.start fdt h).structEnd - (Parser.start fdt h).pos = h.sizeDtStruct := by
    simp only [Parser.start]
    omega
  rw [hsize] at hcount
  refine ⟨h.sizeDtStruct, qs, hh.sizeDtStruct, rfl, hqs, ?_, hlen, hdata, hcount, hpair⟩
  rw [Parser.nexts_restrict n (by simp [Parser.start]) hr (by simp [Parser.start]), hqs]

/-- A blob whose structure block ends inside a node name. -/
def truncatedBlob : List UInt8 :=
  [fdtMagic, 64, 56, 64, 40, 17, 16, 0, 0, 8].flatMap bytes32 ++ List.replicate 16 0 ++
    (bytes32 1 ++ [0x75, 0x61, 0x72, 0x74])

/-- The header of `truncatedBlob` is accepted. -/
theorem init_truncatedBlob :
    Parser.init {} (Mem.ofBytes 4096 truncatedBlob) 4096 =
      .ok (.ok, .start 4096 ⟨fdtMagic, 64, 56, 64, 40, 17, 0, 8⟩) := by
  refine init_eq_ok_iff.mpr ⟨by decide, _, ?_, ?_, rfl⟩
  · constructor <;> exact be32_of_holds (by decide) (by decide +kernel)
  · constructor <;> decide

/-- A walk over a truncated blob is safe and over after at most two tokens. -/
theorem parser_walk_safe_truncated :
    ∃ p qs, Parser.init {} (Mem.ofBytes 4096 truncatedBlob) 4096 = .ok (.ok, p) ∧
      p.nexts ((Mem.ofBytes 4096 truncatedBlob).restrict p.struct p.structEnd) 5 = .ok qs ∧
      (qs.filter fun q => q.current ≠ .fdtEnd).length ≤ 2 := by
  have hread : (Mem.ofBytes 4096 truncatedBlob).Readable 4096 (4096 + 64) :=
    readable_ofBytes 4096 truncatedBlob
  obtain ⟨size, qs, hsize, -, -, hrun, -, -, hcount, -⟩ :=
    parser_walk_safe init_truncatedBlob hread 5
  have h8 : be32 (Mem.ofBytes 4096 truncatedBlob) (4096 + 36) = .ok 8 :=
    be32_of_holds (by decide) (by decide +kernel)
  obtain rfl : 8 = size := by simpa [h8] using hsize
  exact ⟨_, qs, init_truncatedBlob, hrun, hcount⟩

end Floss
