import Floss.Flatten

/-!
# Decoding a Flattened Tree

The parser undoes the flattened format. `AtItems` relates a parser state to the encoding
of the items still to come; each kind of token has one lemma about one turn of the token
loop, `nextLoop_atItem` is the induction over the encoding for one `next` call, and
`nexts_atItems` the induction over the items for a run of calls.

## Main results

* `next_atItem`: one `next` call on a flattened tree shows the next item and leaves the
  cursor at the rest;
* `parser_shows_tree`: **decode undoes encode**.
-/

namespace Floss

/-! ### What the parser shows -/

/-- The parser state shows an item: the current token and the data its accessors give. -/
def Item.ShownBy (m : Mem) : Item → Parser → Prop
  | .beginNode name, q => q.current = .beginNode ∧ StrAt m q.nodeName name
  | .endNode, q => q.current = .endNode
  | .prop p, q => q.current = .prop ∧ StrAt m q.propName p.name ∧
      Holds m q.propValue p.value ∧ q.propLen = p.value.length

/-- The number of open nodes after an item. -/
def Item.openAfter (d : ℕ) : Item → ℕ
  | .beginNode _ => d + 1
  | .endNode => d - 1
  | .prop _ => d

/-- Each item of a stream with the number of nodes open after it, from `d` open nodes. -/
def withDepth : ℕ → List Item → List (Item × ℕ)
  | _, [] => []
  | d, it :: is => (it, it.openAfter d) :: withDepth (it.openAfter d) is

/-- The parser stands at the encoding `bs` of the items `is`. The last field bounds the
depth counter: a node takes more bytes than the counter can grow by. -/
structure AtItems (m : Mem) (p : Parser) (is : List Item) (bs : List UInt8) : Prop where
  flat : Flattens m p.strings p.stringsSize is bs
  holds : Holds m p.pos bs
  len : p.pos + bs.length = p.structEnd
  aligned : p.pos % 4 = 0
  small : p.openNodes + bs.length < 2 ^ 32
  offsets : p.stringsSize ≤ 2 ^ 32
  valid : p.valid = true

/-- An item shown in place, inside a structure block: names are not at the null pointer,
and a property value is followed by at least one more readable byte. Even of an empty
value a word can be read. -/
structure Item.ReadBy (m : Mem) (it : Item) (q : Parser) : Prop where
  shown : it.ShownBy m q
  named : q.current = .beginNode → q.nodeName ≠ nullptr
  after : q.current = .prop → ∃ b, m (q.propValue + q.propLen) = some b
  word : q.current = .prop → ∃ v, be32 m q.propValue = .ok v

/-- What the next call does at the encoding of the items `is`: it shows the first and
leaves the cursor at the rest, or, when there is none, it is done. -/
def NextAt (m : Mem) (p q : Parser) : List Item → Prop
  | [] => q.token = .fdtEnd ∧ q.structEnd ≤ q.pos
  | it :: is => it.ReadBy m q ∧ q.depth = it.openAfter p.depth ∧ ∃ bs, AtItems m q is bs

namespace Parser

/-- The name scan finds the end of a string. -/
theorem scanName_of_strAt {m : Mem} {s : List UInt8} {left a : ℕ} (hs : StrAt m a s)
    (hlen : s.length < left) : scanName m left a = .ok (a + s.length) := by
  induction s generalizing left a with
  | nil =>
      obtain ⟨left, rfl⟩ : ∃ l, left = l + 1 := ⟨left - 1, by simp at hlen; omega⟩
      have h0 : m.load a = .ok 0 := Mem.load_eq_ok.mpr (strAt_nil.mp hs)
      simp [scanName, h0]
  | cons b s ih =>
      obtain ⟨left, rfl⟩ : ∃ l, left = l + 1 := ⟨left - 1, by simp at hlen; omega⟩
      obtain ⟨hb, hne, hs⟩ := strAt_cons.mp hs
      have hload : m.load a = .ok b := Mem.load_eq_ok.mpr hb
      simp only [List.length_cons] at hlen ⊢
      simp only [scanName, hload, ok_bind, ne_eq, hne, not_false_eq_true, if_true]
      rw [ih hs (by omega), show a + 1 + s.length = a + (s.length + 1) by omega]

/-! ### One turn at an encoded token -/

section Turns

variable {m : Mem} {p : Parser}

theorem nextTurn_nop (h4 : p.pos + 4 ≤ p.structEnd) (hraw : be32 m p.pos = .ok 4) :
    p.nextTurn m = .ok (.again { p with pos := p.pos + 4 }) := by
  simp [nextTurn, not_lt.mpr h4, hraw, Token.ofRaw]

theorem nextTurn_fdtEnd (h4 : p.pos + 4 ≤ p.structEnd) (hraw : be32 m p.pos = .ok 9) :
    p.nextTurn m = .ok (.ret p.finish) := by
  simp [nextTurn, not_lt.mpr h4, hraw, Token.ofRaw, finish]

theorem nextTurn_endNode (h4 : p.pos + 4 ≤ p.structEnd) (hraw : be32 m p.pos = .ok 2) :
    p.nextTurn m = .ok (.ret p.atEndNode) := by
  simp [nextTurn, not_lt.mpr h4, hraw, Token.ofRaw, atEndNode]

theorem nextTurn_beginNode {name : List UInt8} (hraw : be32 m p.pos = .ok 1)
    (hname : StrAt m (p.pos + 4) name) (hfit : p.pos + 4 + name.length < p.structEnd) :
    p.nextTurn m = .ok (.ret (p.atBeginNode (p.pos + 4 + name.length))) := by
  have h4 : ¬ p.structEnd < p.pos + 4 := by omega
  have hlen : name.length < p.structEnd - (p.pos + 4) := by omega
  have hscan := scanName_of_strAt hname hlen
  simp [nextTurn, h4, hraw, Token.ofRaw, hscan, not_le.mpr hfit, atBeginNode]

theorem nextTurn_prop {len off : ℕ} (hraw : be32 m p.pos = .ok 3)
    (hlen : be32 m (p.pos + 4) = .ok len) (hoff : be32 m (p.pos + 8) = .ok off)
    (hfit : p.pos + 12 + len ≤ p.structEnd) :
    p.nextTurn m = .ok (.ret (p.atProp len off)) := by
  have h4 : ¬ p.structEnd < p.pos + 4 := by omega
  have h8 : ¬ p.structEnd < p.pos + 12 := by omega
  simp [nextTurn, h4, hraw, Token.ofRaw, h8, hlen, hoff, not_lt.mpr hfit, atProp]

end Turns

/-! ### One call at an encoded item -/

/-- The bytes of a padded field and the aligned position after it. -/
theorem holds_pad4 {m : Mem} {a : ℕ} {xs bs : List UInt8} (ha : a % 4 = 0)
    (h : Holds m a (pad4 xs ++ bs)) :
    Holds m a xs ∧ Holds m (align4 (a + xs.length)) bs ∧
      align4 (a + xs.length) = a + (pad4 xs).length := by
  obtain ⟨h1, h2⟩ := holds_append.mp h
  have hpos : align4 (a + xs.length) = a + (pad4 xs).length := by
    rw [align4_eq, length_pad4]
    omega
  exact ⟨(holds_append.mp h1).1, hpos ▸ h2, hpos⟩

/-- A value is followed by a readable byte: padding, or the next token. -/
theorem readable_after_pad4 {m : Mem} {a : ℕ} {xs bs : List UInt8} (hbs : bs ≠ [])
    (h : Holds m a (pad4 xs ++ bs)) : ∃ b, m (a + xs.length) = some b := by
  simp only [pad4, List.append_assoc] at h
  refine (holds_append.mp h).2.readable_head ?_
  simp [hbs]

/-- The token loop at an encoded item. The induction is on the encoding; only `FDT_NOP`
goes round the loop. -/
theorem nextLoop_atItem {m : Mem} {p : Parser} {is : List Item} {bs : List UInt8} {fuel : ℕ}
    (h : AtItems m p is bs) (hfuel : bs.length / 4 < fuel) :
    ∃ q, nextLoop m fuel p = .ok q ∧ NextAt m p q is := by
  obtain ⟨hflat, hbytes, hlen, halign, hsmall, hoffs, hvalid⟩ := h
  obtain ⟨fuel, rfl⟩ : ∃ f, fuel = f + 1 := ⟨fuel - 1, by omega⟩
  generalize hstr : p.strings = strings at hflat
  generalize hsz : p.stringsSize = size at hflat
  induction hflat generalizing p fuel with
  | fdtEnd =>
      have hraw := be32_of_holds (by omega) hbytes
      have hturn := nextTurn_fdtEnd (by simp at hlen; omega) hraw
      exact ⟨p.finish, by simp [nextLoop, hturn], rfl, le_rfl⟩
  | @nop is bs hflat ih =>
      obtain ⟨hraw, hrest⟩ := holds_word (by omega) hbytes
      simp only [List.length_append, length_bytes32] at hlen hsmall hfuel
      have hturn := nextTurn_nop (by omega) hraw
      obtain ⟨f, rfl⟩ : ∃ f, fuel = f + 1 := ⟨fuel - 1, by omega⟩
      obtain ⟨q, hq, hat⟩ := ih (p := { p with pos := p.pos + 4 }) hrest
        (by simp only; omega) (by simp only; omega) (by simp only; omega) hoffs hvalid f
        (by omega) hstr hsz
      exact ⟨q, by rw [nextLoop, hturn]; exact hq, by cases is <;> exact hat⟩
  | @beginNode is bs name hname hflat ih =>
      obtain ⟨hraw, hrest⟩ := holds_word (by omega) hbytes
      obtain ⟨hstrAt, hnext, hpos⟩ := holds_pad4 (by omega) hrest
      have hlen' := length_pad4 (name ++ [0])
      simp only [List.length_append, length_bytes32, List.length_singleton, ← Nat.add_assoc]
        at hlen hsmall hfuel hlen' hnext hpos
      have hturn := nextTurn_beginNode hraw ⟨hstrAt, hname⟩ (by omega)
      refine ⟨p.atBeginNode (p.pos + 4 + name.length), by simp [nextLoop, hturn],
        ⟨⟨rfl, hstrAt, hname⟩, fun _ => ?_, by rintro ⟨⟩, by rintro ⟨⟩⟩, ?_,
        bs, ?_, hnext, ?_, ?_, ?_, hoffs, hvalid⟩
      · simp [nodeName, atBeginNode, nullptr]
      · simp only [depth, Item.openAfter, atBeginNode]
        omega
      · simpa [hstr, hsz, atBeginNode] using hflat
      · simp only [atBeginNode, hpos]
        omega
      · simp only [atBeginNode, align4_eq]
        omega
      · simp only [atBeginNode]
        omega
  | @endNode is bs hflat ih =>
      obtain ⟨hraw, hrest⟩ := holds_word (by omega) hbytes
      simp only [List.length_append, length_bytes32] at hlen hsmall
      have hturn := nextTurn_endNode (by omega) hraw
      refine ⟨p.atEndNode, by simp [nextLoop, hturn],
        ⟨rfl, by rintro ⟨⟩, by rintro ⟨⟩, by rintro ⟨⟩⟩, ?_,
        bs, ?_, hrest, ?_, ?_, ?_, hoffs, hvalid⟩
      · simp only [depth, Item.openAfter, atEndNode]
        split_ifs <;> omega
      · simpa [hstr, hsz, atEndNode] using hflat
      · simp only [atEndNode]
        omega
      · simp only [atEndNode]
        omega
      · simp only [atEndNode]
        split_ifs <;> omega
  | @prop is bs pr off hoff hname hflat ih =>
      have hlen' := length_pad4 pr.value
      simp only [List.length_append, length_bytes32] at hlen hsmall
      obtain ⟨hraw, hrest⟩ := holds_word (by omega) hbytes
      obtain ⟨hlenw, hrest⟩ := holds_word (by omega) hrest
      obtain ⟨hoffw, hrest⟩ := holds_word (by omega) hrest
      obtain ⟨hvalue, hnext, hpos⟩ := holds_pad4 (by omega) hrest
      obtain ⟨b, hb⟩ := readable_after_pad4 hflat.ne_nil hrest
      have hmore := hflat.length_le
      obtain ⟨v, hv⟩ := be32_isOk_of_holds hrest (by simp only [List.length_append]; omega)
      have hturn := nextTurn_prop hraw hlenw hoffw (by omega)
      refine ⟨p.atProp pr.value.length off, by simp [nextLoop, hturn],
        ⟨⟨rfl, ?_, hvalue, rfl⟩, by rintro ⟨⟩, fun _ => ⟨b, hb⟩, fun _ => ⟨v, hv⟩⟩, rfl,
        bs, ?_, hnext, ?_, ?_, ?_, hoffs, hvalid⟩
      · simpa [propName, atProp, hsz, hoff, hstr] using hname
      · simpa [hstr, hsz, atProp] using hflat
      · simp only [atProp]
        rw [show align4 (p.pos + 12 + pr.value.length) = _ from hpos]
        omega
      · simp only [atProp, align4_eq]
        omega
      · simp only [atProp]
        omega

/-- **One call** at the encoding of a stream of items. -/
theorem next_atItem {m : Mem} {p : Parser} {is : List Item} {bs : List UInt8}
    (h : AtItems m p is bs) : ∃ q, p.next m = .ok q ∧ NextAt m p q is := by
  have hlen := h.len
  have hne : 0 < bs.length := List.length_pos_iff.mpr h.flat.ne_nil
  have hnot : ¬ (¬ p.valid ∨ p.pos ≥ p.structEnd) := by
    simp only [h.valid, not_true_eq_false, false_or]
    omega
  rw [next, if_neg hnot]
  refine nextLoop_atItem h ?_
  rw [← hlen, Nat.add_sub_cancel_left]
  omega

/-- **A run of calls** at the encoding of a stream of items: the items, in order, each
with its depth, and then `fdtEnd`. The induction is on the items. -/
theorem nexts_atItems {m : Mem} {p : Parser} {is : List Item} {bs : List UInt8} (k : ℕ)
    (h : AtItems m p is bs) :
    ∃ qs es, p.nexts m (is.length + k) = .ok (qs ++ es) ∧
      List.Forall₂ (fun id q => id.1.ShownBy m q ∧ q.depth = id.2) (withDepth p.depth is) qs ∧
      es.length = k ∧ ∀ e ∈ es, e.current = .fdtEnd := by
  induction is generalizing p bs with
  | nil =>
      cases k with
      | zero => exact ⟨[], [], rfl, by simp [withDepth], rfl, by simp⟩
      | succ k =>
          obtain ⟨q, hq, htok, hend⟩ := next_atItem h
          refine ⟨[], q :: List.replicate k { q with token := .fdtEnd }, ?_, by simp [withDepth],
            by simp, ?_⟩
          · simp [nexts, hq, nexts_finished k hend]
          · intro e he
            rcases List.mem_cons.mp he with rfl | he
            · exact htok
            · rw [List.eq_of_mem_replicate he, current]
  | cons it is ih =>
      obtain ⟨q, hq, hread, hdepth, bs', hat⟩ := next_atItem h
      obtain ⟨qs, es, hqs, hall, hlen, hes⟩ := ih hat
      refine ⟨q :: qs, es, ?_, ?_, hlen, hes⟩
      · rw [List.length_cons, show is.length + 1 + k = is.length + k + 1 by omega]
        simp [nexts, hq, hqs]
      · rw [withDepth, ← hdepth]
        exact List.Forall₂.cons ⟨hread.shown, rfl⟩ hall

/-- An accepted flattened tree leaves the parser at its items. -/
theorem atItems_start {m : Mem} {fdt : ℕ} {h : Header} {t : DeviceTree}
    (ht : FlattenedAt m fdt h t) : ∃ bs, AtItems m (start fdt h) t.items bs := by
  obtain ⟨bs, hflat, hlen, hholds⟩ := ht.block
  have hsize := be32_lt ht.header.sizeDtStruct
  have hstrs := be32_lt ht.header.sizeDtStrings
  have hbase := ht.base
  have hoff := ht.offset
  refine ⟨bs, hflat, hholds, ?_, ?_, ?_, ?_, rfl⟩ <;> simp only [start] <;> omega

end Parser

/-- **Decode undoes encode.** On a flattened device tree `init` returns `ok`, and
successive `next` calls show exactly the preorder token sequence of the tree, each token
with its data and with the number of nodes open after it, and then `fdtEnd` on this and
every later call. -/
theorem parser_shows_tree {m : Mem} {fdt : ℕ} {h : Header} {t : DeviceTree}
    (ht : FlattenedAt m fdt h t) (p₀ : Parser) (k : ℕ) :
    ∃ p qs es, p₀.init m fdt = .ok (.ok, p) ∧
      p.nexts m (t.items.length + k) = .ok (qs ++ es) ∧
      List.Forall₂ (fun id q => id.1.ShownBy m q ∧ q.depth = id.2) (withDepth 0 t.items) qs ∧
      es.length = k ∧ ∀ e ∈ es, e.current = .fdtEnd := by
  obtain ⟨bs, hat⟩ := Parser.atItems_start ht
  obtain ⟨qs, es, hqs, hall, hlen, hes⟩ := Parser.nexts_atItems k hat
  exact ⟨Parser.start fdt h, qs, es,
    init_eq_ok_iff.mpr ⟨ht.notNull, h, ht.header, ht.consistent, rfl⟩, hqs, hall, hlen, hes⟩

/-- The blob of a board decodes to its tokens and then to `fdtEnd`. -/
theorem parser_shows_uartTree :
    ∃ p qs es, Parser.init {} (uartTree.imageAt 4096) 4096 = .ok (.ok, p) ∧
      p.nexts (uartTree.imageAt 4096) (uartTree.items.length + 2) = .ok (qs ++ es) ∧
      List.Forall₂ (fun id q => id.1.ShownBy (uartTree.imageAt 4096) q ∧ q.depth = id.2)
        (withDepth 0 uartTree.items) qs ∧
      es.length = 2 ∧ ∀ e ∈ es, e.current = .fdtEnd :=
  parser_shows_tree flattenedAt_uartTree {} 2

end Floss
