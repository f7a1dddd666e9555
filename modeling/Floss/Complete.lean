import Floss.FrameWalk

/-!
# What Status `ok` Means

`DeviceTree::Status` documents `malformed` as "invalid offsets, sizes, or truncated data",
but only `init` ever returns it. Each of the exits of `next` at which the scanner gives up
looks like a normal end to both passes, so after an accepted header nothing about the
structure block is reported.

`CompleteBlock` says, byte by byte, what a complete structure block is; every flattened
tree has one (`complete_of_flattened`). `ok_means_complete_iff` is the exact condition
under which status `ok` means that the block is complete: the header is rejected, or the
block is complete anyway.
-/

namespace Floss

section Block

variable (m : Mem) (structEnd : ℕ)

/-- From address `pos` the structure block closes all open nodes and then ends with
`FDT_END`: names and values lie inside the block, there are only known tokens, and nothing
but `FDT_NOP` stands between the end of the root and `FDT_END`. -/
inductive ClosesFrom : (openNodes pos : ℕ) → Prop
  | fdtEnd {pos} (hfit : pos + 4 ≤ structEnd) (htok : be32 m pos = .ok 9) : ClosesFrom 0 pos
  | nop {n pos} (hfit : pos + 4 ≤ structEnd) (htok : be32 m pos = .ok 4)
      (h : ClosesFrom n (pos + 4)) : ClosesFrom n pos
  | beginNode {n pos name} (htok : be32 m pos = .ok 1) (hname : StrAt m (pos + 4) name)
      (hfit : pos + 4 + name.length < structEnd)
      (h : ClosesFrom (n + 2) (align4 (pos + 4 + name.length + 1))) : ClosesFrom (n + 1) pos
  | endNode {n pos} (hfit : pos + 4 ≤ structEnd) (htok : be32 m pos = .ok 2)
      (h : ClosesFrom n (pos + 4)) : ClosesFrom (n + 1) pos
  | prop {n pos len nameoff} (htok : be32 m pos = .ok 3) (hlen : be32 m (pos + 4) = .ok len)
      (hnameoff : be32 m (pos + 8) = .ok nameoff) (hfit : pos + 12 + len ≤ structEnd)
      (h : ClosesFrom (n + 1) (align4 (pos + 12 + len))) : ClosesFrom (n + 1) pos

/-- From address `pos` the structure block is complete: the root begins, after any number of
`FDT_NOP`, and everything is closed. -/
inductive CompleteBlock : (pos : ℕ) → Prop
  | nop {pos} (hfit : pos + 4 ≤ structEnd) (htok : be32 m pos = .ok 4)
      (h : CompleteBlock (pos + 4)) : CompleteBlock pos
  | root {pos name} (htok : be32 m pos = .ok 1) (hname : StrAt m (pos + 4) name)
      (hfit : pos + 4 + name.length < structEnd)
      (h : ClosesFrom m structEnd 1 (align4 (pos + 4 + name.length + 1))) : CompleteBlock pos

end Block

/-- Whatever closes the open nodes takes at least one more token. -/
theorem ClosesFrom.fits {m : Mem} {structEnd n pos : ℕ} (h : ClosesFrom m structEnd n pos) :
    pos + 4 ≤ structEnd := by
  cases h with
  | fdtEnd hfit _ | nop hfit _ _ | endNode hfit _ _ => exact hfit
  | beginNode _ _ hfit _ | prop _ _ _ hfit _ => omega

/-- The blob at `fdt` has a complete structure block. -/
def Complete (m : Mem) (fdt : ℕ) : Prop :=
  ∃ h, HeaderAt m fdt h ∧
    CompleteBlock m (fdt + h.offDtStruct + h.sizeDtStruct) (fdt + h.offDtStruct)

/-- The header of the blob at `fdt` is one that `init` accepts. -/
def HeaderAccepted (m : Mem) (fdt : ℕ) : Prop :=
  fdt ≠ nullptr ∧ ∃ h, HeaderAt m fdt h ∧ h.Consistent

/-! ### Flattened trees are complete -/

/-- What a stream of items does to the number of open nodes: it closes `n` of them, one by
one, and never more. -/
inductive Closes : ℕ → List Item → Prop
  | nil : Closes 0 []
  | beginNode {n name is} (h : Closes (n + 2) is) : Closes (n + 1) (.beginNode name :: is)
  | endNode {n is} (h : Closes n is) : Closes (n + 1) (.endNode :: is)
  | prop {n p is} (h : Closes (n + 1) is) : Closes (n + 1) (.prop p :: is)

theorem closes_props {n : ℕ} {ps : List Property} {is : List Item} (h : Closes (n + 1) is) :
    Closes (n + 1) (ps.map .prop ++ is) := by
  induction ps with
  | nil => exact h
  | cons p ps ih => exact .prop ih

/-- The tokens of a forest leave the open nodes as they are. -/
theorem closes_tokens {f : Forest Node} {n : ℕ} {is : List Item} (h : Closes (n + 1) is) :
    Closes (n + 1) (f.tokens Node.opening Node.closing ++ is) := by
  induction f generalizing n is with
  | nil => exact h
  | cons a children rest ihc ihr =>
      simp only [Forest.tokens, Node.opening, Node.closing, List.append_assoc, List.cons_append,
        List.nil_append]
      exact .beginNode (closes_props (ihc (.endNode (ihr h))))

/-- The encoding of a stream of items closes what the stream closes. -/
theorem closesFrom_of_flattens {m : Mem} {strings size pos structEnd n : ℕ} {is : List Item}
    {bs : List UInt8} (hflat : Flattens m strings size is bs) (hholds : Holds m pos bs)
    (hlen : pos + bs.length ≤ structEnd) (halign : pos % 4 = 0) (hsmall : bs.length < 2 ^ 32)
    (hsize : size ≤ 2 ^ 32) (hcloses : Closes n is) : ClosesFrom m structEnd n pos := by
  induction hflat generalizing pos n with
  | fdtEnd =>
      cases hcloses
      exact .fdtEnd (by simpa using hlen) (be32_of_holds (by decide) hholds)
  | nop hflat ih =>
      obtain ⟨htok, hrest⟩ := holds_word (by decide) hholds
      simp only [List.length_append, length_bytes32] at hlen hsmall
      exact .nop (by omega) htok (ih hrest (by omega) (by omega) (by omega) hcloses)
  | beginNode name hname hflat ih =>
      cases hcloses with
      | beginNode hcloses =>
          obtain ⟨htok, hrest⟩ := holds_word (by decide) hholds
          obtain ⟨hstr, hrest, hpos⟩ := Parser.holds_pad4 (by omega) hrest
          have hpad := length_pad4 (name ++ [0])
          simp only [List.length_append, length_bytes32, List.length_singleton,
            ← Nat.add_assoc] at hlen hsmall hpad hrest hpos
          refine .beginNode htok ⟨hstr, hname⟩ (by omega)
            (ih hrest (by omega) ?_ (by omega) hcloses)
          rw [align4_eq]
          omega
  | endNode hflat ih =>
      cases hcloses with
      | endNode hcloses =>
          obtain ⟨htok, hrest⟩ := holds_word (by decide) hholds
          simp only [List.length_append, length_bytes32] at hlen hsmall
          exact .endNode (by omega) htok (ih hrest (by omega) (by omega) (by omega) hcloses)
  | prop p off hoff hname hflat ih =>
      cases hcloses with
      | prop hcloses =>
          have hpad := length_pad4 p.value
          simp only [List.length_append, length_bytes32] at hlen hsmall
          obtain ⟨htok, hrest⟩ := holds_word (by decide) hholds
          obtain ⟨hlenw, hrest⟩ := holds_word (by omega) hrest
          obtain ⟨hoffw, hrest⟩ := holds_word (by omega) hrest
          obtain ⟨-, hrest, hpos⟩ := Parser.holds_pad4 (by omega) hrest
          refine .prop htok hlenw hoffw (by omega) (ih hrest ?_ ?_ (by omega) hcloses)
          · rw [hpos]
            omega
          · rw [align4_eq]
            omega

/-- The encoding of a root and what closes it is a complete block. Only `FDT_NOP` can stand
before the root. -/
theorem completeBlock_of_flattens {m : Mem} {strings size pos structEnd : ℕ}
    {name : List UInt8} {is : List Item} {bs : List UInt8}
    (hflat : Flattens m strings size (.beginNode name :: is) bs) (hholds : Holds m pos bs)
    (hlen : pos + bs.length ≤ structEnd) (halign : pos % 4 = 0) (hsmall : bs.length < 2 ^ 32)
    (hsize : size ≤ 2 ^ 32) (hcloses : Closes 1 is) : CompleteBlock m structEnd pos := by
  generalize hits : Item.beginNode name :: is = its at hflat
  induction hflat generalizing pos with
  | nop hflat ih =>
      obtain ⟨htok, hrest⟩ := holds_word (by decide) hholds
      simp only [List.length_append, length_bytes32] at hlen hsmall
      exact .nop (by omega) htok (ih hrest (by omega) (by omega) (by omega) hits)
  | beginNode name' hname hflat ih =>
      obtain ⟨rfl, rfl⟩ := by simpa using hits
      obtain ⟨htok, hrest⟩ := holds_word (by decide) hholds
      obtain ⟨hstr, hrest, hpos⟩ := Parser.holds_pad4 (by omega) hrest
      have hpad := length_pad4 (name ++ [0])
      simp only [List.length_append, length_bytes32, List.length_singleton,
        ← Nat.add_assoc] at hlen hsmall hpad hrest hpos
      refine .root htok ⟨hstr, hname⟩ (by omega)
        (closesFrom_of_flattens hflat hrest (by omega) ?_ (by omega) hsize hcloses)
      rw [align4_eq]
      omega
  | fdtEnd | endNode | prop => simp at hits

/-- **Every flattened tree is complete.** -/
theorem complete_of_flattened {m : Mem} {fdt : ℕ} {h : Header} {t : DeviceTree}
    (ht : FlattenedAt m fdt h t) : Complete m fdt := by
  obtain ⟨bs, hflat, hlen, hholds⟩ := ht.block
  have hsmall := be32_lt ht.header.sizeDtStruct
  have hsize := be32_lt ht.header.sizeDtStrings
  have hbase := ht.base
  have hoff := ht.offset
  have hcloses : Closes 1 (t.props.map .prop ++
      (t.children.tokens Node.opening Node.closing ++ [.endNode])) :=
    closes_props (closes_tokens (.endNode .nil))
  have hitems : t.items = .beginNode [] :: (t.props.map .prop ++
      (t.children.tokens Node.opening Node.closing ++ [.endNode])) := by
    simp [DeviceTree.items, DeviceTree.forest, Forest.tokens, Node.opening, Node.closing,
      DeviceTree.root]
  rw [hitems] at hflat
  exact ⟨h, ht.header, completeBlock_of_flattens hflat hholds (by omega) (by omega) (by omega)
    hsize.le hcloses⟩

/-! ### The status of the two passes -/

/-- `init` returns `ok` exactly on accepted headers. -/
theorem init_status {p q : Parser} {m : Mem} {fdt : ℕ} {st : Status}
    (h : p.init m fdt = .ok (st, q)) : st = .ok ↔ HeaderAccepted m fdt := by
  constructor
  · rintro rfl
    obtain ⟨hnull, hd, hh, hc, -⟩ := init_eq_ok_iff.mp h
    exact ⟨hnull, hd, hh, hc⟩
  · rintro ⟨hnull, hd, hh, hc⟩
    have hok : p.init m fdt = .ok (.ok, .start fdt hd) :=
      init_eq_ok_iff.mpr ⟨hnull, hd, hh, hc, rfl⟩
    rw [h] at hok
    simp only [Except.ok.injEq, Prod.mk.injEq] at hok
    exact hok.1

/-- The status of a pass is decided by the header alone. -/
theorem walkBlob_status {σ : Type} {m : Mem} {fdt : ℕ} {body : σ → Parser → Exec σ} {s r : σ}
    {st : Status} (h : walkBlob m fdt body s = .ok (st, r)) :
    st = .ok ↔ HeaderAccepted m fdt := by
  simp only [walkBlob, bind_eq_ok, Prod.exists] at h
  obtain ⟨ist, dtp, hinit, h⟩ := h
  rw [← init_status hinit]
  split_ifs at h with hne
  · obtain ⟨rfl, -⟩ : ist = st ∧ s = r := by simpa using h
    exact Iff.rfl
  · simp only [bind_eq_ok, pure_eq_ok, Except.ok.injEq, Prod.mk.injEq] at h
    obtain ⟨_, _, rfl, rfl⟩ := h
    simpa using hne

/-- **The status is decided by the header alone**: once both passes return, it is `ok`
exactly if the header is accepted. -/
theorem parseFrames_status {σ : Type} {m : Mem} {fdt : ℕ} {garbage garbage' : ℕ → NodeFrame}
    {onNode : PhandleTable → σ → HandlerCall → Exec σ} {table : PhandleTable} {s : σ}
    {st : Status} {r : PhandleTable × σ}
    (h : parseFrames m fdt garbage garbage' onNode table s = .ok (st, r)) :
    st = .ok ↔ HeaderAccepted m fdt := by
  simp only [parseFrames, parseFramesPhandle, bind_eq_ok, pure_eq_ok, Except.ok.injEq,
    Prod.mk.injEq, Prod.exists] at h
  obtain ⟨st₁, table₁, ⟨st₂, pf, filled, hwalk, rfl, rfl⟩, h⟩ := h
  have hfirst := walkBlob_status hwalk
  by_cases hok : st₂ = .ok
  · simp only [hok, ne_eq, not_true_eq_false, if_false, parseFramesFull, bind_eq_ok,
      pure_eq_ok, Except.ok.injEq, Prod.mk.injEq, Prod.exists] at h
    obtain ⟨st₃, s₃, ⟨st₄, pf', s₄, hwalk', rfl, rfl⟩, rfl, -⟩ := h
    exact walkBlob_status hwalk'
  · obtain ⟨rfl, -⟩ : st₂ = st ∧ _ = r := by simpa [hok] using h
    exact hfirst

/-- What the documentation of `Status` promises about a blob: `ok` means that the structure
block is complete, and a block that is not complete is reported as `malformed`. -/
structure ReportsTruncation {σ : Type} (m : Mem) (fdt : ℕ)
    (run : Exec (Status × PhandleTable × σ)) : Prop where
  ok : ∀ r, run = .ok (.ok, r) → Complete m fdt
  malformed : HeaderAccepted m fdt → ¬ Complete m fdt → ∃ r, run = .ok (.malformed, r)

/-- **Truncation is never reported.** The promise is kept exactly on the blobs that give
nothing to report: those whose header is rejected and those that are complete. -/
theorem ok_means_complete_iff {σ : Type} (m : Mem) (fdt : ℕ) (garbage garbage' : ℕ → NodeFrame)
    (onNode : PhandleTable → σ → HandlerCall → Exec σ) (table : PhandleTable) (s : σ) :
    ReportsTruncation m fdt (parseFrames m fdt garbage garbage' onNode table s) ↔
      ¬ HeaderAccepted m fdt ∨ Complete m fdt := by
  constructor
  · intro hrep
    by_contra hne
    obtain ⟨hacc, hcomplete⟩ := not_or.mp hne
    obtain ⟨r, hr⟩ := hrep.malformed (not_not.mp hacc) hcomplete
    exact absurd ((parseFrames_status hr).mpr (not_not.mp hacc)) (by decide)
  · rintro (hrej | hcomplete)
    · exact ⟨fun r hr => absurd ((parseFrames_status hr).mp rfl) hrej,
        fun hacc => absurd hacc hrej⟩
    · exact ⟨fun _ _ => hcomplete, fun _ hn => absurd hcomplete hn⟩

/-- A blob whose structure block is cut off right after the root has begun. -/
def openRootBlob : List UInt8 :=
  [fdtMagic, 64, 56, 64, 40, 17, 16, 0, 0, 8].flatMap bytes32 ++ List.replicate 16 0 ++
    (bytes32 1 ++ [0, 0, 0, 0])

/-- **A truncated blob is reported as `ok`.** -/
theorem openRootBlob_is_ok :
    (∃ r, parseFrames (Mem.ofBytes 4096 openRootBlob) 4096 zeroedFrames zeroedFrames
      (fun _ s _ => .ok s) {} () = .ok (.ok, r)) ∧
    ¬ Complete (Mem.ofBytes 4096 openRootBlob) 4096 ∧
    ¬ ReportsTruncation (Mem.ofBytes 4096 openRootBlob) 4096
      (parseFrames (Mem.ofBytes 4096 openRootBlob) 4096 zeroedFrames zeroedFrames
        (fun _ s _ => .ok s) {} ()) := by
  have hrun : ∃ r, parseFrames (Mem.ofBytes 4096 openRootBlob) 4096 zeroedFrames zeroedFrames
      (fun _ s _ => .ok s) {} () = .ok (.ok, r) := ⟨_, rfl⟩
  have hopen : ¬ Complete (Mem.ofBytes 4096 openRootBlob) 4096 := by
    rintro ⟨h, hh, hblock⟩
    have hoff : be32 (Mem.ofBytes 4096 openRootBlob) (4096 + 8) = .ok 56 := rfl
    have hsize : be32 (Mem.ofBytes 4096 openRootBlob) (4096 + 36) = .ok 8 := rfl
    have htok : be32 (Mem.ofBytes 4096 openRootBlob) (4096 + 56) = .ok 1 := rfl
    obtain hoff : 56 = h.offDtStruct := by simpa [hoff] using hh.offDtStruct
    obtain hsize : 8 = h.sizeDtStruct := by simpa [hsize] using hh.sizeDtStruct
    rw [← hoff, ← hsize] at hblock
    cases hblock with
    | nop _ hnop _ => simp [htok] at hnop
    | root _ _ hfit hcloses =>
        have hin := hcloses.fits
        rw [align4_eq] at hin
        omega
  obtain ⟨r, hr⟩ := hrun
  exact ⟨⟨r, hr⟩, hopen, fun hrep => hopen (hrep.ok r hr)⟩

end Floss
