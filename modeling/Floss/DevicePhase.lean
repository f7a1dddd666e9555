import Floss.DeviceOps
import Floss.RamPhase

/-!
# The Device Phase

What the tables hold while devices are mapped. `DevShape` describes them as long as no level 2
slot mixes a block and pages. On top of what the RAM phase left, it says which level 1 entries
were pointed to their level 2 table (`T`), which level 2 entries were marked as blocks (`D`),
which level 2 entries have a level 3 table, and which one (`tbl`), and which pages are mapped
there (`P`). `DevShape.mapDeviceL2Block` and `DevShape.mapDeviceL3Page` take it across one
operation.

A run of operations that keeps blocks and pages apart (`Apart`) therefore leaves exactly the
entries of its operations (`devRun_of_foldlM`).
-/

namespace Floss

/-! ### Descriptors -/

/-- The attribute bits of a block of Device memory. -/
def deviceAttrs : ℕ := 0x60000000000401

/-- A block descriptor for Device memory. -/
def blockDevice (offset : ℕ) : ℕ := deviceAttrs ||| offset

/-- A page descriptor for Device memory. -/
def pageDevice (offset : ℕ) : ℕ := 0x60000000000403 ||| offset

theorem blockDevice_eq {x : ℕ} (h : Fits x 0x401) :
    blockDevice x = descriptor 96 x 0x401 := by
  have hattrs : deviceAttrs = 96 * 2 ^ 48 + 0x401 := by decide
  rw [blockDevice, hattrs]
  exact or_eq_descriptor 96 h

theorem pageDevice_eq {x : ℕ} (h : Fits x 0x403) :
    pageDevice x = descriptor 96 x 0x403 := by
  have hattrs : 0x60000000000403 = 96 * 2 ^ 48 + 0x403 := by decide
  rw [pageDevice, hattrs]
  exact or_eq_descriptor 96 h

/-- An entry is valid if its lowest bit is set. -/
theorem pteIsValid_eq (x : ℕ) : pteIsValid x = x.testBit 0 := by
  rw [pteIsValid, Nat.and_one_is_mod, Nat.testBit_zero]
  simp

section Bits

variable (x : ℕ)

@[simp] theorem testBit_zero_tableDesc : (tableDesc x).testBit 0 = true := by
  simp [tableDesc, pteTableType]

@[simp] theorem testBit_zero_blockNormal : (blockNormal x).testBit 0 = true := by
  simp [blockNormal, normalAttrs]

@[simp] theorem testBit_zero_blockDevice : (blockDevice x).testBit 0 = true := by
  simp [blockDevice, deviceAttrs]

end Bits

/-- The address of a table is read back from its descriptor. -/
theorem tableDesc_and_mask {x : ℕ} (h : Fits x 3) : tableDesc x &&& pteAddrMask = x := by
  have hmask : pteAddrMask = (2 ^ 36 - 1) <<< 12 := by decide
  refine Nat.eq_of_testBit_eq fun i => ?_
  rw [tableDesc, hmask]
  simp only [Nat.testBit_and, Nat.testBit_or, Nat.testBit_shiftLeft,
    Nat.testBit_two_pow_sub_one]
  by_cases hi : i < 12 ∨ 48 ≤ i
  · simp [h.testBit_eq_false hi]
    omega
  · have htype : pteTableType.testBit i = false :=
      Nat.testBit_lt_two_pow (lt_of_lt_of_le (by decide : pteTableType < 2 ^ 12)
        (Nat.pow_le_pow_right (by decide) (by omega)))
    simp [htype, show 12 ≤ i by omega, show i - 12 < 36 by omega]

/-! ### Code steps -/

section Steps

variable {L : Layout} {s s' : Tables}

/-- Take a level 3 table and write an entry. -/
def Tables.alloc (s : Tables) (a x : ℕ) : Tables :=
  ⟨Function.update s.word a x, s.numL3 + 1⟩

@[simp] theorem Tables.numL3_alloc (a x : ℕ) : (s.alloc a x).numL3 = s.numL3 + 1 := rfl

theorem Tables.word_alloc_self (a x : ℕ) : (s.alloc a x).word a = x := by
  simp [Tables.alloc]

theorem Tables.word_alloc_of_ne {a b : ℕ} (x : ℕ) (h : b ≠ a) :
    (s.alloc a x).word b = s.word b := by
  simp [Tables.alloc, h]

/-- `ensure_l2_page_table` leaves a valid entry and sets an invalid one. -/
theorem ensureL2PageTable_cases {k : ℕ} (h : ensureL2PageTable L s k = .ok s') :
    k < 512 ∧
      (((s.word (L.l1 + 8 * k)).testBit 0 = true ∧ s' = s) ∨
        ((s.word (L.l1 + 8 * k)).testBit 0 = false ∧
          s' = s.or (L.l1 + 8 * k) (tableDesc (L.l2 + 8 * (512 * k))))) := by
  simp only [ensureL2PageTable, TableRef.entry, Layout.l1Table, bind_eq_ok, inBounds_eq_ok,
    pure_eq_ok, Except.ok.injEq, pteIsValid_eq] at h
  obtain ⟨a, ⟨-, hk, rfl⟩, h⟩ := h
  refine ⟨hk, ?_⟩
  cases hvalid : (s.word (L.l1 + 8 * k)).testBit 0 with
  | true =>
      rw [if_pos hvalid] at h
      exact .inl ⟨rfl, (Except.ok.inj h).symm⟩
  | false =>
      rw [if_neg (by simp [hvalid])] at h
      exact .inr ⟨rfl, (pointToL2_eq_ok h).2⟩

/-- `ensure_l3_page_table` returns the address in a valid entry, and makes an invalid entry
point to the next free table. -/
theorem ensureL3PageTable_cases {k j ptr : ℕ} (h : ensureL3PageTable L s k j = .ok (ptr, s')) :
    ∃ t, ensureL2PageTable L s k = .ok t ∧ j < 512 * 512 ∧
      (((t.word (L.l2 + 8 * j)).testBit 0 = true ∧ ptr = t.word (L.l2 + 8 * j) &&& pteAddrMask ∧
          s' = t) ∨
        ((t.word (L.l2 + 8 * j)).testBit 0 = false ∧ t.numL3 < 32 ∧
          ptr = L.l3 + 8 * (512 * t.numL3) ∧
          s' = t.alloc (L.l2 + 8 * j) (tableDesc ptr))) := by
  simp only [ensureL3PageTable, TableRef.entry, Layout.l2Table, bind_eq_ok, inBounds_eq_ok,
    pure_eq_ok, Except.ok.injEq, pteIsValid_eq] at h
  obtain ⟨t, ht, a, ⟨-, hj, rfl⟩, h⟩ := h
  refine ⟨t, ht, hj, ?_⟩
  cases hvalid : (t.word (L.l2 + 8 * j)).testBit 0 with
  | true =>
      rw [if_pos hvalid] at h
      obtain ⟨rfl, rfl⟩ := Prod.mk.inj (Except.ok.inj h)
      exact .inl ⟨rfl, rfl, rfl⟩
  | false =>
      rw [if_neg (by simp [hvalid])] at h
      simp only [allocateL3PageTable, bind_eq_ok, kassert_eq_ok, Except.ok.injEq] at h
      obtain ⟨⟨p, u⟩, ⟨-, hnum, hp⟩, h⟩ := h
      obtain ⟨rfl, rfl⟩ := Prod.mk.inj (Except.ok.inj hp)
      obtain ⟨rfl, rfl⟩ := Prod.mk.inj h
      refine .inr ⟨rfl, hnum, rfl, ?_⟩
      rw [Tables.alloc, tableDesc, Nat.or_comm]

/-- Mapping a block sets the bits of its descriptor. -/
theorem mapDeviceL2Block_cases {a : ℕ} (h : mapDeviceL2Block L s a = .ok s') :
    a % l2EntrySize = 0 ∧ a / l2EntrySize < 512 * 512 ∧
      ∃ t, ensureL2PageTable L s (a / l1EntrySize) = .ok t ∧
        s' = t.or (L.l2 + 8 * (a / l2EntrySize)) (blockDevice a) := by
  simp only [mapDeviceL2Block, pteMarkAsBlockDescriptorDevice, ptePointToOffset, pteSetMairAttr,
    bind_eq_ok, pteOr_eq_ok, kassert_eq_ok] at h
  obtain ⟨-, haligned, t, ht, -, ⟨hj, rfl⟩, -, ⟨-, -, -, rfl⟩, -, -, -, rfl⟩ := h
  refine ⟨haligned, hj, t, ht, ?_⟩
  simp only [Layout.l2Table, Tables.or_or, blockDevice]
  rw [Nat.or_assoc, Nat.or_comm a, ← Nat.or_assoc]
  rfl

/-- Mapping a page sets the bits of its descriptor in the table found for it. -/
theorem mapDeviceL3Page_cases {a : ℕ} (h : mapDeviceL3Page L s a = .ok s') :
    a % l3EntrySize = 0 ∧
      ∃ ptr t, ensureL3PageTable L s (a / l1EntrySize) (a / l2EntrySize) = .ok (ptr, t) ∧
        s' = t.or (ptr + 8 * (a % l2EntrySize / l3EntrySize)) (pageDevice a) := by
  simp only [mapDeviceL3Page, pteMarkAsPageDescriptorDevice, ptePointToOffset, pteSetMairAttr,
    bind_eq_ok, pteOr_eq_ok, kassert_eq_ok] at h
  obtain ⟨-, haligned, ⟨ptr, t⟩, ht, -, ⟨-, rfl⟩, -, ⟨-, -, -, rfl⟩, -, -, -, rfl⟩ := h
  refine ⟨haligned, ptr, t, ht, ?_⟩
  simp only [Tables.or_or, pageDevice]
  rw [Nat.or_assoc, Nat.or_comm a, ← Nat.or_assoc]
  rfl

end Steps

/-! ### The tables -/

/-- The tables during the device phase, after a RAM phase that left `A`, `B` and `C`: the level
1 entries in `T` point to their level 2 table, the level 2 entries in `D` are blocks of Device
memory, `tbl` gives the level 3 table of a level 2 entry, and the pages in `P` are mapped. -/
structure DevShape (L : Layout) (s : Tables) (A B C T D P : ℕ → Bool) (tbl : ℕ → Option ℕ) :
    Prop where
  l0 : s.word L.l0 = tableDesc L.l1
  l1 : ∀ k, k < 512 → s.word (L.l1 + 8 * k) =
    if A k || B k then
      (if A k then blockNormal (k * l1EntrySize) else 0) |||
        (if B k then tableDesc (L.l2 + 8 * (512 * k)) else 0)
    else if T k then tableDesc (L.l2 + 8 * (512 * k)) else 0
  l2table : ∀ j t, j < 512 * 512 → tbl j = some t →
    s.word (L.l2 + 8 * j) = tableDesc (L.l3 + 8 * (512 * t))
  l2block : ∀ j, j < 512 * 512 → tbl j = none → s.word (L.l2 + 8 * j) =
    (if C j then blockNormal (j * l2EntrySize) else 0) |||
      (if D j then blockDevice (j * l2EntrySize) else 0)
  l3 : ∀ j t i, tbl j = some t → i < 512 → s.word (L.l3 + 8 * (512 * t + i)) =
    if P (512 * j + i) then pageDevice ((512 * j + i) * l3EntrySize) else 0
  free : ∀ t i, s.numL3 ≤ t → t < 32 → i < 512 → s.word (L.l3 + 8 * (512 * t + i)) = 0
  used : ∀ j t, tbl j = some t → t < s.numL3
  inj : ∀ i j t, tbl i = some t → tbl j = some t → i = j
  cap : s.numL3 ≤ 32
  pages : ∀ p, P p = true → (tbl (p / 512)).isSome

/-- After the RAM phase no device is mapped. -/
theorem RamShape.devShape {L : Layout} {s₀ s : Tables} {A B C : ℕ → Bool}
    (h : RamShape L s₀ s A B C) :
    DevShape L s A B C (fun _ => false) (fun _ => false) (fun _ => false) (fun _ => none) where
  l0 := h.l0
  l1 k hk := by
    rw [h.l1 k hk]
    cases A k <;> cases B k <;> simp
  l2table _ _ _ ht := nomatch ht
  l2block j hj _ := by simpa using h.l2 j hj
  l3 _ _ _ ht := nomatch ht
  free t i _ ht hi := h.l3 (512 * t + i) (by omega)
  used _ _ ht := nomatch ht
  inj _ _ _ ht := nomatch ht
  cap := by simp [h.numL3]
  pages _ hp := nomatch hp

namespace DevShape

variable {L : Layout} {s s' : Tables} {A B C T D P : ℕ → Bool} {tbl : ℕ → Option ℕ}

/-- The tables in use are among the 32 there are. -/
theorem table_lt (h : DevShape L s A B C T D P tbl) {j t : ℕ} (ht : tbl j = some t) : t < 32 :=
  lt_of_lt_of_le (h.used j t ht) h.cap

/-- Which level 1 entries are valid. -/
theorem valid_l1 (h : DevShape L s A B C T D P tbl) {k : ℕ} (hk : k < 512) :
    (s.word (L.l1 + 8 * k)).testBit 0 = (A k || B k || T k) := by
  rw [h.l1 k hk]
  cases A k <;> cases B k <;> cases T k <;> simp [-Nat.testBit_zero]

/-- Which level 2 entries are valid. -/
theorem valid_l2 (h : DevShape L s A B C T D P tbl) {j : ℕ} (hj : j < 512 * 512) :
    (s.word (L.l2 + 8 * j)).testBit 0 = ((tbl j).isSome || C j || D j) := by
  cases ht : tbl j with
  | some t =>
      rw [h.l2table j t hj ht]
      simp [-Nat.testBit_zero]
  | none =>
      rw [h.l2block j hj ht]
      cases C j <;> cases D j <;> simp [-Nat.testBit_zero]

/-- Making sure of a level 2 table. -/
theorem ensureL2PageTable (h : DevShape L s A B C T D P tbl) {k : ℕ}
    (hrun : ensureL2PageTable L s k = .ok s') :
    DevShape L s' A B C (fun i => T i || i == k) D P tbl := by
  obtain ⟨hk, hcases⟩ := ensureL2PageTable_cases hrun
  have hword := h.l1 k hk
  rw [h.valid_l1 hk] at hcases
  rcases hcases with ⟨hvalid, rfl⟩ | ⟨hvalid, rfl⟩
  · refine { h with l1 := ?_ }
    intro i hi
    by_cases hik : i = k
    · subst hik
      -- a valid entry was set by the RAM phase or is in `T` already
      rw [hword]
      cases hA : A i <;> cases hB : B i <;> simp_all
    · simpa [hik] using h.l1 i hi
  · simp only [Bool.or_eq_false_iff] at hvalid
    obtain ⟨⟨hA, hB⟩, hT⟩ := hvalid
    have hzero : s.word (L.l1 + 8 * k) = 0 := by simpa [hA, hB, hT] using hword
    refine { h with l0 := ?_, l1 := ?_, l2table := ?_, l2block := ?_, l3 := ?_, free := ?_ }
    · have hne := L.l0_ne_l1 (i := 0) (by decide) hk
      rw [Tables.word_or_of_ne _ (by simpa using hne)]
      exact h.l0
    · intro i hi
      by_cases hik : i = k
      · rw [hik, Tables.word_or_self, hzero]
        simp [hA, hB]
      · rw [Tables.word_or_of_ne _ (by omega)]
        simpa [hik] using h.l1 i hi
    · intro j t hj ht
      rw [Tables.word_or_of_ne _ (L.l1_ne_l2 hk hj).symm]
      exact h.l2table j t hj ht
    · intro j hj ht
      rw [Tables.word_or_of_ne _ (L.l1_ne_l2 hk hj).symm]
      exact h.l2block j hj ht
    · intro j t i ht hi
      have ht' := h.table_lt ht
      rw [Tables.word_or_of_ne _ (L.l1_ne_l3 hk (by omega)).symm]
      exact h.l3 j t i ht hi
    · intro t i ht ht' hi
      rw [Tables.word_or_of_ne _ (L.l1_ne_l3 hk (by omega)).symm]
      exact h.free t i ht ht' hi

/-- Marking a level 2 entry that has no level 3 table as a block. -/
theorem mapDeviceL2Block (h : DevShape L s A B C T D P tbl) {a : ℕ}
    (hnone : tbl (a / l2EntrySize) = none) (hrun : mapDeviceL2Block L s a = .ok s') :
    DevShape L s' A B C (fun k => T k || k == a / l1EntrySize)
      (fun j => D j || j == a / l2EntrySize) P tbl := by
  obtain ⟨haligned, hj, t, ht, rfl⟩ := mapDeviceL2Block_cases hrun
  have h' := h.ensureL2PageTable ht
  have ha : a / l2EntrySize * l2EntrySize = a :=
    Nat.div_mul_cancel (Nat.dvd_of_mod_eq_zero haligned)
  refine { h' with l0 := ?_, l1 := ?_, l2table := ?_, l2block := ?_, l3 := ?_, free := ?_ }
  · have hne := L.l0_ne_l2 (i := 0) (by decide) hj
    rw [Tables.word_or_of_ne _ (by simpa using hne)]
    exact h'.l0
  · intro k hk
    rw [Tables.word_or_of_ne _ (L.l1_ne_l2 hk hj)]
    exact h'.l1 k hk
  · intro i t hi ht
    have hne : i ≠ a / l2EntrySize := by
      rintro rfl
      rw [hnone] at ht
      exact (nomatch ht)
    rw [Tables.word_or_of_ne _ (by omega)]
    exact h'.l2table i t hi ht
  · intro i hi ht
    by_cases hij : i = a / l2EntrySize
    · subst hij
      rw [Tables.word_or_self, h'.l2block _ hj ht, ha]
      cases C (a / l2EntrySize) <;> cases D (a / l2EntrySize) <;> simp
    · rw [Tables.word_or_of_ne _ (by omega)]
      simpa [hij] using h'.l2block i hi ht
  · intro i t e ht he
    have ht' := h'.table_lt ht
    rw [Tables.word_or_of_ne _ (L.l2_ne_l3 hj (by omega)).symm]
    exact h'.l3 i t e ht he
  · intro t e ht ht' he
    rw [Tables.word_or_of_ne _ (L.l2_ne_l3 hj (by omega)).symm]
    exact h'.free t e ht ht' he

/-- A table number that is not in use yet, given to a level 2 entry without a table, is that
of no other entry. -/
theorem inj_alloc (h : DevShape L s A B C T D P tbl) {i i' j t : ℕ}
    (hi : Function.update tbl j (some s.numL3) i = some t)
    (hi' : Function.update tbl j (some s.numL3) i' = some t) : i = i' := by
  by_cases hij : i = j <;> by_cases hij' : i' = j
  · rw [hij, hij']
  · have := h.used i' t (by simpa [hij'] using hi')
    have : s.numL3 = t := by simpa [hij] using hi
    omega
  · have := h.used i t (by simpa [hij] using hi)
    have : s.numL3 = t := by simpa [hij'] using hi'
    omega
  · exact h.inj i i' t (by simpa [hij] using hi) (by simpa [hij'] using hi')

/-- A level 2 entry without a table has no pages. -/
theorem no_page (h : DevShape L s A B C T D P tbl) {j e : ℕ} (hnone : tbl j = none)
    (he : e < 512) : P (512 * j + e) = false := by
  by_contra hP
  have hsome := h.pages _ (by simpa using hP)
  rw [show (512 * j + e) / 512 = j by omega, hnone] at hsome
  exact (nomatch hsome)

/-- A level 2 entry gets a fresh level 3 table, which is empty. -/
theorem alloc (h : DevShape L s A B C T D P tbl) {j : ℕ} (hj : j < 512 * 512)
    (hnone : tbl j = none) (hnum : s.numL3 < 32) :
    DevShape L (s.alloc (L.l2 + 8 * j) (tableDesc (L.l3 + 8 * (512 * s.numL3)))) A B C T D P
      (Function.update tbl j (some s.numL3)) := by
  have hne : ∀ i, i ≠ j → L.l2 + 8 * i ≠ L.l2 + 8 * j := by
    intro i hi
    omega
  constructor
  · have hne0 := L.l0_ne_l2 (i := 0) (by decide) hj
    rw [Tables.word_alloc_of_ne _ (by simpa using hne0)]
    exact h.l0
  · intro i hi
    rw [Tables.word_alloc_of_ne _ (L.l1_ne_l2 hi hj)]
    exact h.l1 i hi
  · intro i t hi ht
    by_cases hij : i = j
    · subst hij
      obtain rfl : s.numL3 = t := by simpa using ht
      exact Tables.word_alloc_self _ _
    · rw [Tables.word_alloc_of_ne _ (hne i hij)]
      exact h.l2table i t hi (by simpa [hij] using ht)
  · intro i hi ht
    have hij : i ≠ j := by
      rintro rfl
      simp at ht
    rw [Tables.word_alloc_of_ne _ (hne i hij)]
    exact h.l2block i hi (by simpa [hij] using ht)
  · intro i t e ht he
    by_cases hij : i = j
    · subst hij
      obtain rfl : s.numL3 = t := by simpa using ht
      rw [Tables.word_alloc_of_ne _ (L.l2_ne_l3 hj (by omega)).symm, h.no_page hnone he]
      exact h.free _ e le_rfl hnum he
    · have ht' : tbl i = some t := by simpa [hij] using ht
      have ht32 := h.table_lt ht'
      rw [Tables.word_alloc_of_ne _ (L.l2_ne_l3 hj (by omega)).symm]
      exact h.l3 i t e ht' he
  · intro t e (ht : s.numL3 + 1 ≤ t) ht32 he
    rw [Tables.word_alloc_of_ne _ (L.l2_ne_l3 hj (by omega)).symm]
    exact h.free t e (by omega) ht32 he
  · intro i t ht
    rw [Tables.numL3_alloc]
    by_cases hij : i = j
    · subst hij
      obtain rfl : s.numL3 = t := by simpa using ht
      omega
    · have := h.used i t (by simpa [hij] using ht)
      omega
  · exact fun i i' t hi hi' => h.inj_alloc hi hi'
  · exact hnum
  · intro p hp
    by_cases hpj : p / 512 = j
    · simp [hpj]
    · simpa [hpj] using h.pages p hp

/-- Making sure of a level 3 table for an entry that is not a block: the pointer returned is
that of a level 3 table. -/
theorem ensureL3PageTable (h : DevShape L s A B C T D P tbl) {k j ptr : ℕ} (hC : C j = false)
    (hD : D j = false) (hrun : ensureL3PageTable L s k j = .ok (ptr, s')) :
    ∃ tbl' t, tbl' j = some t ∧ ptr = L.l3 + 8 * (512 * t) ∧ (∀ i, i ≠ j → tbl' i = tbl i) ∧
      DevShape L s' A B C (fun i => T i || i == k) D P tbl' := by
  obtain ⟨u, hu, hj, hcases⟩ := ensureL3PageTable_cases hrun
  have h' := h.ensureL2PageTable hu
  have hvalid := h'.valid_l2 hj
  rw [hC, hD, Bool.or_false, Bool.or_false] at hvalid
  rw [hvalid] at hcases
  rcases hcases with ⟨hsome, rfl, rfl⟩ | ⟨hnone, hnum, rfl, rfl⟩
  · -- the table is there, and its address is what the descriptor holds
    obtain ⟨t, ht⟩ := Option.isSome_iff_exists.mp hsome
    have ht32 := h'.table_lt ht
    have haligned := L.aligned
    have hbelow := L.below
    have hfits : Fits (L.l3 + 8 * (512 * t)) 3 := ⟨by omega, by omega, by omega⟩
    refine ⟨tbl, t, ht, ?_, fun _ _ => rfl, h'⟩
    rw [h'.l2table j t hj ht, tableDesc_and_mask hfits]
  · -- a fresh table
    have hnone : tbl j = none := by simpa using hnone
    exact ⟨Function.update tbl j (some u.numL3), u.numL3, by simp, rfl, fun i hi => by simp [hi],
      h'.alloc hj hnone hnum⟩

/-- Mapping a page in a level 2 slot that is not a block. -/
theorem mapDeviceL3Page (h : DevShape L s A B C T D P tbl) {a : ℕ}
    (hC : C (a / l2EntrySize) = false) (hD : D (a / l2EntrySize) = false)
    (hrun : mapDeviceL3Page L s a = .ok s') :
    ∃ tbl', (∀ i, i ≠ a / l2EntrySize → tbl' i = tbl i) ∧
      DevShape L s' A B C (fun k => T k || k == a / l1EntrySize) D
        (fun p => P p || p == a / l3EntrySize) tbl' := by
  obtain ⟨haligned, ptr, u, hu, rfl⟩ := mapDeviceL3Page_cases hrun
  obtain ⟨tbl', t, ht, rfl, hother, h'⟩ := h.ensureL3PageTable hC hD hu
  refine ⟨tbl', hother, ?_⟩
  have ht32 := h'.table_lt ht
  set j := a / l2EntrySize with hj
  set i := a % l2EntrySize / l3EntrySize with hi
  have hi512 : i < 512 := by
    rw [hi, l2EntrySize_eq, l3EntrySize_eq]
    omega
  have hpage : a / l3EntrySize = 512 * j + i := by
    rw [hi, hj, l2EntrySize_eq, l3EntrySize_eq]
    omega
  have ha : (512 * j + i) * l3EntrySize = a := by
    rw [← hpage]
    exact Nat.div_mul_cancel (Nat.dvd_of_mod_eq_zero haligned)
  clear_value i j
  rw [show L.l3 + 8 * (512 * t) + 8 * i = L.l3 + 8 * (512 * t + i) by omega, hpage]
  refine { h' with l0 := ?_, l1 := ?_, l2table := ?_, l2block := ?_, l3 := ?_, free := ?_,
                   pages := ?_ }
  · have hne := L.l0_ne_l3 (i := 0) (t := 512 * t + i) (by decide) (by omega)
    rw [Tables.word_or_of_ne _ (by simpa using hne)]
    exact h'.l0
  · intro k hk
    rw [Tables.word_or_of_ne _ (L.l1_ne_l3 hk (by omega))]
    exact h'.l1 k hk
  · intro e t' he ht'
    rw [Tables.word_or_of_ne _ (L.l2_ne_l3 he (by omega))]
    exact h'.l2table e t' he ht'
  · intro e he ht'
    rw [Tables.word_or_of_ne _ (L.l2_ne_l3 he (by omega))]
    exact h'.l2block e he ht'
  · intro j' t' e ht' he
    by_cases hsame : j' = j ∧ e = i
    · rw [hsame.1] at ht' ⊢
      rw [hsame.2]
      obtain rfl : t = t' := by simpa [ht] using ht'
      rw [Tables.word_or_self, h'.l3 j t i ht hi512, ha]
      cases P (512 * j + i) <;> simp
    · have hne : 512 * t' + e ≠ 512 * t + i := by
        intro heq
        obtain rfl : t' = t := by omega
        exact hsame ⟨h'.inj j' j t' ht' ht, by omega⟩
      rw [Tables.word_or_of_ne _ (by omega), h'.l3 j' t' e ht' he]
      simp [show 512 * j' + e ≠ 512 * j + i by omega]
  · intro t' e hfree ht' he
    have hused := h'.used j t ht
    rw [Tables.numL3_or] at hfree
    rw [Tables.word_or_of_ne _ (by omega)]
    exact h'.free t' e hfree ht' he
  · intro p hp
    rcases Bool.or_eq_true_iff.mp hp with hp | hp
    · exact h'.pages p hp
    · have hp : p = 512 * j + i := by simpa using hp
      rw [show p / 512 = j by omega, ht]
      rfl

end DevShape

/-! ### Runs -/

namespace DevOp

/-- The level 1 entry that must point to a level 2 table. -/
def tableL1 : DevOp → ℕ → Bool
  | .block a, k => k == a / l1EntrySize
  | .page a, k => k == a / l1EntrySize

/-- The level 2 entry that becomes a block. -/
def blockL2 : DevOp → ℕ → Bool
  | .block a, j => j == a / l2EntrySize
  | .page _, _ => false

/-- The page that is mapped. -/
def pageL3 : DevOp → ℕ → Bool
  | .block _, _ => false
  | .page a, p => p == a / l3EntrySize

end DevOp

/-- No operation maps a page in a slot that is a block, be it of RAM (`C`) or of a device. -/
def Apart (C : ℕ → Bool) (ops : List DevOp) : Prop :=
  ∀ a, .page a ∈ ops → C (a / l2EntrySize) = false ∧
    ∀ b, .block b ∈ ops → b / l2EntrySize ≠ a / l2EntrySize

theorem Apart.mono {C : ℕ → Bool} {ops ops' : List DevOp} (h : Apart C ops) (hsub : ops' ⊆ ops) :
    Apart C ops' := by
  intro a ha
  obtain ⟨hC, hblock⟩ := h a (hsub ha)
  exact ⟨hC, fun b hb => hblock b (hsub hb)⟩

/-- The tables after some operations: their entries are there, and every level 3 table has a
page. -/
structure DevRun (L : Layout) (s : Tables) (A B C : ℕ → Bool) (ops : List DevOp)
    (tbl : ℕ → Option ℕ) : Prop where
  shape : DevShape L s A B C (fun k => ops.any (·.tableL1 k)) (fun j => ops.any (·.blockL2 j))
    (fun p => ops.any (·.pageL3 p)) tbl
  needed : ∀ j, (tbl j).isSome → ∃ a, .page a ∈ ops ∧ a / l2EntrySize = j

namespace DevRun

variable {L : Layout} {s s' : Tables} {A B C : ℕ → Bool} {ops : List DevOp}
  {tbl : ℕ → Option ℕ}

/-- A slot with a block is not marked for pages and the other way round: before a page. -/
theorem not_blockL2 (hapart : Apart C ops) {a : ℕ} (ha : .page a ∈ ops) {done : List DevOp}
    (hdone : done ⊆ ops) : done.any (·.blockL2 (a / l2EntrySize)) = false := by
  rw [List.any_eq_false]
  intro op hop hblock
  cases op with
  | block b =>
      have hslot : a / l2EntrySize = b / l2EntrySize := by simpa [DevOp.blockL2] using hblock
      exact (hapart a ha).2 b (hdone hop) hslot.symm
  | page b => simp [DevOp.blockL2] at hblock

/-- Before a block, its slot has no level 3 table. -/
theorem no_table (h : DevRun L s A B C ops tbl) {all : List DevOp} (hapart : Apart C all)
    (hsub : ops ⊆ all) {a : ℕ} (ha : .block a ∈ all) : tbl (a / l2EntrySize) = none := by
  by_contra hsome
  obtain ⟨b, hb, hslot⟩ := h.needed _ (Option.isSome_iff_ne_none.mpr hsome)
  exact (hapart b (hsub hb)).2 a ha hslot.symm

/-- **One operation.** -/
theorem step (h : DevRun L s A B C ops tbl) {op : DevOp} (hapart : Apart C (ops ++ [op]))
    (hrun : mapDevOp L s op = .ok s') : ∃ tbl', DevRun L s' A B C (ops ++ [op]) tbl' := by
  cases op with
  | block a =>
      have hnone := h.no_table hapart (List.subset_append_left _ _) (a := a) (by simp)
      refine ⟨tbl, ?_, ?_⟩
      · simpa [List.any_append, DevOp.tableL1, DevOp.blockL2, DevOp.pageL3] using
          h.shape.mapDeviceL2Block hnone hrun
      · intro j hj
        obtain ⟨b, hb, hslot⟩ := h.needed j hj
        exact ⟨b, by simp [hb], hslot⟩
  | page a =>
      have ha : .page a ∈ ops ++ [.page a] := by simp
      have hD := not_blockL2 hapart ha (List.subset_append_left ops _)
      obtain ⟨tbl', hother, h'⟩ := h.shape.mapDeviceL3Page (hapart a ha).1 hD hrun
      refine ⟨tbl', ?_, ?_⟩
      · simpa [List.any_append, DevOp.tableL1, DevOp.blockL2, DevOp.pageL3] using h'
      · intro j hj
        by_cases hslot : j = a / l2EntrySize
        · exact ⟨a, ha, hslot.symm⟩
        · rw [hother j hslot] at hj
          obtain ⟨b, hb, hslot⟩ := h.needed j hj
          exact ⟨b, by simp [hb], hslot⟩

end DevRun

/-- **A run of operations** that keep blocks and pages apart leaves exactly their entries. -/
theorem devRun_of_foldlM {L : Layout} {s₀ s s' : Tables} {A B C : ℕ → Bool} {ops : List DevOp}
    (h : RamShape L s₀ s A B C) (hapart : Apart C ops)
    (hrun : ops.foldlM (mapDevOp L) s = .ok s') : ∃ tbl, DevRun L s' A B C ops tbl := by
  refine foldlM_invariant (fun done t => ∃ tbl, DevRun L t A B C done tbl) ?_ ?_ hrun
  · exact ⟨_, h.devShape, fun _ hj => nomatch hj⟩
  · rintro done op rest t u hops ⟨tbl, hdone⟩ hstep
    refine hdone.step (hapart.mono ?_) hstep
    rw [hops]
    simp

/-! ### Walking the tables -/

/-- The translation of an address to itself as Device memory: attribute index 0, access flag
set, not executable. -/
def deviceAt (va : ℕ) : Translation := ⟨va, 0, 0, true, true, true⟩

section Walk

variable {L : Layout} {w : ℕ → ℕ} {va : ℕ}

/-- A level 2 block of Device memory. -/
theorem walkL2_device (hva : va < 2 ^ 39)
    (h2 : w (L.l2 + 8 * (va / l2EntrySize)) = blockDevice (va / l2EntrySize * l2EntrySize)) :
    walkL2 w (L.l2 + 8 * (512 * (va / l1EntrySize))) va false false = some (deviceAt va) := by
  have hfits : Fits (va / l2EntrySize * l2EntrySize) 0x401 := by
    rw [l2EntrySize_eq]
    exact ⟨by omega, by omega, by omega⟩
  have hread : w (L.l2 + 8 * (512 * (va / l1EntrySize)) + 8 * bits va 29 21) =
      descriptor 96 (va / l2EntrySize * l2EntrySize) 0x401 := by
    rw [l2_index, h2, blockDevice_eq hfits]
  rw [walkL2_block hfits (by decide) (by rw [l2EntrySize_eq]; omega) hread]
  have hpa : va / l2EntrySize * l2EntrySize + va % 2 ^ 21 = va := by
    rw [l2EntrySize_eq]
    omega
  rw [hpa]
  rfl

/-- A level 2 entry that is a table descriptor leads to its level 3 table. -/
theorem walkL2_to_l3 {t : ℕ} (ht : t < 32)
    (h2 : w (L.l2 + 8 * (va / l2EntrySize)) = tableDesc (L.l3 + 8 * (512 * t))) :
    walkL2 w (L.l2 + 8 * (512 * (va / l1EntrySize))) va false false =
      walkL3 w (L.l3 + 8 * (512 * t)) va false false := by
  have haligned := L.aligned
  have hbelow := L.below
  have hfits : Fits (L.l3 + 8 * (512 * t)) 3 := ⟨by omega, by omega, by omega⟩
  exact walkL2_table hfits (by decide) (by rw [l2_index, h2, tableDesc_eq hfits])

/-- A page of Device memory. -/
theorem walkL3_device {table : ℕ} (hva : va < 2 ^ 39)
    (h3 : w (table + 8 * bits va 20 12) = pageDevice (va / l3EntrySize * l3EntrySize)) :
    walkL3 w table va false false = some (deviceAt va) := by
  have hfits : Fits (va / l3EntrySize * l3EntrySize) 0x403 := by
    rw [l3EntrySize_eq]
    exact ⟨by omega, by omega, by omega⟩
  rw [walkL3_page hfits (by decide) (by rw [h3, pageDevice_eq hfits])]
  have hpa : va / l3EntrySize * l3EntrySize + va % 2 ^ 12 = va := by
    rw [l3EntrySize_eq]
    omega
  rw [hpa]
  rfl

end Walk

section Levels

variable {L : Layout} {s : Tables} {A B C T D P : ℕ → Bool} {tbl : ℕ → Option ℕ} {va : ℕ}

/-- The walk of a level 3 table. -/
theorem DevShape.walkL3_eq (h : DevShape L s A B C T D P tbl) (hva : va < 2 ^ 39) {t : ℕ}
    (ht : tbl (va / l2EntrySize) = some t) :
    walkL3 s.word (L.l3 + 8 * (512 * t)) va false false =
      if P (va / l3EntrySize) then some (deviceAt va) else none := by
  have hi : bits va 20 12 < 512 := by
    simp only [bits]
    omega
  have hp : 512 * (va / l2EntrySize) + bits va 20 12 = va / l3EntrySize := by
    simp only [bits, l2EntrySize_eq, l3EntrySize_eq]
    omega
  have h3 := h.l3 _ t _ ht hi
  rw [hp, show L.l3 + 8 * (512 * t + bits va 20 12) =
    L.l3 + 8 * (512 * t) + 8 * bits va 20 12 by omega] at h3
  cases hP : P (va / l3EntrySize) with
  | true =>
      rw [walkL3_device hva (by simpa [hP] using h3)]
      simp
  | false =>
      rw [walkL3_empty (by simpa [hP] using h3)]
      simp

/-- The walk of the level 2 tables, where no entry is a block of both kinds. -/
theorem DevShape.walkL2_eq (h : DevShape L s A B C T D P tbl) (hva : va < 2 ^ 39)
    (hCD : C (va / l2EntrySize) = false ∨ D (va / l2EntrySize) = false) :
    walkL2 s.word (L.l2 + 8 * (512 * (va / l1EntrySize))) va false false =
      if (tbl (va / l2EntrySize)).isSome then
        if P (va / l3EntrySize) then some (deviceAt va) else none
      else if C (va / l2EntrySize) then some (normalAt va)
      else if D (va / l2EntrySize) then some (deviceAt va)
      else none := by
  have hj : va / l2EntrySize < 512 * 512 := by
    rw [l2EntrySize_eq]
    omega
  cases ht : tbl (va / l2EntrySize) with
  | some t =>
      rw [walkL2_to_l3 (h.table_lt ht) (h.l2table _ t hj ht), h.walkL3_eq hva ht]
      simp
  | none =>
      have h2 := h.l2block _ hj ht
      cases hC : C (va / l2EntrySize) with
      | true =>
          have hD : D (va / l2EntrySize) = false := by simpa [hC] using hCD
          rw [walkL2_normal hva (by simpa [hC, hD] using h2)]
          simp
      | false =>
          cases hD : D (va / l2EntrySize) with
          | true =>
              rw [walkL2_device hva (by simpa [hC, hD] using h2)]
              simp
          | false =>
              rw [walkL2_empty (by rw [l2_index, h2]; simp [hC, hD])]
              simp

/-- **What the tables translate** during the device phase, at every address for which no level
1 entry is both a block and a table and no level 2 entry a block of both kinds. -/
theorem DevShape.walk_eq (h : DevShape L s A B C T D P tbl) (hva : va < 2 ^ 39)
    (hAB : A (va / l1EntrySize) = false ∨ B (va / l1EntrySize) = false)
    (hCD : C (va / l2EntrySize) = false ∨ D (va / l2EntrySize) = false) :
    walk s.word L.l0 va =
      if A (va / l1EntrySize) then some (normalAt va)
      else if B (va / l1EntrySize) || T (va / l1EntrySize) then
        if (tbl (va / l2EntrySize)).isSome then
          if P (va / l3EntrySize) then some (deviceAt va) else none
        else if C (va / l2EntrySize) then some (normalAt va)
        else if D (va / l2EntrySize) then some (deviceAt va)
        else none
      else none := by
  have hk : va / l1EntrySize < 512 := by
    rw [l1EntrySize_eq]
    omega
  have h1 := h.l1 _ hk
  rw [walk_to_l1 h.l0 hva]
  cases hA : A (va / l1EntrySize) with
  | true =>
      have hB : B (va / l1EntrySize) = false := by simpa [hA] using hAB
      rw [walkL1_normal hva (by simpa [hA, hB] using h1)]
      simp
  | false =>
      cases hBT : B (va / l1EntrySize) || T (va / l1EntrySize) with
      | false =>
          obtain ⟨hB, hT⟩ := Bool.or_eq_false_iff.mp hBT
          rw [walkL1_empty (by rw [l1_index hva, h1]; simp [hA, hB, hT])]
          simp
      | true =>
          have htable : s.word (L.l1 + 8 * (va / l1EntrySize)) =
              tableDesc (L.l2 + 8 * (512 * (va / l1EntrySize))) := by
            rw [h1, hA]
            cases hB : B (va / l1EntrySize) with
            | true => simp
            | false =>
                have hT : T (va / l1EntrySize) = true := by simpa [hB] using hBT
                simp [hT]
          rw [walkL1_to_l2 hva htable, h.walkL2_eq hva hCD]
          simp

end Levels

/-! ### Short runs complete -/

section Total

variable {L : Layout} {s : Tables}

theorem ensureL2PageTable_isOk {k : ℕ} (hk : k < 512) :
    ∃ s', ensureL2PageTable L s k = .ok s' ∧ s'.numL3 = s.numL3 := by
  have hentry : L.l1Table.entry k = .ok (L.l1 + 8 * k) := by
    simp [TableRef.entry, Layout.l1Table, inBounds_of hk]
  rw [ensureL2PageTable, hentry, ok_bind]
  by_cases hvalid : pteIsValid (s.word (L.l1 + 8 * k)) = true
  · exact ⟨s, by rw [if_pos hvalid, pure_eq_ok], rfl⟩
  · obtain ⟨s', hs'⟩ := pointToL2_isOk (L := L) s hk
    refine ⟨s', by rw [if_neg hvalid, hs'], ?_⟩
    rw [(pointToL2_eq_ok hs').2, Tables.numL3_or]

theorem ensureL3PageTable_isOk {k j : ℕ} (hk : k < 512) (hj : j < 512 * 512)
    (hnum : s.numL3 < 32) :
    ∃ ptr s', ensureL3PageTable L s k j = .ok (ptr, s') ∧ s'.numL3 ≤ s.numL3 + 1 := by
  obtain ⟨t, ht, hnumt⟩ := ensureL2PageTable_isOk (L := L) (s := s) hk
  have hentry : L.l2Table.entry j = .ok (L.l2 + 8 * j) := by
    simp [TableRef.entry, Layout.l2Table, inBounds_of hj]
  rw [ensureL3PageTable, ht, ok_bind, hentry, ok_bind]
  by_cases hvalid : pteIsValid (t.word (L.l2 + 8 * j)) = true
  · exact ⟨_, t, by rw [if_pos hvalid, pure_eq_ok], by omega⟩
  · have hcap : t.numL3 < maxNumL3PageTables := by
      rw [hnumt]
      exact hnum
    rw [if_neg hvalid, allocateL3PageTable, kassert_of hcap, ok_bind, pure_eq_ok, ok_bind]
    exact ⟨_, _, rfl, by simp [hnumt]⟩

/-- One operation completes while a level 3 table is free, and takes at most one. -/
theorem mapDevOp_isOk {op : DevOp} (hop : op.Valid) (hnum : s.numL3 < 32) :
    ∃ s', mapDevOp L s op = .ok s' ∧ s'.numL3 ≤ s.numL3 + 1 := by
  have hmair : mairIndexDevice < 8 := by decide
  cases op with
  | block a =>
      obtain ⟨haligned, ha⟩ := hop
      have hj : a / l2EntrySize < L.l2Table.size := by
        show a / l2EntrySize < 512 * 512
        rw [l2EntrySize_eq]
        omega
      have hoff : a &&& 0xFFF = 0 := offset_aligned (by rw [l2EntrySize_eq] at haligned; omega)
      obtain ⟨t, ht, hnumt⟩ := ensureL2PageTable_isOk (L := L) (s := s) (k := a / l1EntrySize)
        (by rw [l1EntrySize_eq]; omega)
      simp [mapDevOp, mapDeviceL2Block, kassert_of haligned, ht, pteMarkAsBlockDescriptorDevice,
        ptePointToOffset, pteSetMairAttr, pteOr_isOk hj, kassert_of hoff, kassert_of hmair, hnumt]
  | page a =>
      obtain ⟨haligned, ha⟩ := hop
      have hoff : a &&& 0xFFF = 0 := offset_aligned (by rw [l3EntrySize_eq] at haligned; omega)
      obtain ⟨ptr, t, ht, hnumt⟩ := ensureL3PageTable_isOk (L := L) (s := s)
        (k := a / l1EntrySize) (j := a / l2EntrySize) (by rw [l1EntrySize_eq]; omega)
        (by rw [l2EntrySize_eq]; omega) hnum
      have hi : a % l2EntrySize / l3EntrySize < (⟨ptr, 512⟩ : TableRef).size := by
        show a % l2EntrySize / l3EntrySize < 512
        rw [l2EntrySize_eq, l3EntrySize_eq]
        omega
      simp [mapDevOp, mapDeviceL3Page, kassert_of haligned, ht, pteMarkAsPageDescriptorDevice,
        ptePointToOffset, pteSetMairAttr, pteOr_isOk hi, kassert_of hoff, kassert_of hmair, hnumt]

/-- A run with no more operations than there are level 3 tables completes. -/
theorem foldlM_mapDevOp_isOk {ops : List DevOp} (hops : ∀ op ∈ ops, op.Valid)
    (hnum : s.numL3 + ops.length ≤ 32) : ∃ s', ops.foldlM (mapDevOp L) s = .ok s' := by
  obtain ⟨s', hs', -⟩ := foldlM_total (f := mapDevOp L)
    (fun done t => t.numL3 ≤ s.numL3 + done.length) (l := ops) (s := s) (by simp)
    (by
      intro done op rest t hl hinv
      have hlen : ops.length = done.length + (rest.length + 1) := by simp [hl]
      obtain ⟨u, hu, hnumu⟩ := mapDevOp_isOk (L := L) (s := t) (hops op (by simp [hl])) (by omega)
      refine ⟨u, hu, ?_⟩
      rw [List.length_append, List.length_singleton]
      omega)
  exact ⟨s', hs'⟩

end Total

end Floss
