import Floss.Parser
import Floss.Regions

/-!
# Reserved Memory

`Memory::init` (`src/memory/map.cpp`) collects what must not be used as free memory: the
part of the first RAM region below the kernel, the memory reservation block of the device
tree, the kernel itself and the device tree blob. The region lists of `Floss.Regions`
merge neighbours, so the result is stated as a set of addresses.

* `memoryInit`: the function;
* `RsvEntry`, `Listed`: the reservation block as the format defines it, entry by entry;
* `reserveEntry_eq`: `reserve_entry` reads it, and its 32-bit product does not wrap as
  long as the entries before were found;
* `reserved_iff`: the reserved addresses are exactly the required ones, the loop ends for
  every blob, and `reserve_entry` reads only inside the blob unless it is shorter than the
  part of the header that is read;
* `reads_behind_the_blob`: such a blob.
-/

namespace Floss

/-! ### The code -/

/-- The first RAM region that strictly contains the start of the kernel. -/
def holeRegion (kernelStart : ℕ) (ram : List Region) : Option Region :=
  ram.find? fun r =>
    kernelStart > r.start && kernelStart < (r.start + r.size) % 2 ^ 64

/-- The loop over the memory reservation block, from entry `i` on. -/
def reserveLoop (p : Parser) (m : Mem) : (fuel : ℕ) → (i : ℕ) → List Region → Exec (List Region)
  | 0, _, _ => .error .fuel
  | fuel + 1, i, reserved => do
      match ← p.reserveEntry m i with
      | none => return reserved
      | some (address, size) =>
        let reserved ← addRegion reserved address size
        reserveLoop p m fuel ((i + 1) % 2 ^ 32) reserved

/-- `Memory::init`, with the kernel at `[kernelStart, kernelEnd)`. The entry loop makes
fewer iterations than the blob has bytes. -/
def memoryInit (m : Mem) (fdt kernelStart kernelEnd : ℕ) (ram : List Region) :
    Exec (List Region) := do
  let reserved ←
    (match holeRegion kernelStart ram with
    | some r => addRegion [] r.start ((kernelStart + (2 ^ 64 - r.start)) % 2 ^ 64)
    | none => .ok [])
  let (status, p) ← Parser.init {} m fdt
  if status ≠ .ok then
    .error (.panic "Failed to initialize parser for Memory Map init\n")
  else
    let reserved ← reserveLoop p m (p.blobEnd - p.blob + 1) 0 reserved
    let reserved ←
      addRegion reserved kernelStart ((kernelEnd + (2 ^ 64 - kernelStart)) % 2 ^ 64)
    addRegion reserved fdt (← p.totalsize m)

/-! ### The reservation block -/

/-- Entry `i` of the reservation block of the blob at `fdt` reads as `address` and
`size`. -/
structure RsvEntry (m : Mem) (fdt : ℕ) (h : Header) (i address size : ℕ) : Prop where
  fits : h.offMemRsvmap + 16 * i + 16 ≤ h.totalsize
  address : be64 m (fdt + h.offMemRsvmap + 16 * i) = .ok address
  size : be64 m (fdt + h.offMemRsvmap + 16 * i + 8) = .ok size

/-- Entry `i` comes before the first `(0, 0)` entry and before the first one that does
not fit in the blob. -/
def Listed (m : Mem) (fdt : ℕ) (h : Header) (i : ℕ) : Prop :=
  ∀ j ≤ i, ∃ address size, RsvEntry m fdt h j address size ∧ (address ≠ 0 ∨ size ≠ 0)

section Entries

variable {m : Mem} {fdt : ℕ} {h : Header}

/-- **The product does not wrap** for the first index that is not listed, nor for any
before it. -/
theorem sixteen_mul_lt (hh : HeaderAt m fdt h) {i : ℕ}
    (hbefore : ∀ j < i, Listed m fdt h j) : 16 * i < 2 ^ 32 := by
  have htotal := be32_lt hh.totalsize
  cases i with
  | zero => norm_num
  | succ i =>
    obtain ⟨a, s, hentry, -⟩ := hbefore i (Nat.lt_succ_self i) i le_rfl
    have := hentry.fits
    omega

/-- **What `reserve_entry` finds**: the entry with that index, unless it is the
terminating one or does not fit. -/
theorem reserveEntry_eq (hh : HeaderAt m fdt h) {i : ℕ} (hi : 16 * i < 2 ^ 32)
    {o : Option (ℕ × ℕ)} (hrun : (Parser.start fdt h).reserveEntry m i = .ok o)
    (address size : ℕ) :
    o = some (address, size) ↔
      RsvEntry m fdt h i address size ∧ (address ≠ 0 ∨ size ≠ 0) := by
  rw [Parser.reserveEntry, if_neg (by simp [Parser.start])] at hrun
  have hoff : be32 m ((Parser.start fdt h).header + 16) = .ok h.offMemRsvmap := hh.offMemRsvmap
  rw [hoff, ok_bind, Nat.mod_eq_of_lt hi] at hrun
  by_cases hfits : h.offMemRsvmap + 16 * i + 16 ≤ h.totalsize
  · rw [if_neg (by simp only [Parser.start]; omega)] at hrun
    obtain ⟨a, ha, hrun⟩ := bind_eq_ok.1 hrun
    obtain ⟨s, hs, hrun⟩ := bind_eq_ok.1 hrun
    have hentry : RsvEntry m fdt h i address size ↔ a = address ∧ s = size := by
      constructor
      · rintro ⟨-, h₁, h₂⟩
        exact ⟨Except.ok.inj (ha.symm.trans h₁), Except.ok.inj (hs.symm.trans h₂)⟩
      · rintro ⟨rfl, rfl⟩
        exact ⟨hfits, ha, hs⟩
    rw [hentry]
    split_ifs at hrun with hzero
    · obtain rfl : some (a, s) = o := by simpa using hrun
      rw [Option.some.injEq, Prod.mk.injEq]
      constructor
      · rintro ⟨rfl, rfl⟩
        exact ⟨⟨rfl, rfl⟩, hzero⟩
      · exact fun h => h.1
    · obtain rfl : none = o := by simpa using hrun
      refine iff_of_false (by simp) ?_
      rintro ⟨⟨rfl, rfl⟩, hne⟩
      exact hzero hne
  · rw [if_pos (by simp only [Parser.start]; omega)] at hrun
    obtain rfl : none = o := by simpa using hrun
    refine iff_of_false (by simp) ?_
    exact fun hentry => hfits hentry.1.fits

/-- **Where `reserve_entry` reads**: the offset in the header, and an entry that fits in
the blob. -/
theorem reserveEntry_restrict (hh : HeaderAt m fdt h)
    (hblob : m.Readable fdt (fdt + h.totalsize)) {hi : ℕ} (hend : fdt + h.totalsize ≤ hi)
    (hheader : fdt + 20 ≤ hi) (i : ℕ) :
    ∃ o, (Parser.start fdt h).reserveEntry m i = .ok o ∧
      (Parser.start fdt h).reserveEntry (m.restrict fdt hi) i = .ok o := by
  have hoff : be32 m ((Parser.start fdt h).header + 16) = .ok h.offMemRsvmap := hh.offMemRsvmap
  have hoff' : be32 (m.restrict fdt hi) ((Parser.start fdt h).header + 16) =
      .ok h.offMemRsvmap := by
    rw [← hoff]
    exact be32_restrict (by simp [Parser.start]) (by simp only [Parser.start]; omega)
  rw [Parser.reserveEntry, Parser.reserveEntry, if_neg (by simp [Parser.start]),
    if_neg (by simp [Parser.start]), hoff, hoff', ok_bind, ok_bind]
  generalize hq : (Parser.start fdt h).blob + h.offMemRsvmap + 16 * i % 2 ^ 32 = q
  have hlo : fdt ≤ q := by
    simp only [Parser.start] at hq
    omega
  by_cases hfits : q + 16 > (Parser.start fdt h).blobEnd
  · rw [if_pos hfits, if_pos hfits]
    exact ⟨none, rfl, rfl⟩
  · have hfits' : q + 16 ≤ fdt + h.totalsize := by
      simpa [Parser.start] using hfits
    obtain ⟨a, ha⟩ := be64_isOk hblob hlo (by omega)
    obtain ⟨s, hs⟩ := be64_isOk hblob (p := q + 8) (by omega) (by omega)
    rw [if_neg hfits, if_neg hfits, be64_restrict hlo (by omega),
      be64_restrict (by omega) (by omega), ha, ok_bind, hs, ok_bind]
    split_ifs
    · exact ⟨_, rfl, rfl⟩
    · exact ⟨_, rfl, rfl⟩

/-! ### The loop -/

/-- One more entry found. -/
theorem listed_succ {i address size : ℕ} (hbefore : ∀ j < i, Listed m fdt h j)
    (hentry : RsvEntry m fdt h i address size) (hne : address ≠ 0 ∨ size ≠ 0) :
    ∀ j < i + 1, Listed m fdt h j := by
  intro j hj k hk
  rcases Nat.lt_or_eq_of_le (Nat.lt_succ_iff.1 (lt_of_le_of_lt hk hj)) with hk | rfl
  · exact hbefore k hk k le_rfl
  · exact ⟨address, size, hentry, hne⟩

/-- An entry has one address and one size. -/
theorem RsvEntry.unique {i address address' size size' : ℕ}
    (h₁ : RsvEntry m fdt h i address size) (h₂ : RsvEntry m fdt h i address' size') :
    address = address' ∧ size = size' :=
  ⟨Except.ok.inj (h₁.address.symm.trans h₂.address), Except.ok.inj (h₁.size.symm.trans h₂.size)⟩

/-- **The entry loop** adds the listed entries and no others. -/
theorem reserveLoop_covers (hh : HeaderAt m fdt h)
    (hwrap : ∀ i address size, Listed m fdt h i → RsvEntry m fdt h i address size →
      address + size < 2 ^ 64) {fuel i : ℕ} {rs rs' : List Region}
    (hbefore : ∀ j < i, Listed m fdt h j) (hrs : NoWrap rs)
    (hrun : reserveLoop (Parser.start fdt h) m fuel i rs = .ok rs') :
    NoWrap rs' ∧ ∀ a, Covers rs' a ↔ Covers rs a ∨ ∃ k address size, i ≤ k ∧
      Listed m fdt h k ∧ RsvEntry m fdt h k address size ∧
      Region.Contains ⟨address, size⟩ a := by
  induction fuel generalizing i rs with
  | zero => simp [reserveLoop] at hrun
  | succ fuel ih =>
    have hi := sixteen_mul_lt hh hbefore
    rw [reserveLoop] at hrun
    obtain ⟨o, ho, hrun⟩ := bind_eq_ok.1 hrun
    have hentry := reserveEntry_eq hh hi ho
    cases o with
    | none =>
      obtain rfl : rs = rs' := by simpa using hrun
      have hlast : ∀ k, i ≤ k → ¬ Listed m fdt h k := by
        intro k hk hlisted
        obtain ⟨a, s, ha, hne⟩ := hlisted i hk
        simpa using (hentry a s).2 ⟨ha, hne⟩
      refine ⟨hrs, fun a => ⟨.inl, ?_⟩⟩
      rintro (hcov | ⟨k, -, -, hk, hlisted, -⟩)
      · exact hcov
      · exact absurd hlisted (hlast k hk)
    | some e =>
      obtain ⟨address, size⟩ := e
      obtain ⟨hrsv, hne⟩ := (hentry address size).1 rfl
      obtain ⟨rs₁, hadd, hrun⟩ := bind_eq_ok.1 hrun
      have hbefore' := listed_succ hbefore hrsv hne
      have hlisted := hbefore' i (Nat.lt_succ_self i)
      have hi' := sixteen_mul_lt hh hbefore'
      rw [Nat.mod_eq_of_lt (by omega)] at hrun
      obtain ⟨hrs₁, hcov₁⟩ := addRegion_covers hrs (hwrap i address size hlisted hrsv) hadd
      obtain ⟨hrs', hcov'⟩ := ih hbefore' hrs₁ hrun
      refine ⟨hrs', fun a => ?_⟩
      rw [hcov' a, hcov₁ a, or_assoc]
      refine or_congr_right ⟨?_, ?_⟩
      · rintro (hin | ⟨k, b, s, hk, hrest⟩)
        · exact ⟨i, address, size, le_rfl, hlisted, hrsv, hin⟩
        · exact ⟨k, b, s, by omega, hrest⟩
      · rintro ⟨k, b, s, hk, hl, hr, hin⟩
        rcases Nat.lt_or_eq_of_le hk with hk | rfl
        · exact .inr ⟨k, b, s, hk, hl, hr, hin⟩
        · obtain ⟨rfl, rfl⟩ := hrsv.unique hr
          exact .inl hin

/-- One entry is read without a loop. -/
theorem reserveEntry_avoids_fuel (p : Parser) (m : Mem) (i : ℕ) :
    Avoids (p.reserveEntry m i) (· = .fuel) := by
  have hload : ∀ a, ¬ (Fault.access a = .fuel) := by simp
  rw [Parser.reserveEntry]
  by_cases hvalid : ¬ p.valid
  · rw [if_pos hvalid]
    exact avoids_ok _
  rw [if_neg hvalid]
  refine Avoids.bind (be32_avoids hload m _) fun off _ => ?_
  by_cases hfits : p.blob + off + 16 * i % 2 ^ 32 + 16 > p.blobEnd
  · rw [if_pos hfits]
    exact avoids_ok _
  rw [if_neg hfits]
  refine Avoids.bind (be64_avoids hload m _) fun address _ => ?_
  refine Avoids.bind (be64_avoids hload m _) fun size _ => ?_
  split
  · exact avoids_ok _
  · exact avoids_ok _

/-- A region is added without a loop bound. -/
theorem addRegion_avoids_fuel (rs : List Region) (start size : ℕ) :
    Avoids (addRegion rs start size) (· = .fuel) := by
  rw [addRegion]
  refine Avoids.bind (avoids_kassert (by simp)) fun _ _ => ?_
  split
  · exact avoids_ok _
  · exact avoids_ok _

/-- **The entry loop ends**: each entry found needs sixteen bytes of the blob. -/
theorem reserveLoop_avoids_fuel (hh : HeaderAt m fdt h) {fuel i : ℕ} (rs : List Region)
    (hbefore : ∀ j < i, Listed m fdt h j) (hfuel : h.totalsize < i + fuel) :
    Avoids (reserveLoop (Parser.start fdt h) m fuel i rs) (· = .fuel) := by
  induction fuel generalizing i rs with
  | zero =>
    cases i with
    | zero => omega
    | succ i =>
      obtain ⟨a, s, hentry, -⟩ := hbefore i (Nat.lt_succ_self i) i le_rfl
      have := hentry.fits
      omega
  | succ fuel ih =>
    have hi := sixteen_mul_lt hh hbefore
    have hread := reserveEntry_avoids_fuel (Parser.start fdt h) m i
    rw [reserveLoop]
    refine hread.bind fun o ho => ?_
    have hentry := reserveEntry_eq hh hi ho
    cases o with
    | none => exact avoids_ok _
    | some e =>
      obtain ⟨address, size⟩ := e
      obtain ⟨hrsv, hne⟩ := (hentry address size).1 rfl
      have hbefore' := listed_succ hbefore hrsv hne
      have hi' := sixteen_mul_lt hh hbefore'
      refine Avoids.bind ?_ fun rs₁ _ => ?_
      · exact addRegion_avoids_fuel rs address size
      · rw [Nat.mod_eq_of_lt (by omega)]
        exact ih rs₁ hbefore' (by omega)

/-! ### What must be reserved -/

/-- The region contains the address, and not as its first one. -/
def Region.StrictlyContains (r : Region) (a : ℕ) : Prop := r.start < a ∧ a < r.start + r.size

/-- The address must not be used as free memory: it is below the kernel in the first RAM
region that strictly contains the start of the kernel, or in a listed reservation, or in
the kernel, or in the blob. -/
def Required (m : Mem) (fdt : ℕ) (h : Header) (kernelStart kernelEnd : ℕ) (ram : List Region)
    (a : ℕ) : Prop :=
  (∃ before r after, ram = before ++ r :: after ∧ r.StrictlyContains kernelStart ∧
    (∀ q ∈ before, ¬ q.StrictlyContains kernelStart) ∧ r.start ≤ a ∧ a < kernelStart) ∨
  (∃ i address size, Listed m fdt h i ∧ RsvEntry m fdt h i address size ∧
    Region.Contains ⟨address, size⟩ a) ∨
  (kernelStart ≤ a ∧ a < kernelEnd) ∨ (fdt ≤ a ∧ a < fdt + h.totalsize)

/-- A difference that is not negative does not wrap. -/
theorem wrapping_sub {x y : ℕ} (hle : y ≤ x) (hx : x < 2 ^ 64) :
    (x + (2 ^ 64 - y)) % 2 ^ 64 = x - y := by
  omega

/-- The search finds the first region that strictly contains the start of the kernel. -/
theorem holeRegion_eq_some {kernelStart : ℕ} {ram : List Region} (hram : NoWrap ram)
    {r : Region} :
    holeRegion kernelStart ram = some r ↔
      ∃ before after, ram = before ++ r :: after ∧ r.StrictlyContains kernelStart ∧
        ∀ q ∈ before, ¬ q.StrictlyContains kernelStart := by
  have htest : ∀ q ∈ ram, (kernelStart > q.start &&
      kernelStart < (q.start + q.size) % 2 ^ 64) = true ↔ q.StrictlyContains kernelStart := by
    intro q hq
    rw [Nat.mod_eq_of_lt (hram q hq)]
    simp [Region.StrictlyContains]
  rw [holeRegion, List.find?_eq_some_iff_append]
  constructor
  · rintro ⟨hr, before, after, rfl, hbefore⟩
    refine ⟨before, after, rfl, (htest r (by simp)).1 hr, fun q hq hin => ?_⟩
    have hno := hbefore q hq
    rw [(htest q (by simp [hq])).2 hin] at hno
    simp at hno
  · rintro ⟨before, after, rfl, hr, hbefore⟩
    refine ⟨(htest r (by simp)).2 hr, before, after, rfl, fun q hq => ?_⟩
    have hq' := mt (htest q (by simp [hq])).1 (hbefore q hq)
    simpa only [Bool.not_eq_true', Bool.not_eq_true] using hq'

/-- The bootloader hole: nothing is reserved above the start of the kernel. -/
theorem hole_covers {kernelStart : ℕ} {ram rs : List Region} (hram : NoWrap ram)
    (hkernel : kernelStart < 2 ^ 64)
    (hrun : (match holeRegion kernelStart ram with
      | some r => addRegion [] r.start ((kernelStart + (2 ^ 64 - r.start)) % 2 ^ 64)
      | none => .ok []) = .ok rs) :
    NoWrap rs ∧ ∀ a, Covers rs a ↔ ∃ before r after, ram = before ++ r :: after ∧
      r.StrictlyContains kernelStart ∧ (∀ q ∈ before, ¬ q.StrictlyContains kernelStart) ∧
      r.start ≤ a ∧ a < kernelStart := by
  have hhole := @holeRegion_eq_some kernelStart ram hram
  cases hfind : holeRegion kernelStart ram with
  | none =>
    rw [hfind] at hrun
    obtain rfl : [] = rs := by simpa using hrun
    refine ⟨by simp [NoWrap], fun a => iff_of_false (by simp [Covers]) ?_⟩
    rintro ⟨before, r, after, hram', hr, hbefore, -⟩
    simpa [hfind] using hhole.2 ⟨before, after, hram', hr, hbefore⟩
  | some r =>
    rw [hfind] at hrun
    obtain ⟨before, after, hram', hr, hbefore⟩ := hhole.1 hfind
    have hr' : r.start < kernelStart := hr.1
    simp only [wrapping_sub hr'.le hkernel] at hrun
    obtain ⟨hrs, hcov⟩ := addRegion_covers (by simp [NoWrap]) (by omega) hrun
    refine ⟨hrs, fun a => ?_⟩
    rw [hcov a]
    constructor
    · rintro (⟨q, hq, -⟩ | ⟨hlo, hhi⟩)
      · simp at hq
      · exact ⟨before, r, after, hram', hr, hbefore, hlo, by simp only at hhi; omega⟩
    · rintro ⟨before', r', after', hram'', hr'', hbefore', hlo, hhi⟩
      have hsame := hhole.2 ⟨before', after', hram'', hr'', hbefore'⟩
      obtain rfl : r = r' := by simpa [hfind] using hsame
      exact .inr ⟨hlo, by simp only; omega⟩

/-- What `Memory::init` owes its callers for the blob at `fdt`. The indices that
`reserve_entry` is called with are those behind listed entries only. -/
structure ReservedAsRequired (m : Mem) (fdt : ℕ) (h : Header) : Prop where
  exactly : ∀ (kernelStart kernelEnd : ℕ) (ram rs : List Region), NoWrap ram →
    (∀ i address size, Listed m fdt h i → RsvEntry m fdt h i address size →
      address + size < 2 ^ 64) →
    kernelStart ≤ kernelEnd → kernelEnd < 2 ^ 64 → fdt + h.totalsize < 2 ^ 64 →
    memoryInit m fdt kernelStart kernelEnd ram = .ok rs →
    ∀ a, Covers rs a ↔ Required m fdt h kernelStart kernelEnd ram a
  ends : ∀ (kernelStart kernelEnd : ℕ) (ram : List Region),
    Avoids (memoryInit m fdt kernelStart kernelEnd ram) (· = .fuel)
  product : ∀ i, (∀ j < i, Listed m fdt h j) → 16 * i < 2 ^ 32
  inside : ∀ i, ∃ o, (Parser.start fdt h).reserveEntry m i = .ok o ∧
    (Parser.start fdt h).reserveEntry (m.restrict fdt (fdt + h.totalsize)) i = .ok o

/-- **The reserved addresses are the required ones**. -/
theorem memoryInit_covers (hfdt : fdt ≠ nullptr) (hh : HeaderAt m fdt h) (hc : h.Consistent)
    {kernelStart kernelEnd : ℕ} {ram rs : List Region} (hram : NoWrap ram)
    (hwrap : ∀ i address size, Listed m fdt h i → RsvEntry m fdt h i address size →
      address + size < 2 ^ 64)
    (hkernel : kernelStart ≤ kernelEnd) (hend : kernelEnd < 2 ^ 64)
    (hblob : fdt + h.totalsize < 2 ^ 64)
    (hrun : memoryInit m fdt kernelStart kernelEnd ram = .ok rs) (a : ℕ) :
    Covers rs a ↔ Required m fdt h kernelStart kernelEnd ram a := by
  rw [memoryInit] at hrun
  obtain ⟨rs₁, hhole, hrun⟩ := bind_eq_ok.1 hrun
  rw [init_start hfdt hh hc, ok_bind] at hrun
  simp only [ne_eq, not_true_eq_false, if_false] at hrun
  obtain ⟨rs₂, hloop, hrun⟩ := bind_eq_ok.1 hrun
  obtain ⟨rs₃, hkern, hrun⟩ := bind_eq_ok.1 hrun
  obtain ⟨total, htotal, hrun⟩ := bind_eq_ok.1 hrun
  have htotal' : (Parser.start fdt h).totalsize m = .ok h.totalsize := by
    rw [Parser.totalsize, if_pos (by simpa [Parser.start] using hfdt)]
    exact hh.totalsize
  obtain rfl : h.totalsize = total := Except.ok.inj (htotal'.symm.trans htotal)
  rw [wrapping_sub hkernel hend] at hkern
  obtain ⟨hrs₁, hcov₁⟩ := hole_covers hram (by omega) hhole
  obtain ⟨hrs₂, hcov₂⟩ := reserveLoop_covers hh hwrap (by omega) hrs₁ hloop
  obtain ⟨hrs₃, hcov₃⟩ := addRegion_covers hrs₂ (by omega) hkern
  obtain ⟨-, hcov⟩ := addRegion_covers hrs₃ hblob hrun
  have hlisted : (∃ k address size, 0 ≤ k ∧ Listed m fdt h k ∧
      RsvEntry m fdt h k address size ∧ Region.Contains ⟨address, size⟩ a) ↔
      ∃ k address size, Listed m fdt h k ∧ RsvEntry m fdt h k address size ∧
        Region.Contains ⟨address, size⟩ a := by simp
  have hkernelIn : Region.Contains ⟨kernelStart, kernelEnd - kernelStart⟩ a ↔
      kernelStart ≤ a ∧ a < kernelEnd := by
    simp only [Region.Contains]
    omega
  rw [hcov a, hcov₃ a, hcov₂ a, hcov₁ a, hlisted, hkernelIn, or_assoc, or_assoc]
  exact Iff.rfl

/-- **`Memory::init` ends** for every accepted blob. -/
theorem memoryInit_avoids_fuel (hfdt : fdt ≠ nullptr) (hh : HeaderAt m fdt h)
    (hc : h.Consistent) (kernelStart kernelEnd : ℕ) (ram : List Region) :
    Avoids (memoryInit m fdt kernelStart kernelEnd ram) (· = .fuel) := by
  rw [memoryInit]
  refine Avoids.bind ?_ fun rs₁ _ => ?_
  · split
    · exact addRegion_avoids_fuel _ _ _
    · exact avoids_ok _
  rw [init_start hfdt hh hc, ok_bind]
  simp only [ne_eq, not_true_eq_false, if_false]
  refine Avoids.bind (reserveLoop_avoids_fuel hh rs₁ (by omega) ?_) fun rs₂ _ => ?_
  · simp only [Parser.start]
    omega
  refine Avoids.bind (addRegion_avoids_fuel _ _ _) fun rs₃ _ => ?_
  refine Avoids.bind ?_ fun total _ => addRegion_avoids_fuel _ _ _
  rw [Parser.totalsize]
  split
  · exact be32_avoids (by simp) m _
  · exact avoids_ok _

/-- **The reserved memory is as required exactly for blobs of twenty bytes and more.** An
accepted blob may be shorter than its header, and `reserve_entry` reads the bytes 16 to 19
of the header on every call. All the rest holds for every accepted blob: the reserved set,
the end of the entry loop and the product that does not wrap. -/
theorem reserved_iff (hfdt : fdt ≠ nullptr) (hh : HeaderAt m fdt h) (hc : h.Consistent)
    (hblob : m.Readable fdt (fdt + h.totalsize)) :
    ReservedAsRequired m fdt h ↔ 20 ≤ h.totalsize := by
  constructor
  · rintro ⟨-, -, -, hinside⟩
    by_contra hshort
    obtain ⟨o, -, ho⟩ := hinside 0
    rw [Parser.reserveEntry, if_neg (by simp [Parser.start])] at ho
    obtain ⟨off, hoff, -⟩ := bind_eq_ok.1 ho
    exact be32_restrict_ne_ok (by simp only [Parser.start]; omega) off hoff
  · intro hlong
    refine ⟨?_, memoryInit_avoids_fuel hfdt hh hc, fun i => sixteen_mul_lt hh, ?_⟩
    · intro kernelStart kernelEnd ram rs hram hwrap hkernel hend hfits hrun
      exact memoryInit_covers hfdt hh hc hram hwrap hkernel hend hfits hrun
    · exact reserveEntry_restrict hh hblob le_rfl (by omega)

end Entries

/-- A blob with one memory reservation and no tokens. -/
def rsvBlob : List UInt8 :=
  [fdtMagic, 72, 72, 72, 40, 17, 16, 0, 0, 0].flatMap bytes32 ++
    [0, 0x1000, 0, 0x500, 0, 0, 0, 0].flatMap bytes32

/-- The header of `rsvBlob`. -/
def rsvHeader : Header := ⟨fdtMagic, 72, 72, 72, 40, 17, 0, 0⟩

/-- Around `rsvBlob` the reservation, the kernel, the hole below it and the blob are
reserved, and nothing else. -/
theorem reserved_iff_rsvBlob :
    memoryInit (Mem.ofBytes 0x8000 rsvBlob) 0x8000 0x4000 0x6000 [⟨0x2000, 0x10000⟩] =
      .ok [⟨0x2000, 0x4000⟩, ⟨0x1000, 0x500⟩, ⟨0x8000, 72⟩] ∧
    ReservedAsRequired (Mem.ofBytes 0x8000 rsvBlob) 0x8000 rsvHeader := by
  refine ⟨by decide +kernel, (reserved_iff (by decide) ?_ ?_ ?_).2 (by decide)⟩
  · constructor <;> exact be32_of_holds (by decide) (by decide +kernel)
  · constructor <;> decide
  · exact readable_ofBytes 0x8000 rsvBlob

/-- A blob said to be sixteen bytes long, with its reservation block at the start. -/
def shortBlob : List UInt8 :=
  [fdtMagic, 16, 0, 0, 0, 17, 16, 0, 0, 0].flatMap bytes32

/-- The header of `shortBlob`. -/
def shortHeader : Header := ⟨fdtMagic, 16, 0, 0, 0, 17, 0, 0⟩

/-- `init` accepts `shortBlob`, and `reserve_entry` then reads behind it. -/
theorem reads_behind_the_blob :
    Parser.init {} (Mem.ofBytes 0x8000 shortBlob) 0x8000 =
      .ok (.ok, .start 0x8000 shortHeader) ∧
    (Parser.start 0x8000 shortHeader).reserveEntry
      ((Mem.ofBytes 0x8000 shortBlob).restrict 0x8000 (0x8000 + 16)) 0 =
        .error (.access (0x8000 + 16)) ∧
    ¬ ReservedAsRequired (Mem.ofBytes 0x8000 shortBlob) 0x8000 shortHeader := by
  refine ⟨by decide +kernel, by decide +kernel, ?_⟩
  rintro ⟨-, -, -, hinside⟩
  obtain ⟨o, -, ho⟩ := hinside 0
  have hfault : (Parser.start 0x8000 shortHeader).reserveEntry
      ((Mem.ofBytes 0x8000 shortBlob).restrict 0x8000 (0x8000 + shortHeader.totalsize)) 0 =
        .error (.access (0x8000 + 16)) := by decide +kernel
  rw [hfault] at ho
  simp at ho

end Floss
