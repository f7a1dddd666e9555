import Floss.Exec
import Mathlib.Data.List.Pairwise
import Mathlib.Data.Nat.Bitwise

/-!
# Memory Regions

The model of the region lists of `src/memory/map.cpp` and of `src/util/align.h`. Starts and
sizes are 64-bit numbers and all sums wrap around. A region list is the list of its entries
in use; its capacity is checked when a region is added.

* `addRegion_eq_ok`: what `add_region` does to the list;
* `regionList_covers_added`: what a list covers after any sequence of calls.
-/

namespace Floss

structure Region where
  start : ℕ
  size : ℕ
  deriving DecidableEq, Repr

/-- The address is in the region, which does not wrap around. -/
def Region.Contains (r : Region) (a : ℕ) : Prop := r.start ≤ a ∧ a < r.start + r.size

/-- No address is in two regions of the list. -/
def PairwiseDisjoint (rs : List Region) : Prop :=
  rs.Pairwise fun r q => ∀ a, r.Contains a → ¬ q.Contains a

/-- In a list of disjoint regions an address determines its region. -/
theorem PairwiseDisjoint.eq_of_contains {rs : List Region} (h : PairwiseDisjoint rs)
    {r q : Region} {a : ℕ} (hr : r ∈ rs) (hq : q ∈ rs) (hra : r.Contains a)
    (hqa : q.Contains a) : r = q := by
  by_contra hne
  have : Std.Symm fun r q : Region => ∀ a, r.Contains a → ¬ q.Contains a :=
    ⟨fun r q hrq a hq hr => hrq a hr hq⟩
  exact List.Pairwise.forall h hr hq hne a hra hqa

def maxNumRegions : ℕ := 16

/-- Extend the first region that ends where the new one starts, or starts where it ends. -/
def mergeRegion (start size : ℕ) : List Region → Option (List Region)
  | [] => none
  | r :: rs =>
      if (r.start + r.size) % 2 ^ 64 = start then
        some ({ r with size := (r.size + size) % 2 ^ 64 } :: rs)
      else if (start + size) % 2 ^ 64 = r.start then
        some (⟨(r.start + (2 ^ 64 - size)) % 2 ^ 64, (r.size + size) % 2 ^ 64⟩ :: rs)
      else
        (mergeRegion start size rs).map (r :: ·)

/-- `RegionList::add_region`. -/
def addRegion (rs : List Region) (start size : ℕ) : Exec (List Region) := do
  kassert (rs.length < maxNumRegions - 1) "precond\n"
  match mergeRegion start size rs with
  | some merged => return merged
  | none => return rs ++ [⟨start, size⟩]

/-- `Memory::record_device_region`, for one recorded region after the other. -/
def recordDeviceRegions (devices : List Region) (added : List Region) : Exec (List Region) :=
  added.foldlM (fun devices d => addRegion devices d.start d.size) devices

def regionsOverlap (start1 size1 start2 size2 : ℕ) : Bool :=
  if size1 = 0 ∨ size2 = 0 then
    false
  else
    start1 < (start2 + size2) % 2 ^ 64 && start2 < (start1 + size1) % 2 ^ 64

/-- `Memory::validate_device_regions`: devices are compared with RAM, not with each
other. -/
def validateDeviceRegions (devices ram : List Region) : Exec Unit :=
  devices.foldlM (fun _ d => ram.foldlM (fun _ r =>
    kassert (regionsOverlap d.start d.size r.start r.size = false)
      "Device region [%p, %p) overlaps RAM [%p, %p)\n") ()) ()

/-- `align_down`; `2 ^ 64 - alignment` is the 64-bit complement of `alignment - 1`. -/
def alignDown (value alignment : ℕ) : ℕ := value &&& (2 ^ 64 - alignment)

def alignUp (value alignment : ℕ) : ℕ := alignDown ((value + alignment - 1) % 2 ^ 64) alignment

/-! ### What a region list covers -/

/-- The address is in a region of the list. -/
def Covers (rs : List Region) (a : ℕ) : Prop := ∃ r ∈ rs, r.Contains a

/-- No region of the list wraps around. -/
def NoWrap (rs : List Region) : Prop := ∀ r ∈ rs, r.start + r.size < 2 ^ 64

theorem covers_cons {r : Region} {rs : List Region} {a : ℕ} :
    Covers (r :: rs) a ↔ r.Contains a ∨ Covers rs a := by
  simp [Covers]

theorem covers_append {rs qs : List Region} {a : ℕ} :
    Covers (rs ++ qs) a ↔ Covers rs a ∨ Covers qs a := by
  simp [Covers, or_and_right, exists_or]

/-- Merging puts **one region in place of another** that the new one continues at either
end, and this region has the addresses of both. -/
theorem mergeRegion_eq_some {start size : ℕ} {rs merged : List Region} (hrs : NoWrap rs)
    (hnew : start + size < 2 ^ 64) (h : mergeRegion start size rs = some merged) :
    ∃ pre r r' post, rs = pre ++ r :: post ∧ merged = pre ++ r' :: post ∧
      r'.start + r'.size < 2 ^ 64 ∧
      ∀ a, r'.Contains a ↔ r.Contains a ∨ Region.Contains ⟨start, size⟩ a := by
  induction rs generalizing merged with
  | nil => simp [mergeRegion] at h
  | cons r rs ih =>
    have hr : r.start + r.size < 2 ^ 64 := hrs r (by simp)
    rw [mergeRegion] at h
    split_ifs at h with hend hstart
    · rw [Nat.mod_eq_of_lt hr] at hend
      rw [Option.some.injEq] at h
      have hsum : (r.size + size) % 2 ^ 64 = r.size + size := Nat.mod_eq_of_lt (by omega)
      refine ⟨[], r, _, rs, rfl, h.symm, ?_, fun a => ?_⟩
      · simp only [hsum]
        omega
      · simp only [Region.Contains, hsum]
        omega
    · rw [Nat.mod_eq_of_lt hnew] at hstart
      rw [Option.some.injEq] at h
      have hsum : (r.size + size) % 2 ^ 64 = r.size + size := Nat.mod_eq_of_lt (by omega)
      have hsub : (r.start + (2 ^ 64 - size)) % 2 ^ 64 = start := by omega
      refine ⟨[], r, _, rs, rfl, h.symm, ?_, fun a => ?_⟩
      · simp only [hsum, hsub]
        omega
      · simp only [Region.Contains, hsum, hsub]
        omega
    · obtain ⟨rest, hrest, rfl⟩ := Option.map_eq_some_iff.1 h
      obtain ⟨pre, q, q', post, rfl, rfl, hwrap, hcov⟩ :=
        ih (fun q hq => hrs q (List.mem_cons_of_mem r hq)) hrest
      exact ⟨r :: pre, q, q', post, rfl, rfl, hwrap, hcov⟩

/-- **`add_region`** merges the new region into one of the list, or appends it. -/
theorem addRegion_eq_ok {start size : ℕ} {rs rs' : List Region} (hrs : NoWrap rs)
    (hnew : start + size < 2 ^ 64) (h : addRegion rs start size = .ok rs') :
    (∃ pre r r' post, rs = pre ++ r :: post ∧ rs' = pre ++ r' :: post ∧
      r'.start + r'.size < 2 ^ 64 ∧
      ∀ a, r'.Contains a ↔ r.Contains a ∨ Region.Contains ⟨start, size⟩ a) ∨
    rs' = rs ++ [⟨start, size⟩] := by
  rw [addRegion] at h
  obtain ⟨-, -, h⟩ := bind_eq_ok.1 h
  split at h
  · rename_i merged hmerge
    obtain rfl : merged = rs' := by simpa using h
    exact .inl (mergeRegion_eq_some hrs hnew hmerge)
  · exact .inr (by simpa using h.symm)

/-- Merging changes no more than one region, and starts stay 64-bit numbers. -/
theorem mergeRegion_bounds {start size : ℕ} {rs merged : List Region}
    (h : mergeRegion start size rs = some merged) :
    merged.length = rs.length ∧
      ((∀ r ∈ rs, r.start < 2 ^ 64) → ∀ r ∈ merged, r.start < 2 ^ 64) := by
  induction rs generalizing merged with
  | nil => simp [mergeRegion] at h
  | cons r rs ih =>
    simp only [mergeRegion] at h
    split_ifs at h
    · obtain rfl := Option.some.inj h
      refine ⟨by simp, fun hrs q hq => ?_⟩
      rcases List.mem_cons.1 hq with rfl | hq
      · exact hrs r List.mem_cons_self
      · exact hrs q (List.mem_cons_of_mem r hq)
    · obtain rfl := Option.some.inj h
      refine ⟨by simp, fun hrs q hq => ?_⟩
      rcases List.mem_cons.1 hq with rfl | hq
      · exact Nat.mod_lt _ (by decide)
      · exact hrs q (List.mem_cons_of_mem r hq)
    · obtain ⟨rest, hrest, rfl⟩ := Option.map_eq_some_iff.1 h
      obtain ⟨hlen, hstarts⟩ := ih hrest
      refine ⟨by simp [hlen], fun hrs q hq => ?_⟩
      rcases List.mem_cons.1 hq with rfl | hq
      · exact hrs q List.mem_cons_self
      · exact hstarts (fun q hq => hrs q (List.mem_cons_of_mem r hq)) q hq

/-- **The capacity check** leaves one entry unused, and starts stay 64-bit numbers. -/
theorem recordDeviceRegions_bounds {added devices : List Region}
    (hadded : ∀ d ∈ added, d.start < 2 ^ 64) (h : recordDeviceRegions [] added = .ok devices) :
    devices.length ≤ 15 ∧ ∀ d ∈ devices, d.start < 2 ^ 64 := by
  refine foldlM_invariant (fun _ rs => rs.length ≤ 15 ∧ ∀ r ∈ rs, r.start < 2 ^ 64)
    (by simp) ?_ h
  rintro done d rest rs rs' hsplit ⟨-, hstarts⟩ hadd
  have hd : d.start < 2 ^ 64 := hadded d (by simp [hsplit])
  rw [addRegion] at hadd
  obtain ⟨_, hcap, hadd⟩ := bind_eq_ok.1 hadd
  have hcap : rs.length < 15 := kassert_eq_ok.1 hcap
  split at hadd
  · rename_i merged hmerge
    obtain rfl : merged = rs' := by simpa using hadd
    obtain ⟨hlen, hmerged⟩ := mergeRegion_bounds hmerge
    exact ⟨by omega, hmerged hstarts⟩
  · obtain rfl : rs ++ [⟨d.start, d.size⟩] = rs' := by simpa using hadd
    refine ⟨by simp; omega, fun r hr => ?_⟩
    rcases List.mem_append.1 hr with hr | hr
    · exact hstarts r hr
    · rw [List.mem_singleton.1 hr]
      exact hd

/-- **`add_region` adds the new addresses and no others**. -/
theorem addRegion_covers {start size : ℕ} {rs rs' : List Region} (hrs : NoWrap rs)
    (hnew : start + size < 2 ^ 64) (h : addRegion rs start size = .ok rs') :
    NoWrap rs' ∧ ∀ a, Covers rs' a ↔ Covers rs a ∨ Region.Contains ⟨start, size⟩ a := by
  rcases addRegion_eq_ok hrs hnew h with ⟨pre, r, r', post, rfl, rfl, hwrap, hcov⟩ | rfl
  · constructor
    · intro q hq
      rcases List.mem_append.1 hq with hq | hq
      · exact hrs q (List.mem_append_left _ hq)
      · rcases List.mem_cons.1 hq with rfl | hq
        · exact hwrap
        · exact hrs q (List.mem_append_right _ (List.mem_cons_of_mem r hq))
    · intro a
      rw [covers_append, covers_append, covers_cons, covers_cons, hcov a]
      tauto
  · constructor
    · intro q hq
      rcases List.mem_append.1 hq with hq | hq
      · exact hrs q hq
      · rw [List.mem_singleton.1 hq]
        exact hnew
    · intro a
      rw [covers_append]
      simp [Covers]

/-- Adding a region that is disjoint from those of the list keeps them disjoint. -/
theorem addRegion_disjoint {start size : ℕ} {rs rs' : List Region} (hrs : NoWrap rs)
    (hnew : start + size < 2 ^ 64) (h : addRegion rs start size = .ok rs')
    (hdis : PairwiseDisjoint rs)
    (hout : ∀ a, Region.Contains ⟨start, size⟩ a → ¬ Covers rs a) : PairwiseDisjoint rs' := by
  rcases addRegion_eq_ok hrs hnew h with ⟨pre, r, r', post, rfl, rfl, -, hcov⟩ | rfl
  · -- the region that grew only has new addresses besides its own
    obtain ⟨hpre, htail, hcross⟩ := List.pairwise_append.1 hdis
    obtain ⟨hhead, hpost⟩ := List.pairwise_cons.1 htail
    have hfar : ∀ q ∈ pre ++ r :: post, ∀ a, Region.Contains ⟨start, size⟩ a → ¬ q.Contains a :=
      fun q hq a ha hqa => hout a ha ⟨q, hq, hqa⟩
    refine List.pairwise_append.2 ⟨hpre, List.pairwise_cons.2 ⟨?_, hpost⟩, ?_⟩
    · intro q hq a ha
      rcases (hcov a).1 ha with ha | ha
      · exact hhead q hq a ha
      · exact hfar q (by simp [hq]) a ha
    · intro p hp q hq a hpa hqa
      rcases List.mem_cons.1 hq with rfl | hq
      · rcases (hcov a).1 hqa with hqa | hqa
        · exact hcross p hp r (by simp) a hpa hqa
        · exact hfar p (by simp [hp]) a hqa hpa
      · exact hcross p hp q (by simp [hq]) a hpa hqa
  · refine List.pairwise_append.2 ⟨hdis, List.pairwise_singleton _ _, ?_⟩
    intro p hp q hq a hpa hqa
    rw [List.mem_singleton.1 hq] at hqa
    exact hout a hqa ⟨p, hp, hpa⟩

/-- **A whole sequence of `add_region` calls** on an empty list: what is stored covers what
was added, and stays disjoint if that is. -/
theorem addRegions_spec {added rs : List Region} (hadded : NoWrap added)
    (h : added.foldlM (fun rs r => addRegion rs r.start r.size) [] = .ok rs) :
    NoWrap rs ∧ (∀ a, Covers rs a ↔ Covers added a) ∧
      (PairwiseDisjoint added → PairwiseDisjoint rs) := by
  refine foldlM_invariant (fun done rs => NoWrap rs ∧ (∀ a, Covers rs a ↔ Covers done a) ∧
    (PairwiseDisjoint done → PairwiseDisjoint rs)) ?_ ?_ h
  · exact ⟨by simp [NoWrap], fun a => Iff.rfl, id⟩
  · rintro done r rest rs rs' hsplit ⟨hwrap, hcov, hdis⟩ hadd
    have hr : r.start + r.size < 2 ^ 64 := hadded r (by simp [hsplit])
    obtain ⟨hwrap', hcov'⟩ := addRegion_covers hwrap hr hadd
    refine ⟨hwrap', fun a => ?_, fun hdone => ?_⟩
    · rw [hcov' a, hcov a, covers_append]
      simp [Covers]
    · obtain ⟨hdone, -, hcross⟩ := List.pairwise_append.1 hdone
      refine addRegion_disjoint hwrap hr hadd (hdis hdone) fun a ha hold => ?_
      obtain ⟨q, hq, hqa⟩ := (hcov a).1 hold
      exact hcross q hq r (by simp) a hqa ha

/-- **A region list covers exactly what was added to it**, whichever calls of `add_region`
built it, in whichever order; and disjoint regions stay disjoint. -/
theorem regionList_covers_added {added rs : List Region} (hadded : NoWrap added)
    (h : added.foldlM (fun rs r => addRegion rs r.start r.size) [] = .ok rs) :
    (∀ a, Covers rs a ↔ Covers added a) ∧
    (∀ added' rs' : List Region, added'.Perm added →
      added'.foldlM (fun rs r => addRegion rs r.start r.size) [] = .ok rs' →
        ∀ a, Covers rs' a ↔ Covers rs a) ∧
    (PairwiseDisjoint added → PairwiseDisjoint rs) := by
  obtain ⟨-, hcov, hdis⟩ := addRegions_spec hadded h
  refine ⟨hcov, fun added' rs' hperm h' a => ?_, hdis⟩
  have hadded' : NoWrap added' := fun r hr => hadded r (hperm.mem_iff.1 hr)
  have hsame : Covers added' a ↔ Covers added a := by
    simp only [Covers, hperm.mem_iff]
  rw [(addRegions_spec hadded' h').2.1 a, hsame, hcov a]

/-- Three regions, the last of which closes the gap between the others. -/
theorem regionList_covers_gap :
    [⟨0, 16⟩, ⟨32, 16⟩, ⟨16, 16⟩].foldlM
        (fun rs (r : Region) => addRegion rs r.start r.size) [] =
      .ok [⟨0, 32⟩, ⟨32, 16⟩] ∧
    ∀ a, Covers [⟨0, 32⟩, ⟨32, 16⟩] a ↔ Covers [⟨0, 16⟩, ⟨32, 16⟩, ⟨16, 16⟩] a :=
  ⟨rfl, (regionList_covers_added (by simp [NoWrap]) rfl).1⟩

/-! ### Alignment to pages -/

/-- Masking the page offset rounds down to a page. -/
theorem alignDown_page {x : ℕ} (hx : x < 2 ^ 64) : alignDown x 4096 = x / 4096 * 4096 := by
  have hmask : 2 ^ 64 - 4096 = (2 ^ 52 - 1) <<< 12 := by decide
  refine Nat.eq_of_testBit_eq fun i => ?_
  rw [alignDown, hmask, show x / 4096 * 4096 = (x >>> 12) <<< 12 by
    rw [Nat.shiftLeft_eq, Nat.shiftRight_eq_div_pow]]
  simp only [Nat.testBit_and, Nat.testBit_shiftLeft, Nat.testBit_two_pow_sub_one,
    Nat.testBit_shiftRight]
  by_cases h12 : 12 ≤ i
  · have hi : 12 + (i - 12) = i := by omega
    by_cases h64 : i < 64
    · simp [h12, hi, show i - 12 < 52 by omega]
    · have hbit : x.testBit i = false :=
        Nat.testBit_lt_two_pow (lt_of_lt_of_le hx (Nat.pow_le_pow_right (by decide) (by omega)))
      simp [h12, hi, hbit]
  · simp [h12]

/-- Rounding up to a page, below the end of the address space. -/
theorem alignUp_page {x : ℕ} (hx : x + 4095 < 2 ^ 64) :
    alignUp x 4096 = (x + 4095) / 4096 * 4096 := by
  rw [alignUp, show x + 4096 - 1 = x + 4095 by omega, Nat.mod_eq_of_lt hx, alignDown_page hx]

end Floss
