import Floss.ByteMem
import Mathlib.Data.List.TakeWhile

/-!
# The String Routines

The model of the string functions of `src/libcstubs.cpp`, with the loads each of them
makes. Their second argument is a literal of the program in every call that the device
tree code makes with `strcmp`; a literal is given by its bytes, without the terminator.
-/

namespace Floss

/-- The bytes of a string literal, without its terminator. -/
def cstr (s : String) : List UInt8 :=
  s.toList.map fun c => UInt8.ofNat c.toNat

/-- `strcmp` against a literal. -/
def strcmp (m : Mem) (s1 : ℕ) : List UInt8 → Exec ℤ
  | [] => do
      let c1 ← m.load s1
      return (c1.toNat : ℤ)
  | c2 :: s2 => do
      let c1 ← m.load s1
      if c1 ≠ 0 ∧ c1 = c2 then
        strcmp m (s1 + 1) s2
      else
        return (c1.toNat : ℤ) - c2.toNat

/-- `strncmp`. Both strings are in memory; the loop compares before it counts, so at
least one byte of each is read whatever the bound is. -/
def strncmp (m1 : Mem) (s1 : ℕ) (m2 : Mem) (s2 : ℕ) : (charactersLeft : ℕ) → Exec ℤ
  | left + 2 => do
      let c1 ← m1.load s1
      let c2 ← m2.load s2
      if c1 ≠ 0 ∧ c1 = c2 then
        strncmp m1 (s1 + 1) m2 (s2 + 1) (left + 1)
      else
        return (c1.toNat : ℤ) - c2.toNat
  | _ => do
      let c1 ← m1.load s1
      let c2 ← m2.load s2
      return (c1.toNat : ℤ) - c2.toNat

/-- `strlen` of a literal. -/
def strlen : List UInt8 → ℕ
  | [] => 0
  | c :: s => if c = 0 then 0 else strlen s + 1

/-- `strnlen`. The byte is read before the bound is checked. -/
def strnlen (m : Mem) (s : ℕ) : (maxlen : ℕ) → Exec ℕ
  | 0 => do
      let _ ← m.load s
      return 0
  | maxlen + 1 => do
      if (← m.load s) ≠ 0 then
        let n ← strnlen m (s + 1) maxlen
        return n + 1
      else
        return 0

/-- A literal as the program has it in memory: its bytes and the terminator, at `0`. -/
def litMem (s : List UInt8) : Mem := Mem.ofBytes 0 (s ++ [0])

/-! ### What they compute -/

/-- `strcmp` of a string against a literal is zero exactly when they are equal. -/
theorem strcmp_spec {m : Mem} {a : ℕ} {s : List UInt8} (hs : StrAt m a s) (lit : List UInt8)
    (hlit : (0 : UInt8) ∉ lit) : ∃ r, strcmp m a lit = .ok r ∧ (r = 0 ↔ s = lit) := by
  induction lit generalizing a s with
  | nil =>
      cases s with
      | nil =>
          have h0 : m.load a = .ok 0 := Mem.load_eq_ok.mpr (strAt_nil.mp hs)
          exact ⟨0, by simp [strcmp, h0], by simp⟩
      | cons b s =>
          obtain ⟨hb, hne, -⟩ := strAt_cons.mp hs
          have hload : m.load a = .ok b := Mem.load_eq_ok.mpr hb
          refine ⟨b.toNat, by simp [strcmp, hload], ?_⟩
          have hb0 : b.toNat ≠ 0 := fun h => hne (UInt8.toNat_inj.mp h)
          simp [hb0]
  | cons c lit ih =>
      obtain ⟨hc, hlit⟩ : ¬ (0 : UInt8) = c ∧ (0 : UInt8) ∉ lit := by
        simpa only [List.mem_cons, not_or] using hlit
      cases s with
      | nil =>
          have h0 : m.load a = .ok 0 := Mem.load_eq_ok.mpr (strAt_nil.mp hs)
          refine ⟨-c.toNat, by simp [strcmp, h0], ?_⟩
          have hc0 : c.toNat ≠ 0 := fun h => hc (UInt8.toNat_inj.mp h).symm
          simp [hc0]
      | cons b s =>
          obtain ⟨hb, hne, hs⟩ := strAt_cons.mp hs
          have hload : m.load a = .ok b := Mem.load_eq_ok.mpr hb
          by_cases hbc : b = c
          · obtain ⟨r, hr, hiff⟩ := ih hs hlit
            refine ⟨r, ?_, by simp [hiff, hbc]⟩
            simp only [strcmp, hload, ok_bind, hbc] at hr ⊢
            rw [if_pos ⟨fun h => hc h.symm, trivial⟩, hr]
          · refine ⟨b.toNat - c.toNat, by simp [strcmp, hload, hbc], ?_⟩
            have hne' : b.toNat ≠ c.toNat := fun h => hbc (UInt8.toNat_inj.mp h)
            simp only [List.cons.injEq, hbc, false_and, iff_false]
            omega

theorem strlen_eq {s : List UInt8} (hs : (0 : UInt8) ∉ s) : strlen s = s.length := by
  induction s with
  | nil => rfl
  | cons c s ih =>
      obtain ⟨hc, hs⟩ : ¬ (0 : UInt8) = c ∧ (0 : UInt8) ∉ s := by
        simpa only [List.mem_cons, not_or] using hs
      simp [strlen, Ne.symm hc, ih hs]

/-- The length `strnlen` computes: up to the first NUL, at most all of the bytes. When
they have no NUL it reads the byte after them. -/
theorem strnlen_spec {m : Mem} {a : ℕ} {bs : List UInt8} (hbs : Holds m a bs)
    (hnext : (0 : UInt8) ∉ bs → ∃ b, m (a + bs.length) = some b) :
    strnlen m a bs.length = .ok (bs.takeWhile (· ≠ 0)).length := by
  induction bs generalizing a with
  | nil =>
      obtain ⟨b, hb⟩ := hnext (by simp)
      have hload : m.load a = .ok b := Mem.load_eq_ok.mpr (by simpa using hb)
      simp [strnlen, hload]
  | cons c bs ih =>
      obtain ⟨hc, hbs⟩ := holds_cons.mp hbs
      have hload : m.load a = .ok c := Mem.load_eq_ok.mpr hc
      by_cases h0 : c = 0
      · simp [strnlen, hload, h0]
      · have hnext' : (0 : UInt8) ∉ bs → ∃ b, m (a + 1 + bs.length) = some b := by
          intro hmem
          simpa only [List.length_cons, Nat.add_assoc, Nat.add_comm 1] using
            hnext (by simp [Ne.symm h0, hmem])
        simp [strnlen, hload, h0, ih hbs hnext']

/-- Without a NUL among the bytes, `strnlen` stops at the byte after them when it cannot
be read. -/
theorem strnlen_past {m : Mem} {a : ℕ} {bs : List UInt8} (hbs : Holds m a bs)
    (h0 : (0 : UInt8) ∉ bs) (hnext : m (a + bs.length) = none) :
    strnlen m a bs.length = .error (.access (a + bs.length)) := by
  induction bs generalizing a with
  | nil =>
      have hload : m.load a = .error (.access a) := by
        rw [Mem.load, show m a = none by simpa using hnext]
      simp [strnlen, hload]
  | cons c bs ih =>
      obtain ⟨hc, hbs⟩ := holds_cons.mp hbs
      obtain ⟨hc0, h0⟩ : ¬ (0 : UInt8) = c ∧ (0 : UInt8) ∉ bs := by
        simpa only [List.mem_cons, not_or] using h0
      have hload : m.load a = .ok c := Mem.load_eq_ok.mpr hc
      have hidx : a + (c :: bs).length = a + 1 + bs.length := by
        rw [List.length_cons]
        omega
      rw [hidx] at hnext ⊢
      simp [strnlen, hload, Ne.symm hc0, ih hbs h0 hnext]

/-- What the result of comparing `bs` with `cs` is to be: zero exactly when they agree up
to the first NUL or to their end, and otherwise of the sign of the first difference, the
bytes taken as unsigned. -/
def Orders (r : ℤ) (bs cs : List UInt8) : Prop :=
  (r = 0 ↔ bs.takeWhile (· ≠ 0) = cs.takeWhile (· ≠ 0)) ∧
    ∀ pre b bs' c cs', bs = pre ++ b :: bs' → cs = pre ++ c :: cs' → (0 : UInt8) ∉ pre →
      b ≠ c → r.sign = ((b.toNat : ℤ) - c.toNat).sign

/-- Strings that differ in their first bytes are ordered by them. -/
theorem orders_of_ne {b c : UInt8} (hbc : b ≠ c) (bs cs : List UInt8) :
    Orders ((b.toNat : ℤ) - c.toNat) (b :: bs) (c :: cs) := by
  have hdiff : (b.toNat : ℤ) - c.toNat ≠ 0 := fun h => hbc (UInt8.toNat_inj.mp (by omega))
  refine ⟨⟨fun h => absurd h hdiff, fun h => absurd ?_ hbc⟩, ?_⟩
  · by_cases hb : b = 0
    · by_cases hc : c = 0
      · rw [hb, hc]
      · simp [hb, hc] at h
    · by_cases hc : c = 0
      · simp [hb, hc] at h
      · simp only [List.takeWhile_cons, ne_eq, hb, hc, not_false_eq_true, decide_true,
          if_true, List.cons.injEq] at h
        exact h.1
  · intro pre b' bs' c' cs' hbs hcs _ _
    cases pre with
    | nil => rw [(List.cons.inj hbs).1, (List.cons.inj hcs).1]
    | cons d pre => exact absurd ((List.cons.inj hbs).1.trans (List.cons.inj hcs).1.symm) hbc

/-- Strings that both end in their first byte are equal. -/
theorem orders_nul (bs cs : List UInt8) : Orders 0 (0 :: bs) (0 :: cs) := by
  refine ⟨by simp, ?_⟩
  intro pre b bs' c cs' hbs hcs hpre hbc
  cases pre with
  | nil => exact absurd ((List.cons.inj hbs).1.symm.trans (List.cons.inj hcs).1) hbc
  | cons d pre => simp [← (List.cons.inj hbs).1] at hpre

/-- A first byte in common leaves the order to the rest. -/
theorem Orders.cons {r : ℤ} {bs cs : List UInt8} (h : Orders r bs cs) {b : UInt8}
    (hb : b ≠ 0) : Orders r (b :: bs) (b :: cs) := by
  refine ⟨by simp [hb, h.1], ?_⟩
  intro pre b' bs' c' cs' hbs hcs hpre hbc
  cases pre with
  | nil => exact absurd ((List.cons.inj hbs).1.symm.trans (List.cons.inj hcs).1) hbc
  | cons d pre =>
      refine h.2 pre b' bs' c' cs' (List.cons.inj hbs).2 (List.cons.inj hcs).2 ?_ hbc
      exact fun h0 => hpre (List.mem_cons_of_mem d h0)

/-- `strncmp` of at least one byte orders the strings. -/
theorem strncmp_orders {m1 : Mem} {s : ℕ} {m2 : Mem} {t : ℕ} {bs cs : List UInt8}
    (hbs : Holds m1 s bs) (hcs : Holds m2 t cs) (hlen : bs.length = cs.length)
    (hne : bs ≠ []) : ∃ r, strncmp m1 s m2 t bs.length = .ok r ∧ Orders r bs cs := by
  induction bs generalizing s t cs with
  | nil => exact absurd rfl hne
  | cons b bs ih =>
      cases cs with
      | nil => simp at hlen
      | cons c cs =>
          obtain ⟨hb, hbs'⟩ := holds_cons.mp hbs
          obtain ⟨hc, hcs'⟩ := holds_cons.mp hcs
          have hload : m1.load s = .ok b := Mem.load_eq_ok.mpr hb
          have hload2 : m2.load t = .ok c := Mem.load_eq_ok.mpr hc
          have hlen' : bs.length = cs.length := by simpa using hlen
          by_cases hbc : b = c
          · subst hbc
            by_cases hb0 : b = 0
            · subst hb0
              refine ⟨0, ?_, orders_nul bs cs⟩
              cases bs with
              | nil => simp [strncmp, hload, hload2]
              | cons b' bs => simp [strncmp, hload, hload2]
            · cases bs with
              | nil =>
                  obtain rfl : cs = [] := by simpa using hlen'.symm
                  refine ⟨0, by simp [strncmp, hload, hload2], ?_⟩
                  refine Orders.cons ⟨by simp, ?_⟩ hb0
                  intro pre b' bs' c' cs' hnil
                  simp at hnil
              | cons b' bs =>
                  obtain ⟨r, hr, hord⟩ := ih hbs' hcs' hlen' (by simp)
                  refine ⟨r, ?_, hord.cons hb0⟩
                  simp only [List.length_cons] at hr ⊢
                  simp only [strncmp, hload, hload2, ok_bind]
                  rw [if_pos ⟨hb0, trivial⟩, hr]
          · refine ⟨b.toNat - c.toNat, ?_, orders_of_ne hbc bs cs⟩
            cases bs with
            | nil => simp [strncmp, hload, hload2]
            | cons b' bs => simp [strncmp, hload, hload2, hbc]

/-- `strncmp` of as many bytes as the literal has, none of them NUL, is zero exactly when
they are those of the literal. -/
theorem strncmp_spec {m : Mem} {a : ℕ} {m2 : Mem} {b : ℕ} {s lit : List UInt8}
    (hs : Holds m a s) (hlit : Holds m2 b lit) (hlen : s.length = lit.length)
    (h0 : (0 : UInt8) ∉ s) (hne : s ≠ []) :
    ∃ r, strncmp m a m2 b s.length = .ok r ∧ (r = 0 ↔ s = lit) := by
  obtain ⟨r, hr, hord⟩ := strncmp_orders hs hlit hlen hne
  have hs0 : s.takeWhile (· ≠ 0) = s :=
    List.takeWhile_eq_self_iff.mpr fun c hc => decide_eq_true fun h => h0 (h ▸ hc)
  refine ⟨r, hr, hord.1.trans ?_⟩
  rw [hs0]
  constructor
  · intro h
    have hpre : s <+: lit := h ▸ List.takeWhile_prefix _
    exact hpre.eq_of_length hlen
  · rintro rfl
    exact hs0.symm

/-! ### Staying within the bound -/

/-- With only the first `n` bytes readable, `strnlen` returns the position of the first NUL
among them, `n` when there is none. -/
def StrnlenWithin (m : Mem) (s n : ℕ) (bs : List UInt8) : Prop :=
  strnlen (m.restrict s (s + n)) s n = .ok (bs.takeWhile (· ≠ 0)).length

/-- With only the first `n` bytes of each string readable, `strncmp` orders them. -/
def StrncmpWithin (m1 : Mem) (s : ℕ) (m2 : Mem) (t n : ℕ) (bs cs : List UInt8) : Prop :=
  ∃ r, strncmp (m1.restrict s (s + n)) s (m2.restrict t (t + n)) t n = .ok r ∧ Orders r bs cs

/-- **Both routines read before they count.** Where only the first `n` bytes may be read,
`strnlen` needs a NUL among them and `strncmp` needs at least one byte. -/
theorem strnlen_strncmp_within {m1 m2 : Mem} {s t n : ℕ} {bs cs : List UInt8}
    (hbs : Holds m1 s bs) (hcs : Holds m2 t cs) (hbn : bs.length = n) (hcn : cs.length = n) :
    (StrnlenWithin m1 s n bs ↔ (0 : UInt8) ∈ bs) ∧
      (StrncmpWithin m1 s m2 t n bs cs ↔ 1 ≤ n) := by
  subst hbn
  have hbs' := hbs.restrict le_rfl le_rfl
  have hcs' := hcs.restrict le_rfl (hcn ▸ le_rfl : t + cs.length ≤ t + bs.length)
  refine ⟨⟨fun h => ?_, fun h => ?_⟩, ⟨fun h => ?_, fun h => ?_⟩⟩
  · by_contra h0
    have hend : m1.restrict s (s + bs.length) (s + bs.length) = none := by simp [Mem.restrict]
    rw [StrnlenWithin, strnlen_past hbs' h0 hend] at h
    cases h
  · exact strnlen_spec hbs' fun h0 => absurd h h0
  · by_contra h0
    obtain ⟨r, hr, -⟩ := h
    rw [show bs.length = 0 by omega] at hr
    simp [strncmp, Mem.load, Mem.restrict] at hr
  · exact strncmp_orders hbs' hcs' hcn.symm (List.length_pos_iff.mp h)

/-- Two short strings in two bytes each: both are measured and compared inside them. -/
theorem strnlen_strncmp_within_two_bytes :
    StrnlenWithin (Mem.ofBytes 16 [97, 0]) 16 2 [97, 0] ∧
      StrncmpWithin (Mem.ofBytes 16 [97, 0]) 16 (Mem.ofBytes 32 [98, 0]) 32 2 [97, 0] [98, 0] := by
  have h := strnlen_strncmp_within (holds_ofBytes 16 [97, 0]) (holds_ofBytes 32 [98, 0])
    (n := 2) rfl rfl
  exact ⟨h.1.mpr (by decide), h.2.mpr (by decide)⟩

/-- A buffer of one byte that is not NUL is measured by reading the byte after it, and
comparing no bytes at all reads the first byte of each string. -/
theorem not_strnlen_strncmp_within :
    ¬ StrnlenWithin (Mem.ofBytes 16 [97]) 16 1 [97] ∧
      ¬ StrncmpWithin (Mem.ofBytes 16 [97]) 16 (Mem.ofBytes 32 [98]) 32 0 [] [] := by
  constructor
  · intro h
    simp [StrnlenWithin, strnlen, Mem.load, Mem.restrict, Mem.ofBytes] at h
  · rintro ⟨r, hr, -⟩
    simp [strncmp, Mem.load, Mem.restrict] at hr

/-! ### How they stop -/

section Avoids

variable {bad : Fault → Prop} (haccess : ∀ a, ¬ bad (.access a))

include haccess

/-- The string routines stop with access faults only. -/
theorem strcmp_avoids (m : Mem) (a : ℕ) (lit : List UInt8) : Avoids (strcmp m a lit) bad := by
  induction lit generalizing a with
  | nil => exact Avoids.bind (load_avoids haccess m a) fun _ _ => avoids_ok _
  | cons c lit ih =>
      rw [strcmp]
      refine Avoids.bind (load_avoids haccess m a) fun c1 _ => ?_
      split
      · exact ih (a + 1)
      · exact avoids_ok _

theorem strncmp_avoids (m m2 : Mem) (a b n : ℕ) : Avoids (strncmp m a m2 b n) bad := by
  induction n generalizing a b with
  | zero =>
      exact Avoids.bind (load_avoids haccess m a) fun _ _ =>
        Avoids.bind (load_avoids haccess m2 b) fun _ _ => avoids_ok _
  | succ n ih =>
      cases n with
      | zero =>
          exact Avoids.bind (load_avoids haccess m a) fun _ _ =>
            Avoids.bind (load_avoids haccess m2 b) fun _ _ => avoids_ok _
      | succ n =>
          rw [strncmp]
          refine Avoids.bind (load_avoids haccess m a) fun c1 _ => ?_
          refine Avoids.bind (load_avoids haccess m2 b) fun c2 _ => ?_
          split
          · exact ih (a + 1) (b + 1)
          · exact avoids_ok _

theorem strnlen_avoids (m : Mem) (a n : ℕ) : Avoids (strnlen m a n) bad := by
  induction n generalizing a with
  | zero => exact Avoids.bind (load_avoids haccess m a) fun _ _ => avoids_ok _
  | succ n ih =>
      rw [strnlen]
      refine Avoids.bind (load_avoids haccess m a) fun c _ => ?_
      split
      · exact Avoids.bind (ih (a + 1)) fun _ _ => avoids_ok _
      · exact avoids_ok _

end Avoids

end Floss
