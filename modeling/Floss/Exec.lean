import Mathlib.Data.List.Basic
import Mathlib.Logic.Function.Basic

/-!
# Runs That May Stop

The programs modelled here run on bare metal: a failed assertion never returns, a load
may leave the memory that was handed to the program, an array index may leave its
array, a divisor may be zero. `Exec α` is a run that ends with a value of type `α` or
stops with a `Fault` that says which of these happened.

Loops are folds: a counted loop is `List.foldlM` over the values of its counter. The
two rules below are the ones every loop of the development is proved with.

* `foldlM_invariant`: what each iteration preserves holds after a completed loop;
* `foldlM_total`: if each iteration completes and preserves the invariant, the loop
  completes and establishes it.

Both carry the list of elements already processed, so that an invariant can speak about
the part of the input that is done. `Avoids x bad` says that a run does not stop with a
fault of one kind, and `foldlM_avoids` is the rule for loops.
-/

namespace Floss

/-- Why a run stops before its end. -/
inductive Fault
  /-- a load from an address at which no byte is readable -/
  | access (addr : ℕ)
  /-- an array index outside the array -/
  | bounds (idx size : ℕ)
  /-- a failed assertion or an explicit panic, with the text it prints -/
  | panic (detail : String)
  /-- a division by zero -/
  | divZero
  /-- the iteration bound of a modelled loop is used up -/
  | fuel
  deriving DecidableEq, Repr

/-- The fault of an index outside its array. -/
def Fault.IsBounds (e : Fault) : Prop := ∃ idx size, e = .bounds idx size

/-- A run that ends with a value or stops with a fault. -/
abbrev Exec (α : Type) := Except Fault α

/-- An assertion: the run stops with `detail` unless `p` holds. -/
def kassert (p : Prop) [Decidable p] (detail : String) : Exec Unit :=
  if p then .ok () else .error (.panic detail)

/-- The bounds check of an access to slot `idx` of an array of `size` slots. -/
def inBounds (idx size : ℕ) : Exec Unit :=
  if idx < size then .ok () else .error (.bounds idx size)

/-- The quotient of two unsigned numbers. -/
def udiv (n d : ℕ) : Exec ℕ :=
  if d = 0 then .error .divZero else .ok (n / d)

/-- The remainder of two unsigned numbers. -/
def umod (n d : ℕ) : Exec ℕ :=
  if d = 0 then .error .divZero else .ok (n % d)

section Bind

variable {α β : Type} {x : Exec α} {f : α → Exec β} {a : α} {b : β}

/-- A sequence ends with `b` exactly when its first part ends with some value from
which the second ends with `b`. -/
theorem bind_eq_ok : (x >>= f) = .ok b ↔ ∃ a, x = .ok a ∧ f a = .ok b := by
  cases x with
  | error e => simp [bind, Except.bind]
  | ok a => simp [bind, Except.bind]

@[simp] theorem ok_bind : ((Except.ok a : Exec α) >>= f) = f a := rfl

@[simp] theorem error_bind {e : Fault} : ((Except.error e : Exec α) >>= f) = .error e := rfl

@[simp] theorem bind_ok : (x >>= fun a => Except.ok a) = x := by
  cases x <;> rfl

@[simp] theorem pure_eq_ok : (pure a : Exec α) = .ok a := rfl

/-- The value of a run, seen through a function. -/
theorem map_eq_ok {g : α → β} : x.map g = .ok b ↔ ∃ a, x = .ok a ∧ g a = b := by
  cases x with
  | error e => simp [Except.map]
  | ok a => simp [Except.map]

end Bind

@[simp] theorem kassert_eq_ok {p : Prop} [Decidable p] {detail : String} {u : Unit} :
    kassert p detail = .ok u ↔ p := by
  by_cases h : p <;> simp [kassert, h]

/-- An assertion that holds does nothing. -/
theorem kassert_of {p : Prop} [Decidable p] (h : p) (detail : String) :
    kassert p detail = .ok () := by
  simp [kassert, h]

@[simp] theorem inBounds_eq_ok {idx size : ℕ} {u : Unit} :
    inBounds idx size = .ok u ↔ idx < size := by
  by_cases h : idx < size <;> simp [inBounds, h]

/-- An access inside the array passes its bounds check. -/
theorem inBounds_of {idx size : ℕ} (h : idx < size) : inBounds idx size = .ok () := by
  simp [inBounds, h]

theorem udiv_of {d : ℕ} (h : d ≠ 0) (n : ℕ) : udiv n d = .ok (n / d) := by
  simp [udiv, h]

theorem umod_of {d : ℕ} (h : d ≠ 0) (n : ℕ) : umod n d = .ok (n % d) := by
  simp [umod, h]

/-! ### Faults that do not happen -/

section Avoids

variable {α β : Type} {x : Exec α} {f : α → Exec β} {bad : Fault → Prop}

/-- The run does not stop with a fault of a given kind. It may stop with another one. -/
def Avoids (x : Exec α) (bad : Fault → Prop) : Prop := ∀ e, x = .error e → ¬ bad e

@[simp] theorem avoids_ok (a : α) : Avoids (.ok a : Exec α) bad := by
  intro e h
  simp at h

theorem avoids_error {e : Fault} (h : ¬ bad e) : Avoids (.error e : Exec α) bad := by
  intro e' he
  obtain rfl : e = e' := by simpa using he
  exact h

/-- **The sequence rule**: the second part only has to avoid the fault after the first
one has ended. -/
theorem Avoids.bind (hx : Avoids x bad) (hf : ∀ a, x = .ok a → Avoids (f a) bad) :
    Avoids (x >>= f) bad := by
  cases x with
  | error e => exact avoids_error (hx e rfl)
  | ok a => exact hf a rfl

theorem avoids_kassert {p : Prop} [Decidable p] {detail : String}
    (h : ¬ p → ¬ bad (.panic detail)) : Avoids (kassert p detail) bad := by
  rw [kassert]
  split
  · exact avoids_ok ()
  · exact avoids_error (h ‹_›)

theorem avoids_inBounds {idx size : ℕ} (h : ¬ idx < size → ¬ bad (.bounds idx size)) :
    Avoids (inBounds idx size) bad := by
  rw [inBounds]
  split
  · exact avoids_ok ()
  · exact avoids_error (h ‹_›)

end Avoids

/-! ### Loop rules -/

section Loop

variable {α σ : Type} {f : σ → α → Exec σ}

/-- Running a concatenation is running its parts in turn. -/
theorem foldlM_append_eq_ok {l₁ l₂ : List α} {s r : σ} :
    (l₁ ++ l₂).foldlM f s = .ok r ↔
      ∃ t, l₁.foldlM f s = .ok t ∧ l₂.foldlM f t = .ok r := by
  rw [List.foldlM_append, bind_eq_ok]

/-- **The invariant rule.** `Inv done s` relates the elements already processed to the
state. -/
theorem foldlM_invariant (Inv : List α → σ → Prop) {l : List α} {s r : σ}
    (h0 : Inv [] s)
    (hstep : ∀ done a rest t u, l = done ++ a :: rest → Inv done t → f t a = .ok u →
      Inv (done ++ [a]) u)
    (hrun : l.foldlM f s = .ok r) : Inv l r := by
  suffices H : ∀ (done rest : List α) (t : σ), l = done ++ rest → Inv done t →
      rest.foldlM f t = .ok r → Inv l r from H [] l s rfl h0 hrun
  intro done rest
  induction rest generalizing done with
  | nil =>
      intro t hl hinv hr
      obtain rfl : t = r := by simpa using hr
      simpa [hl] using hinv
  | cons a rest ih =>
      intro t hl hinv hr
      rw [List.foldlM_cons, bind_eq_ok] at hr
      obtain ⟨u, hu, hr⟩ := hr
      exact ih (done ++ [a]) u (by simp [hl]) (hstep done a rest t u hl hinv hu) hr

/-- **The total rule**: under the invariant every iteration completes, so the loop
does. -/
theorem foldlM_total (Inv : List α → σ → Prop) {l : List α} {s : σ}
    (h0 : Inv [] s)
    (hstep : ∀ done a rest t, l = done ++ a :: rest → Inv done t →
      ∃ u, f t a = .ok u ∧ Inv (done ++ [a]) u) :
    ∃ r, l.foldlM f s = .ok r ∧ Inv l r := by
  suffices H : ∀ (done rest : List α) (t : σ), l = done ++ rest → Inv done t →
      ∃ r, rest.foldlM f t = .ok r ∧ Inv l r from H [] l s rfl h0
  intro done rest
  induction rest generalizing done with
  | nil =>
      intro t hl hinv
      exact ⟨t, rfl, by simpa [hl] using hinv⟩
  | cons a rest ih =>
      intro t hl hinv
      obtain ⟨u, hu, hinv'⟩ := hstep done a rest t hl hinv
      obtain ⟨r, hr, hlr⟩ := ih (done ++ [a]) u (by simp [hl]) hinv'
      exact ⟨r, by rw [List.foldlM_cons, hu, ok_bind, hr], hlr⟩

/-- **Loops that avoid a fault**: each iteration does, and keeps the invariant. -/
theorem foldlM_avoids {bad : Fault → Prop} (Inv : List α → σ → Prop) {l : List α} {s : σ}
    (h0 : Inv [] s)
    (hstep : ∀ done a rest t, l = done ++ a :: rest → Inv done t →
      Avoids (f t a) bad ∧ ∀ u, f t a = .ok u → Inv (done ++ [a]) u) :
    Avoids (l.foldlM f s) bad := by
  suffices H : ∀ (rest done : List α) (t : σ), l = done ++ rest → Inv done t →
      Avoids (rest.foldlM f t) bad from H l [] s rfl h0
  intro rest
  induction rest with
  | nil => exact fun _ t _ _ => avoids_ok t
  | cons a rest ih =>
      intro done t hl hinv
      obtain ⟨havoid, hkeep⟩ := hstep done a rest t hl hinv
      rw [List.foldlM_cons]
      exact havoid.bind fun u hu => ih (done ++ [a]) u (by simp [hl]) (hkeep u hu)

/-- A loop avoids a fault that none of its iterations can have. -/
theorem foldlM_avoids_of_mem {bad : Fault → Prop} {l : List α}
    (h : ∀ a ∈ l, ∀ t, Avoids (f t a) bad) (s : σ) : Avoids (l.foldlM f s) bad := by
  refine foldlM_avoids (fun _ _ => True) trivial ?_
  intro done a rest t hl _
  exact ⟨h a (by simp [hl]) t, fun _ _ => trivial⟩

/-- **The invariant rule for counted loops**: `Inv i` holds before the iteration with
counter `i`. -/
theorem foldlM_range_invariant {f : σ → ℕ → Exec σ} (Inv : ℕ → σ → Prop) {n : ℕ} {s r : σ}
    (h0 : Inv 0 s) (hstep : ∀ i t u, i < n → Inv i t → f t i = .ok u → Inv (i + 1) u)
    (hrun : (List.range n).foldlM f s = .ok r) : Inv n r := by
  induction n generalizing r with
  | zero =>
      obtain rfl : s = r := by simpa using hrun
      exact h0
  | succ n ih =>
      rw [List.range_succ, foldlM_append_eq_ok] at hrun
      obtain ⟨t, ht, hr⟩ := hrun
      have hn : Inv n t := ih (fun i t u hi => hstep i t u (by omega)) ht
      exact hstep n t r (by omega) hn (by simpa using hr)

end Loop

end Floss
