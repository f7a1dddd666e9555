import Mathlib.Data.List.Basic
import Mathlib.Data.Fin.Basic
import Mathlib.Data.ZMod.Defs
import Mathlib.Algebra.Group.Basic

/-!
# Queues That Forget Their Oldest Element

A queue of bounded capacity that drops its oldest element when a further one arrives,
kept in a ring of slots. This module is about arbitrary elements and capacities.

* `window f s n`: the `n` slots of a ring from slot `s` on, around the end;
  `window_snoc`, `window_cons` and `window_update` say how a window grows at its end,
  shrinks at its start, and ignores a write to the slot behind it;
* `ledger cap h`: the history `h` of a queue of capacity `cap`, replayed with the
  *number* of each element in place of the element. It says which elements were taken,
  which are pending, and drops the oldest pending one when an element arrives at a full
  queue;
* `Replays cap h q`: a queue with contents `q` and history `h` did what the ledger says;
* `Replays.kept`: then the elements taken and those still queued are distinct elements
  of the input in its order, and whatever is missing was dropped from a full queue;
* `Fifo α cap`: the bounded queue itself, and `Queue.Simulates`, `Queue.Simulates.run`: how
  another queue is shown to answer every sequence of calls as it does.
-/

namespace Floss

/-! ### Windows of a ring -/

section Window

variable {α : Type*} {N : ℕ} [NeZero N]

/-- The `n` slots of a ring from slot `s` on. Slot numbers wrap around at `N`. -/
def window (f : Fin N → α) (s : Fin N) (n : ℕ) : List α :=
  (List.range n).map fun k => f (s + Fin.ofNat N k)

@[simp] theorem window_zero (f : Fin N → α) (s : Fin N) : window f s 0 = [] := rfl

@[simp] theorem length_window (f : Fin N → α) (s : Fin N) (n : ℕ) :
    (window f s n).length = n := by
  simp [window]

/-- A window grows at its end by the slot behind it. -/
theorem window_snoc (f : Fin N → α) (s : Fin N) (n : ℕ) :
    window f s (n + 1) = window f s n ++ [f (s + Fin.ofNat N n)] := by
  simp [window, List.range_succ]

/-- Counting on by one moves on by one slot. -/
theorem ofNat_succ (n : ℕ) : Fin.ofNat N (n + 1) = Fin.ofNat N n + 1 := by
  apply Fin.ext
  simp [Fin.val_add, Nat.add_mod]

/-- A window starts with its first slot. -/
theorem window_cons (f : Fin N → α) (s : Fin N) (n : ℕ) :
    window f s (n + 1) = f s :: window f (s + 1) n := by
  have hzero : Fin.ofNat N 0 = 0 := by
    apply Fin.ext
    simp
  have hshift : ∀ k, s + Fin.ofNat N (k + 1) = s + 1 + Fin.ofNat N k := by
    intro k
    rw [ofNat_succ, add_assoc, add_comm 1]
  simp only [window, List.range_succ_eq_map, List.map_cons, List.map_map, hzero, add_zero]
  refine congrArg (f s :: ·) (List.map_congr_left fun k _ => ?_)
  simp only [Function.comp_apply, Nat.succ_eq_add_one, hshift]

/-- A write to the slot behind a window that leaves a slot free does not change it. -/
theorem window_update [DecidableEq (Fin N)] (f : Fin N → α) (s : Fin N) {n : ℕ} (hn : n < N)
    (a : α) : window (Function.update f (s + Fin.ofNat N n) a) s n = window f s n := by
  refine List.map_congr_left fun k hk => ?_
  have hkn : k < n := List.mem_range.1 hk
  have hne : s + Fin.ofNat N k ≠ s + Fin.ofNat N n := by
    intro h
    have hv := congrArg Fin.val (add_left_cancel h)
    simp only [Fin.val_ofNat, Nat.mod_eq_of_lt (hkn.trans hn), Nat.mod_eq_of_lt hn] at hv
    omega
  rw [Function.update_of_ne hne]

end Window

/-! ### The ledger of a history -/

/-- What happens to a queue. -/
inductive QueueEvent (α : Type*)
  /-- an element arrives -/
  | put (a : α)
  /-- the oldest element leaves, and is `a` -/
  | take (a : α)
  deriving DecidableEq, Repr

section Ledger

variable {α : Type*}

/-- The elements that arrived, in order. -/
def puts (h : List (QueueEvent α)) : List α :=
  h.filterMap fun
    | .put a => some a
    | .take _ => none

/-- The elements that left, in order. -/
def takes (h : List (QueueEvent α)) : List α :=
  h.filterMap fun
    | .put _ => none
    | .take a => some a

@[simp] theorem puts_append (h₁ h₂ : List (QueueEvent α)) :
    puts (h₁ ++ h₂) = puts h₁ ++ puts h₂ :=
  List.filterMap_append ..

@[simp] theorem takes_append (h₁ h₂ : List (QueueEvent α)) :
    takes (h₁ ++ h₂) = takes h₁ ++ takes h₂ :=
  List.filterMap_append ..

@[simp] theorem puts_nil : puts ([] : List (QueueEvent α)) = [] := rfl
@[simp] theorem takes_nil : takes ([] : List (QueueEvent α)) = [] := rfl
@[simp] theorem puts_put (a : α) : puts [.put a] = [a] := rfl
@[simp] theorem puts_take (a : α) : puts [.take a] = [] := rfl
@[simp] theorem takes_put (a : α) : takes [.put a] = [] := rfl
@[simp] theorem takes_take (a : α) : takes [.take a] = [a] := rfl

@[simp] theorem puts_map_take (cs : List α) : puts (cs.map .take) = [] := by
  simp [puts, List.filterMap_map]

@[simp] theorem takes_map_take (cs : List α) : takes (cs.map .take) = cs := by
  simp [takes, List.filterMap_map]

/-- Where the elements of a history are, each named by its **number**: the first one
that arrived is `0`. -/
structure Ledger where
  next : ℕ
  pending : List ℕ
  taken : List ℕ

/-- One event. An element that arrives at `cap` pending ones **drops the oldest**. -/
def Ledger.step (cap : ℕ) (L : Ledger) : QueueEvent α → Ledger
  | .put _ =>
    { next := L.next + 1
      pending := (if L.pending.length = cap then L.pending.tail else L.pending) ++ [L.next]
      taken := L.taken }
  | .take _ =>
    { next := L.next
      pending := L.pending.tail
      taken := L.taken ++ L.pending.take 1 }

/-- The ledger of a whole history. -/
def ledger (cap : ℕ) (h : List (QueueEvent α)) : Ledger :=
  h.foldl (Ledger.step cap) ⟨0, [], []⟩

@[simp] theorem ledger_nil (cap : ℕ) :
    ledger cap ([] : List (QueueEvent α)) = ⟨0, [], []⟩ := rfl

@[simp] theorem ledger_snoc (cap : ℕ) (h : List (QueueEvent α)) (e : QueueEvent α) :
    ledger cap (h ++ [e]) = (ledger cap h).step cap e := by
  simp [ledger]

/-- Taking an element moves it from the pending ones to the taken ones. -/
theorem Ledger.step_take (cap : ℕ) (L : Ledger) (a : α) :
    (L.step cap (.take a)).taken ++ (L.step cap (.take a)).pending =
      L.taken ++ L.pending := by
  simp only [Ledger.step]
  rw [List.append_assoc, ← List.drop_one, List.take_append_drop]

/-- Elements are numbered as they arrive. -/
theorem ledger_next (cap : ℕ) (h : List (QueueEvent α)) :
    (ledger cap h).next = (puts h).length := by
  induction h using List.reverseRecOn with
  | nil => rfl
  | append_singleton h e ih =>
    cases e with
    | put a => simp [Ledger.step, ih]
    | take a => simp [Ledger.step, ih]

/-- **Order**: what was taken and then what is pending is in the order of arrival, each
element once. -/
theorem ledger_sorted (cap : ℕ) (h : List (QueueEvent α)) :
    ((ledger cap h).taken ++ (ledger cap h).pending).Pairwise (· < ·) ∧
      ∀ k ∈ (ledger cap h).taken ++ (ledger cap h).pending, k < (ledger cap h).next := by
  induction h using List.reverseRecOn with
  | nil => simp
  | append_singleton h e ih =>
    obtain ⟨hsort, hlt⟩ := ih
    rw [ledger_snoc]
    cases e with
    | put a =>
      -- the new number is above all others, and dropping one keeps the order
      have hsub : ((ledger cap h).taken ++
          (if (ledger cap h).pending.length = cap then (ledger cap h).pending.tail
            else (ledger cap h).pending)).Sublist
          ((ledger cap h).taken ++ (ledger cap h).pending) := by
        refine List.Sublist.append_left ?_ _
        split
        · exact List.tail_sublist _
        · exact List.Sublist.refl _
      simp only [Ledger.step, ← List.append_assoc]
      refine ⟨List.pairwise_append.2 ⟨hsort.sublist hsub, List.pairwise_singleton _ _, ?_⟩, ?_⟩
      · intro k hk j hj
        rw [List.mem_singleton.1 hj]
        exact hlt k (hsub.subset hk)
      · intro k hk
        rcases List.mem_append.1 hk with hk | hk
        · exact Nat.lt_succ_of_lt (hlt k (hsub.subset hk))
        · rw [List.mem_singleton.1 hk]
          exact Nat.lt_succ_self _
    | take a =>
      rw [Ledger.step_take]
      exact ⟨hsort, hlt⟩

/-- **Loss**: an element that is neither taken nor pending was the oldest of `cap`
pending ones when a further element arrived. -/
theorem ledger_missing {cap : ℕ} {h : List (QueueEvent α)} {k : ℕ}
    (hk : k < (ledger cap h).next)
    (hmiss : k ∉ (ledger cap h).taken ++ (ledger cap h).pending) :
    ∃ pre a post, h = pre ++ .put a :: post ∧ (ledger cap pre).pending.length = cap ∧
      (ledger cap pre).pending.head? = some k := by
  induction h using List.reverseRecOn with
  | nil => simp at hk
  | append_singleton h e ih =>
    -- lost before this event, or by it
    have hearlier : k < (ledger cap h).next →
        k ∉ (ledger cap h).taken ++ (ledger cap h).pending → ∃ pre a post,
          h ++ [e] = pre ++ .put a :: post ∧ (ledger cap pre).pending.length = cap ∧
            (ledger cap pre).pending.head? = some k := by
      intro hlt hmem
      obtain ⟨pre, a, post, rfl, hlen, hhead⟩ := ih hlt hmem
      exact ⟨pre, a, post ++ [e], by simp, hlen, hhead⟩
    rw [ledger_snoc] at hk hmiss
    cases e with
    | put a =>
      simp only [Ledger.step, List.mem_append, List.mem_singleton, not_or] at hk hmiss
      obtain ⟨htaken, hpend, hnext⟩ := hmiss
      have hlt : k < (ledger cap h).next := by omega
      by_cases hin : k ∈ (ledger cap h).pending
      · by_cases hfull : (ledger cap h).pending.length = cap
        · rw [if_pos hfull] at hpend
          refine ⟨h, a, [], rfl, hfull, ?_⟩
          cases hp : (ledger cap h).pending with
          | nil => simp [hp] at hin
          | cons j js =>
            simp only [hp, List.tail_cons, List.mem_cons] at hin hpend
            rcases hin with rfl | hin
            · rfl
            · exact absurd hin hpend
        · rw [if_neg hfull] at hpend
          exact absurd hin hpend
      · exact hearlier hlt (by simp [htaken, hin])
    | take a =>
      rw [Ledger.step_take] at hmiss
      exact hearlier hk hmiss

/-- Without more elements than fit, nothing is dropped. -/
theorem ledger_of_le {cap : ℕ} {h : List (QueueEvent α)} (hcap : (puts h).length ≤ cap) :
    (ledger cap h).taken ++ (ledger cap h).pending = List.range (puts h).length := by
  induction h using List.reverseRecOn with
  | nil => rfl
  | append_singleton h e ih =>
    cases e with
    | put a =>
      rw [puts_append, puts_put, List.length_append, List.length_singleton] at hcap ⊢
      have hall := ih (by omega)
      have hlen := congrArg List.length hall
      rw [List.length_append, List.length_range] at hlen
      rw [ledger_snoc, Ledger.step, if_neg (by omega), ← List.append_assoc, hall, ledger_next,
        List.range_succ]
    | take a =>
      rw [puts_append, puts_take, List.append_nil] at hcap ⊢
      rw [ledger_snoc, Ledger.step_take]
      exact ih hcap

/-! ### Queues that follow their ledger -/

/-- A queue with history `h` that now holds `q` **did what the ledger says**: the
elements it holds are the pending ones, those that left are the taken ones. -/
structure Replays (cap : ℕ) (h : List (QueueEvent α)) (q : List α) : Prop where
  held : q.map some = (ledger cap h).pending.map fun k => (puts h)[k]?
  left : (takes h).map some = (ledger cap h).taken.map fun k => (puts h)[k]?

/-- An empty queue without a history. -/
theorem replays_nil (cap : ℕ) : Replays cap ([] : List (QueueEvent α)) [] :=
  ⟨rfl, rfl⟩

/-- What the numbers of a ledger name does not change when elements arrive. -/
theorem map_puts_append {cap : ℕ} {h : List (QueueEvent α)} (l : List α) {ks : List ℕ}
    (hks : ∀ k ∈ ks, k ∈ (ledger cap h).taken ++ (ledger cap h).pending) :
    (ks.map fun k => (puts h ++ l)[k]?) = ks.map fun k => (puts h)[k]? := by
  refine List.map_congr_left fun k hk => ?_
  have hlt := (ledger_sorted cap h).2 k (hks k hk)
  rw [ledger_next] at hlt
  exact List.getElem?_append_left hlt

/-- An arriving element pushes the oldest one out of a full queue. -/
theorem Replays.put {cap : ℕ} {h : List (QueueEvent α)} {q : List α} (hq : Replays cap h q)
    (a : α) :
    Replays cap (h ++ [.put a]) ((if q.length = cap then q.tail else q) ++ [a]) := by
  have hlen : q.length = (ledger cap h).pending.length := by
    simpa using congrArg List.length hq.held
  have hnew : (puts h ++ [a])[(ledger cap h).next]? = some a := by
    rw [ledger_next, List.getElem?_concat_length]
  have hpend : ∀ k ∈ (if (ledger cap h).pending.length = cap then (ledger cap h).pending.tail
      else (ledger cap h).pending), k ∈ (ledger cap h).taken ++ (ledger cap h).pending := by
    intro k hk
    refine List.mem_append_right _ ?_
    split at hk
    · exact List.mem_of_mem_tail hk
    · exact hk
  constructor
  · rw [ledger_snoc, puts_append, puts_put]
    simp only [Ledger.step, List.map_append, List.map_cons, List.map_nil, hnew,
      map_puts_append [a] hpend, hlen]
    split
    · rw [List.map_tail, hq.held, List.map_tail]
    · rw [hq.held]
  · rw [ledger_snoc, puts_append, puts_put, takes_append, takes_put, List.append_nil, hq.left]
    exact (map_puts_append [a] fun k hk => List.mem_append_left _ hk).symm

/-- The element that leaves is the oldest pending one. -/
theorem Replays.take {cap : ℕ} {h : List (QueueEvent α)} {q : List α} {a : α}
    (hq : Replays cap h (a :: q)) : Replays cap (h ++ [.take a]) q := by
  obtain ⟨hheld, hleft⟩ := hq
  cases hp : (ledger cap h).pending with
  | nil => simp [hp] at hheld
  | cons k ks =>
    simp only [hp, List.map_cons, List.cons.injEq] at hheld
    obtain ⟨hk, hks⟩ := hheld
    constructor
    · rw [ledger_snoc, puts_append, puts_take, List.append_nil]
      simpa [Ledger.step, hp] using hks
    · rw [ledger_snoc, puts_append, puts_take, List.append_nil, takes_append, takes_take]
      simp [Ledger.step, hp, hleft, hk]

/-- Several elements that leave one after the other. -/
theorem Replays.takeAll {cap : ℕ} {h : List (QueueEvent α)} {cs q : List α}
    (hq : Replays cap h (cs ++ q)) : Replays cap (h ++ cs.map .take) q := by
  induction cs generalizing h with
  | nil => simpa using hq
  | cons c cs ih =>
    have htail := ih (h := h ++ [.take c]) (Replays.take hq)
    simpa using htail

/-- **Integrity**: what left and what is still held are, in order and each once,
elements that arrived, and every other element was dropped as the oldest of `cap`
pending ones when a further element arrived. -/
theorem Replays.kept {cap : ℕ} {h : List (QueueEvent α)} {q : List α}
    (hq : Replays cap h q) :
    ∃ kept : List ℕ, kept.Pairwise (· < ·) ∧
      (takes h ++ q).map some = (kept.map fun k => (puts h)[k]?) ∧
      ∀ k < (puts h).length, k ∉ kept →
        ∃ pre a post, h = pre ++ .put a :: post ∧ (ledger cap pre).pending.length = cap ∧
          (ledger cap pre).pending.head? = some k := by
  refine ⟨(ledger cap h).taken ++ (ledger cap h).pending, (ledger_sorted cap h).1, ?_, ?_⟩
  · rw [List.map_append, List.map_append, hq.left, hq.held]
  · intro k hk hmiss
    rw [← ledger_next cap h] at hk
    exact ledger_missing hk hmiss

/-- **Nothing lost**: when no more elements arrived than fit, what left and what is held is
all that arrived. -/
theorem Replays.eq_puts {cap : ℕ} {h : List (QueueEvent α)} {q : List α}
    (hq : Replays cap h q) (hcap : (puts h).length ≤ cap) : takes h ++ q = puts h := by
  refine List.map_injective_iff.mpr (Option.some_injective α) ?_
  rw [List.map_append, hq.left, hq.held, ← List.map_append, ledger_of_le hcap]
  exact List.ext_getElem (by simp) fun i h1 h2 => by simp

/-- A queue into which its elements were put one after the other. -/
theorem replays_map_put {cap : ℕ} {q : List α} (hq : q.length ≤ cap) :
    Replays cap (q.map .put) q := by
  induction q using List.reverseRecOn with
  | nil => exact replays_nil cap
  | append_singleton q a ih =>
    rw [List.length_append, List.length_singleton] at hq
    have hput := (ih (by omega)).put a
    rw [if_neg (by omega)] at hput
    simpa using hput

/-- A full queue has seen as many elements arrive. -/
theorem length_pending_le (cap : ℕ) (h : List (QueueEvent α)) :
    (ledger cap h).pending.length ≤ (puts h).length := by
  obtain ⟨hsorted, hlt⟩ := ledger_sorted cap h
  have hsub : (ledger cap h).pending ⊆ List.range (puts h).length := by
    intro k hk
    rw [List.mem_range, ← ledger_next cap h]
    exact hlt k (List.mem_append_right _ hk)
  have hnodup : (ledger cap h).pending.Nodup :=
    (List.pairwise_append.mp hsorted).2.1.imp fun hab => Nat.ne_of_lt hab
  simpa using (hnodup.subperm hsub).length_le

end Ledger

/-! ### Queues as their callers see them -/

/-- A call on a queue. -/
inductive QueueCall (α : Type*)
  | put (a : α)
  | take
  deriving DecidableEq, Repr

/-- A queue with states `σ`: an element is put in, and the next one is taken out. Nothing
comes out of a queue that has nothing to give. -/
structure Queue (α σ : Type*) where
  put : σ → α → σ
  take : σ → Option (α × σ)

namespace Queue

variable {α σ τ : Type*}

/-- The answers of the `take` calls of a sequence, and the state it ends in. -/
def run (Q : Queue α σ) : List (QueueCall α) → σ → List (Option α) × σ
  | [], s => ([], s)
  | .put a :: calls, s => Q.run calls (Q.put s a)
  | .take :: calls, s =>
      let after := Q.run calls ((Q.take s).elim s Prod.snd)
      ((Q.take s).map Prod.fst :: after.1, after.2)

/-- `R` relates the states of two queues that **answer alike**, call by call. -/
structure Simulates (Q : Queue α σ) (Q' : Queue α τ) (R : σ → τ → Prop) : Prop where
  put : ∀ s t a, R s t → R (Q.put s a) (Q'.put t a)
  take : ∀ s t, R s t → (Q.take s = none ∧ Q'.take t = none) ∨
    ∃ a s' t', Q.take s = some (a, s') ∧ Q'.take t = some (a, t') ∧ R s' t'

/-- **Runs of queues that answer alike**: the same answers, and related states. -/
theorem Simulates.run {Q : Queue α σ} {Q' : Queue α τ} {R : σ → τ → Prop}
    (hR : Q.Simulates Q' R) (calls : List (QueueCall α)) {s : σ} {t : τ} (h : R s t) :
    (Q.run calls s).1 = (Q'.run calls t).1 ∧ R (Q.run calls s).2 (Q'.run calls t).2 := by
  induction calls generalizing s t with
  | nil => exact ⟨rfl, h⟩
  | cons call calls ih =>
    cases call with
    | put a => exact ih (hR.put s t a h)
    | take =>
      rcases hR.take s t h with ⟨hs, ht⟩ | ⟨a, s', t', hs, ht, h'⟩
      · obtain ⟨hout, hend⟩ := ih h
        simp only [Queue.run, hs, ht, Option.elim_none, Option.map_none, hout]
        exact ⟨trivial, hend⟩
      · obtain ⟨hout, hend⟩ := ih h'
        simp only [Queue.run, hs, ht, Option.elim_some, Option.map_some, hout]
        exact ⟨trivial, hend⟩

end Queue

/-- The elements of a queue of capacity `cap`, oldest first. -/
structure Fifo (α : Type*) (cap : ℕ) where
  elems : List α
  bounded : elems.length ≤ cap

namespace Fifo

variable {α : Type*} {cap : ℕ}

/-- The queue that holds nothing. -/
def nil : Fifo α cap := ⟨[], Nat.zero_le cap⟩

/-- Append an element; a full queue **first discards its oldest**. -/
def put [NeZero cap] (q : Fifo α cap) (a : α) : Fifo α cap where
  elems := (if q.elems.length = cap then q.elems.tail else q.elems) ++ [a]
  bounded := by
    have hcap : 0 < cap := Nat.pos_of_ne_zero (NeZero.ne cap)
    have hlen := q.bounded
    split
    · rw [List.length_append, List.length_tail, List.length_singleton]
      omega
    · rw [List.length_append, List.length_singleton]
      omega

/-- Remove the oldest element. -/
def take (q : Fifo α cap) : Option (α × Fifo α cap) :=
  q.elems.head?.map fun a =>
    (a, ⟨q.elems.tail, (List.tail_sublist q.elems).length_le.trans q.bounded⟩)

/-- **The bounded queue**, as a queue. -/
def queue (α : Type*) (cap : ℕ) [NeZero cap] : Queue α (Fifo α cap) := ⟨put, take⟩

/-- A queue whose states hold a list of elements, put and taken as a bounded queue does,
answers as it does. -/
theorem simulates_queue [NeZero cap] {σ : Type*} {Q : Queue α σ} {held : σ → List α}
    (hput : ∀ s a, held (Q.put s a) =
      (if (held s).length = cap then (held s).tail else held s) ++ [a])
    (htake : ∀ s, (Q.take s = none ∧ held s = []) ∨
      ∃ a s', Q.take s = some (a, s') ∧ held s = a :: held s') :
    Q.Simulates (queue α cap) fun s q => held s = q.elems where
  put s q a h := by
    rw [hput, h]
    rfl
  take s q h := by
    rcases htake s with ⟨hs, hnil⟩ | ⟨a, s', hs, hcons⟩
    · exact .inl ⟨hs, by simp [queue, take, ← h, hnil]⟩
    · have hq : q.elems = a :: held s' := h.symm.trans hcons
      exact .inr ⟨a, s', _, hs, by simp [queue, take, hq]; rfl, by simp⟩

end Fifo

end Floss
