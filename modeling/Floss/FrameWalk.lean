import Floss.Roundtrip
import Floss.Frames

/-!
# Runs of the Two Passes

Facts about the passes as runs over a token stream, before anything is said about trees.

* `walkTokens_eq_foldlM`: on every readable structure block the token loop is a fold of
  its body over finitely many parser states, so its iteration bound is never reached.
* `walkTokens_atItems`: on a flattened tree these states show the items of the tree.
* `parseFramesFull_of_calls`: the handler calls of the second pass do not depend on what
  the handlers do. Whatever handlers are plugged in, the pass runs them on the recorded
  calls, in order.
-/

namespace Floss

/-- The slot remembered for a kind of handler. -/
def NodeFrame.idx (f : NodeFrame) : MatchKind → ℤ
  | .compatible => f.compatiblePropIdx
  | .deviceType => f.deviceTypePropIdx

section Loop

variable {σ : Type}

/-- **The token loop is a fold** over the states the parser goes through, whatever the
block holds. Given a word of fuel for every word left in the block and one more, the bound
is not reached. -/
theorem walkTokens_eq_foldlM {m : Mem} {p : Parser} {fuel : ℕ}
    (hr : m.Readable p.pos p.structEnd) (hv : p.valid = true)
    (hfuel : (p.structEnd - p.pos) / 4 < fuel) :
    ∃ qs : List Parser, (∀ q ∈ qs, q.current ≠ .fdtEnd) ∧
      ∀ (σ : Type) (body : σ → Parser → Exec σ) (s : σ),
        walkTokens m body fuel p s = qs.foldlM body s := by
  induction fuel generalizing p with
  | zero => omega
  | succ fuel ih =>
      obtain ⟨q, hq, hspec⟩ := Parser.next_spec hr hv
      obtain ⟨-, hend, -, -, hvalid⟩ := hspec.block
      by_cases htok : q.current = .fdtEnd
      · exact ⟨[], by simp, fun σ body s => by simp [walkTokens, hq, htok]⟩
      · have hadv := hspec.advanced htok
        have hmono := hspec.mono
        obtain ⟨qs, hne, hrun⟩ := ih (p := q) (hr.mono hmono hend.le) (hvalid.trans hv)
          (by rw [hend]; omega)
        refine ⟨q :: qs, ?_, fun σ body s => ?_⟩
        · intro r hr'
          rcases List.mem_cons.mp hr' with rfl | hr'
          · exact htok
          · exact hne r hr'
        · simp only [walkTokens, hq, ok_bind, if_neg htok, List.foldlM_cons, hrun]

/-- The parser states that the token loop of a pass goes through, one per token. -/
def tokenStates (m : Mem) (fdt : ℕ) : Exec (Status × List Parser) :=
  walkBlob m fdt (fun qs q => .ok (qs ++ [q])) []

/-- Collecting the elements of a list gives the list. -/
theorem foldlM_collect {α : Type} (l done : List α) :
    l.foldlM (fun qs q => (.ok (qs ++ [q]) : Exec (List α))) done = .ok (done ++ l) := by
  induction l generalizing done with
  | nil => simp
  | cons a l ih => rw [List.foldlM_cons, ok_bind, ih, List.append_assoc, List.singleton_append]

/-- **A pass is a fold over the token states** of the blob, for every accepted blob and
every loop body. -/
theorem walkBlob_eq_foldlM {m : Mem} {fdt : ℕ} {h : Header} (hfdt : fdt ≠ nullptr)
    (hh : HeaderAt m fdt h) (hc : h.Consistent) (hblob : m.Readable fdt (fdt + h.totalsize)) :
    ∃ qs : List Parser, tokenStates m fdt = .ok (.ok, qs) ∧
      ∀ (σ : Type) (body : σ → Parser → Exec σ) (s : σ),
        walkBlob m fdt body s = (do let s ← qs.foldlM body s; return (.ok, s)) := by
  have hstruct := hc.struct
  have hinit := init_start hfdt hh hc
  have hr : m.Readable (Parser.start fdt h).pos (Parser.start fdt h).structEnd :=
    hblob.mono (by simp [Parser.start]) (by simp only [Parser.start]; omega)
  obtain ⟨qs, -, hrun⟩ := walkTokens_eq_foldlM hr (by simp [Parser.start]) (Nat.lt_succ_self _)
  have hwalk : ∀ (σ : Type) (body : σ → Parser → Exec σ) (s : σ),
      walkBlob m fdt body s = (do let s ← qs.foldlM body s; return (.ok, s)) := by
    intro σ body s
    simp [walkBlob, hinit, hrun]
  refine ⟨qs, ?_, hwalk⟩
  rw [tokenStates, hwalk, foldlM_collect]
  rfl

/-- On an encoded stream of items, the states of the token loop show the items. -/
theorem walkTokens_atItems {m : Mem} {p : Parser} {is : List Item} {bs : List UInt8}
    {fuel : ℕ} (h : AtItems m p is bs) (hfuel : is.length < fuel) :
    ∃ qs, List.Forall₂ (Item.ReadBy m) is qs ∧
      ∀ (body : σ → Parser → Exec σ) (s : σ), walkTokens m body fuel p s = qs.foldlM body s := by
  induction is generalizing p bs fuel with
  | nil =>
      obtain ⟨fuel, rfl⟩ : ∃ f, fuel = f + 1 := ⟨fuel - 1, by omega⟩
      obtain ⟨q, hq, htok, -⟩ := Parser.next_atItem h
      exact ⟨[], .nil, fun body s => by simp [walkTokens, hq, Parser.current, htok]⟩
  | cons it is ih =>
      obtain ⟨fuel, rfl⟩ : ∃ f, fuel = f + 1 := ⟨fuel - 1, by omega⟩
      obtain ⟨q, hq, hread, -, bs', hat⟩ := Parser.next_atItem h
      have hfuel' : is.length < fuel := by simpa using hfuel
      obtain ⟨qs, hqs, hrun⟩ := ih hat hfuel'
      have htok : q.current ≠ .fdtEnd := by
        have hshown := hread.shown
        cases it with
        | beginNode name => simp [hshown.1]
        | endNode => simp [show q.current = .endNode from hshown]
        | prop pr => simp [hshown.1]
      refine ⟨q :: qs, .cons hread hqs, fun body s => ?_⟩
      simp only [walkTokens, hq, ok_bind, if_neg htok, List.foldlM_cons, hrun]

/-- A pass over a flattened tree is a fold of its body over states that show the items of
the tree. -/
theorem walkBlob_flattened {m : Mem} {fdt : ℕ} {h : Header} {t : DeviceTree}
    (ht : FlattenedAt m fdt h t) :
    ∃ qs, List.Forall₂ (Item.ReadBy m) t.items qs ∧
      ∀ (body : σ → Parser → Exec σ) (s : σ),
        walkBlob m fdt body s = (do let s ← qs.foldlM body s; return (.ok, s)) := by
  obtain ⟨bs, hat⟩ := Parser.atItems_start ht
  have hbytes := hat.flat.length_le
  have hlen := hat.len
  have hfuel : t.items.length <
      ((Parser.start fdt h).structEnd - (Parser.start fdt h).pos) / 4 + 1 := by omega
  obtain ⟨qs, hqs, hrun⟩ := walkTokens_atItems (σ := σ) hat hfuel
  have hinit := init_start ht.notNull ht.header ht.consistent
  refine ⟨qs, hqs, fun body s => ?_⟩
  simp [walkBlob, hinit, hrun]

end Loop

/-! ### The calls do not depend on the handlers -/

section Calls

variable {σ : Type} {m : Mem} (onNode : σ → HandlerCall → Exec σ)

/-- What dispatch records, starting from any log, is what it runs with other handlers. -/
theorem dispatch_of_record {pf : ParsingFrame} {cp dp : Option PropFrame}
    {hs : List NodeHandler} {log log' : List HandlerCall}
    (h : hs.foldlM (dispatchEntry m recordCall pf cp dp) log = .ok log') :
    ∃ calls, log' = log ++ calls ∧
      ∀ s, hs.foldlM (dispatchEntry m onNode pf cp dp) s = calls.foldlM onNode s := by
  induction hs generalizing log with
  | nil =>
      obtain rfl : log = log' := by simpa using h
      exact ⟨[], by simp, fun s => rfl⟩
  | cons hd hs ih =>
      rw [List.foldlM_cons, bind_eq_ok] at h
      obtain ⟨log₁, hentry, hrest⟩ := h
      obtain ⟨calls, rfl, hcalls⟩ := ih hrest
      -- the entry calls nothing, or exactly its own handler
      obtain ⟨own, rfl, hown⟩ : ∃ own, log₁ = log ++ own ∧
          ∀ s, dispatchEntry m onNode pf cp dp s hd = own.foldlM onNode s := by
        unfold dispatchEntry at hentry ⊢
        cases hmatch : handlerMatch cp dp hd.matchKind with
        | none =>
            obtain rfl : log = log₁ := by simpa [hmatch] using hentry
            exact ⟨[], by simp, fun s => rfl⟩
        | some prop =>
            simp only [hmatch, bind_eq_ok] at hentry
            obtain ⟨b, hb, hentry⟩ := hentry
            cases b with
            | false =>
                obtain rfl : log = log₁ := by simpa using hentry
                exact ⟨[], by simp, fun s => by simp [hb]⟩
            | true =>
                obtain rfl : log ++ [_] = log₁ := by simpa [recordCall] using hentry
                exact ⟨[⟨hd, pf.nodeFrame, pf.top⟩], rfl, fun s => by simp [hb]⟩
      refine ⟨own ++ calls, by simp, fun s => ?_⟩
      rw [List.foldlM_cons, hown, List.foldlM_append]
      exact bind_congr hcalls

/-- One turn with recording handlers determines the turn with any handlers. -/
theorem fullStep_of_calls {pf pf' : ParsingFrame} {dtp : Parser} {calls : List HandlerCall}
    (h : callsStep m pf dtp = .ok (calls, pf')) (s : σ) :
    fullStep m onNode (pf, s) dtp = (do let s ← calls.foldlM onNode s; return (pf', s)) := by
  simp only [callsStep, bind_eq_ok, pure_eq_ok, Except.ok.injEq, Prod.mk.injEq,
    Prod.exists] at h
  obtain ⟨_, _, hstep, rfl, rfl⟩ := h
  cases htok : dtp.current with
  | endNode =>
      simp only [fullStep, htok, bind_eq_ok, pure_eq_ok, Except.ok.injEq,
        Prod.mk.injEq] at hstep
      obtain ⟨f, hf, cp, hcp, dp, hdp, log, hlog, rfl, rfl⟩ := hstep
      obtain ⟨calls, rfl, hcalls⟩ := dispatch_of_record onNode hlog
      simp [fullStep, htok, hf, hcp, hdp, dispatchIfPropMatch, hcalls]
  | beginNode | prop =>
      simp only [fullStep, htok, bind_eq_ok, pure_eq_ok, Except.ok.injEq,
        Prod.mk.injEq] at hstep
      obtain ⟨pf₁, hpf₁, rfl, rfl⟩ := hstep
      simp [fullStep, htok, hpf₁]
  | nop | fdtEnd =>
      simp only [fullStep, htok, Except.ok.injEq, Prod.mk.injEq] at hstep
      obtain ⟨rfl, rfl⟩ := hstep
      simp [fullStep, htok]

/-- The token loop with recording handlers determines the loop with any handlers. -/
theorem walkTokens_of_calls {fuel : ℕ} {dtp : Parser} {pf pf' : ParsingFrame}
    {log log' : List (List HandlerCall)}
    (h : walkTokens m (callsBody m) fuel dtp (pf, log) = .ok (pf', log')) :
    ∃ calls, log' = log ++ calls ∧ ∀ s : σ,
      walkTokens m (fullStep m onNode) fuel dtp (pf, s) =
        (do let s ← calls.flatten.foldlM onNode s; return (pf', s)) := by
  induction fuel generalizing dtp pf log with
  | zero => simp [walkTokens] at h
  | succ fuel ih =>
      rw [walkTokens, bind_eq_ok] at h
      obtain ⟨q, hq, h⟩ := h
      by_cases htok : q.current = .fdtEnd
      · simp only [if_pos htok, pure_eq_ok, Except.ok.injEq, Prod.mk.injEq] at h
        obtain ⟨rfl, rfl⟩ := h
        exact ⟨[], by simp, fun s => by simp [walkTokens, hq, htok]⟩
      · rw [if_neg htok, bind_eq_ok] at h
        obtain ⟨⟨pf₁, log₁⟩, hbody, hrest⟩ := h
        simp only [callsBody, bind_eq_ok, pure_eq_ok, Except.ok.injEq, Prod.mk.injEq,
          Prod.exists] at hbody
        obtain ⟨own, pf₂, hstep, rfl, rfl⟩ := hbody
        obtain ⟨calls, rfl, hcalls⟩ := ih hrest
        refine ⟨own :: calls, by simp, fun s => ?_⟩
        simp only [walkTokens, hq, ok_bind, if_neg htok, fullStep_of_calls onNode hstep, bind_assoc,
          pure_eq_ok, hcalls, List.flatten_cons, List.foldlM_append]

/-- **The calls do not depend on the handlers.** If the recording pass completes, then
with any handlers the pass runs them on the recorded calls, in order. -/
theorem parseFramesFull_of_calls {fdt : ℕ} {garbage : ℕ → NodeFrame} {status : Status}
    {calls : List (List HandlerCall)}
    (h : parseFramesCalls m fdt garbage = .ok (status, calls)) (s : σ) :
    parseFramesFull m fdt garbage onNode s =
      (do let s ← calls.flatten.foldlM onNode s; return (status, s)) := by
  simp only [parseFramesCalls, walkBlob, bind_eq_ok, pure_eq_ok, Except.ok.injEq,
    Prod.mk.injEq, Prod.exists] at h
  obtain ⟨st, pf, log, ⟨ist, dtp, hinit, h⟩, rfl, rfl⟩ := h
  by_cases hok : ist = .ok
  · simp only [hok, ne_eq, not_true_eq_false, if_false, bind_eq_ok, Except.ok.injEq,
      Prod.mk.injEq, Prod.exists] at h hinit
    obtain ⟨pf', log', hwalk, rfl, rfl, rfl⟩ := h
    obtain ⟨calls, rfl, hcalls⟩ := walkTokens_of_calls onNode hwalk
    simp [parseFramesFull, walkBlob, hinit, hcalls]
  · simp only [ne_eq, hok, not_false_eq_true, if_true, Except.ok.injEq, Prod.mk.injEq] at h
    obtain ⟨rfl, rfl, rfl⟩ := h
    simp [parseFramesFull, walkBlob, hinit, hok]

end Calls

end Floss
