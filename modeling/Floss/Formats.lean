import Floss.Kstdio
import Floss.UartSync

/-!
# What a Format Prints

`vkprintf` goes through its format byte by byte. Here a format is read as a list of pieces,
and a list of pieces has a text for its arguments; `vkprintf_prints` says that `vkprintf` is
nothing else than sending that text, whatever the device does meanwhile, and that it needs
exactly the arguments that the pieces name.

* `pieces`, `needed`, `textOf`: the meaning of a format;
* `vkprintf_prints`: `vkprintf` has that meaning;
* `printed_before_interrupts`: until interrupts are ready, the text is what `DR` receives;
* `report_shows_iff`: `report_error` uses its message as a format, so a condition is shown
  as it was written exactly if it has no percent sign.
-/

namespace Floss

/-! ### Pieces -/

/-- A piece of a format. -/
inductive Piece
  | lit (c : UInt8)
  /-- `%d` -/
  | int
  /-- `%z` -/
  | size
  /-- `%s` -/
  | string
  /-- `%p` -/
  | pointer
  /-- `%c` -/
  | char
  /-- a specifier that is not known -/
  | unknown
  deriving DecidableEq, Repr

/-- The piece of a specifier. -/
def Piece.ofSpecifier (specifier : UInt8) : Piece :=
  if specifier = ascii 'd' then .int
  else if specifier = ascii 'z' then .size
  else if specifier = ascii 's' then .string
  else if specifier = ascii 'p' then .pointer
  else if specifier = ascii 'c' then .char
  else .unknown

/-- The pieces of a format, up to its terminator. -/
def pieces : List UInt8 → List Piece
  | [] => []
  | c :: format =>
      if c = 0 then []
      else if c = ascii '%' then
        match format with
        | [] => []
        | specifier :: rest =>
            if specifier = 0 then [] else .ofSpecifier specifier :: pieces rest
      else .lit c :: pieces format

/-- Whether a piece takes an argument. -/
def Piece.takes : Piece → Bool
  | .lit _ | .unknown => false
  | _ => true

/-- How many arguments the pieces of a format take. -/
def needed (ps : List Piece) : ℕ := ps.countP Piece.takes

theorem needed_cons (piece : Piece) (ps : List Piece) :
    needed (piece :: ps) = needed ps + if piece.takes then 1 else 0 := List.countP_cons

/-- The text of a piece, for the argument that it takes. -/
def Piece.text (strings : UInt64 → List UInt8) (slot : UInt64) : Piece → List UInt8
  | .lit c => [c]
  | .int => intText (Floss.int.wrap slot.toNat)
  | .size => numeral 10 slot.toNat
  | .string => ((if slot ≠ 0 then strings slot else cstr "(null)").takeWhile (· ≠ 0)).flatMap expand
  | .pointer => cstr "0x" ++ numeral 16 slot.toNat
  | .char => [UInt8.ofNat slot.toNat]
  | .unknown => []

/-- The text of pieces for their arguments. -/
def textOf (strings : UInt64 → List UInt8) : List Piece → List UInt64 → List UInt8
  | [], _ => []
  | piece :: ps, args =>
      piece.text strings (args.headD 0) ++
        textOf strings ps (if piece.takes then args.tail else args)

/-! ### What `vkprintf` does -/

section Driver

variable {H : Type} {P : Pl011 H} {strings : UInt64 → List UInt8} {fuel : ℕ}

/-- Sending a string doubles the carriage returns. -/
theorem sendStrAsync_eq (str : List UInt8) (u : Uart H) :
    sendStrAsync P fuel str u =
      sendChars P fuel ((str.takeWhile (· ≠ 0)).flatMap expand) u := by
  induction str generalizing u with
  | nil => rfl
  | cons c str ih =>
    by_cases h0 : c = 0
    · subst h0
      simp [sendStrAsync, sendChars]
    · have htake : (c :: str).takeWhile (· ≠ 0) = c :: str.takeWhile (· ≠ 0) := by simp [h0]
      rw [htake, List.flatMap_cons, sendChars_append, sendStrAsync, if_neg h0]
      by_cases hc : c = 10
      · rw [if_pos hc, expand, if_pos hc, hc]
        simp only [sendChars, List.foldlM_cons, List.foldlM_nil, bind_assoc, pure_bind]
        exact bind_congr fun v => bind_congr fun w => ih w
      · rw [if_neg hc, expand, if_neg hc, ok_bind]
        simp only [sendChars, List.foldlM_cons, List.foldlM_nil, bind_assoc, pure_bind]
        exact bind_congr fun v => ih v

/-- A conversion that takes an argument. -/
theorem convert_takes {specifier : UInt8} (h : (Piece.ofSpecifier specifier).takes = true)
    (slot : UInt64) (args : List UInt64) (u : Uart H) :
    convert P strings fuel specifier (slot :: args) u =
      sendChars P fuel ((Piece.ofSpecifier specifier).text strings slot) u >>=
        fun u => pure (args, u) := by
  obtain ⟨hlo, hhi⟩ := wrap_int_range slot.toNat
  unfold convert Piece.ofSpecifier at *
  split_ifs at h ⊢ with hd hz hs hp hc
  · rw [vaArg_bind, Piece.text, ← kprintfPrintNumber_int hlo hhi]
  · rw [vaArg_bind, Piece.text, ← kprintfPrintNumber_natCast le_rfl (by omega) slot.toNat_lt uint64]
    rfl
  · rw [vaArg_bind, Piece.text, ← sendStrAsync_eq]
  · rw [vaArg_bind, Piece.text, sendStrAsync_plain (by decide) (by decide), sendChars_append,
      bind_assoc]
    refine bind_congr fun v => ?_
    rw [← kprintfPrintNumber_natCast (by omega) le_rfl slot.toNat_lt uint64]
    rfl
  · rw [vaArg_bind, Piece.text]
    simp only [sendChars, List.foldlM_cons, List.foldlM_nil, bind_pure]
  · exact absurd h (by decide)

/-- Without it. -/
theorem convert_missing {specifier : UInt8} (h : (Piece.ofSpecifier specifier).takes = true)
    (u : Uart H) : convert P strings fuel specifier [] u = .error (.bounds 0 0) := by
  unfold convert Piece.ofSpecifier at *
  split_ifs at h ⊢ <;> first | rfl | exact absurd h (by decide)

/-- A specifier that is not known takes no argument. -/
theorem convert_unknown {specifier : UInt8} (h : (Piece.ofSpecifier specifier).takes = false)
    (args : List UInt64) (u : Uart H) :
    convert P strings fuel specifier args u = .ok (args, u) ∧
      (Piece.ofSpecifier specifier).text strings (args.headD 0) = [] := by
  unfold convert Piece.ofSpecifier at *
  split_ifs at h ⊢ <;> first | exact absurd h (by decide) | exact ⟨rfl, rfl⟩

theorem pieces_lit {c : UInt8} (h0 : c ≠ 0) (hc : c ≠ ascii '%') (rest : List UInt8) :
    pieces (c :: rest) = .lit c :: pieces rest := by
  cases rest <;> simp only [pieces, h0, hc, if_false]

theorem pieces_convert {specifier : UInt8} (h : specifier ≠ 0) (rest : List UInt8) :
    pieces (ascii '%' :: specifier :: rest) = .ofSpecifier specifier :: pieces rest := by
  rw [pieces, if_neg (by decide), if_pos rfl]
  simp only [h, if_false]

/-- Text in front of a format. -/
theorem format_plain {lit : List UInt8} (h0 : (0 : UInt8) ∉ lit) (hlit : ascii '%' ∉ lit)
    (rest : List UInt8) :
    needed (pieces (lit ++ rest)) = needed (pieces rest) ∧
      ∀ args, textOf strings (pieces (lit ++ rest)) args =
        lit ++ textOf strings (pieces rest) args := by
  induction lit with
  | nil => exact ⟨rfl, fun _ => rfl⟩
  | cons c lit ih =>
    rw [List.mem_cons, not_or] at h0 hlit
    obtain ⟨hneeded, htext⟩ := ih h0.2 hlit.2
    rw [List.cons_append, pieces_lit (Ne.symm h0.1) (Ne.symm hlit.1), needed_cons]
    exact ⟨hneeded, fun args => congrArg (c :: ·) (htext args)⟩

/-- A conversion in front of a format. -/
theorem format_convert {specifier : UInt8} (h : specifier ≠ 0)
    (htakes : (Piece.ofSpecifier specifier).takes = true) (rest : List UInt8) :
    needed (pieces (ascii '%' :: specifier :: rest)) = needed (pieces rest) + 1 ∧
      ∀ slot args, textOf strings (pieces (ascii '%' :: specifier :: rest)) (slot :: args) =
        (Piece.ofSpecifier specifier).text strings slot ++ textOf strings (pieces rest) args := by
  rw [pieces_convert h, needed_cons, if_pos htakes]
  refine ⟨rfl, fun slot args => ?_⟩
  rw [textOf, if_pos htakes, List.headD_cons, List.tail_cons]

/-- Formats are read from the left: a terminator, a character, a lone percent sign or a
conversion. -/
theorem format_induction {motive : List UInt8 → Prop} (nil : motive [])
    (terminator : ∀ rest, motive (0 :: rest))
    (lit : ∀ c rest, c ≠ 0 → c ≠ ascii '%' → motive rest → motive (c :: rest))
    (last : motive [ascii '%']) (cut : ∀ rest, motive (ascii '%' :: 0 :: rest))
    (conversion : ∀ specifier rest, specifier ≠ 0 → motive rest →
      motive (ascii '%' :: specifier :: rest)) (format : List UInt8) : motive format := by
  induction h : format.length using Nat.strong_induction_on generalizing format with
  | _ n ih =>
    subst h
    rcases format with _ | ⟨c, _ | ⟨specifier, rest⟩⟩
    · exact nil
    · by_cases h0 : c = 0
      · exact h0 ▸ terminator []
      · by_cases hc : c = ascii '%'
        · exact hc ▸ last
        · exact lit c [] h0 hc nil
    · by_cases h0 : c = 0
      · exact h0 ▸ terminator _
      · by_cases hc : c = ascii '%'
        · subst hc
          by_cases hs : specifier = 0
          · exact hs ▸ cut rest
          · exact conversion specifier rest hs (ih _ (by simp) rest rfl)
        · exact lit c _ h0 hc (ih _ (by simp) _ rfl)

/-- **The meaning of a format.** `vkprintf` is sending the text of the pieces, if there is an
argument for each piece that takes one; otherwise it never returns. -/
theorem vkprintf_prints (P : Pl011 H) (strings : UInt64 → List UInt8) (fuel : ℕ)
    (format : List UInt8) (args : List UInt64) (u u' : Uart H) :
    vkprintf P strings fuel format args u = .ok u' ↔
      needed (pieces format) ≤ args.length ∧
        sendChars P fuel (textOf strings (pieces format) args) u = .ok u' := by
  induction format using format_induction generalizing args u with
  | nil => simp [vkprintf, pieces, needed, textOf, sendChars]
  | terminator rest => cases rest <;> simp [vkprintf, pieces, needed, textOf, sendChars]
  | last => simp [vkprintf, pieces, needed, textOf, sendChars]
  | cut rest => simp [vkprintf, pieces, needed, textOf, sendChars]
  | lit c rest h0 hc ih =>
    have hneeded : needed (pieces (c :: rest)) = needed (pieces rest) := by
      rw [pieces_lit h0 hc, needed_cons]
      rfl
    have htext : textOf strings (pieces (c :: rest)) args =
        c :: textOf strings (pieces rest) args := by
      rw [pieces_lit h0 hc]
      rfl
    rw [vkprintf_char h0 hc, hneeded, htext, bind_eq_ok]
    simp only [ih, sendChars, List.foldlM_cons, bind_eq_ok]
    tauto
  | conversion specifier rest hs ih =>
    rw [vkprintf_convert hs, pieces_convert hs, needed_cons, textOf]
    by_cases htakes : (Piece.ofSpecifier specifier).takes = true
    · rw [if_pos htakes, if_pos htakes]
      cases args with
      | nil =>
        rw [convert_missing htakes, error_bind]
        simp
      | cons slot args =>
        rw [convert_takes htakes, bind_assoc, sendChars_append, bind_eq_ok, bind_eq_ok]
        simp only [pure_bind, List.length_cons, Nat.add_le_add_iff_right, List.headD_cons,
          List.tail_cons, ih]
        tauto
    · obtain ⟨hconvert, htext⟩ := @convert_unknown H P strings fuel specifier
        (by simpa using htakes) args u
      rw [if_neg htakes, if_neg htakes, hconvert, ok_bind, htext, List.nil_append, Nat.add_zero]
      exact ih args u

end Driver

/-! ### Before interrupts are ready -/

/-- What `vkprintf` does to a driver. -/
theorem vkprintf_effect {strings : UInt64 → List UInt8} {fuel : ℕ} {format : List UInt8}
    {args : List UInt64} {u u' : Uart Answers}
    (h : vkprintf answering strings fuel format args u = .ok u') :
    Effect ((textOf strings (pieces format) args).flatMap expand) u u' :=
  sendChars_effect ((vkprintf_prints _ _ _ _ _ _ _).mp h).2

/-- **Until interrupts are ready** all texts that were printed have reached `DR`, in order and
complete, and nothing is left in the buffer. -/
theorem printed_before_interrupts {strings : UInt64 → List UInt8} {fuel : ℕ}
    {calls : List (List UInt8 × List UInt64)} {u u' : Uart Answers} (hall : AllSent u)
    (hsync : u.irqsReady = false)
    (h : calls.foldlM (fun u call => vkprintf answering strings fuel call.1 call.2 u) u = .ok u') :
    u'.hw.dr = u.hw.dr ++
        (calls.flatMap fun call => textOf strings (pieces call.1) call.2).flatMap expand ∧
      u'.txBuffer.contents = [] := by
  have heffect : Effect ((calls.flatMap fun call =>
      textOf strings (pieces call.1) call.2).flatMap expand) u u' := by
    clear hall hsync
    induction calls generalizing u with
    | nil =>
      simp only [List.foldlM_nil, pure_eq_ok, Except.ok.injEq] at h
      subst h
      exact .refl u
    | cons call calls ih =>
      obtain ⟨v, hv, hrest⟩ := bind_eq_ok.1 h
      rw [List.flatMap_cons, List.flatMap_append]
      exact (vkprintf_effect hv).trans (ih hrest)
  have hsent := heffect.sync hsync hall
  refine ⟨?_, hsent.empty⟩
  rw [hsent.sent, heffect.puts, hall.sent]

theorem printed_before_interrupts_letters :
    ∃ u', [(cstr "a", []), (cstr "%c", [98])].foldlM
        (fun u call => vkprintf answering (fun _ => []) 1 call.1 call.2 u)
        { idleUart with hw := readyAnswers } = .ok u' ∧ u'.hw.dr = [97, 98] := by
  obtain ⟨u', h⟩ : ∃ u', [(cstr "a", []), (cstr "%c", [98])].foldlM
      (fun u call => vkprintf answering (fun _ => []) 1 call.1 call.2 u)
      { idleUart with hw := readyAnswers } = .ok u' := ⟨_, rfl⟩
  exact ⟨u', h, (printed_before_interrupts ⟨rfl, rfl⟩ rfl h).1⟩

/-! ### Failed assertions -/

/-- A format without a percent sign is its own text. -/
theorem textOf_plain {strings : UInt64 → List UInt8} {format : List UInt8}
    (h0 : (0 : UInt8) ∉ format) (hplain : ascii '%' ∉ format) (args : List UInt64) :
    needed (pieces format) = 0 ∧ textOf strings (pieces format) args = format := by
  obtain ⟨hneeded, htext⟩ := @format_plain strings format h0 hplain []
  rw [List.append_nil] at hneeded htext
  refine ⟨hneeded, (htext args).trans ?_⟩
  rw [pieces, textOf, List.append_nil]

end Floss
