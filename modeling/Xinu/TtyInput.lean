/-
# The terminal's input buffer

The two pointers of the input buffer, the count of `tyisem` and the cursor tell of one quantity, the
characters that were stored and neither erased nor read (`InputKept`).  `ttyhandle_in` has a branch
for every mode and kind of character, and not all of them test for room, signal or wrap the pointer.
A character finds room (`Roomy`) when none of this happens; a step keeps `InputKept` if and only if
it meets that condition (`InputKept.step_iff`).
-/
import Xinu.Lib.Runs
import Xinu.Tty

namespace Xinu

open Rings Counting Runs

variable {t u : Tty} {ch : UInt8} {n : Int}

/-! ## 1. Echoing

The functions that echo change nothing that the input consists of. -/

/-- `u` is `t` with other echoed characters. -/
def EchoOnly (t u : Tty) : Prop :=
  ∃ b e i, u = { t with tyebuff := b, tyetail := e, ier := i }

theorem EchoOnly.refl : EchoOnly t t := ⟨t.tyebuff, t.tyetail, t.ier, rfl⟩

theorem EchoOnly.trans {v : Tty} (h₁ : EchoOnly t u) (h₂ : EchoOnly u v) : EchoOnly t v := by
  obtain ⟨b, e, i, rfl⟩ := h₁
  obtain ⟨b', e', i', rfl⟩ := h₂
  exact ⟨b', e', i', rfl⟩

theorem echoOnly_eputc : EchoOnly t (Tty.eputc ch t) := ⟨_, _, _, rfl⟩

theorem echoOnly_echoch : EchoOnly t (Tty.echoch ch t) := by
  unfold Tty.echoch
  split_ifs
  · exact echoOnly_eputc.trans echoOnly_eputc
  · exact echoOnly_eputc.trans echoOnly_eputc
  · exact echoOnly_eputc

theorem echoOnly_echo : EchoOnly t (Tty.echo ch t) := by
  unfold Tty.echo
  split_ifs
  · exact echoOnly_echoch
  · exact .refl

theorem echoOnly_backspace : EchoOnly t (Tty.backspace t) := by
  rw [Tty.backspace]
  split_ifs
  · exact (echoOnly_eputc.trans echoOnly_eputc).trans echoOnly_eputc
  · exact echoOnly_eputc

theorem echoOnly_erase1 :
    EchoOnly { t with tyitail := t.back 1, unread := t.unread.dropLast } (Tty.erase1 t) := by
  rw [Tty.erase1]
  split_ifs
  · exact echoOnly_backspace.trans echoOnly_backspace
  · exact echoOnly_backspace
  · exact echoOnly_backspace
  · exact .refl

/-! ## 2. What the input consists of

The fields of the terminal that the input depends on, as a record, and the functions that leave it
alone. -/

/-- The fields that describe the input. -/
structure InputSide where
  tyihead : Int
  tyitail : Int
  tyibuff : Int → UInt8
  tyisem : Gate Reader
  tyicursor : Int
  unread : List UInt8

namespace Tty

def inputSide (t : Tty) : InputSide :=
  ⟨t.tyihead, t.tyitail, t.tyibuff, t.tyisem, t.tyicursor, t.unread⟩

theorem inputSide_echo (h : EchoOnly t u) : u.inputSide = t.inputSide := by
  obtain ⟨b, e, i, rfl⟩ := h
  rfl

theorem inputSide_putChars {pid : Nat} {cs : List UInt8} :
    (putChars pid cs t).inputSide = t.inputSide := by
  induction cs generalizing t with
  | nil => rfl
  | cons c cs ih =>
    rw [putChars]
    split_ifs
    · exact ih
    · rfl

theorem inputSide_goOnOut {w : Writer} : (goOnOut w t).inputSide = t.inputSide :=
  inputSide_putChars

theorem inputSide_sendEcho {m : Nat} : (sendEcho m t).1.inputSide = t.inputSide := by
  induction m generalizing t with
  | zero => rfl
  | succ m ih =>
    rw [sendEcho]
    split_ifs
    · exact ih
    · rfl

theorem inputSide_sendOutput {m : Nat} : (sendOutput m t).inputSide = t.inputSide := by
  induction m generalizing t with
  | zero => rfl
  | succ m ih => exact ih

theorem inputSide_ttyhandle_out : (ttyhandle_out t).inputSide = t.inputSide := by
  have h (m : Nat) : (sendOutput m (sendEcho UART_FIFO_SIZE t).1).inputSide = t.inputSide :=
    inputSide_sendOutput.trans inputSide_sendEcho
  rw [ttyhandle_out]
  dsimp only
  split_ifs
  · rfl
  · rfl
  · exact h _
  · exact h _

end Tty

/-! ## 3. The invariant

`Surplus` has a number, by how many the stored characters are more than the granted ones and those
being edited.  It is 0 between two steps, and something else inside of one. -/

/-- The unread characters stand in the buffer, and there are `n` more of them than are granted to
readers or being edited. -/
structure Surplus (n : Int) (t : Tty) : Prop where
  ring : Ring TY_IBUFLEN t.tyibuff t.tyihead t.tyitail t.unread
  cursor : 0 ≤ t.tyicursor
  counted : (t.unread.length : Int) = t.tyisem.grants + t.tyicursor + n

/-- **The input is as it should be.**  The pointers are inside of `tyibuff`, and every unread
character still stands where it was stored; the unread characters are those that the count leaves,
those of the released readers and those being edited, and there is room for all of them. -/
structure InputKept (t : Tty) : Prop where
  head : 0 ≤ t.tyihead ∧ t.tyihead < TY_IBUFLEN
  tail : 0 ≤ t.tyitail ∧ t.tyitail < TY_IBUFLEN
  counted : (t.unread.length : Int) =
    max t.tyisem.sem.count 0 + t.tyisem.released.length + t.tyicursor
  cursor : 0 ≤ t.tyicursor
  fits : t.unread.length ≤ TY_IBUFLEN
  ring : Ring TY_IBUFLEN t.tyibuff t.tyihead t.tyitail t.unread

theorem inputKept_iff : InputKept t ↔ Surplus 0 t := by
  constructor
  · intro h
    exact ⟨h.ring, h.cursor, by rw [h.counted, Gate.grants, add_zero]⟩
  · intro h
    refine ⟨⟨h.ring.head_nonneg, h.ring.head_lt⟩, ⟨h.ring.tail_nonneg, h.ring.tail_lt⟩,
      ?_, h.cursor,
      by exact_mod_cast h.ring.fits, h.ring⟩
    rw [h.counted, Gate.grants, add_zero]

/-- It is about the input alone. -/
theorem surplus_congr (h : u.inputSide = t.inputSide) : Surplus n u ↔ Surplus n t := by
  simp only [Tty.inputSide, InputSide.mk.injEq] at h
  obtain ⟨h1, h2, h3, h4, h5, h6⟩ := h
  constructor
  · rintro ⟨hr, hc, hl⟩
    rw [h1, h2, h3, h6] at hr
    rw [h4, h5, h6] at hl
    exact ⟨hr, h5 ▸ hc, hl⟩
  · rintro ⟨hr, hc, hl⟩
    rw [← h1, ← h2, ← h3, ← h6] at hr
    rw [← h4, ← h5, ← h6] at hl
    exact ⟨hr, h5 ▸ hc, hl⟩

theorem Surplus.congr (h : Surplus n t) (he : u.inputSide = t.inputSide) : Surplus n u :=
  (surplus_congr he).mpr h

/-- What the buffer holds. -/
def Tty.held (t : Tty) : Int := t.tyisem.grants + t.tyicursor

theorem Surplus.length_eq (h : Surplus 0 t) : (t.unread.length : Int) = t.held := by
  rw [h.counted, Tty.held, add_zero]

/-! ## 4. Storing, signalling, giving up

The three things that the branches of `ttyhandle_in` are made of, each with the condition under
which it keeps the account. -/

theorem wrap_put : (Tty.put ch t).wrap =
    { t with tyibuff := Function.update t.tyibuff t.tyitail ch
             tyitail := Rings.next TY_IBUFLEN t.tyitail, unread := t.unread ++ [ch] } := by
  unfold Tty.put Tty.wrap Rings.next
  split_ifs <;> rfl

/-- A character is stored and the pointer wrapped: that is right when there is room. -/
theorem surplus_store_iff (h : Surplus n t) (ch : UInt8) :
    Surplus (n + 1) (Tty.put ch t).wrap ↔ t.unread.length < TY_IBUFLEN := by
  rw [wrap_put]
  constructor
  · intro hs
    have hf := hs.ring.fits
    simp only [List.length_append, List.length_singleton] at hf
    omega
  · intro hlt
    refine ⟨h.ring.push (by exact_mod_cast hlt), h.cursor, ?_⟩
    have := h.counted
    simp only [List.length_append, List.length_singleton]
    omega

/-- A character is stored and nothing counts it. -/
theorem not_surplus_store (h : Surplus n t) : ¬ Surplus n (Tty.put ch t).wrap := by
  rw [wrap_put]
  intro hs
  have h1 := h.counted
  have h2 := hs.counted
  simp only [List.length_append, List.length_singleton] at h2
  omega

/-- A character is stored and the pointer not wrapped: that is right when there is room and the
pointer stays inside of the buffer. -/
theorem surplus_put_iff (h : Surplus n t) : Surplus (n + 1) (Tty.put ch t) ↔
    t.unread.length < TY_IBUFLEN ∧ t.tyitail + 1 < TY_IBUFLEN := by
  constructor
  · intro hs
    have hf := hs.ring.fits
    simp only [Tty.put, List.length_append, List.length_singleton] at hf
    exact ⟨by omega, hs.ring.tail_lt⟩
  · rintro ⟨hlt, htail⟩
    have he : (Tty.put ch t).wrap = Tty.put ch t := if_neg (not_le.mpr htail)
    exact he ▸ (surplus_store_iff h ch).mpr hlt

theorem surplus_signalIn_iff {m : Int} (hm : 0 ≤ m) :
    Surplus n (Tty.signalIn m t) ↔ Surplus (n + m) t := by
  have hg : (t.tyisem.signal m.toNat).grants = t.tyisem.grants + m := by
    rw [Gate.grants_signal, Int.toNat_of_nonneg hm]
  constructor
  · rintro ⟨hr, hc, hl⟩
    refine ⟨hr, hc, ?_⟩
    simp only [Tty.signalIn, hg] at hl
    omega
  · rintro ⟨hr, hc, hl⟩
    refine ⟨hr, hc, ?_⟩
    simp only [Tty.signalIn, hg]
    omega

theorem surplus_cursor_iff {c : Int} (h0 : 0 ≤ t.tyicursor) (hc : 0 ≤ c) :
    Surplus n { t with tyicursor := c } ↔ Surplus (n + c - t.tyicursor) t := by
  constructor
  · rintro ⟨hr, -, hl⟩
    refine ⟨hr, h0, ?_⟩
    simp only at hl
    omega
  · rintro ⟨hr, -, hl⟩
    refine ⟨hr, hc, ?_⟩
    simp only
    omega

/-- The last `k` characters of the line being edited are given up. -/
theorem Surplus.giveUp (h : Surplus 0 t) {k : Nat} (hk : (k : Int) ≤ t.tyicursor) :
    Surplus 0 { t with tyitail := t.back k, tyicursor := t.tyicursor - k
                       unread := t.unread.take (t.unread.length - k) } := by
  have hl := h.counted
  have hg := t.tyisem.grants_nonneg
  have hfits := h.ring.fits
  have hlen : k ≤ t.unread.length := by omega
  refine ⟨?_, ?_, ?_⟩
  · have hb : t.back k = (t.tyitail - k) % TY_IBUFLEN :=
      (back_eq h.ring.tail_nonneg h.ring.tail_lt (Int.natCast_nonneg k) (by omega)).symm
    simp only [hb]
    exact h.ring.giveUp hlen
  · simp only
    omega
  · simp only [List.length_take]
    omega

/-! ## 5. A character arrives

By the mode, and in cooked mode by the character.  Every branch is put together from the lemmas of
section 4, so that its condition comes out as the one that `Roomy` states for it. -/

/-- **The character finds room.**  In raw mode and at the end of a line the buffer may be fuller
than the code assumes; in cbreak mode nothing is signalled; the end-of-file character is stored
without wrapping the pointer. -/
def Roomy (t : Tty) : Tty.Event → Prop
  | .arrive ch =>
    if t.tyimode = .raw then t.avail ≥ TY_IBUFLEN ∨ t.held < TY_IBUFLEN
    else
      let ch := if ch = TY_RETURN ∧ t.tyicrlf then TY_NEWLINE else ch
      if t.tyoflow ∧ (ch = t.tyostart ∨ ch = t.tyostop) then True
      else if t.tyimode = .cbreak then t.avail ≥ TY_IBUFLEN
      else if ch = t.tyikillc ∧ t.tyikill ∨ (ch = t.tyierasec ∨ ch = t.tyierasec2) ∧ t.tyierase then
        True
      else if ch = TY_NEWLINE ∨ ch = TY_RETURN then t.held < TY_IBUFLEN
      else if t.avail + t.tyicursor ≥ TY_IBUFLEN - 1 then True
      else if ch = t.tyeofch ∧ t.tyeof then
        t.tyicursor ≠ 0 ∨ t.held < TY_IBUFLEN ∧ t.tyitail + 1 < TY_IBUFLEN
      else t.held < TY_IBUFLEN
  | _ => True

instance (t : Tty) (e : Tty.Event) : Decidable (Roomy t e) := by
  unfold Roomy
  split <;> infer_instance

/-- In cbreak mode. -/
theorem surplus_cbreakIn_iff (h : Surplus 0 t) :
    Surplus 0 (Tty.cbreakIn ch t) ↔ t.avail ≥ TY_IBUFLEN := by
  rw [Tty.cbreakIn]
  split_ifs with hfull
  · exact iff_of_true (h.congr (Tty.inputSide_echo echoOnly_eputc)) hfull
  · rw [surplus_congr (Tty.inputSide_echo echoOnly_echo)]
    exact iff_of_false (not_surplus_store h) hfull

/-- A line kill or an erasure. -/
theorem Surplus.edit (h : Surplus 0 t) (he : ch = t.tyikillc ∧ t.tyikill ∨
    (ch = t.tyierasec ∨ ch = t.tyierasec2) ∧ t.tyierase) : Surplus 0 (Tty.cookedIn ch t) := by
  rw [Tty.cookedIn]
  split_ifs with hkill herase hcursor
  · rw [surplus_congr (Tty.inputSide_echo echoOnly_eputc),
      surplus_congr (Tty.inputSide_echo echoOnly_eputc)]
    have hk := Int.toNat_of_nonneg h.cursor
    have := h.giveUp (k := t.tyicursor.toNat) hk.le
    rwa [hk, sub_self] at this
  · rw [surplus_congr (Tty.inputSide_echo echoOnly_erase1)]
    have := h.giveUp (k := 1) (by omega)
    rwa [← List.dropLast_eq_take, Nat.cast_one] at this
  · exact h
  all_goals exact absurd he (by tauto)

/-- In cooked mode. -/
theorem surplus_cookedIn_iff (h : Surplus 0 t) (hedit : ¬ (ch = t.tyikillc ∧ t.tyikill ∨
    (ch = t.tyierasec ∨ ch = t.tyierasec2) ∧ t.tyierase)) : Surplus 0 (Tty.cookedIn ch t) ↔
      if ch = TY_NEWLINE ∨ ch = TY_RETURN then t.held < TY_IBUFLEN
      else if t.avail + t.tyicursor ≥ TY_IBUFLEN - 1 then True
      else if ch = t.tyeofch ∧ t.tyeof then
        t.tyicursor ≠ 0 ∨ t.held < TY_IBUFLEN ∧ t.tyitail + 1 < TY_IBUFLEN
      else t.held < TY_IBUFLEN := by
  have hlen := h.length_eq
  have hc := h.cursor
  have hecho : Surplus 0 (Tty.echo ch t) := h.congr (Tty.inputSide_echo echoOnly_echo)
  have hside : (Tty.echo ch t).inputSide = t.inputSide := Tty.inputSide_echo echoOnly_echo
  simp only [Tty.inputSide, InputSide.mk.injEq] at hside
  obtain ⟨-, htail, -, -, hcur, hun⟩ := hside
  rw [not_or] at hedit
  rw [Tty.cookedIn, if_neg hedit.1, if_neg hedit.2]
  split_ifs with hend hfull heof hcursor
  · -- the end of a line
    rw [surplus_cursor_iff (by simpa [Tty.signalIn, wrap_put, hcur] using hc) le_rfl,
      surplus_signalIn_iff (by omega)]
    have he : (0 : Int) + 0 - (Tty.signalIn (t.tyicursor + 1)
        (Tty.put ch (Tty.echo ch t)).wrap).tyicursor + (t.tyicursor + 1) = 0 + 1 := by
      simp only [Tty.signalIn, wrap_put, hcur]
      omega
    rw [he, surplus_store_iff hecho, hun]
    omega
  · exact iff_of_true (h.congr (Tty.inputSide_echo echoOnly_eputc)) trivial
  · exact iff_of_true hecho (Or.inl hcursor)
  · -- the end of the file
    rw [surplus_signalIn_iff one_pos.le, surplus_put_iff hecho, hun, htail]
    constructor
    · rintro ⟨h1, h2⟩
      exact Or.inr ⟨by omega, h2⟩
    · rintro (h1 | ⟨h1, h2⟩)
      · exact absurd h1 hcursor
      · exact ⟨by omega, h2⟩
  · -- an ordinary character
    have h1 : Surplus (-1) { Tty.echo ch t with tyicursor := (Tty.echo ch t).tyicursor + 1 } :=
      (surplus_cursor_iff (hcur ▸ hc) (by rw [hcur]; omega)).mpr (by convert hecho using 1; omega)
    have h2 := surplus_store_iff h1 ch
    rw [neg_add_cancel] at h2
    rw [h2, ← hlen]
    simp only [hun]
    omega

/-- **A character keeps the input in order if and only if it finds room.** -/
theorem surplus_ttyhandle_in_iff (h : Surplus 0 t) :
    Surplus 0 (Tty.ttyhandle_in ch t) ↔ Roomy t (.arrive ch) := by
  have hlen := h.length_eq
  rw [Tty.ttyhandle_in, Roomy]
  generalize (if ch = TY_RETURN ∧ t.tyicrlf = true then TY_NEWLINE else ch) = c
  rcases em (t.tyimode = .raw) with hraw | hraw
  · rw [if_pos hraw, if_pos hraw]
    split_ifs with hfull
    · exact iff_of_true h (Or.inl hfull)
    · rw [surplus_signalIn_iff one_pos.le, surplus_store_iff h]
      constructor
      · intro h1
        exact Or.inr (by omega)
      · rintro (h1 | h1)
        · exact absurd h1 hfull
        · omega
  · rw [if_neg hraw, if_neg hraw]
    rcases em (t.tyoflow ∧ (c = t.tyostart ∨ c = t.tyostop)) with hflow | hflow
    · rw [if_pos hflow]
      refine iff_of_true ?_ trivial
      dsimp only
      split_ifs with hstart hstop
      · exact h.congr rfl
      · exact h.congr rfl
      all_goals exact absurd hflow (by tauto)
    · have hopen : Surplus 0 { t with tyoheld := false } := h.congr rfl
      rw [if_neg hflow, if_neg (by tauto), if_neg (by tauto)]
      rcases em (t.tyimode = .cbreak) with hbreak | hbreak
      · rw [if_pos hbreak, if_pos hbreak]
        exact surplus_cbreakIn_iff hopen
      · rw [if_neg hbreak, if_neg hbreak]
        rcases em (c = t.tyikillc ∧ t.tyikill ∨
          (c = t.tyierasec ∨ c = t.tyierasec2) ∧ t.tyierase) with hedit | hedit
        · rw [if_pos hedit]
          exact iff_of_true (hopen.edit hedit) trivial
        · rw [if_neg hedit]
          exact surplus_cookedIn_iff hopen hedit

/-! ## 6. Processes read

Readers take what they were granted, and what they were granted is there. -/

theorem takeChar_fst : t.takeChar.1 =
    { t with tyihead := Rings.next TY_IBUFLEN t.tyihead, unread := t.unread.tail } := by
  rw [Tty.takeChar]
  split_ifs <;> rfl

theorem takeChar_snd : t.takeChar.2 =
    if t.tyimode = .cooked ∧ t.tyeof ∧ t.tyibuff t.tyihead = t.tyeofch then EOF
    else toInt (t.tyibuff t.tyihead) := by
  rw [Tty.takeChar]
  split_ifs <;> rfl

/-- **A granted character is taken.** -/
theorem Surplus.takeChar (h : Surplus 1 t) : Surplus 0 t.takeChar.1 := by
  have hl := h.counted
  have hg := t.tyisem.grants_nonneg
  have hc := h.cursor
  obtain ⟨c, cs, hcs⟩ : ∃ c cs, t.unread = c :: cs := by
    apply List.exists_cons_of_ne_nil
    rintro hnil
    rw [hnil] at hl
    simp only [List.length_nil] at hl
    omega
  have hr := (hcs ▸ h.ring).pop.2
  rw [takeChar_fst]
  refine ⟨by rw [hcs]; exact hr, hc, ?_⟩
  rw [hcs, List.length_cons] at hl
  rw [hcs, List.tail_cons]
  push_cast at hl
  simp only
  omega

/-- A process that goes on behind its wait uses a grant. -/
theorem Surplus.waitIn (h : Surplus 0 t) {r : Reader} {next : Tty → Tty}
    (hn : ∀ u, Surplus 1 u → Surplus 0 (next u)) : Surplus 0 (Tty.waitIn r t next) := by
  have hl := h.counted
  rw [Tty.waitIn]
  split_ifs with hc
  · refine hn _ ⟨h.ring, h.cursor, ?_⟩
    simp only [Gate.grants_wait_passes hc]
    omega
  · refine ⟨h.ring, h.cursor, ?_⟩
    simp only [Gate.grants_wait_blocks (not_lt.mp hc)]
    omega

theorem Surplus.finish (h : Surplus 0 t) {pid : Nat} {v : Int} {b : List UInt8} :
    Surplus 0 (Tty.finish pid v b t) := h.congr rfl

theorem Surplus.readLine (h : Surplus 0 t) {pid left : Nat} {b : List UInt8} :
    Surplus 0 (Tty.readLine pid left b t) := by
  induction left generalizing t b with
  | zero => exact h.finish
  | succ left ih =>
    rw [Tty.readLine]
    split_ifs
    · exact h.finish
    · exact h.waitIn fun u hu => ih hu.takeChar

theorem Surplus.readChars (h : Surplus 0 t) {pid left : Nat} {b : List UInt8} :
    Surplus 0 (Tty.readChars pid left b t) := by
  induction left generalizing t b with
  | zero => exact h.finish
  | succ left ih => exact h.waitIn fun u hu => ih hu.takeChar

/-- The rest of a call. -/
theorem Surplus.goOn (h : Surplus 1 t) {r : Reader} : Surplus 0 (Tty.goOn r t) := by
  unfold Tty.goOn
  split
  · exact h.takeChar.finish
  · exact ((surplus_signalIn_iff one_pos.le).mpr h).finish
  · dsimp only
    split_ifs
    · exact h.takeChar.finish
    · exact h.takeChar.readLine
  · exact h.takeChar.readLine
  · exact h.takeChar.readChars

theorem Surplus.ttyread (h : Surplus 0 t) {pid : Nat} {count : Int} :
    Surplus 0 (Tty.ttyread pid count t) := by
  rw [Tty.ttyread]
  split_ifs
  · exact h.finish
  · exact h.finish
  · exact h.readChars
  · exact h.readChars
  · exact h.waitIn fun u hu => hu.goOn

theorem Surplus.ttycontrol (h : Surplus 0 t) {pid : Nat} {func : Tty.Func} :
    Surplus 0 (Tty.ttycontrol pid func t) := by
  cases func with
  | TC_NEXTC => exact h.waitIn fun u hu => hu.goOn
  | _ => exact ⟨h.ring, h.cursor, h.counted⟩

/-! ## 7. Runs

By induction on the run, from a terminal that has just been initialized. -/

/-- **A step keeps the input in order if and only if its character finds room.** -/
theorem InputKept.step_iff (h : InputKept t) {e : Tty.Event} (hs : t.step e = some u) :
    InputKept u ↔ Roomy t e := by
  rw [inputKept_iff] at h ⊢
  cases e with
  | arrive c =>
    rw [← Option.some.inj hs]
    exact surplus_ttyhandle_in_iff h
  | interrupt =>
    rw [← Option.some.inj hs]
    exact iff_of_true (h.congr Tty.inputSide_ttyhandle_out) trivial
  | getc pid =>
    obtain ⟨-, he⟩ := Option.ite_none_right_eq_some.mp hs
    rw [← Option.some.inj he]
    exact iff_of_true (h.waitIn fun u hu => hu.goOn) trivial
  | read pid count =>
    obtain ⟨-, he⟩ := Option.ite_none_right_eq_some.mp hs
    rw [← Option.some.inj he]
    exact iff_of_true h.ttyread trivial
  | control pid func =>
    obtain ⟨-, he⟩ := Option.ite_none_right_eq_some.mp hs
    rw [← Option.some.inj he]
    exact iff_of_true h.ttycontrol trivial
  | putc pid c =>
    obtain ⟨-, he⟩ := Option.ite_none_right_eq_some.mp hs
    rw [← Option.some.inj he]
    exact iff_of_true (h.congr Tty.inputSide_putChars) trivial
  | runReader r =>
    obtain ⟨hr, he⟩ := Option.ite_none_right_eq_some.mp hs
    rw [← Option.some.inj he]
    have hrun : Surplus 1 { t with tyisem := t.tyisem.run r } := by
      refine ⟨h.ring, h.cursor, ?_⟩
      have := h.counted
      simp only [Gate.grants_run hr]
      omega
    exact iff_of_true hrun.goOn trivial
  | runWriter w =>
    obtain ⟨-, he⟩ := Option.ite_none_right_eq_some.mp hs
    rw [← Option.some.inj he]
    exact iff_of_true (h.congr Tty.inputSide_goOnOut) trivial

theorem Tty.Fresh.inputKept (h : Tty.Fresh t) : InputKept t := by
  obtain ⟨h1, h2, h3, h4, h5⟩ := h.input
  rw [inputKept_iff]
  refine ⟨?_, h3.ge, ?_⟩
  · rw [h1, h2, h5]
    exact Ring.empty (by decide)
  · rw [h3, h4, h5, Gate.grants_create]
    rfl

/-- **In every run whose characters find room the input is in order**, and the first character that
finds none puts it out of order. -/
theorem input_kept {t₀ : Tty} (h0 : Tty.Fresh t₀) (h : Reaches Tty.step Roomy t₀ t) :
    InputKept t ∧ ∀ e u, t.step e = some u → (InputKept u ↔ Roomy t e) := by
  have hk : InputKept t := by
    refine h.invariant h0.inputKept ?_
    intro t e u ht hok hs
    exact (ht.step_iff hs).mpr hok
  exact ⟨hk, fun e u hs => hk.step_iff hs⟩

/-- A line and a wait for it: the reader is released and has not run. -/
def typeLine : List Tty.Event :=
  [.getc 1, .getc 2, .arrive 97, .arrive 98, .arrive TY_NEWLINE, .runReader ⟨2, .getc⟩]

theorem input_kept_line : ∃ t, t.unread = [98, TY_NEWLINE] ∧ InputKept t := by
  have h1 : (exec Tty.step Roomy (Tty.ttyinit (fun _ => 0) (fun _ => 0) fun _ => 0) typeLine).map
      Tty.unread = some [98, TY_NEWLINE] := by decide +kernel
  obtain ⟨t, ht, hu⟩ := Option.map_eq_some_iff.mp h1
  exact ⟨t, hu, (input_kept (Tty.fresh_ttyinit _ _ _) (reaches_of_exec ht)).1⟩

/-- In cbreak mode a character is stored that no reader will get. -/
theorem input_lost : ∃ t,
    Reaches Tty.step always (Tty.ttyinit (fun _ => 0) (fun _ => 0) fun _ => 0) t ∧
      (t.unread.length : Int) = 1 ∧
      max t.tyisem.sem.count 0 + t.tyisem.released.length + t.tyicursor = 0 ∧ ¬ InputKept t := by
  have h1 : (exec Tty.step always (Tty.ttyinit (fun _ => 0) (fun _ => 0) fun _ => 0)
      [.control 1 .TC_MODEK, .arrive 97]).map (fun t : Tty => decide ((t.unread.length : Int) = 1 ∧
        max t.tyisem.sem.count 0 + t.tyisem.released.length + t.tyicursor = 0)) = some true := by
    decide +kernel
  obtain ⟨t, ht, hu⟩ := Option.map_eq_some_iff.mp h1
  have hu := of_decide_eq_true hu
  refine ⟨t, reaches_of_exec ht, hu.1, hu.2, ?_⟩
  intro h
  have := h.counted
  omega

end Xinu
