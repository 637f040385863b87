/-
# The terminal's output buffer

`ttyhandle_out` takes the number of the characters to send from the count of `tyosem`.  A writer
that has waited is counted from its `wait` on and deposits its character when it runs, so the count
may tell of characters that are not there yet.  As long as it does not, or there are more characters
than the UART takes, what is handed to the UART is what the writers have deposited, in that order,
and the rest stands in the buffer (`OutputKept`); a step keeps this if and only if it comes in time
(`output_kept`).
-/
import Xinu.Lib.Runs
import Xinu.Tty

namespace Xinu

open Rings Counting Runs

variable {t u v : Tty} {ch : UInt8} {n : Int}

/-! ## 1. What the output consists of

The history of the model tells what writers deposited and what was handed to the UART.  Echoed
characters come from another buffer and are left out. -/

namespace Tty

/-- The characters handed to the UART that were not echoed. -/
def sent (t : Tty) : List UInt8 := (t.handed.filter fun p => p.1 = .output).map Prod.snd

/-- The characters deposited and not sent. -/
def pending (t : Tty) : List UInt8 := t.deposited.drop t.sent.length

end Tty

/-- The fields that describe the output. -/
structure OutputSide where
  tyohead : Int
  tyotail : Int
  tyobuff : Int → UInt8
  tyosem : Gate Writer
  deposited : List UInt8
  sent : List UInt8

def Tty.outputSide (t : Tty) : OutputSide :=
  ⟨t.tyohead, t.tyotail, t.tyobuff, t.tyosem, t.deposited, t.sent⟩

/-- The pointers of the echo buffer are inside of it. -/
structure EchoInside (t : Tty) : Prop where
  head : 0 ≤ t.tyehead ∧ t.tyehead < TY_EBUFLEN
  tail : 0 ≤ t.tyetail ∧ t.tyetail < TY_EBUFLEN

/-- `u` comes from `t` without a change of the output. -/
structure SameOutput (t u : Tty) : Prop where
  side : u.outputSide = t.outputSide
  echo : EchoInside t → EchoInside u

theorem SameOutput.refl : SameOutput t t := ⟨rfl, id⟩

theorem SameOutput.trans (h₁ : SameOutput t u) (h₂ : SameOutput u v) : SameOutput t v :=
  ⟨h₂.side.trans h₁.side, h₂.echo ∘ h₁.echo⟩

/-- Neither the output nor the echo changes. -/
theorem SameOutput.of_eq (h : u.outputSide = t.outputSide)
    (he : u.tyehead = t.tyehead ∧ u.tyetail = t.tyetail) : SameOutput t u := by
  refine ⟨h, ?_⟩
  rintro ⟨h1, h2⟩
  exact ⟨he.1 ▸ h1, he.2 ▸ h2⟩

theorem next_inside {m i : Int} (h : 0 ≤ i ∧ i < m) :
    0 ≤ Rings.next m i ∧ Rings.next m i < m := by
  unfold Rings.next
  split_ifs <;> omega

/-! ## 2. The input leaves the output alone

One lemma for each function of the input's side, in the order in which they call each other. -/

theorem sameOutput_eputc : SameOutput t (Tty.eputc ch t) :=
  ⟨rfl, fun h => ⟨h.head, next_inside h.tail⟩⟩

theorem sameOutput_echoch : SameOutput t (Tty.echoch ch t) := by
  unfold Tty.echoch
  split_ifs
  · exact sameOutput_eputc.trans sameOutput_eputc
  · exact sameOutput_eputc.trans sameOutput_eputc
  · exact sameOutput_eputc

theorem sameOutput_echo : SameOutput t (Tty.echo ch t) := by
  unfold Tty.echo
  split_ifs
  · exact sameOutput_echoch
  · exact .refl

theorem sameOutput_backspace : SameOutput t (Tty.backspace t) := by
  rw [Tty.backspace]
  split_ifs
  · exact (sameOutput_eputc.trans sameOutput_eputc).trans sameOutput_eputc
  · exact sameOutput_eputc

theorem sameOutput_erase1 : SameOutput t (Tty.erase1 t) := by
  have h : SameOutput t { t with tyitail := t.back 1, unread := t.unread.dropLast } :=
    .of_eq rfl ⟨rfl, rfl⟩
  rw [Tty.erase1]
  split_ifs
  · exact (h.trans sameOutput_backspace).trans sameOutput_backspace
  · exact h.trans sameOutput_backspace
  · exact h.trans sameOutput_backspace
  · exact h

theorem sameOutput_put : SameOutput t (Tty.put ch t) := .of_eq rfl ⟨rfl, rfl⟩

theorem sameOutput_wrap : SameOutput t t.wrap := by
  unfold Tty.wrap
  split_ifs
  · exact .of_eq rfl ⟨rfl, rfl⟩
  · exact .refl

theorem sameOutput_signalIn : SameOutput t (Tty.signalIn n t) := .of_eq rfl ⟨rfl, rfl⟩

theorem sameOutput_cbreakIn : SameOutput t (Tty.cbreakIn ch t) := by
  rw [Tty.cbreakIn]
  split_ifs
  · exact sameOutput_eputc
  · exact (sameOutput_put.trans sameOutput_wrap).trans sameOutput_echo

theorem sameOutput_cookedIn : SameOutput t (Tty.cookedIn ch t) := by
  rw [Tty.cookedIn]
  dsimp only
  split_ifs
  · refine .trans (.trans ?_ sameOutput_eputc) sameOutput_eputc
    exact .of_eq rfl ⟨rfl, rfl⟩
  · refine .trans ?_ sameOutput_erase1
    exact .of_eq rfl ⟨rfl, rfl⟩
  · exact .refl
  · have h : SameOutput t (Tty.signalIn (t.tyicursor + 1) (Tty.put ch (Tty.echo ch t)).wrap) :=
      ((sameOutput_echo.trans sameOutput_put).trans sameOutput_wrap).trans sameOutput_signalIn
    exact h.trans (.of_eq rfl ⟨rfl, rfl⟩)
  · exact sameOutput_eputc
  · exact sameOutput_echo
  · exact (sameOutput_echo.trans sameOutput_put).trans sameOutput_signalIn
  · refine .trans (.trans ?_ sameOutput_put) sameOutput_wrap
    exact sameOutput_echo.trans (.of_eq rfl ⟨rfl, rfl⟩)

theorem sameOutput_ttyhandle_in : SameOutput t (Tty.ttyhandle_in ch t) := by
  have h (b : Bool) : SameOutput t { t with tyoheld := b } := .of_eq rfl ⟨rfl, rfl⟩
  rw [Tty.ttyhandle_in]
  generalize (if ch = TY_RETURN ∧ t.tyicrlf = true then TY_NEWLINE else ch) = c
  dsimp only
  split_ifs
  · exact .refl
  · exact (sameOutput_put.trans sameOutput_wrap).trans sameOutput_signalIn
  · exact (h false).trans (.of_eq rfl ⟨rfl, rfl⟩)
  · exact h true
  · exact (h false).trans sameOutput_cbreakIn
  · exact (h false).trans sameOutput_cookedIn

theorem sameOutput_takeChar : SameOutput t t.takeChar.1 := by
  rw [Tty.takeChar]
  split_ifs <;> exact .of_eq rfl ⟨rfl, rfl⟩

theorem sameOutput_finish {pid : Nat} {a : Int} {b : List UInt8} :
    SameOutput t (Tty.finish pid a b t) := .of_eq rfl ⟨rfl, rfl⟩

theorem SameOutput.waitIn {r : Reader} {next : Tty → Tty} (h : ∀ u, SameOutput u (next u)) :
    SameOutput t (Tty.waitIn r t next) := by
  have hw : SameOutput t { t with tyisem := t.tyisem.wait r } := .of_eq rfl ⟨rfl, rfl⟩
  rw [Tty.waitIn]
  split_ifs
  · exact hw.trans (h _)
  · exact hw

theorem sameOutput_readLine {pid left : Nat} {b : List UInt8} :
    SameOutput t (Tty.readLine pid left b t) := by
  induction left generalizing t b with
  | zero => exact sameOutput_finish
  | succ left ih =>
    rw [Tty.readLine]
    split_ifs
    · exact sameOutput_finish
    · exact .waitIn fun u => sameOutput_takeChar.trans ih

theorem sameOutput_readChars {pid left : Nat} {b : List UInt8} :
    SameOutput t (Tty.readChars pid left b t) := by
  induction left generalizing t b with
  | zero => exact sameOutput_finish
  | succ left ih => exact .waitIn fun u => sameOutput_takeChar.trans ih

theorem sameOutput_goOn {r : Reader} : SameOutput t (Tty.goOn r t) := by
  unfold Tty.goOn
  split
  · exact sameOutput_takeChar.trans sameOutput_finish
  · exact sameOutput_signalIn.trans sameOutput_finish
  · dsimp only
    split_ifs
    · exact sameOutput_takeChar.trans sameOutput_finish
    · exact sameOutput_takeChar.trans sameOutput_readLine
  · exact sameOutput_takeChar.trans sameOutput_readLine
  · exact sameOutput_takeChar.trans sameOutput_readChars

theorem sameOutput_ttyread {pid : Nat} {count : Int} :
    SameOutput t (Tty.ttyread pid count t) := by
  rw [Tty.ttyread]
  split_ifs
  · exact sameOutput_finish
  · exact sameOutput_finish
  · exact sameOutput_readChars
  · exact sameOutput_readChars
  · exact .waitIn fun u => sameOutput_goOn

theorem sameOutput_ttycontrol {pid : Nat} {func : Tty.Func} :
    SameOutput t (Tty.ttycontrol pid func t) := by
  cases func with
  | TC_NEXTC => exact .waitIn fun u => sameOutput_goOn
  | _ => exact .of_eq rfl ⟨rfl, rfl⟩

/-! ## 3. The invariant

Every place of the buffer is accounted for: it holds a pending character, or it is granted, by the
count of `tyosem` or to a writer that was released.  `Shared` has a number for the others, of
which there is one while a writer deposits its character. -/

/-- **The output is as it should be.**  What was sent are the oldest of the deposited characters,
and the others stand in the buffer, each where it was deposited. -/
structure OutputKept (t : Tty) : Prop where
  sent : t.sent <+: t.deposited
  ring : Ring TY_OBUFLEN t.tyobuff t.tyohead t.tyotail t.pending

/-- The places of the buffer are those of the pending characters, those granted to writers, and `n`
others. -/
structure Shared (n : Int) (t : Tty) : Prop where
  kept : OutputKept t
  shared : (t.pending.length : Int) + t.tyosem.grants + n = TY_OBUFLEN

theorem pending_congr (h : u.outputSide = t.outputSide) : u.pending = t.pending := by
  simp only [Tty.outputSide, OutputSide.mk.injEq] at h
  rw [Tty.pending, Tty.pending, h.2.2.2.2.1, h.2.2.2.2.2]

theorem OutputKept.congr (h : OutputKept t) (he : u.outputSide = t.outputSide) : OutputKept u := by
  have hp := pending_congr he
  simp only [Tty.outputSide, OutputSide.mk.injEq] at he
  obtain ⟨h1, h2, h3, -, h5, h6⟩ := he
  refine ⟨?_, ?_⟩
  · rw [h5, h6]
    exact h.sent
  · rw [h1, h2, h3, hp]
    exact h.ring

theorem Shared.congr (h : Shared n t) (he : u.outputSide = t.outputSide) : Shared n u := by
  refine ⟨h.kept.congr he, ?_⟩
  rw [pending_congr he]
  simp only [Tty.outputSide, OutputSide.mk.injEq] at he
  rw [he.2.2.2.1]
  exact h.shared

theorem OutputKept.deposited_eq (h : OutputKept t) : t.deposited = t.sent ++ t.pending := by
  rw [Tty.pending]
  exact (List.prefix_iff_eq_append.mp h.sent).symm

/-- `c` is all that comes after what was sent. -/
theorem pending_of_deposited {cs : List UInt8} (h : t.deposited = t.sent ++ cs) :
    t.pending = cs := by
  rw [Tty.pending, h, List.drop_left]

/-- **A writer that has passed deposits.** -/
theorem Shared.deposit (h : Shared 1 t) : Shared 0 (Tty.deposit ch t) := by
  have hs := h.shared
  have hg := t.tyosem.grants_nonneg
  have hd : (Tty.deposit ch t).deposited = (Tty.deposit ch t).sent ++ (t.pending ++ [ch]) := by
    rw [← List.append_assoc]
    exact congrArg (· ++ [ch]) h.kept.deposited_eq
  have hp := pending_of_deposited hd
  refine ⟨⟨⟨_, hd.symm⟩, ?_⟩, ?_⟩
  · rw [hp]
    exact h.kept.ring.push (by omega)
  · rw [hp, List.length_append, List.length_singleton]
    simp only [Tty.deposit, Tty.ttykickout]
    omega

/-- The characters of a writer, up to the one it has to wait with. -/
theorem Shared.putChars (h : Shared 0 t) (he : EchoInside t) {pid : Nat} {cs : List UInt8} :
    Shared 0 (Tty.putChars pid cs t) ∧ EchoInside (Tty.putChars pid cs t) := by
  induction cs generalizing t with
  | nil => exact ⟨h.congr rfl, he.head, he.tail⟩
  | cons c cs ih =>
    have hs := h.shared
    rw [Tty.putChars]
    split_ifs with hc
    · refine ih (Shared.deposit ⟨⟨h.kept.sent, h.kept.ring⟩, ?_⟩) ⟨he.head, he.tail⟩
      simp only [Gate.grants_wait_passes hc]
      exact (show (t.pending.length : Int) + (t.tyosem.grants - 1) + 1 = TY_OBUFLEN by omega)
    · refine ⟨⟨⟨h.kept.sent, h.kept.ring⟩, ?_⟩, he.head, he.tail⟩
      simp only [Gate.grants_wait_blocks (not_lt.mp hc)]
      exact hs

/-! ## 4. The output interrupt

Two loops, for the echoed characters and for the others.  The second one is where the number of
characters to send comes from the count and not from the buffer. -/

/-- How many characters are in the echo buffer. -/
def Tty.echoes (t : Tty) : Int := (t.tyetail - t.tyehead) % TY_EBUFLEN

/-- One character leaves the echo buffer. -/
theorem echoes_next (h : EchoInside t) (hne : t.tyehead ≠ t.tyetail) :
    0 < t.echoes ∧ (t.tyetail - Rings.next TY_EBUFLEN t.tyehead) % TY_EBUFLEN = t.echoes - 1 := by
  obtain ⟨⟨h1, h2⟩, h3, h4⟩ := h
  simp only [Tty.echoes, Rings.next, TY_EBUFLEN, Nat.cast_ofNat] at *
  split_ifs <;> omega

/-- **The first loop** leaves the output alone and tells what it has left of the UART's space. -/
theorem sendEcho_spec (h : EchoInside t) (m : Nat) : SameOutput t (Tty.sendEcho m t).1 ∧
    (Tty.sendEcho m t).2 = (m - t.echoes).toNat := by
  induction m generalizing t with
  | zero =>
    have h0 : 0 ≤ t.echoes := Int.emod_nonneg _ (by decide)
    exact ⟨.refl, by simp only [Tty.sendEcho]; omega⟩
  | succ m ih =>
    rw [Tty.sendEcho]
    split_ifs with hne
    · obtain ⟨hpos, hnext⟩ := echoes_next h hne
      have hs : SameOutput t { t with handed := t.handed ++ [(.echo, t.tyebuff t.tyehead)]
                                      tyehead := Rings.next TY_EBUFLEN t.tyehead } := by
        refine ⟨?_, fun h => ⟨next_inside h.head, h.tail⟩⟩
        simp [Tty.outputSide, Tty.sent]
      obtain ⟨h1, h2⟩ := ih (hs.echo h)
      refine ⟨hs.trans h1, h2.trans ?_⟩
      simp only [Tty.echoes, hnext] at *
      omega
    · refine ⟨.refl, ?_⟩
      have he : t.echoes = 0 := by rw [Tty.echoes, not_not.mp hne, sub_self, Int.zero_emod]
      rw [he, sub_zero, Int.toNat_natCast]

/-- **The second loop** sends the oldest pending characters, when there are that many. -/
theorem OutputKept.sendOutput (h : OutputKept t) {m : Nat} (hm : m ≤ t.pending.length) :
    OutputKept (Tty.sendOutput m t) ∧ (Tty.sendOutput m t).pending = t.pending.drop m := by
  induction m generalizing t with
  | zero => exact ⟨h, rfl⟩
  | succ m ih =>
    obtain ⟨c, cs, hcs⟩ := List.exists_cons_of_length_pos (Nat.lt_of_lt_of_le m.succ_pos hm)
    obtain ⟨hc, hring⟩ := (hcs ▸ h.ring).pop
    have hd := h.deposited_eq
    rw [Tty.sendOutput]
    set u : Tty := { t with handed := t.handed ++ [(.output, t.tyobuff t.tyohead)]
                            tyohead := Rings.next TY_OBUFLEN t.tyohead } with hu
    have hsent : u.sent = t.sent ++ [c] := by simp [hu, Tty.sent, hc]
    have hdu : u.deposited = u.sent ++ cs := by
      rw [hsent, List.append_assoc, List.singleton_append, ← hcs]
      exact hd
    have hp := pending_of_deposited hdu
    have hk : OutputKept u := ⟨⟨cs, hdu.symm⟩, hp ▸ hring⟩
    rw [hcs, List.length_cons] at hm
    obtain ⟨h1, h2⟩ := ih hk (by rw [hp]; omega)
    exact ⟨h1, by rw [h2, hp, hcs, List.drop_succ_cons]⟩

theorem sendOutput_frame (m : Nat) : (Tty.sendOutput m t).tyosem = t.tyosem ∧
    (Tty.sendOutput m t).deposited = t.deposited ∧
    (Tty.sendOutput m t).sent.length = t.sent.length + m ∧
    (EchoInside t → EchoInside (Tty.sendOutput m t)) := by
  induction m generalizing t with
  | zero => exact ⟨rfl, rfl, rfl, id⟩
  | succ m ih =>
    obtain ⟨h1, h2, h3, h4⟩ := ih (t := { t with
      handed := t.handed ++ [(.output, t.tyobuff t.tyohead)]
      tyohead := Rings.next TY_OBUFLEN t.tyohead })
    refine ⟨h1, h2, h3.trans ?_, fun h => h4 ⟨h.head, h.tail⟩⟩
    simp [Tty.sent]
    omega

/-- **The interrupt comes in time**: output is held, or no writer is waiting or released, or the
UART has not more space behind the echoed characters than there are characters. -/
def Timely (t : Tty) : Tty.Event → Prop
  | .interrupt => t.tyoheld ∨ t.tyosem.grants = t.tyosem.sem.count ∨
      UART_FIFO_SIZE - t.echoes ≤ TY_OBUFLEN - t.tyosem.grants
  | _ => True

instance (t : Tty) (e : Tty.Event) : Decidable (Timely t e) := by
  unfold Timely
  split <;> infer_instance

/-- To send more than is pending is to send what nobody has deposited. -/
theorem not_outputKept_sendOutput (h : OutputKept t) {m : Nat} (hm : t.pending.length < m) :
    ¬ OutputKept (Tty.sendOutput m t) := by
  intro hk
  obtain ⟨-, h2, h3, -⟩ := sendOutput_frame (t := t) m
  have hlen := hk.sent.length_le
  have hd := congrArg List.length h.deposited_eq
  rw [h2, h3] at hlen
  rw [List.length_append] at hd
  omega

/-- **`ttyhandle_out`** keeps the output in order if and only if it comes in time. -/
theorem outputKept_ttyhandle_out_iff (h : Shared 0 t) (he : EchoInside t) :
    (OutputKept (Tty.ttyhandle_out t) ↔ Timely t .interrupt) ∧
      (Timely t .interrupt → Shared 0 (Tty.ttyhandle_out t)) ∧
      EchoInside (Tty.ttyhandle_out t) := by
  obtain ⟨hside, hspace⟩ := sendEcho_spec he UART_FIFO_SIZE
  have hecho := hside.echo he
  have h' := h.congr hside.side
  have hsem : (Tty.sendEcho UART_FIFO_SIZE t).1.tyosem = t.tyosem :=
    congrArg OutputSide.tyosem hside.side
  have hpend := pending_congr hside.side
  have hs := h.shared
  have hg := t.tyosem.count_le_grants
  rw [Tty.ttyhandle_out]
  split_ifs with hheld hidle
  · exact ⟨iff_of_true h.kept (Or.inl hheld), fun _ => h, he⟩
  · have hk : Shared 0 { t with ier := t.ier &&& ~~~UART_IER_ETBEI } := h.congr rfl
    exact ⟨iff_of_true hk.kept (Or.inr (Or.inl (by omega))), fun _ => hk, he.head, he.tail⟩
  · dsimp only
    rw [hsem, hspace]
    set m := min (UART_FIFO_SIZE - t.echoes).toNat (TY_OBUFLEN - t.tyosem.sem.count).toNat with hm
    obtain ⟨f1, f2, f3, f4⟩ := sendOutput_frame (t := (Tty.sendEcho UART_FIFO_SIZE t).1) m
    have htime : Timely t .interrupt ↔ m ≤ t.pending.length := by
      simp only [Timely, hheld, Bool.false_eq_true, false_or]
      omega
    have hkept : OutputKept (Tty.sendOutput m (Tty.sendEcho UART_FIFO_SIZE t).1) ↔
        m ≤ t.pending.length := by
      constructor
      · intro hk
        refine not_lt.mp fun hlt => not_outputKept_sendOutput h'.kept (hpend ▸ hlt) hk
      · intro hm
        exact (h'.kept.sendOutput (hpend ▸ hm)).1
    rw [htime, ← hkept]
    split_ifs with hpos
    · refine ⟨⟨fun hk => ⟨hk.sent, hk.ring⟩, fun hk => ⟨hk.sent, hk.ring⟩⟩,
        fun hk => ⟨⟨hk.sent, hk.ring⟩, ?_⟩, (f4 hecho).head, (f4 hecho).tail⟩
      have hm' := hkept.mp hk
      have hp := (h'.kept.sendOutput (hpend ▸ hm')).2
      have hlen : (Tty.sendOutput m (Tty.sendEcho UART_FIFO_SIZE t).1).pending.length + m =
          t.pending.length := by
        rw [hp, hpend, List.length_drop, Nat.sub_add_cancel hm']
      have hgr := Gate.grants_signal (g := t.tyosem) m
      simp only [f1, hsem]
      exact (show ((Tty.sendOutput m (Tty.sendEcho UART_FIFO_SIZE t).1).pending.length : Int) +
        (t.tyosem.signal m).grants + 0 = TY_OBUFLEN by omega)
    · refine ⟨Iff.rfl, fun hk => ⟨hk, ?_⟩, f4 hecho⟩
      have h0 : m = 0 := by omega
      rw [h0]
      exact h'.shared

/-! ## 5. Runs

The condition on a step is exact: the first interrupt that does not come in time hands a character
to the UART that nobody deposited. -/

/-- What holds in every state of a run whose interrupts come in time. -/
structure OutputInv (t : Tty) : Prop where
  shared : Shared 0 t
  echo : EchoInside t

theorem OutputInv.of_same (h : OutputInv t) (hs : SameOutput t u) : OutputInv u :=
  ⟨h.shared.congr hs.side, hs.echo h.echo⟩

/-- **One step.** -/
theorem OutputInv.step (h : OutputInv t) {e : Tty.Event} (hs : t.step e = some u) :
    (OutputKept u ↔ Timely t e) ∧ (Timely t e → OutputInv u) := by
  have hsafe (hu : OutputInv u) (ht : Timely t e) :
      (OutputKept u ↔ Timely t e) ∧ (Timely t e → OutputInv u) :=
    ⟨iff_of_true hu.shared.kept ht, fun _ => hu⟩
  cases e with
  | arrive c =>
    rw [← Option.some.inj hs] at hsafe ⊢
    exact hsafe (h.of_same sameOutput_ttyhandle_in) trivial
  | interrupt =>
    rw [← Option.some.inj hs]
    obtain ⟨h1, h2, h3⟩ := outputKept_ttyhandle_out_iff h.shared h.echo
    exact ⟨h1, fun ht => ⟨h2 ht, h3⟩⟩
  | getc pid =>
    obtain ⟨-, he⟩ := Option.ite_none_right_eq_some.mp hs
    rw [← Option.some.inj he] at hsafe ⊢
    exact hsafe (h.of_same (.waitIn fun u => sameOutput_goOn)) trivial
  | read pid count =>
    obtain ⟨-, he⟩ := Option.ite_none_right_eq_some.mp hs
    rw [← Option.some.inj he] at hsafe ⊢
    exact hsafe (h.of_same sameOutput_ttyread) trivial
  | control pid func =>
    obtain ⟨-, he⟩ := Option.ite_none_right_eq_some.mp hs
    rw [← Option.some.inj he] at hsafe ⊢
    exact hsafe (h.of_same sameOutput_ttycontrol) trivial
  | putc pid c =>
    obtain ⟨-, he⟩ := Option.ite_none_right_eq_some.mp hs
    rw [← Option.some.inj he] at hsafe ⊢
    obtain ⟨h1, h2⟩ := h.shared.putChars h.echo
    exact hsafe ⟨h1, h2⟩ trivial
  | runReader r =>
    obtain ⟨-, he⟩ := Option.ite_none_right_eq_some.mp hs
    rw [← Option.some.inj he] at hsafe ⊢
    refine hsafe (h.of_same (.trans ?_ sameOutput_goOn)) trivial
    exact .of_eq rfl ⟨rfl, rfl⟩
  | runWriter w =>
    obtain ⟨hw, he⟩ := Option.ite_none_right_eq_some.mp hs
    rw [← Option.some.inj he] at hsafe ⊢
    have hrun : Shared 1 { t with tyosem := t.tyosem.run w } := by
      refine ⟨⟨h.shared.kept.sent, h.shared.kept.ring⟩, ?_⟩
      have := h.shared.shared
      simp only [Gate.grants_run hw]
      exact (show (t.pending.length : Int) + (t.tyosem.grants - 1) + 1 = TY_OBUFLEN by omega)
    have hecho : EchoInside (Tty.deposit w.ch { t with tyosem := t.tyosem.run w }) :=
      ⟨h.echo.head, h.echo.tail⟩
    obtain ⟨h1, h2⟩ := hrun.deposit.putChars hecho
    exact hsafe ⟨h1, h2⟩ trivial

theorem Tty.Fresh.outputInv (h : Tty.Fresh t) : OutputInv t := by
  obtain ⟨h1, h2, h3, h4, h5⟩ := h.output
  have hp : t.pending = [] := by rw [Tty.pending, h4, List.drop_nil]
  have hsent : t.sent = [] := by rw [Tty.sent, h5]; rfl
  refine ⟨⟨⟨?_, ?_⟩, ?_⟩, ?_, ?_⟩
  · rw [hsent]
    exact List.nil_prefix
  · rw [h1, h2, hp]
    exact Ring.empty (by decide)
  · rw [hp, h3, Gate.grants_create]
    rfl
  · rw [h.echo.1]
    decide
  · rw [h.echo.2]
    decide

/-- **In every run whose output interrupts come in time the output is in order**, and the first one
that does not puts it out of order. -/
theorem output_kept {t₀ : Tty} (h0 : Tty.Fresh t₀) (h : Reaches Tty.step Timely t₀ t) :
    OutputKept t ∧ ∀ e u, t.step e = some u → (OutputKept u ↔ Timely t e) := by
  have hk : OutputInv t := by
    refine h.invariant h0.outputInv ?_
    intro t e u ht hok hs
    exact (ht.step hs).2 hok
  exact ⟨hk.shared.kept, fun e u hs => (hk.step hs).1⟩

/-- A writer fills the buffer, 64 characters, and a second one has to wait. -/
def fillOutput : List Tty.Event := List.replicate 64 (.putc 1 97) ++ [.putc 2 98]

/-- After an interrupt and before the second writer has run. -/
theorem output_kept_full : ∃ t, t.sent = List.replicate 16 97 ∧ t.tyosem.released = [⟨2, 98, []⟩] ∧
    OutputKept t := by
  have h1 : (exec Tty.step Timely (Tty.ttyinit (fun _ => 0) (fun _ => 0) fun _ => 0)
      (fillOutput ++ [.interrupt])).map (fun t : Tty => (t.sent, t.tyosem.released)) =
        some (List.replicate 16 97, [⟨2, 98, []⟩]) := by decide +kernel
  obtain ⟨t, ht, hu⟩ := Option.map_eq_some_iff.mp h1
  obtain ⟨hs, hr⟩ := Prod.mk.inj hu
  exact ⟨t, hs, hr, (output_kept (Tty.fresh_ttyinit _ _ _) (reaches_of_exec ht)).1⟩

/-- The fifth interrupt sends a character that nobody has deposited. -/
theorem output_undeposited : ∃ t,
    Reaches Tty.step always (Tty.ttyinit (fun _ => 0) (fun _ => 0) fun _ => 0) t ∧
      t.deposited.length = 64 ∧ t.sent.length = 65 ∧ ¬ OutputKept t := by
  have h1 : (exec Tty.step always (Tty.ttyinit (fun _ => 0) (fun _ => 0) fun _ => 0)
      (fillOutput ++ List.replicate 5 .interrupt)).map (fun t : Tty =>
        (t.deposited.length, t.sent.length)) = some (64, 65) := by decide +kernel
  obtain ⟨t, ht, hu⟩ := Option.map_eq_some_iff.mp h1
  obtain ⟨hd, hs⟩ := Prod.mk.inj hu
  refine ⟨t, reaches_of_exec ht, hd, hs, ?_⟩
  intro h
  have := h.sent.length_le
  omega

end Xinu
