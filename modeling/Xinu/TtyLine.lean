/-
# Lines typed at the terminal

In cooked mode, with the editing keys enabled, the terminal is a line editor: what successive calls
of `ttyread` return is what the typed text comes to (`LineEditor.Keys.edited`), read line by line
(`lines_read`).

The calls that differ are excluded step by step (`Plain`, `Wraps`): a call for no characters stores
one all the same, the byte 0376 at the beginning of a call is taken for the end of the file, and the
end-of-file character in the last place of the buffer is stored without wrapping the pointer.

What was typed is a list of bytes, and the line editor of the library turns it into items that can
be read and a line that is still being edited.  The buffer of the terminal holds exactly these
(`Content`), so typing a character and reading one are operations on lists, and the semaphore
counts what can be read.
-/
import Xinu.Lib.LineEditor
import Xinu.TtyInput

namespace Xinu

open Rings Counting Runs LineEditor

variable {t u : Tty} {ch c : UInt8} {k : Keys UInt8} {rest new : List (Item UInt8)}
  {line line' : List UInt8} {i : Item UInt8} {pid : Nat} {count : Int}

/-! ## 1. The line mode

The settings of the terminal under which it is a line editor, and what the buffer and the
semaphore look like then.  Other modes are modelled in `Tty` and not looked at here. -/

/-- The keys of a terminal. -/
def Tty.keys (t : Tty) : Keys UInt8 where
  kill := t.tyikillc
  erase := t.tyierasec
  erase2 := t.tyierasec2
  eof := t.tyeofch
  ends c := c = TY_NEWLINE ∨ c = TY_RETURN

/-- Cooked mode with erase, kill and end-of-file processing, without return mapping and output flow
control. -/
structure LineMode (k : Keys UInt8) (t : Tty) : Prop where
  mode : t.tyimode = .cooked ∧ t.tyierase = true ∧ t.tyikill = true ∧ t.tyeof = true ∧
    t.tyicrlf = false ∧ t.tyoflow = false
  keys : t.keys = k
  eof : k.ends k.eof = false

/-- The character that stands for an item. -/
def charOf (k : Keys UInt8) : Item UInt8 → UInt8
  | .byte c => c
  | .eof => k.eof

/-- The buffer holds `rest`, which can be read, and the line being edited. -/
structure Content (k : Keys UInt8) (rest : List (Item UInt8)) (line : List UInt8) (t : Tty) :
    Prop where
  mode : LineMode k t
  unread : t.unread = rest.map (charOf k) ++ line
  cursor : t.tyicursor = line.length

theorem Content.echo (h : Content k rest line t) (he : EchoOnly t u) : Content k rest line u := by
  obtain ⟨b, e, i, rfl⟩ := he
  exact ⟨⟨h.mode.mode, h.mode.keys, h.mode.eof⟩, h.unread, h.cursor⟩

/-- What is granted can be read. -/
theorem Content.grants (h : Content k rest line t) (hk : Surplus 0 t) :
    t.tyisem.grants = rest.length := by
  have h1 := hk.counted
  have h2 := congrArg List.length h.unread
  rw [List.length_append, List.length_map] at h2
  have h3 := h.cursor
  omega

/-! ## 2. Typing

The handler of a typed character erases one, erases the line, ends it, or stores the character;
what it echoes does not show in the buffer.  A line that is complete is counted to the semaphore
as a whole. -/

/-- The unread part of what was typed still fits when `ch` is typed. -/
def FitsIn (t : Tty) (ch : UInt8) : Prop :=
  ch = t.tyikillc ∨ ch = t.tyierasec ∨ ch = t.tyierasec2 ∨
    if ch = TY_NEWLINE ∨ ch = TY_RETURN then t.held < TY_IBUFLEN
    else ch = t.tyeofch ∧ t.tyicursor ≠ 0 ∨ t.avail + t.tyicursor < TY_IBUFLEN - 1 ∧
      t.held < TY_IBUFLEN

/-- `ch` is not an end-of-file character that is stored in the last place. -/
def Wraps (t : Tty) (ch : UInt8) : Prop :=
  ch = t.tyeofch → ch ≠ t.tyikillc → ch ≠ t.tyierasec → ch ≠ t.tyierasec2 → t.tyicursor = 0 →
    t.tyitail + 1 < TY_IBUFLEN

/-- `u` comes from `t` by typing a character that completes `new` and leaves `line'`. -/
structure Types (k : Keys UInt8) (rest new : List (Item UInt8)) (line' : List UInt8) (t u : Tty) :
    Prop where
  content : Content k (rest ++ new) line' u
  sem : u.tyisem = t.tyisem.signal new.length
  returns : u.returns = t.returns

theorem Types.echo {v : Tty} (h : Types k rest new line' t u) (he : EchoOnly u v) :
    Types k rest new line' t v := by
  refine ⟨h.content.echo he, ?_, ?_⟩
  · obtain ⟨b, e, i, rfl⟩ := he
    exact h.sem
  · obtain ⟨b, e, i, rfl⟩ := he
    exact h.returns

theorem Types.same (h : Content k rest line t) (he : EchoOnly t u) : Types k rest [] line t u := by
  have h0 : Types k rest [] line t t := by
    refine ⟨?_, ?_, rfl⟩
    · rwa [List.append_nil]
    · rw [List.length_nil, Gate.signal_zero]
  exact h0.echo he

/-- The line being edited becomes `line'`. -/
theorem Content.edit (h : Content k rest line t) {xs : List UInt8} {tail v : Int}
    (hx : xs = rest.map (charOf k) ++ line') (hv : v = line'.length) :
    Types k rest [] line' t { t with tyitail := tail, tyicursor := v, unread := xs } := by
  refine ⟨⟨⟨h.mode.mode, h.mode.keys, h.mode.eof⟩, ?_, hv⟩, ?_, rfl⟩
  · rwa [List.append_nil]
  · rw [List.length_nil, Gate.signal_zero]

/-- **A typed character** does to the buffer what it does to the text. -/
theorem Content.type (h : Content k rest line t) (hfit : FitsIn t ch) :
    Types k rest (k.type line ch).1 (k.type line ch).2 t (Tty.cookedIn ch t) := by
  obtain ⟨⟨hmode, herase, hkill, heof, -, -⟩, rfl, hends⟩ := h.mode
  have hcur := h.cursor
  have hun := h.unread
  have hecho : Content t.keys rest line (Tty.echo ch t) := h.echo echoOnly_echo
  have hsem : (Tty.echo ch t).tyisem = t.tyisem :=
    congrArg InputSide.tyisem (Tty.inputSide_echo echoOnly_echo)
  have hecur := hecho.cursor
  have hret : (Tty.echo ch t).returns = t.returns := by
    obtain ⟨b, e, i, he⟩ : EchoOnly t (Tty.echo ch t) := echoOnly_echo
    rw [he]
  rw [Tty.cookedIn, Keys.type]
  simp only [and_iff_left hkill, and_iff_left herase, and_iff_left heof]
  rcases em (ch = t.tyikillc) with h1 | h1
  · -- line kill
    have hx : t.unread.take (t.unread.length - t.tyicursor.toNat) =
        rest.map (charOf t.keys) ++ [] := by
      rw [hun, hcur, Int.toNat_natCast, List.length_append, Nat.add_sub_cancel, List.take_left,
        List.append_nil]
    rw [if_pos h1, if_pos (c := ch = t.keys.kill) h1]
    exact ((h.edit hx rfl).echo echoOnly_eputc).echo echoOnly_eputc
  rw [if_neg h1, if_neg (c := ch = t.keys.kill) h1]
  rcases em (ch = t.tyierasec ∨ ch = t.tyierasec2) with h2 | h2
  · rw [if_pos h2, if_pos (c := ch = t.keys.erase ∨ ch = t.keys.erase2) h2]
    split_ifs with h3
    · -- an erasure
      have hne : line ≠ [] := by
        rintro rfl
        rw [hcur] at h3
        exact absurd h3 (by decide)
      have hlen := List.length_pos_iff.mpr hne
      have hx : t.unread.dropLast = rest.map (charOf t.keys) ++ line.dropLast := by
        rw [hun, List.dropLast_append_of_ne_nil hne]
      have hv : t.tyicursor - 1 = line.dropLast.length := by
        rw [List.length_dropLast]
        omega
      exact (h.edit hx hv).echo echoOnly_erase1
    · -- nothing to erase
      have hnil : line = [] := List.length_eq_zero_iff.mp (by omega)
      subst hnil
      exact .same h .refl
  rw [if_neg h2, if_neg (c := ch = t.keys.erase ∨ ch = t.keys.erase2) h2]
  have hends' : t.keys.ends ch = true ↔ ch = TY_NEWLINE ∨ ch = TY_RETURN := decide_eq_true_iff
  rcases em (ch = TY_NEWLINE ∨ ch = TY_RETURN) with h3 | h3
  · -- the end of a line
    rw [if_pos h3, if_pos (hends'.mpr h3), wrap_put]
    refine ⟨⟨⟨hecho.mode.mode, hecho.mode.keys, hecho.mode.eof⟩, ?_, rfl⟩, ?_, hret⟩
    · simp only [Tty.signalIn, hecho.unread, List.map_append, List.append_nil, List.append_assoc,
        List.map_map]
      congr 1
      simp [Function.comp_def, charOf]
    · simp only [Tty.signalIn, hsem, List.length_map, List.length_append, List.length_singleton]
      congr 1
      omega
  rw [if_neg h3, if_neg (mt hends'.mp h3)]
  have hroom : ch = t.tyeofch ∧ t.tyicursor ≠ 0 ∨ t.avail + t.tyicursor < TY_IBUFLEN - 1 := by
    rcases hfit with hx | hx | hx | hx
    · exact absurd hx h1
    · exact absurd (Or.inl hx) h2
    · exact absurd (Or.inr hx) h2
    · rw [if_neg h3] at hx
      exact hx.imp_right And.left
  have hnil : line = [] ↔ t.tyicursor = 0 := by
    rw [← List.length_eq_zero_iff]
    omega
  rcases em (ch = t.tyeofch) with h4 | h4
  · rcases em (t.tyicursor = 0) with h5 | h5
    · -- the end of the file
      have hfull : ¬ t.avail + t.tyicursor ≥ TY_IBUFLEN - 1 :=
        not_le.mpr (hroom.resolve_left fun hx => hx.2 h5)
      rw [if_neg hfull, if_pos h4, if_pos (c := ch = t.keys.eof) h4, if_neg (not_not.mpr h5),
        if_pos (hnil.mpr h5)]
      refine ⟨⟨⟨hecho.mode.mode, hecho.mode.keys, hecho.mode.eof⟩, ?_, hecho.cursor⟩, ?_, hret⟩
      · have hx := hecho.unread
        rw [hnil.mpr h5, List.append_nil] at hx
        simp only [Tty.signalIn, Tty.put, hx, hnil.mpr h5, List.append_nil, List.map_append,
          List.map_cons, List.map_nil, charOf]
        exact congrArg (fun c => _ ++ [c]) h4
      · simp only [Tty.signalIn, Tty.put, hsem]
        rfl
    · -- an end-of-file character that is ignored
      have hsame (u : Tty) (hu : EchoOnly t u) : Types t.keys rest [] line t u := .same h hu
      rw [if_pos h4, if_pos (c := ch = t.keys.eof) h4, if_pos h5, if_neg fun hx => h5 (hnil.mp hx)]
      split_ifs
      · exact hsame _ echoOnly_eputc
      · exact hsame _ echoOnly_echo
  · -- an ordinary character
    have hfull : ¬ t.avail + t.tyicursor ≥ TY_IBUFLEN - 1 :=
      not_le.mpr (hroom.resolve_left fun hx => h4 hx.1)
    rw [if_neg hfull, if_neg h4, if_neg (c := ch = t.keys.eof) h4, wrap_put]
    refine ⟨⟨⟨hecho.mode.mode, hecho.mode.keys, hecho.mode.eof⟩, ?_, ?_⟩, ?_, hret⟩
    · simp only [hecho.unread, List.append_nil, List.append_assoc]
    · simp only [hecho.cursor, List.length_append, List.length_singleton, Nat.cast_add,
        Nat.cast_one]
    · simp only [hsem, List.length_nil, Gate.signal_zero]

/-- In line mode the character reaches the line as it was typed. -/
theorem ttyhandle_in_line (h : LineMode k t) :
    Tty.ttyhandle_in ch t = Tty.cookedIn ch { t with tyoheld := false } := by
  obtain ⟨hmode, -, -, -, hcr, hflow⟩ := h.mode
  simp [Tty.ttyhandle_in, hmode, hcr, hflow]

/-- A typed character finds room. -/
theorem roomy_of_fitsIn (h : LineMode k t) (hfit : FitsIn t ch)
    (hwrap : Wraps t ch) : Roomy t (.arrive ch) := by
  obtain ⟨hmode, herase, hkill, heof, hcr, hflow⟩ := h.mode
  simp only [Roomy, hmode, hcr, hflow, herase, hkill, heof, Bool.false_eq_true, and_false, if_false,
    false_and, and_true, reduceCtorEq]
  have hroom (h1 : ¬ (ch = t.tyikillc ∨ ch = t.tyierasec ∨ ch = t.tyierasec2)) :
      if ch = TY_NEWLINE ∨ ch = TY_RETURN then t.held < TY_IBUFLEN
      else ch = t.tyeofch ∧ t.tyicursor ≠ 0 ∨ t.avail + t.tyicursor < TY_IBUFLEN - 1 ∧
        t.held < TY_IBUFLEN := by
    unfold FitsIn at hfit
    tauto
  split_ifs with h1 h2 h3 h4
  · have := hroom h1
    rwa [if_pos h2] at this
  · have hx := hroom h1
    rw [if_neg h2] at hx
    rcases em (t.tyicursor = 0) with h5 | h5
    · have hheld := (hx.resolve_left fun hx => hx.2 h5).2
      exact Or.inr ⟨hheld, hwrap h4 (by tauto) (by tauto) (by tauto) h5⟩
    · exact Or.inl h5
  · have hx := hroom h1
    rw [if_neg h2] at hx
    exact (hx.resolve_left fun hx => h4 hx.1).2

/-! ## 3. Reading

A call of `ttyread` waits once, takes one character, and then takes what is left of the line
without waiting.  So it comes to one item of the specification, if the first character is not
misread. -/

/-- What `ttyread` should return and store when the items can be read. -/
def answer (k : Keys UInt8) (count : Int) (items : List (Item UInt8)) :
    Option ((Int × List UInt8) × List (Item UInt8)) :=
  if count < 0 then some ((SYSERR, []), items)
  else (k.read count.toNat items).map fun r =>
    (match r.1 with
      | none => (EOF, [])
      | some bs => (bs.length, bs), r.2)

theorem answer_append {items more : List (Item UInt8)} {a : Int × List UInt8}
    (h : answer k count items = some (a, rest)) :
    answer k count (items ++ more) = some (a, rest ++ more) := by
  unfold answer at h ⊢
  split_ifs at h ⊢ with hc
  · obtain ⟨rfl, rfl⟩ := Prod.mk.inj (Option.some.inj h)
    rfl
  · obtain ⟨⟨r, rest'⟩, h', hr⟩ := Option.map_eq_some_iff.mp h
    obtain ⟨rfl, rfl⟩ := Prod.mk.inj hr
    rw [Keys.read_append h']
    rfl

theorem answer_suffix {items : List (Item UInt8)} {a : Int × List UInt8}
    (h : answer k count items = some (a, rest)) : rest <:+ items := by
  unfold answer at h
  split_ifs at h with hc
  · obtain ⟨rfl, rfl⟩ := Prod.mk.inj (Option.some.inj h)
    exact List.suffix_rfl
  · obtain ⟨⟨r, rest'⟩, h', hr⟩ := Option.map_eq_some_iff.mp h
    obtain ⟨rfl, rfl⟩ := Prod.mk.inj hr
    exact Keys.read_suffix h'

/-- What `ttygetc` returns for an item. -/
def valueOf : Item UInt8 → Int
  | .byte c => toInt c
  | .eof => EOF

/-- Nobody is behind a `wait`. -/
def NoReader (t : Tty) : Prop := t.tyisem.sem.waiting = [] ∧ t.tyisem.released = []

/-- The reader's side of a state: what is granted is in the buffer. -/
structure Reads (k : Keys UInt8) (rest : List (Item UInt8)) (line : List UInt8)
    (n : Int) (t : Tty) :
    Prop where
  content : Content k rest line t
  surplus : Surplus n t
  quiet : NoReader t

/-- **One character is taken.** -/
theorem Reads.takeChar (h : Reads k (i :: rest) line 1 t) (hi : i ≠ .byte k.eof) :
    Reads k rest line 0 t.takeChar.1 ∧ t.takeChar.1.returns = t.returns ∧
      t.takeChar.2 = valueOf i := by
  obtain ⟨hmode, -, -, heof, -, -⟩ := h.content.mode.mode
  have hkeys : t.tyeofch = k.eof := congrArg Keys.eof h.content.mode.keys
  have hun : t.unread = charOf k i :: (rest.map (charOf k) ++ line) := by
    rw [h.content.unread, List.map_cons, List.cons_append]
  have hch := (hun ▸ h.surplus.ring).pop.1
  have hchar : (charOf k i = k.eof) ↔ i = .eof := by
    rcases i with c | _
    · simp only [charOf, reduceCtorEq, iff_false]
      rintro rfl
      exact hi rfl
    · simp [charOf]
  have hcontent : Content k rest line { t with
      tyihead := Rings.next TY_IBUFLEN t.tyihead, unread := t.unread.tail } := by
    refine ⟨⟨h.content.mode.mode, h.content.mode.keys, h.content.mode.eof⟩, ?_, h.content.cursor⟩
    simp only [hun, List.tail_cons]
  refine ⟨⟨?_, h.surplus.takeChar, ?_⟩, ?_, ?_⟩
  · rw [takeChar_fst]
    exact hcontent
  · rw [takeChar_fst]
    exact h.quiet
  · rw [takeChar_fst]
  · rw [takeChar_snd, hch, hkeys]
    rcases i with c | _
    · exact if_neg fun hx => absurd (hchar.mp hx.2.2) (by simp)
    · exact if_pos ⟨hmode, heof, rfl⟩

/-- The count lets a reader pass when something can be read. -/
theorem Reads.count_pos (h : Reads k (i :: rest) line 0 t) : 0 < t.tyisem.sem.count := by
  have hg := h.content.grants h.surplus
  simp only [Gate.grants, h.quiet.2, List.length_nil, List.length_cons] at hg
  omega

/-- A reader that passes. -/
theorem Reads.pass (h : Reads k rest line 0 t) (hc : 0 < t.tyisem.sem.count) (r : Reader) :
    Reads k rest line 1 { t with tyisem := t.tyisem.wait r } := by
  refine ⟨⟨⟨h.content.mode.mode, h.content.mode.keys, h.content.mode.eof⟩, h.content.unread,
    h.content.cursor⟩, ⟨h.surplus.ring, h.surplus.cursor, ?_⟩, ?_, h.quiet.2⟩
  · have := h.surplus.counted
    simp only [Gate.grants_wait_passes hc]
    omega
  · exact (Counter.wait_passes hc r).trans h.quiet.1

theorem Reads.finish (h : Reads k rest line 0 t) {v : Int} {b : List UInt8} :
    Reads k rest line 0 (Tty.finish pid v b t) :=
  ⟨⟨⟨h.content.mode.mode, h.content.mode.keys, h.content.mode.eof⟩, h.content.unread,
    h.content.cursor⟩, h.surplus.finish, h.quiet⟩

/-- **The loop of `ttyread`** takes the rest of the line, when `c` was the last character. -/
theorem Reads.readLine (h : Reads k rest line 0 t) (hw : k.Whole (.byte c :: rest))
    (hp : .byte k.eof ∉ rest) (pid left : Nat) (pre : List UInt8) :
    ∃ bs rest', k.takeLine (left + 1) (.byte c :: rest) = some (bs, rest') ∧
      Reads k rest' line 0 (Tty.readLine pid left (pre ++ [c]) t) ∧
      (Tty.readLine pid left (pre ++ [c]) t).returns =
        t.returns ++ [⟨pid, (pre ++ bs).length, pre ++ bs⟩] := by
  have hends : k.ends c = true ↔ c = TY_NEWLINE ∨ c = TY_RETURN := by
    rw [← h.content.mode.keys]
    exact decide_eq_true_iff
  induction left generalizing t rest c pre with
  | zero =>
    refine ⟨[c], rest, ?_, h.finish, rfl⟩
    simp [Keys.takeLine]
  | succ left ih =>
    rw [Tty.readLine, Keys.takeLine]
    rcases hc : k.ends c with _ | _
    · obtain ⟨d, rest, rfl, hw'⟩ := hw.next hc
      have hlast : ¬ ((pre ++ [c]).getLast? = some TY_NEWLINE ∨
          (pre ++ [c]).getLast? = some TY_RETURN) := by
        simpa [← hends] using hc
      have hd : Item.byte d ≠ .byte k.eof := fun hx => hp (hx ▸ List.mem_cons_self)
      obtain ⟨hr, hret, hval⟩ := (h.pass h.count_pos ⟨pid, .line left (pre ++ [c])⟩).takeChar hd
      have hends' : k.ends d = true ↔ d = TY_NEWLINE ∨ d = TY_RETURN := by
        rw [← h.content.mode.keys]
        exact decide_eq_true_iff
      obtain ⟨bs, rest', h1, h2, h3⟩ := ih hr hw' (fun hx => hp (List.mem_cons_of_mem _ hx))
        (pre ++ [c]) hends'
      rw [if_neg hlast, Tty.waitIn, if_pos h.count_pos]
      simp only [hval, valueOf, toChar_toInt]
      refine ⟨c :: bs, rest', ?_, h2, ?_⟩
      · rw [h1]
        simp
      · rw [h3, hret]
        simp
    · have hlast : (pre ++ [c]).getLast? = some TY_NEWLINE ∨
          (pre ++ [c]).getLast? = some TY_RETURN := by
        simpa [← hends] using hc
      rw [if_pos hlast]
      exact ⟨[c], rest, by simp, h.finish, rfl⟩

/-- The byte that `ttygetc` cannot tell from the end of the file. -/
theorem toInt_eq_EOF : toInt c = EOF ↔ c = 254 := by
  have h := c.toNat_lt
  have h254 : c = 254 ↔ c.toNat = 254 := by
    rw [← UInt8.toNat_inj]
    rfl
  rw [h254, toInt, EOF]
  rcases lt_or_ge c.toNat 128 with hc | hc
  · rw [if_pos hc]
    omega
  · rw [if_neg (not_lt.mpr hc)]
    omega

/-- The character at `tyihead` is not misread by a call of `ttyread` that begins with it: it is the
end-of-file character, or some characters are asked for and it is not 0376. -/
def Plain (count : Int) (t : Tty) : Prop :=
  t.tyibuff t.tyihead = t.tyeofch ∨ count ≠ 0 ∧ t.tyibuff t.tyihead ≠ 254

/-- **A call of `ttyread`** behind its first wait. -/
theorem Reads.goOn (h : Reads k (i :: rest) line 1 t) (hw : k.Whole (i :: rest))
    (hp : .byte k.eof ∉ i :: rest) (hcount : 0 ≤ count) (hplain : Plain count t) (pid : Nat) :
    ∃ a rest', answer k count (i :: rest) = some (a, rest') ∧
      Reads k rest' line 0 (Tty.goOn ⟨pid, .first count⟩ t) ∧
      (Tty.goOn ⟨pid, .first count⟩ t).returns = t.returns ++ [⟨pid, a.1, a.2⟩] := by
  have hi : i ≠ .byte k.eof := fun hx => hp (hx ▸ List.mem_cons_self)
  obtain ⟨hr, hret, hval⟩ := h.takeChar hi
  rw [answer, if_neg (not_lt.mpr hcount)]
  rcases i with c | _
  · have hkeys : t.tyeofch = k.eof := congrArg Keys.eof h.content.mode.keys
    have hun : t.unread = c :: (rest.map (charOf k) ++ line) := by
      rw [h.content.unread]
      rfl
    have hch := (hun ▸ h.surplus.ring).pop.1
    rw [Plain, hch, hkeys] at hplain
    obtain ⟨h0, h254⟩ := hplain.resolve_left fun hx => hi (congrArg Item.byte hx)
    have hne : ¬ t.takeChar.2 = EOF := by
      rw [hval, valueOf, toInt_eq_EOF]
      exact h254
    obtain ⟨bs, rest', h1, h2, h3⟩ := hr.readLine hw
      (fun hx => hp (List.mem_cons_of_mem _ hx)) pid (count - 1).toNat []
    have hn : (count - 1).toNat + 1 = count.toNat := by omega
    rw [hn] at h1
    refine ⟨(bs.length, bs), rest', ?_, ?_, ?_⟩
    · rw [Keys.read, h1]
      rfl
    · simp only [Tty.goOn, if_neg hne]
      rw [hval, valueOf, toChar_toInt]
      exact h2
    · simp only [Tty.goOn, if_neg hne]
      rw [hval, valueOf, toChar_toInt]
      rw [List.nil_append] at h3
      rw [h3, hret]
      rfl
  · refine ⟨(EOF, []), rest, rfl, ?_, ?_⟩
    · simp only [Tty.goOn, hval, valueOf, if_true]
      exact hr.finish
    · simp only [Tty.goOn, hval, valueOf, if_true]
      exact congrArg (· ++ _) hret

/-! ## 4. Runs

One process reads, and characters are typed at any time, also while it waits.  The log has what
was typed and asked for, and the invariant says that the calls that have returned were answered as
by the line editor. -/

/-- What was typed, and the numbers of characters that were asked for. -/
abbrev Log := List UInt8 × List Int

/-- The log after an event. -/
def log (_ : Tty) (e : Tty.Event) (_ : Tty) (g : Log) : Log :=
  match e with
  | .arrive ch => (g.1 ++ [ch], g.2)
  | .read _ count => (g.1, g.2 ++ [count])
  | _ => g

/-- The events of a process that reads lines. -/
def LineEvent (pid : Nat) : Tty.Event → Prop
  | .arrive _ => True
  | .read p _ => p = pid
  | .runReader _ => True
  | _ => False

/-- What was typed and not read fits in the buffer. -/
def LineFits (t : Tty) : Tty.Event → Prop
  | .arrive ch => FitsIn t ch
  | _ => True

/-- The step is none of those that differ from a line editor's. -/
def LineOk (t : Tty) : Tty.Event → Prop
  | .arrive ch => Wraps t ch
  | .read _ count => 0 ≤ count → 0 < t.tyisem.sem.count → Plain count t
  | .runReader ⟨_, .first count⟩ => Plain count t
  | _ => True

/-- The calls that were answered were answered as by a line editor. -/
def Answered (k : Keys UInt8) (t : Tty) (g : Log) (rest : List (Item UInt8)) : Prop :=
  Keys.serve (answer k) (g.2.take t.returns.length) (k.edited g.1).1 =
    some (t.returns.map fun r => (r.value, r.buff), rest)

/-- The reader is in no call, or waits, or has been released. -/
inductive ReaderAt (pid : Nat) (t : Tty) (asked : List Int) : Prop
  | out (h : NoReader t) (ha : asked.length = t.returns.length)
  | waits (count : Int) (h0 : 0 ≤ count) (h : t.tyisem.sem.waiting = [⟨pid, .first count⟩])
      (hr : t.tyisem.released = []) (ha : asked = asked.take t.returns.length ++ [count])
  | released (count : Int) (h0 : 0 ≤ count) (h : t.tyisem.sem.waiting = [])
      (hr : t.tyisem.released = [⟨pid, .first count⟩])
      (ha : asked = asked.take t.returns.length ++ [count])

/-- What holds in every state of a run. -/
structure LineInv (k : Keys UInt8) (pid : Nat) (t : Tty) (g : Log) (rest : List (Item UInt8)) :
    Prop where
  content : Content k rest (k.edited g.1).2 t
  surplus : Surplus 0 t
  answered : Answered k t g rest
  whole : k.Whole rest
  proper : .byte k.eof ∉ rest
  reader : ReaderAt pid t g.2

theorem ReaderAt.signal {asked : List Int} (h : ReaderAt pid t asked) {n : Nat}
    (hs : u.tyisem = t.tyisem.signal n) (hret : u.returns = t.returns) : ReaderAt pid u asked := by
  have hw : u.tyisem.sem.waiting = t.tyisem.sem.waiting.drop n :=
    congrArg (fun g => g.sem.waiting) hs
  have hr : u.tyisem.released = t.tyisem.released ++ t.tyisem.sem.waiting.take n :=
    congrArg Gate.released hs
  cases h with
  | out h ha =>
    rw [h.1, List.drop_nil] at hw
    rw [h.1, h.2, List.take_nil, List.append_nil] at hr
    exact .out ⟨hw, hr⟩ (hret ▸ ha)
  | waits count h0 h hrel ha =>
    rw [h] at hw
    rw [h, hrel, List.nil_append] at hr
    rcases n with _ | n
    · exact .waits count h0 hw hr (hret ▸ ha)
    · rw [List.drop_succ_cons, List.drop_nil] at hw
      rw [List.take_succ_cons, List.take_nil] at hr
      exact .released count h0 hw hr (hret ▸ ha)
  | released count h0 h hrel ha =>
    rw [h, List.drop_nil] at hw
    rw [h, hrel, List.take_nil, List.append_nil] at hr
    exact .released count h0 hw hr (hret ▸ ha)

/-- **A character is typed.** -/
theorem LineInv.arrive {g : Log} (h : LineInv k pid t g rest) (hfit : FitsIn t ch)
    (hwrap : Wraps t ch) :
    LineInv k pid (Tty.ttyhandle_in ch t) (g.1 ++ [ch], g.2)
      (rest ++ (k.type (k.edited g.1).2 ch).1) := by
  have hopen : Content k rest (k.edited g.1).2 { t with tyoheld := false } :=
    ⟨⟨h.content.mode.mode, h.content.mode.keys, h.content.mode.eof⟩, h.content.unread,
      h.content.cursor⟩
  have htype := hopen.type (show FitsIn _ ch from hfit)
  have hs := (surplus_ttyhandle_in_iff h.surplus).mpr (roomy_of_fitsIn h.content.mode hfit hwrap)
  rw [ttyhandle_in_line h.content.mode] at hs ⊢
  have hedit := k.edited_concat g.1 ch
  have hproper := (Keys.eof_notMem_edited h.content.mode.eof (g.1 ++ [ch])).1
  refine ⟨?_, hs, ?_, h.whole.append Keys.whole_type, ?_, ?_⟩
  · rw [hedit]
    exact htype.content
  · rw [Answered, htype.returns, hedit]
    exact Keys.serve_grow (fun _ _ _ _ _ ha => answer_append ha) h.answered _
  · rw [hedit] at hproper
    simp only [List.mem_append, not_or] at hproper ⊢
    exact ⟨h.proper, hproper.2⟩
  · exact h.reader.signal htype.sem htype.returns

/-- **A call is answered.** -/
theorem LineInv.answer {g : Log} {items : List (Item UInt8)} {a : Int × List UInt8}
    (hwhole : k.Whole items) (hproper : .byte k.eof ∉ items) (h : Answered k t g items)
    (hg : g.2 = g.2.take t.returns.length ++ [count])
    (ha : answer k count items = some (a, rest)) (hu : Reads k rest (k.edited g.1).2 0 u)
    (hret : u.returns = t.returns ++ [⟨pid, a.1, a.2⟩]) : LineInv k pid u g rest := by
  have hlen : g.2.length = u.returns.length := by
    have := congrArg List.length hg
    rw [hret]
    simp only [List.length_append, List.length_take, List.length_singleton] at this ⊢
    omega
  have hs := answer_suffix ha
  refine ⟨hu.content, hu.surplus, ?_, hwhole.of_suffix hs, fun hm => hproper (hs.subset hm),
    .out hu.quiet hlen⟩
  rw [Answered, ← hlen, List.take_length, hg, hret, List.map_append, List.map_singleton]
  exact Keys.serve_concat h ha

/-- **The reader runs** behind its first wait. -/
theorem LineInv.goOn {g : Log} (hr : Reads k rest (k.edited g.1).2 1 t)
    (h : Answered k t g rest) (hwhole : k.Whole rest) (hproper : .byte k.eof ∉ rest)
    (h0 : 0 ≤ count) (hg : g.2 = g.2.take t.returns.length ++ [count])
    (hplain : Plain count t) : ∃ rest', LineInv k pid (Tty.goOn ⟨pid, .first count⟩ t) g rest' := by
  obtain ⟨i, rest, rfl⟩ : ∃ i rest', rest = i :: rest' := by
    apply List.exists_cons_of_ne_nil
    rintro rfl
    have h1 := hr.surplus.counted
    have h2 := congrArg List.length hr.content.unread
    have h3 := hr.content.cursor
    have h4 := t.tyisem.grants_nonneg
    rw [List.map_nil, List.nil_append] at h2
    omega
  obtain ⟨a, rest', ha, hu, hret⟩ := hr.goOn hwhole hproper h0 hplain pid
  exact ⟨rest', .answer hwhole hproper h hg ha hu hret⟩

/-- **`ttyread` is called.** -/
theorem LineInv.read {g : Log} (h : LineInv k pid t g rest) (hidle : t.idle pid)
    (hok : 0 ≤ count → 0 < t.tyisem.sem.count → Plain count t) :
    ∃ rest', LineInv k pid (Tty.ttyread pid count t) (g.1, g.2 ++ [count]) rest' := by
  obtain ⟨hquiet, hlen⟩ : NoReader t ∧ g.2.length = t.returns.length := by
    cases h.reader with
    | out hq ha => exact ⟨hq, ha⟩
    | waits c _ hw _ _ => exact absurd rfl (hidle.1 ⟨pid, .first c⟩ (by simp [hw]))
    | released c _ _ hr _ => exact absurd rfl (hidle.1 ⟨pid, .first c⟩ (by simp [hr]))
  have hreads : Reads k rest (k.edited g.1).2 0 t := ⟨h.content, h.surplus, hquiet⟩
  have htake : (g.2 ++ [count]).take t.returns.length = g.2 := by
    rw [← hlen, List.take_left]
  have hans : Answered k t (g.1, g.2 ++ [count]) rest := by
    rw [Answered, htake]
    have := h.answered
    rwa [Answered, ← hlen, List.take_length] at this
  have hg : g.2 ++ [count] = (g.2 ++ [count]).take t.returns.length ++ [count] := by rw [htake]
  rw [Tty.ttyread]
  split_ifs with hneg hmode hzero hsem
  · -- a negative count is refused
    have ha : Xinu.answer k count rest = some ((SYSERR, []), rest) := if_pos hneg
    exact ⟨rest, .answer h.whole h.proper hans hg ha hreads.finish rfl⟩
  · exact absurd h.content.mode.mode.1 hmode
  · exact absurd h.content.mode.mode.1 hmode
  · exact absurd h.content.mode.mode.1 hmode
  · have h0 := not_lt.mp hneg
    rw [Tty.waitIn]
    split_ifs with hc
    · exact LineInv.goOn (hreads.pass hc _) hans h.whole h.proper h0 hg (hok h0 hc)
    · refine ⟨rest, ⟨?_, ?_, hans, h.whole, h.proper, ?_⟩⟩
      · exact ⟨⟨h.content.mode.mode, h.content.mode.keys, h.content.mode.eof⟩, h.content.unread,
          h.content.cursor⟩
      · refine ⟨h.surplus.ring, h.surplus.cursor, ?_⟩
        simp only [Gate.grants_wait_blocks (not_lt.mp hc)]
        exact h.surplus.counted
      · refine .waits count h0 ?_ hquiet.2 hg
        have hw := Counter.wait_blocks (not_lt.mp hc) (⟨pid, .first count⟩ : Reader)
        rwa [hquiet.1, List.nil_append] at hw

/-- The state and the log in a run. -/
def LineHolds (k : Keys UInt8) (pid : Nat) (z : Tty × Log) : Prop :=
  ∃ rest, LineInv k pid z.1 z.2 rest

/-- **One step.** -/
theorem LineHolds.step {z z' : Tty × Log} (h : LineHolds k pid z) {e : Tty.Event}
    (he : LineEvent pid e) (hfit : LineFits z.1 e) (hok : LineOk z.1 e)
    (hs : watch Tty.step log z e = some z') : LineHolds k pid z' := by
  obtain ⟨t, g⟩ := z
  obtain ⟨rest, (h : LineInv k pid t g rest)⟩ := h
  obtain ⟨u, (hu : t.step e = some u), rfl⟩ := watch_some.mp hs
  cases e with
  | arrive c =>
    rw [← Option.some.inj hu]
    exact ⟨_, h.arrive hfit hok⟩
  | read p count =>
    obtain rfl := he
    obtain ⟨hidle, hu⟩ := Option.ite_none_right_eq_some.mp hu
    rw [← Option.some.inj hu]
    exact h.read hidle hok
  | runReader r =>
    obtain ⟨hr, hu⟩ := Option.ite_none_right_eq_some.mp hu
    rw [← Option.some.inj hu]
    cases h.reader with
    | out hq _ =>
      rw [hq.2] at hr
      exact absurd hr List.not_mem_nil
    | waits c _ _ hrel _ =>
      rw [hrel] at hr
      exact absurd hr List.not_mem_nil
    | released c h0 hw hrel hg =>
      rw [hrel, List.mem_singleton] at hr
      subst hr
      have hmem : (⟨pid, .first c⟩ : Reader) ∈ t.tyisem.released := hrel ▸ List.mem_singleton_self _
      have hreads : Reads k rest (k.edited g.1).2 1
          { t with tyisem := t.tyisem.run ⟨pid, .first c⟩ } := by
        refine ⟨⟨⟨h.content.mode.mode, h.content.mode.keys, h.content.mode.eof⟩, h.content.unread,
          h.content.cursor⟩, ⟨h.surplus.ring, h.surplus.cursor, ?_⟩, hw, ?_⟩
        · have := h.surplus.counted
          simp only [Gate.grants_run hmem]
          omega
        · simp only [Gate.run, hrel, List.erase_cons_head]
      exact LineInv.goOn hreads h.answered h.whole h.proper h0 hg hok
  | _ => exact absurd he id

theorem Tty.Fresh.lineHolds (h : Tty.Fresh t) (hm : LineMode k t) :
    LineHolds k pid (t, ([], [])) := by
  obtain ⟨-, -, h3, h4, h5⟩ := h.input
  refine ⟨[], ⟨hm, ?_, ?_⟩, inputKept_iff.mp h.inputKept, ?_, .nil, List.not_mem_nil, .out ?_ ?_⟩
  · rw [h5]
    rfl
  · rw [h3]
    rfl
  · rw [Answered, h.returns]
    rfl
  · rw [NoReader, h4]
    exact ⟨rfl, rfl⟩
  · rw [h.returns]
    rfl

/-- **The terminal is a line editor.**  In every run of one reading process in which what was typed
and not read fits in the buffer, and no step is one of those that differ, the calls of `ttyread`
return what the typed text comes to; what was typed and not read is in the buffer, and a process
only waits when nothing can be read. -/
theorem lines_read {t₀ : Tty} {z : Tty × Log} (h0 : Tty.Fresh t₀) (hm : LineMode k t₀)
    (h : Reaches (watch Tty.step log)
      (fun z e => LineEvent pid e ∧ LineFits z.1 e ∧ LineOk z.1 e) (t₀, ([], [])) z) :
    ∃ rest, Answered k z.1 z.2 rest ∧ z.1.unread = rest.map (charOf k) ++ (k.edited z.2.1).2 ∧
      (z.1.tyisem.sem.waiting ≠ [] → rest = []) ∧ z.2.2.length ≤ z.1.returns.length + 1 := by
  have hz : LineHolds k pid z := by
    refine h.invariant (h0.lineHolds hm) ?_
    intro z e z' hz hok hs
    exact hz.step hok.1 hok.2.1 hok.2.2 hs
  obtain ⟨rest, hi⟩ := hz
  refine ⟨rest, hi.answered, hi.content.unread, fun hw => ?_, ?_⟩
  · have hg := hi.content.grants hi.surplus
    have hc := (Counter.waiting_ne_nil _).mp hw
    cases hi.reader with
    | out hq _ => exact absurd hq.1 hw
    | waits c _ _ hr _ =>
      simp only [Gate.grants, hr, List.length_nil] at hg
      exact List.length_eq_zero_iff.mp (by omega)
    | released c _ h _ _ => exact absurd h hw
  · cases hi.reader with
    | out _ ha => omega
    | waits c _ _ _ ha =>
      have := congrArg List.length ha
      simp only [List.length_append, List.length_take, List.length_singleton] at this
      omega
    | released c _ _ _ ha =>
      have := congrArg List.length ha
      simp only [List.length_append, List.length_take, List.length_singleton] at this
      omega

/-- A terminal as `ttyinit` leaves it, without return mapping and output flow control. -/
def lineTty : Tty :=
  { Tty.ttyinit (fun _ => 0) (fun _ => 0) fun _ => 0 with tyicrlf := false, tyoflow := false }

theorem lineTty_fresh : Tty.Fresh lineTty :=
  ⟨⟨rfl, rfl, rfl, rfl, rfl⟩, ⟨rfl, rfl, rfl, rfl, rfl⟩, ⟨rfl, rfl⟩, rfl⟩

theorem lineTty_mode : LineMode lineTty.keys lineTty :=
  ⟨⟨rfl, rfl, rfl, rfl, rfl, rfl⟩, rfl, by decide⟩

instance (t : Tty) (ch : UInt8) : Decidable (FitsIn t ch) := by
  unfold FitsIn
  infer_instance

instance (t : Tty) (ch : UInt8) : Decidable (Wraps t ch) := by
  unfold Wraps
  infer_instance

instance (count : Int) (t : Tty) : Decidable (Plain count t) :=
  inferInstanceAs (Decidable (_ ∨ _))

instance (pid : Nat) (e : Tty.Event) : Decidable (LineEvent pid e) :=
  match e with
  | .arrive _ | .runReader _ => instDecidableTrue
  | .read p _ => inferInstanceAs (Decidable (p = pid))
  | .interrupt | .getc _ | .control _ _ | .putc _ _ | .runWriter _ => instDecidableFalse

instance (t : Tty) (e : Tty.Event) : Decidable (LineFits t e) :=
  match e with
  | .arrive ch => inferInstanceAs (Decidable (FitsIn t ch))
  | .interrupt | .getc _ | .read _ _ | .control _ _ | .putc _ _ | .runReader _ | .runWriter _ =>
    instDecidableTrue

instance (t : Tty) (e : Tty.Event) : Decidable (LineOk t e) :=
  match e with
  | .arrive ch => inferInstanceAs (Decidable (Wraps t ch))
  | .read _ count =>
    inferInstanceAs (Decidable (0 ≤ count → 0 < t.tyisem.sem.count → Plain count t))
  | .runReader ⟨_, .first count⟩ => inferInstanceAs (Decidable (Plain count t))
  | .runReader ⟨_, .getc⟩ | .runReader ⟨_, .chars ..⟩ | .runReader ⟨_, .line ..⟩
  | .runReader ⟨_, .nextc ..⟩ => instDecidableTrue
  | .interrupt | .getc _ | .control _ _ | .putc _ _ | .runWriter _ => instDecidableTrue

/-- A process asks for 20 characters and waits; `ab`, an erasure, `c` and a line end are typed, and
the process runs. -/
def typeEdited : List Tty.Event :=
  [.read 1 20, .arrive 97, .arrive 98, .arrive TY_BACKSP, .arrive 99, .arrive TY_NEWLINE,
    .runReader ⟨1, .first 20⟩]

theorem lines_read_edited : ∃ z : Tty × Log, z.1.returns = [⟨1, 3, [97, 99, TY_NEWLINE]⟩] ∧
    ∃ rest, Answered lineTty.keys z.1 z.2 rest := by
  have h1 : (exec (watch Tty.step log)
      (fun z e => LineEvent 1 e ∧ LineFits z.1 e ∧ LineOk z.1 e) (lineTty, ([], []))
      typeEdited).map (fun z => z.1.returns) = some [⟨1, 3, [97, 99, TY_NEWLINE]⟩] := by
    decide +kernel
  obtain ⟨z, hz, hr⟩ := Option.map_eq_some_iff.mp h1
  obtain ⟨rest, ha, -⟩ := lines_read lineTty_fresh lineTty_mode (reaches_of_exec hz)
  exact ⟨z, hr, rest, ha⟩

/-- A call for no characters stores one, and a line that begins with the byte 0376 is reported as
the end of the file. -/
theorem lines_misread : ∃ z : Tty × Log,
    Reaches (watch Tty.step log) (fun z e => LineEvent 1 e ∧ LineFits z.1 e) (lineTty, ([], [])) z ∧
      z.2 = ([97, TY_NEWLINE, 254, TY_NEWLINE], [0, 20, 20]) ∧
      z.1.returns = [⟨1, 1, [97]⟩, ⟨1, 1, [TY_NEWLINE]⟩, ⟨1, EOF, []⟩] ∧
      ∀ rest, ¬ Answered lineTty.keys z.1 z.2 rest := by
  have h1 : (exec (watch Tty.step log) (fun z e => LineEvent 1 e ∧ LineFits z.1 e)
      (lineTty, ([], [])) [.arrive 97, .arrive TY_NEWLINE, .read 1 0, .read 1 20, .arrive 254,
        .arrive TY_NEWLINE, .read 1 20]).map (fun z => (z.2, z.1.returns)) =
      some (([97, TY_NEWLINE, 254, TY_NEWLINE], [0, 20, 20]),
        [⟨1, 1, [97]⟩, ⟨1, 1, [TY_NEWLINE]⟩, ⟨1, EOF, []⟩]) := by
    decide +kernel
  obtain ⟨z, hz, hr⟩ := Option.map_eq_some_iff.mp h1
  obtain ⟨hlog, hret⟩ := Prod.mk.inj hr
  refine ⟨z, reaches_of_exec hz, hlog, hret, ?_⟩
  intro rest h
  rw [Answered, hlog, hret] at h
  have hx := congrArg (Option.map Prod.fst) h
  simp only [Option.map_some] at hx
  exact absurd hx (by decide)

end Xinu
