/-
# The shell's lexical analyzer: `shell.h`, `lexan.c`

`lexan` divides a line into tokens.  It packs their characters into `tokbuf`, a null character after
each, and puts the index and the type of each in `tok` and `toktyp`.

What it should find is said without it: a text is a sequence of pieces (blanks, words, quoted
strings and the three special characters) in which no word touches another one, and there is only
one such sequence (`Splits.unique`).  The tokens are the pieces that are not blanks.  `lexan` finds
them or reports an error, and writes nothing outside of the three arrays (`lexan_spec`).

The arrays are lists of writes, oldest first, so that a write outside of an array can be seen.
The main loop is followed one piece at a time: what it does with a piece is store a token or
nothing, and the rest of the text is again a sequence of pieces.
-/
import Mathlib.Data.List.TakeWhile
import Xinu.Tty

namespace Xinu

/-! ## 1. `shell.h` -/

def SHELL_BUFLEN : Nat := TY_IBUFLEN + 1
def SHELL_MAXTOK : Nat := 32

def NULLCH : UInt8 := 0
def SH_NEWLINE : UInt8 := 10
def SH_AMPER : UInt8 := 38
def SH_BLANK : UInt8 := 32
def SH_TAB : UInt8 := 9
def SH_SQUOTE : UInt8 := 39
def SH_DQUOTE : UInt8 := 34
def SH_LESS : UInt8 := 60
def SH_GREATER : UInt8 := 62

def SH_TOK_AMPER : Int := 0
def SH_TOK_LESS : Int := 1
def SH_TOK_GREATER : Int := 2
def SH_TOK_OTHER : Int := 3

/-! ## 2. `lexan.c`

The line is a list from the pointer on, and reading beyond it gives `none`.  The two inner loops
copy a quoted string and a word; both leave the pointer at the character that they stop at. -/

/-- The arguments and the variables of `lexan`, apart from the pointer into the line. -/
structure Lex where
  tokbuf : Nat → UInt8
  tlen : Int
  tok : Nat → Int
  toktyp : Nat → Int
  ntok : Nat
  tbindex : Nat

/-- `tokbuf[tbindex++] = ch;` -/
def Lex.put (s : Lex) (ch : UInt8) : Lex :=
  { s with tokbuf := Function.update s.tokbuf s.tbindex ch, tbindex := s.tbindex + 1 }

/-- `tokbuf[tbindex++] = NULLCH; ntok++;` -/
def Lex.count (s : Lex) : Lex :=
  { s.put NULLCH with ntok := s.ntok + 1 }

/-- `tok[ntok] = tbindex;` and the assignment of the type. -/
def Lex.start (s : Lex) (typ : Int) : Lex :=
  { s with tok := Function.update s.tok s.ntok s.tbindex
           toktyp := Function.update s.toktyp s.ntok typ }

/-- `*tlen = tbindex; return ntok;` -/
def Lex.done (s : Lex) : Lex × Int := ({ s with tlen := s.tbindex }, s.ntok)

/-- The pointer behind the blanks and tabs. -/
def skipBlanks : List UInt8 → List UInt8
  | [] => []
  | c :: p => if c = SH_BLANK ∨ c = SH_TAB then skipBlanks p else c :: p

/-- The loop that copies a quoted string: the last character read and what follows it. -/
def copyQuoted (quote : UInt8) : List UInt8 → Lex → Option (UInt8 × List UInt8 × Lex)
  | [], _ => none
  | ch :: p, s =>
    if ch ≠ quote ∧ ch ≠ SH_NEWLINE ∧ ch ≠ NULLCH then copyQuoted quote p (s.put ch)
    else some (ch, p, s)

/-- The characters that end a word. -/
def endsWord (ch : UInt8) : Prop :=
  ch = SH_NEWLINE ∨ ch = NULLCH ∨ ch = SH_LESS ∨ ch = SH_GREATER ∨ ch = SH_BLANK ∨ ch = SH_TAB ∨
    ch = SH_AMPER ∨ ch = SH_SQUOTE ∨ ch = SH_DQUOTE

instance (ch : UInt8) : Decidable (endsWord ch) := inferInstanceAs (Decidable (_ ∨ _))

/-- The loop that copies a word: the character it stops at, which it leaves on the line. -/
def copyWord : List UInt8 → Lex → Option (UInt8 × List UInt8 × Lex)
  | [], _ => none
  | ch :: p, s => if endsWord ch then some (ch, ch :: p, s) else copyWord p (s.put ch)

/-- The main loop from `p` on.  A list is the memory from a pointer to the end of the line's
buffer; to read beyond it gives `none`. -/
def lexanLoop : Nat → List UInt8 → Lex → Option (Lex × Int)
  | 0, _, _ => none
  | _ + 1, [], _ => none
  | fuel + 1, c :: p, s =>
    if c = NULLCH ∨ c = SH_NEWLINE then some s.done
    else if s.ntok ≥ SHELL_MAXTOK then some (s, SYSERR)
    else match skipBlanks (c :: p) with
      | [] => none
      | ch :: p =>
        if ch = SH_NEWLINE ∨ ch = NULLCH then some s.done
        else if ch = SH_AMPER then lexanLoop fuel p ((s.start SH_TOK_AMPER).put ch).count
        else if ch = SH_LESS then lexanLoop fuel p ((s.start SH_TOK_LESS).put ch).count
        else if ch = SH_GREATER then lexanLoop fuel p ((s.start SH_TOK_GREATER).put ch).count
        else if ch = SH_SQUOTE ∨ ch = SH_DQUOTE then
          match copyQuoted ch p (s.start SH_TOK_OTHER) with
          | none => none
          | some (last, p, s) =>
            if last ≠ ch then some (s, SYSERR) else lexanLoop fuel p s.count
        else
          match copyWord p ((s.start SH_TOK_OTHER).put ch) with
          | none => none
          | some (last, p, s) =>
            if last = SH_SQUOTE ∨ last = SH_DQUOTE ∨ last = SH_LESS ∨ last = SH_GREATER then
              some (s, SYSERR)
            else lexanLoop fuel p s.count

/-- `lexan(line, len, tokbuf, tlen, tok, toktyp)`.  Nothing reads `len`.  Every round of the main
loop reads a character, so the length of the line bounds the number of rounds. -/
def lexan (line : List UInt8) (tokbuf : Nat → UInt8) (tlen : Int) (tok toktyp : Nat → Int) :
    Option (Lex × Int) :=
  lexanLoop (line.length + 1) line ⟨tokbuf, tlen, tok, toktyp, 0, 0⟩

/-! ## 3. Pieces of a text

A piece is known by its first character, and ends where the character behind it says.  So there is
one way to divide a text, and it can be read off from the front. -/

/-- The end of a line. -/
def isEnd (c : UInt8) : Prop := c = SH_NEWLINE ∨ c = NULLCH

instance (c : UInt8) : Decidable (isEnd c) := inferInstanceAs (Decidable (_ ∨ _))

/-- The text of a line: what stands before its end. -/
def lineText (line : List UInt8) : List UInt8 := line.takeWhile fun c => ¬ isEnd c

/-- A token: its characters and its type. -/
structure Token where
  text : List UInt8
  typ : Int
  deriving DecidableEq

/-- A piece of a text. -/
inductive Piece
  | blank (c : UInt8)
  | word (w : List UInt8)
  | quoted (quote : UInt8) (w : List UInt8)
  | special (c : UInt8) (typ : Int)
  deriving DecidableEq

namespace Piece

/-- The piece as it is typed. -/
def text : Piece → List UInt8
  | blank c => [c]
  | word w => w
  | quoted q w => q :: (w ++ [q])
  | special c _ => [c]

/-- The token it is, if any. -/
def token : Piece → Option Token
  | blank _ => none
  | word w => some ⟨w, SH_TOK_OTHER⟩
  | quoted _ w => some ⟨w, SH_TOK_OTHER⟩
  | special c typ => some ⟨[c], typ⟩

/-- A word has an ordinary character and no others; a string ends at the next quote. -/
def Ok : Piece → Prop
  | blank c => c = SH_BLANK ∨ c = SH_TAB
  | word w => w ≠ [] ∧ ∀ c ∈ w, ¬ endsWord c
  | quoted q w => (q = SH_SQUOTE ∨ q = SH_DQUOTE) ∧ ∀ c ∈ w, c ≠ q ∧ ¬ isEnd c
  | special c typ => (c = SH_AMPER ∧ typ = SH_TOK_AMPER) ∨ (c = SH_LESS ∧ typ = SH_TOK_LESS) ∨
      (c = SH_GREATER ∧ typ = SH_TOK_GREATER)

/-- Two pieces that may stand side by side: not two words. -/
def Apart : Piece → Piece → Prop
  | word _, word _ => False
  | _, _ => True

end Piece

/-- **A text consists of these pieces**, its words being maximal. -/
structure Splits (text : List UInt8) (ps : List Piece) : Prop where
  text : ps.flatMap Piece.text = text
  ok : ∀ x ∈ ps, x.Ok
  apart : ps.IsChain Piece.Apart

variable {text rest w : List UInt8} {ps ps' : List Piece} {x : Piece} {c q : UInt8}

/-- The kind of piece a character starts. -/
def kindOf (c : UInt8) : Nat :=
  if c = SH_BLANK ∨ c = SH_TAB then 0
  else if c = SH_SQUOTE ∨ c = SH_DQUOTE then 2
  else if c = SH_AMPER ∨ c = SH_LESS ∨ c = SH_GREATER then 3
  else if isEnd c then 4
  else 1

def Piece.kind : Piece → Nat
  | blank _ => 0
  | word _ => 1
  | quoted _ _ => 2
  | special _ _ => 3

theorem endsWord_iff : endsWord c ↔ kindOf c ≠ 1 := by
  unfold endsWord kindOf isEnd
  split_ifs with h1 h2 h3 h4
  · rcases h1 with e | e <;> simp [e]
  · rcases h2 with e | e <;> simp [e]
  · rcases h3 with e | e | e <;> simp [e]
  · rcases h4 with e | e <;> simp [e]
  · simp only [not_or] at h1 h2 h3 h4
    simp [h1, h2, h3, h4]

/-- The first character of a piece tells its kind. -/
theorem Piece.Ok.head (h : x.Ok) : ∃ c cs, x.text = c :: cs ∧ kindOf c = x.kind := by
  cases x with
  | blank c => exact ⟨c, [], rfl, if_pos h⟩
  | word w =>
    obtain ⟨c, cs, rfl⟩ := List.exists_cons_of_ne_nil h.1
    have hc := h.2 c List.mem_cons_self
    rw [endsWord_iff, not_not] at hc
    exact ⟨c, cs, rfl, hc⟩
  | quoted q w =>
    refine ⟨q, _, rfl, ?_⟩
    change kindOf q = 2
    rcases h.1 with rfl | rfl <;> decide
  | special c typ =>
    refine ⟨c, [], rfl, ?_⟩
    change kindOf c = 3
    rcases h with ⟨rfl, -⟩ | ⟨rfl, -⟩ | ⟨rfl, -⟩ <;> decide

theorem Splits.nil : Splits [] [] := ⟨rfl, by simp, List.isChain_nil⟩

/-- A piece in front of the others. -/
theorem Splits.cons (h : Splits rest ps) (hx : x.Ok)
    (hw : ∀ w, x = .word w → ∀ c ∈ rest.head?, endsWord c) : Splits (x.text ++ rest) (x :: ps) := by
  refine ⟨by rw [List.flatMap_cons, h.text], List.forall_mem_cons.mpr ⟨hx, h.ok⟩, ?_⟩
  cases ps with
  | nil => exact List.isChain_singleton x
  | cons y ps =>
    refine List.isChain_cons_cons.mpr ⟨?_, h.apart⟩
    cases x <;> cases y <;> try exact trivial
    -- a word does not follow a word
    rename_i w w'
    obtain ⟨c, cs, hc, hk⟩ := (h.ok _ List.mem_cons_self).head
    refine endsWord_iff.mp (hw w rfl c ?_) hk
    rw [← h.text, List.flatMap_cons, hc]
    rfl

theorem Splits.tail (h : Splits text (x :: ps)) : Splits (ps.flatMap Piece.text) ps :=
  ⟨rfl, fun y hy => h.ok y (List.mem_cons_of_mem _ hy), h.apart.tail⟩

/-- What follows a word does not go on with it. -/
theorem Splits.after_word (h : Splits text (.word w :: ps)) :
    ∀ c ∈ (ps.flatMap Piece.text).head?, endsWord c := by
  intro c hc
  cases ps with
  | nil => simp at hc
  | cons y ps =>
    have hy := h.ok y (by simp)
    obtain ⟨c', cs, hy', hk⟩ := hy.head
    rw [List.flatMap_cons, hy', List.cons_append, List.head?_cons, Option.mem_some_iff] at hc
    subst hc
    have hap := (List.isChain_cons_cons.mp h.apart).1
    rw [endsWord_iff, hk]
    cases y with
    | word _ => exact absurd hap id
    | _ => simp [Piece.kind]

/-- Two ways to cut a list at the first element that fails a test are the same. -/
theorem cut_unique {α : Type*} {P : α → Prop} {us us' vs vs' : List α} (h : us ++ vs = us' ++ vs')
    (hu : ∀ a ∈ us, P a) (hu' : ∀ a ∈ us', P a) (hv : ∀ a ∈ vs.head?, ¬ P a)
    (hv' : ∀ a ∈ vs'.head?, ¬ P a) : us = us' ∧ vs = vs' := by
  induction us generalizing us' with
  | nil =>
    cases us' with
    | nil => exact ⟨rfl, h⟩
    | cons a us' =>
      rw [List.nil_append] at h
      exact absurd (hu' a List.mem_cons_self) (hv a (by rw [h]; rfl))
  | cons a us ih =>
    cases us' with
    | nil =>
      rw [List.nil_append] at h
      exact absurd (hu a List.mem_cons_self) (hv' a (by rw [← h]; rfl))
    | cons a' us' =>
      rw [List.cons_append, List.cons_append] at h
      obtain ⟨rfl, hcons⟩ := List.cons.inj h
      obtain ⟨rfl, e⟩ := ih hcons (fun b hb => hu b (List.mem_cons_of_mem _ hb))
        fun b hb => hu' b (List.mem_cons_of_mem _ hb)
      exact ⟨rfl, e⟩

/-- **A text has one sequence of pieces.** -/
theorem Splits.unique (h : Splits text ps) (h' : Splits text ps') : ps = ps' := by
  induction ps generalizing text ps' with
  | nil =>
    cases ps' with
    | nil => rfl
    | cons y ps' =>
      obtain ⟨c, cs, hc, -⟩ := (h'.ok y List.mem_cons_self).head
      have ht := h'.text
      rw [← h.text, List.flatMap_cons, hc] at ht
      simp at ht
  | cons x ps ih =>
    have hx := h.ok x List.mem_cons_self
    obtain ⟨c, cs, hc, hk⟩ := hx.head
    cases ps' with
    | nil =>
      have ht := h.text
      rw [← h'.text, List.flatMap_cons, hc] at ht
      simp at ht
    | cons y ps' =>
      have hy := h'.ok y List.mem_cons_self
      obtain ⟨c', cs', hc', hk'⟩ := hy.head
      have ht : x.text ++ ps.flatMap Piece.text = y.text ++ ps'.flatMap Piece.text := by
        rw [← List.flatMap_cons, ← List.flatMap_cons, h.text, h'.text]
      obtain rfl : c = c' := by
        rw [hc, hc'] at ht
        exact (List.cons.inj ht).1
      -- the first character tells the kind of the piece
      suffices hxy : x = y ∧ ps.flatMap Piece.text = ps'.flatMap Piece.text by
        obtain ⟨rfl, hr⟩ := hxy
        rw [ih h.tail (hr ▸ h'.tail)]
      have hkind : x.kind = y.kind := hk.symm.trans hk'
      cases x <;> cases y <;> try (simp [Piece.kind] at hkind; done)
      case blank.blank =>
        obtain ⟨rfl, hr⟩ := List.cons.inj ht
        exact ⟨rfl, hr⟩
      case word.word w w' =>
        obtain ⟨rfl, hr⟩ := cut_unique ht hx.2 hy.2 (fun a ha => not_not.mpr (h.after_word a ha))
          fun a ha => not_not.mpr (h'.after_word a ha)
        exact ⟨rfl, hr⟩
      case quoted.quoted q w q' w' =>
        simp only [Piece.text, List.cons_append, List.append_assoc] at ht
        obtain ⟨rfl, hcons⟩ := List.cons.inj ht
        obtain ⟨rfl, hr⟩ := cut_unique (P := fun a => a ≠ q) hcons (fun a ha => (hx.2 a ha).1)
          (fun a ha => (hy.2 a ha).1) (by simp) (by simp)
        exact ⟨rfl, (List.cons.inj hr).2⟩
      case special.special =>
        obtain ⟨rfl, hr⟩ := List.cons.inj ht
        refine ⟨?_, hr⟩
        rcases hx with e | e | e <;> rcases hy with e' | e' | e' <;>
          simp [e.1, SH_AMPER, SH_LESS, SH_GREATER] at e' <;> rw [e.2, e']

/-! ## 4. What is written

Each token puts its characters and a null character into `tokbuf` and one number into each of the
other two arrays.  The invariant bounds the places by what has been read of the line, which is
shorter than the array. -/

variable {s s' s₀ : Lex} {ts : List Token} {typ : Int}

/-- The characters in `tokbuf` so far. -/
def Lex.written (s : Lex) : List UInt8 := (List.range s.tbindex).map s.tokbuf

/-- How tokens are packed: a null character after each. -/
def packed (ts : List Token) : List UInt8 := ts.flatMap fun t => t.text ++ [NULLCH]

/-- Put several characters. -/
def Lex.puts (s : Lex) (w : List UInt8) : Lex := w.foldl Lex.put s

theorem put_written (s : Lex) (ch : UInt8) : (s.put ch).written = s.written ++ [ch] := by
  simp only [Lex.written, Lex.put, List.range_succ, List.map_append, List.map_cons, List.map_nil,
    Function.update_self]
  congr 1
  refine List.map_congr_left fun i hi => Function.update_of_ne ?_ _ _
  exact Nat.ne_of_lt (List.mem_range.mp hi)

/-- What putting characters leaves alone. -/
structure PutsOnly (n : Nat) (s s' : Lex) : Prop where
  tbindex : s'.tbindex = s.tbindex + n
  beyond : ∀ i, s.tbindex + n ≤ i → s'.tokbuf i = s.tokbuf i
  rest : s'.tok = s.tok ∧ s'.toktyp = s.toktyp ∧ s'.ntok = s.ntok ∧ s'.tlen = s.tlen

theorem puts_written (s : Lex) (w : List UInt8) : (s.puts w).written = s.written ++ w := by
  induction w generalizing s with
  | nil => exact (List.append_nil _).symm
  | cons c w ih =>
    have h := ih (s.put c)
    rw [put_written, List.append_assoc] at h
    exact h

theorem puts_only (s : Lex) (w : List UInt8) : PutsOnly w.length s (s.puts w) := by
  induction w generalizing s with
  | nil => exact ⟨rfl, fun _ _ => rfl, rfl, rfl, rfl, rfl⟩
  | cons c w ih =>
    obtain ⟨h1, h2, h3⟩ := ih (s.put c)
    refine ⟨?_, fun i hi => ?_, h3⟩
    · refine h1.trans ?_
      simp only [Lex.put, List.length_cons]
      omega
    · simp only [List.length_cons] at hi
      refine (h2 i ?_).trans (Function.update_of_ne ?_ _ _)
      · simp only [Lex.put]
        omega
      · omega

/-- **What has been stored**: the tokens, packed, with their places and types. -/
structure Stored (s : Lex) (ts : List Token) : Prop where
  ntok : s.ntok = ts.length
  written : s.written = packed ts
  tok : ∀ i, i < ts.length → s.tok i = ((packed (ts.take i)).length : Int)
  toktyp : ∀ i t, ts[i]? = some t → s.toktyp i = t.typ

theorem written_length (s : Lex) : s.written.length = s.tbindex := by simp [Lex.written]

theorem Stored.tbindex (h : Stored s ts) : s.tbindex = (packed ts).length := by
  rw [← written_length, h.written]

/-- **A token is stored.** -/
theorem Stored.add (h : Stored s ts) (w : List UInt8) (typ : Int) :
    Stored ((s.start typ).puts w).count (ts ++ [⟨w, typ⟩]) := by
  obtain ⟨-, -, htok, htyp, hn, -⟩ := puts_only (s.start typ) w
  have hn' : ((s.start typ).puts w).ntok = ts.length := hn.trans h.ntok
  have hstart : (s.start typ).written = packed ts := h.written
  refine ⟨?_, ?_, fun i hi => ?_, fun i t ht => ?_⟩
  · simp only [Lex.count, hn', List.length_append, List.length_singleton]
  · refine (put_written _ NULLCH).trans ?_
    rw [puts_written, hstart, packed, packed, List.flatMap_append, List.append_assoc]
    simp
  · have he : ((s.start typ).puts w).count.tok i = Function.update s.tok s.ntok s.tbindex i :=
      congrFun htok i
    rw [he]
    rcases Nat.lt_or_ge i ts.length with hlt | hge
    · rw [Function.update_of_ne (by rw [h.ntok]; omega), h.tok i hlt,
        List.take_append_of_le_length (by omega)]
    · have hi' : i = ts.length := by
        simp only [List.length_append, List.length_singleton] at hi
        omega
      rw [hi', h.ntok, Function.update_self, List.take_left, h.tbindex]
  · have he : ((s.start typ).puts w).count.toktyp i = Function.update s.toktyp s.ntok typ i :=
      congrFun htyp i
    rw [he]
    rcases Nat.lt_or_ge i ts.length with hlt | hge
    · rw [List.getElem?_append_left hlt] at ht
      rw [Function.update_of_ne (by rw [h.ntok]; omega)]
      exact h.toktyp i t ht
    · rw [List.getElem?_append_right hge] at ht
      obtain ⟨hi, -⟩ := List.getElem?_eq_some_iff.mp ht
      obtain rfl : i = ts.length := by
        simp only [List.length_singleton] at hi
        omega
      rw [Nat.sub_self, List.getElem?_cons_zero] at ht
      rw [h.ntok, Function.update_self, ← Option.some.inj ht]

/-- **Nothing is written outside of the arrays.** -/
structure Inside (s s' : Lex) : Prop where
  tokbuf : ∀ i, SHELL_BUFLEN + SHELL_MAXTOK ≤ i → s'.tokbuf i = s.tokbuf i
  tok : ∀ i, SHELL_MAXTOK ≤ i → s'.tok i = s.tok i
  toktyp : ∀ i, SHELL_MAXTOK ≤ i → s'.toktyp i = s.toktyp i

theorem Inside.refl (s : Lex) : Inside s s := ⟨fun _ _ => rfl, fun _ _ => rfl, fun _ _ => rfl⟩

theorem Inside.trans {s₁ s₂ s₃ : Lex} (h : Inside s₁ s₂) (h' : Inside s₂ s₃) : Inside s₁ s₃ :=
  ⟨fun i hi => (h'.tokbuf i hi).trans (h.tokbuf i hi), fun i hi => (h'.tok i hi).trans (h.tok i hi),
    fun i hi => (h'.toktyp i hi).trans (h.toktyp i hi)⟩

/-- The characters of a token fit. -/
theorem Inside.puts (s : Lex) (typ : Int) (w : List UInt8) (hn : s.ntok < SHELL_MAXTOK)
    (hw : s.tbindex + w.length ≤ SHELL_BUFLEN + SHELL_MAXTOK) :
    Inside s ((s.start typ).puts w) := by
  obtain ⟨-, hb, htok, htyp, -⟩ := puts_only (s.start typ) w
  refine ⟨fun i hi => hb i (le_trans hw hi), fun i hi => ?_, fun i hi => ?_⟩
  · rw [htok]
    exact Function.update_of_ne (by omega) _ _
  · rw [htyp]
    exact Function.update_of_ne (by omega) _ _

/-- The null character after it fits as well. -/
theorem Inside.count (h : Inside s s') (hn : s'.tbindex < SHELL_BUFLEN + SHELL_MAXTOK) :
    Inside s s'.count := by
  refine ⟨fun i hi => ?_, h.tok, h.toktyp⟩
  refine Eq.trans ?_ (h.tokbuf i hi)
  exact Function.update_of_ne (by omega) _ _

/-! ## 5. The loops

Each inner loop takes a whole piece off the text or reports an error, and the main loop goes on
with the rest. -/

/-- The blanks in front of a text are skipped. -/
theorem skipBlanks_split (text : List UInt8) : ∃ bs rest, text = bs ++ rest ∧
    (∀ c ∈ bs, c = SH_BLANK ∨ c = SH_TAB) ∧
    (∀ c ∈ rest.head?, ¬ (c = SH_BLANK ∨ c = SH_TAB)) ∧
    ∀ c p, ¬ (c = SH_BLANK ∨ c = SH_TAB) → skipBlanks (text ++ c :: p) = rest ++ c :: p := by
  induction text with
  | nil => exact ⟨[], [], rfl, by simp, by simp, fun c p hc => if_neg hc⟩
  | cons a text ih =>
    by_cases ha : a = SH_BLANK ∨ a = SH_TAB
    · obtain ⟨bs, rest, h1, h2, h3, h4⟩ := ih
      refine ⟨a :: bs, rest, by rw [h1, List.cons_append], List.forall_mem_cons.mpr ⟨ha, h2⟩, h3,
        fun c p hc => ?_⟩
      rw [List.cons_append, skipBlanks, if_pos ha, h4 c p hc]
    · exact ⟨[], a :: text, rfl, by simp, by simpa using ha, fun c p _ => if_neg ha⟩

/-- A quoted string is copied up to its end. -/
theorem copyQuoted_stop {quote last : UInt8} {p : List UInt8}
    (hw : ∀ c ∈ w, c ≠ quote ∧ ¬ isEnd c) (hlast : last = quote ∨ isEnd last) :
    copyQuoted quote (w ++ last :: p) s = some (last, p, s.puts w) := by
  induction w generalizing s with
  | nil =>
    refine if_neg fun h => ?_
    rcases hlast with e | e | e
    exacts [h.1 e, h.2.1 e, h.2.2 e]
  | cons c w ih =>
    obtain ⟨hc, hw⟩ := List.forall_mem_cons.mp hw
    rw [List.cons_append, copyQuoted, if_pos, ih hw]
    · rfl
    · exact ⟨hc.1, fun e => hc.2 (Or.inl e), fun e => hc.2 (Or.inr e)⟩

/-- A word is copied up to its end. -/
theorem copyWord_stop {last : UInt8} {p : List UInt8} (hw : ∀ c ∈ w, ¬ endsWord c)
    (hlast : endsWord last) : copyWord (w ++ last :: p) s = some (last, last :: p, s.puts w) := by
  induction w generalizing s with
  | nil => exact if_pos hlast
  | cons c w ih =>
    obtain ⟨hc, hw⟩ := List.forall_mem_cons.mp hw
    rw [List.cons_append, copyWord, if_neg hc, ih hw]
    rfl

/-- A text ends somewhere, or has a first character that meets a condition. -/
theorem first_such {P : UInt8 → Prop} [DecidablePred P] (text : List UInt8) :
    (∀ c ∈ text, ¬ P c) ∨ ∃ w last rest, text = w ++ last :: rest ∧ (∀ c ∈ w, ¬ P c) ∧ P last := by
  induction text with
  | nil => exact Or.inl (by simp)
  | cons a text ih =>
    by_cases ha : P a
    · exact Or.inr ⟨[], a, text, rfl, by simp, ha⟩
    · rcases ih with h | ⟨w, last, rest, h1, h2, h3⟩
      · exact Or.inl (List.forall_mem_cons.mpr ⟨ha, h⟩)
      · exact Or.inr ⟨a :: w, last, rest, by rw [h1, List.cons_append],
          List.forall_mem_cons.mpr ⟨ha, h2⟩, h3⟩

/-- Blanks in front of a text. -/
theorem Splits.blanks {bs : List UInt8} (h : Splits rest ps)
    (hb : ∀ c ∈ bs, c = SH_BLANK ∨ c = SH_TAB) :
    ∃ ps', Splits (bs ++ rest) ps' ∧ ps'.filterMap Piece.token = ps.filterMap Piece.token := by
  induction bs with
  | nil => exact ⟨ps, h, rfl⟩
  | cons c bs ih =>
    obtain ⟨hc, hb⟩ := List.forall_mem_cons.mp hb
    obtain ⟨ps', h1, h2⟩ := ih hb
    exact ⟨.blank c :: ps', h1.cons (x := .blank c) hc (by simp), h2⟩

/-- What a run of `lexan` from the state `s` on has to do with the rest of the text. -/
def Analyzes (s : Lex) (ts : List Token) (text : List UInt8) : Option (Lex × Int) → Prop
  | none => False
  | some (s', r) => Inside s s' ∧ (r = SYSERR ∨ ∃ ps, Splits text ps ∧
      Stored s' (ts ++ ps.filterMap Piece.token) ∧ s'.ntok ≤ SHELL_MAXTOK ∧
      s'.tlen = s'.tbindex ∧ r = s'.ntok)

theorem Analyzes.error (h : Inside s s') : Analyzes s ts text (some (s', SYSERR)) :=
  ⟨h, Or.inl rfl⟩

/-- Nothing but blanks is left. -/
theorem Analyzes.done (h : Stored s ts) (hn : s.ntok ≤ SHELL_MAXTOK) {bs : List UInt8}
    (hb : ∀ c ∈ bs, c = SH_BLANK ∨ c = SH_TAB) : Analyzes s ts bs (some s.done) := by
  obtain ⟨ps, hs, hp⟩ := Splits.nil.blanks hb
  rw [List.append_nil] at hs
  refine ⟨⟨fun _ _ => rfl, fun _ _ => rfl, fun _ _ => rfl⟩, Or.inr ⟨ps, hs, ?_, hn, rfl, rfl⟩⟩
  rw [hp, List.filterMap_nil, List.append_nil]
  exact ⟨h.ntok, h.written, h.tok, h.toktyp⟩

/-- **A token and the rest of the text.** -/
theorem Analyzes.token {t : Token} {bs : List UInt8} {o : Option (Lex × Int)}
    (h : Analyzes s' (ts ++ [t]) rest o) (hin : Inside s s') (hx : x.Ok) (ht : x.token = some t)
    (hw : ∀ w, x = .word w → ∀ c ∈ rest.head?, endsWord c)
    (hb : ∀ c ∈ bs, c = SH_BLANK ∨ c = SH_TAB) : Analyzes s ts (bs ++ (x.text ++ rest)) o := by
  cases o with
  | none => exact h
  | some y =>
    obtain ⟨s'', r⟩ := y
    obtain ⟨h1, h2⟩ := h
    refine ⟨hin.trans h1, h2.imp_right ?_⟩
    rintro ⟨ps, hs, hst, hn, htl, hr⟩
    obtain ⟨ps', hs', hp'⟩ := (hs.cons hx hw).blanks hb
    refine ⟨ps', hs', ?_, hn, htl, hr⟩
    rw [hp', List.filterMap_cons, ht]
    rwa [List.append_assoc] at hst

/-- **The main loop.**  The characters read and the tokens found bound the place in `tokbuf`. -/
theorem lexanLoop_analyzes {fuel : Nat} {last : UInt8} (junk : List UInt8) (hlast : isEnd last)
    (htext : ∀ c ∈ text, ¬ isEnd c) (hfuel : text.length < fuel) (hst : Stored s ts)
    (hn : s.ntok ≤ SHELL_MAXTOK)
    (hroom : s.tbindex + text.length + 1 ≤ SHELL_BUFLEN + s.ntok) :
    Analyzes s ts text (lexanLoop fuel (text ++ last :: junk) s) := by
  induction fuel generalizing text s ts with
  | zero => omega
  | succ fuel ih =>
    cases text with
    | nil =>
      have hl : lexanLoop (fuel + 1) (last :: junk) s = some s.done := if_pos hlast.symm
      rw [List.nil_append, hl]
      exact .done hst hn (by simp)
    | cons c text =>
      have hc : ¬ (c = NULLCH ∨ c = SH_NEWLINE) := fun e => htext c List.mem_cons_self e.symm
      rw [List.cons_append, lexanLoop, if_neg hc]
      split_ifs with hfull
      · exact .error (.refl s)
      have hnum : s.ntok < SHELL_MAXTOK := Nat.lt_of_not_le hfull
      obtain ⟨bs, rest, hsplit, hbs, hrest, hskip⟩ := skipBlanks_split (c :: text)
      have hnb : ¬ (last = SH_BLANK ∨ last = SH_TAB) := by
        rcases hlast with rfl | rfl <;> decide
      have hsk := hskip last junk hnb
      rw [List.cons_append] at hsk
      rw [hsplit] at htext hfuel hroom ⊢
      rw [hsk]
      cases rest with
      | nil =>
        rw [List.append_nil]
        have hl : last = SH_NEWLINE ∨ last = NULLCH := hlast
        simp only [List.nil_append, if_pos hl]
        exact .done hst hn hbs
      | cons ch rest =>
        have hmem : ch ∈ bs ++ ch :: rest := by simp
        have hch : ¬ isEnd ch := htext ch hmem
        have hout : ∀ c ∈ rest, ¬ isEnd c := fun c hc => htext c (by simp [hc])
        simp only [List.length_append, List.length_cons] at hfuel hroom
        -- the state after a token, from which the loop goes on with what is left of the text
        have next : ∀ (x : Piece) (left : List UInt8) {w : List UInt8} {typ : Int}, x.Ok →
            x.token = some ⟨w, typ⟩ → x.text ++ left = ch :: rest →
            (∀ w', x = .word w' → ∀ c ∈ left.head?, endsWord c) → w.length + left.length ≤
              rest.length + 1 → left.length ≤ rest.length → (∀ c ∈ left, ¬ isEnd c) →
            Analyzes s ts (bs ++ ch :: rest) (lexanLoop fuel (left ++ last :: junk)
              ((s.start typ).puts w).count) := by
          intro x left w typ hx hxt htx hwd hlen hle hleft
          have hp := puts_only (s.start typ) w
          have hbuf : SHELL_BUFLEN = 129 := rfl
          have hmax : SHELL_MAXTOK = 32 := rfl
          have htb : ((s.start typ).puts w).count.tbindex = s.tbindex + w.length + 1 :=
            congrArg (· + 1) hp.tbindex
          have hnt : ((s.start typ).puts w).count.ntok = s.ntok + 1 :=
            congrArg (· + 1) hp.rest.2.2.1
          have hin : Inside s ((s.start typ).puts w).count := by
            refine (Inside.puts s typ w hnum (by omega)).count ?_
            rw [show ((s.start typ).puts w).tbindex = s.tbindex + w.length from hp.tbindex]
            omega
          rw [← htx]
          exact (ih hleft (by omega) (hst.add w typ) (by omega) (by omega)).token hin hx hxt hwd hbs
        have hl : ¬ (ch = SH_NEWLINE ∨ ch = NULLCH) := hch
        simp only [List.cons_append, if_neg hl]
        split_ifs with h1 h2 h3 h4
        · exact next (.special ch SH_TOK_AMPER) rest (Or.inl ⟨h1, rfl⟩) rfl rfl (by simp)
            (by simp; omega) le_rfl hout
        · exact next (.special ch SH_TOK_LESS) rest (Or.inr (Or.inl ⟨h2, rfl⟩)) rfl rfl (by simp)
            (by simp; omega) le_rfl hout
        · exact next (.special ch SH_TOK_GREATER) rest (Or.inr (Or.inr ⟨h3, rfl⟩)) rfl rfl
            (by simp) (by simp; omega) le_rfl hout
        · -- a quoted string
          rcases first_such (P := (· = ch)) rest with hno | ⟨w, q, left, rfl, hw, rfl⟩
          · rw [copyQuoted_stop (fun c hc => ⟨hno c hc, hout c hc⟩) (Or.inr hlast)]
            have hne : last ≠ ch := fun e => hch (e ▸ hlast)
            simp only [if_pos hne]
            refine .error (Inside.puts s _ rest hnum ?_)
            have hmax : SHELL_MAXTOK = 32 := rfl
            omega
          · rw [List.append_assoc, List.cons_append, copyQuoted_stop (fun c hc =>
              ⟨hw c hc, hout c (List.mem_append_left _ hc)⟩) (Or.inl rfl)]
            simp only [ne_eq, not_true_eq_false, if_false]
            refine next (.quoted q w) left ⟨h4, fun c hc =>
              ⟨hw c hc, hout c (List.mem_append_left _ hc)⟩⟩ rfl ?_ (by simp) ?_ ?_ fun c hc =>
                hout c (by simp [hc])
            · simp [Piece.text]
            · simp only [List.length_append, List.length_cons]
              omega
            · simp only [List.length_append, List.length_cons]
              omega
        · -- a word
          have hword : ¬ endsWord ch := by
            have hb := hrest ch (by simp)
            unfold endsWord
            simp only [not_or] at hl h4 hb ⊢
            exact ⟨hl.1, hl.2, h2, h3, hb.1, hb.2, h1, h4.1, h4.2⟩
          have hputs : ∀ w, ((s.start SH_TOK_OTHER).put ch).puts w =
              (s.start SH_TOK_OTHER).puts (ch :: w) := fun _ => rfl
          rcases first_such (P := endsWord) rest with hno | ⟨w, l, left, rfl, hw, hlw⟩
          · have hend : endsWord last := by
              rcases hlast with e | e
              exacts [Or.inl e, Or.inr (Or.inl e)]
            have hquiet : ¬ (last = SH_SQUOTE ∨ last = SH_DQUOTE ∨ last = SH_LESS ∨
                last = SH_GREATER) := by
              rcases hlast with rfl | rfl <;> decide
            rw [copyWord_stop hno hend, hputs]
            simp only [if_neg hquiet]
            refine next (.word (ch :: rest)) [] ⟨by simp, ?_⟩ rfl (by simp [Piece.text])
              (by simp) (by simp) (by simp) (by simp)
            exact List.forall_mem_cons.mpr ⟨hword, hno⟩
          · rw [List.append_assoc, List.cons_append, copyWord_stop hw hlw, hputs]
            dsimp only
            split_ifs with h5
            · refine .error (Inside.puts s _ (ch :: w) hnum ?_)
              have hmax : SHELL_MAXTOK = 32 := rfl
              simp only [List.length_append, List.length_cons] at hroom ⊢
              omega
            · refine next (.word (ch :: w)) (l :: left) ⟨by simp, ?_⟩ rfl
                (by simp [Piece.text]) (by simpa using hlw) ?_ ?_ fun c hc => hout c ?_
              · exact List.forall_mem_cons.mpr ⟨hword, hw⟩
              · simp only [List.length_append, List.length_cons]
                omega
              · simp only [List.length_append, List.length_cons]
                omega
              · exact List.mem_append_right _ hc

/-! ## 6. Every line

At the end of the line the stored tokens are those of its text. -/

/-- **What `lexan` returns for a list of tokens**: their number and total length, and for each its
type and the place from which its characters stand in `tokbuf`, a null character behind them. -/
structure Returns (s : Lex) (r : Int) (ts : List Token) : Prop where
  count : r = ts.length ∧ ts.length ≤ SHELL_MAXTOK
  tlen : s.tlen = (packed ts).length
  toktyp : ∀ i t, ts[i]? = some t → s.toktyp i = t.typ
  place : ∀ i t, ts[i]? = some t → 0 ≤ s.tok i ∧ NULLCH ∉ t.text ∧
    (List.range (t.text.length + 1)).map (fun j => s.tokbuf ((s.tok i).toNat + j)) =
      t.text ++ [NULLCH]
  increasing : ∀ i j, i < j → j < ts.length → s.tok i < s.tok j

/-- A token of a text has no null character. -/
theorem Splits.token_text (h : Splits text ps) (htext : ∀ c ∈ text, ¬ isEnd c) {t : Token}
    (ht : t ∈ ps.filterMap Piece.token) : NULLCH ∉ t.text := by
  obtain ⟨y, hy, hyt⟩ := List.mem_filterMap.mp ht
  intro hm
  refine htext NULLCH ?_ (Or.inr rfl)
  rw [← h.text]
  refine List.mem_flatMap.mpr ⟨y, hy, ?_⟩
  cases y with
  | blank c => simp [Piece.token] at hyt
  | word w =>
    obtain rfl := Option.some.inj hyt
    exact hm
  | quoted q w =>
    obtain rfl := Option.some.inj hyt
    exact List.mem_cons_of_mem _ (List.mem_append_left _ hm)
  | special c typ =>
    obtain rfl := Option.some.inj hyt
    exact hm

/-- Where a token stands among the packed ones. -/
theorem packed_split {i : Nat} {t : Token} (h : ts[i]? = some t) :
    packed ts = packed (ts.take i) ++ (t.text ++ [NULLCH]) ++ packed (ts.drop (i + 1)) := by
  obtain ⟨hi, rfl⟩ := List.getElem?_eq_some_iff.mp h
  conv_lhs => rw [← List.take_append_drop i ts, List.drop_eq_getElem_cons hi]
  simp only [packed, List.flatMap_append, List.flatMap_cons, List.append_assoc]

theorem Stored.returns (h : Stored s ts) (htl : s.tlen = s.tbindex) (hn : s.ntok ≤ SHELL_MAXTOK)
    (hnull : ∀ t ∈ ts, NULLCH ∉ t.text) : Returns s s.ntok ts := by
  refine ⟨⟨by rw [h.ntok], h.ntok ▸ hn⟩, by rw [htl, h.tbindex], h.toktyp, fun i t ht => ?_,
    fun i j hij hj => ?_⟩
  · obtain ⟨hi, -⟩ := List.getElem?_eq_some_iff.mp ht
    rw [h.tok i hi]
    refine ⟨Int.natCast_nonneg _, hnull t (List.mem_of_getElem? ht), ?_⟩
    have hs := h.written
    rw [packed_split ht] at hs
    have hlen := congrArg List.length hs
    rw [written_length] at hlen
    simp only [List.length_append, List.length_singleton] at hlen
    refine List.ext_getElem (by simp) fun j h1 h2 => ?_
    simp only [List.length_append, List.length_singleton] at h2
    simp only [List.getElem_map, List.getElem_range, Int.toNat_natCast]
    have hw : s.written[(packed (ts.take i)).length + j]? =
        some (s.tokbuf ((packed (ts.take i)).length + j)) := by
      simp only [Lex.written, List.getElem?_map]
      rw [List.getElem?_range (by omega), Option.map_some]
    rw [hs, List.append_assoc, List.getElem?_append_right (by omega), Nat.add_sub_cancel_left,
      List.getElem?_append_left (by simpa using h2)] at hw
    exact (List.getElem_eq_iff _).mpr hw |>.symm
  · obtain ⟨t, ht⟩ : ∃ t, ts[i]? = some t := ⟨_, List.getElem?_eq_getElem (by omega)⟩
    rw [h.tok i (by omega), h.tok j hj]
    have hti : (ts.take j)[i]? = some t := by rw [List.getElem?_take_of_lt hij, ht]
    have hp := congrArg List.length (packed_split hti)
    rw [List.take_take, Nat.min_eq_left (by omega)] at hp
    simp only [List.length_append, List.length_singleton] at hp
    omega

theorem lineText_text (line : List UInt8) : ∀ c ∈ lineText line, ¬ isEnd c := by
  intro c hc
  simpa using List.mem_takeWhile_imp hc

/-- A line that fits in `buf` is divided into the tokens of its text, or an error is reported. -/
theorem lexan_analyzes (line : List UInt8) (tokbuf : Nat → UInt8) (tlen : Int)
    (tok toktyp : Nat → Int) (hend : ∃ c ∈ line, isEnd c)
    (hlen : (lineText line).length ≤ SHELL_BUFLEN - 1) :
    Analyzes ⟨tokbuf, tlen, tok, toktyp, 0, 0⟩ [] (lineText line)
      (lexan line tokbuf tlen tok toktyp) := by
  have htext := lineText_text line
  obtain ⟨last, junk, hline, hlast⟩ : ∃ last junk, line = lineText line ++ last :: junk ∧
      isEnd last := by
    have hsplit : line = lineText line ++ line.dropWhile fun c => ¬ isEnd c :=
      List.takeWhile_append_dropWhile.symm
    cases hd : line.dropWhile fun c => ¬ isEnd c with
    | nil =>
      obtain ⟨c, hc, hce⟩ := hend
      rw [hd, List.append_nil] at hsplit
      exact absurd hce (htext c (hsplit ▸ hc))
    | cons last junk =>
      refine ⟨last, junk, by rw [← hd]; exact hsplit, ?_⟩
      have := List.head?_dropWhile_not (fun c => decide ¬ isEnd c) line
      rw [hd] at this
      simpa using this
  have hst : Stored ⟨tokbuf, tlen, tok, toktyp, 0, 0⟩ [] :=
    ⟨rfl, rfl, fun i hi => absurd hi (by simp), by simp⟩
  have hfuel : (lineText line).length < line.length + 1 := by
    have := (List.takeWhile_sublist (l := line) fun c => ¬ isEnd c).length_le
    unfold lineText
    omega
  have hrun := lexanLoop_analyzes junk hlast htext hfuel hst (Nat.zero_le _) (by
    have : SHELL_BUFLEN = 129 := rfl
    simp only
    omega)
  rw [← hline] at hrun
  exact hrun

/-- **`lexan` is right.**  On a line of at most `SHELL_BUFLEN - 1` characters before its end it
returns and writes inside of its arrays, and unless it reports an error it returns the tokens of the
only way to split the text. -/
theorem lexan_spec (line : List UInt8) (tokbuf : Nat → UInt8) (tlen : Int) (tok toktyp : Nat → Int)
    (hend : ∃ c ∈ line, isEnd c) (hlen : (lineText line).length ≤ SHELL_BUFLEN - 1) :
    ∃ s r, lexan line tokbuf tlen tok toktyp = some (s, r) ∧
      Inside ⟨tokbuf, tlen, tok, toktyp, 0, 0⟩ s ∧
      (r = SYSERR ∨ ∃ ps, Splits (lineText line) ps ∧
        (∀ ps', Splits (lineText line) ps' → ps' = ps) ∧
        Returns s r (ps.filterMap Piece.token)) := by
  have htext := lineText_text line
  have hrun := lexan_analyzes line tokbuf tlen tok toktyp hend hlen
  cases hres : lexan line tokbuf tlen tok toktyp with
  | none =>
    rw [hres] at hrun
    exact hrun.elim
  | some y =>
    obtain ⟨s, r⟩ := y
    rw [hres] at hrun
    obtain ⟨hin, hr⟩ := hrun
    refine ⟨s, r, rfl, hin, hr.imp_right ?_⟩
    rintro ⟨ps, hs, hst', hn, htl, rfl⟩
    exact ⟨ps, hs, fun ps' h' => h'.unique hs, hst'.returns htl hn fun t ht =>
      hs.token_text htext ht⟩

/-- `ls -l&` and the end of the line. -/
def lsLine : List UInt8 := [108, 115, 32, 45, 108, 38, 10]

theorem lexan_spec_ls : ∃ s r, lexan lsLine (fun _ => 0) 0 (fun _ => 0) (fun _ => 0) = some (s, r) ∧
    Inside ⟨fun _ => 0, 0, fun _ => 0, fun _ => 0, 0, 0⟩ s ∧
      (r = SYSERR ∨ ∃ ps, Splits (lineText lsLine) ps ∧
        (∀ ps', Splits (lineText lsLine) ps' → ps' = ps) ∧
        Returns s r (ps.filterMap Piece.token)) :=
  lexan_spec lsLine _ _ _ _ ⟨10, by decide, by decide⟩ (by decide)

example : (lexan lsLine (fun _ => 0) 0 (fun _ => 0) (fun _ => 0)).map
    (fun x => (x.2, x.1.tlen, (List.range 3).map x.1.tok)) = some (3, 8, [0, 3, 6]) := by decide

end Xinu
