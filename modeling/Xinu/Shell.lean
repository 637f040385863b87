/-
# The shell's command lines: `shell.c`

The shell has no grammar.  It takes a `&` off the end of the tokens that `lexan` found, then twice a
redirection, and what is left must be words.  It works on `tok` and `toktyp` with indices that it
counts down, and cuts `tlen` down as it goes.

The comment at the top of `shell` has the grammar, and `Parses` says it: words, then at most one `<`
and at most one `>` with a word behind it, in either order, then possibly a `&`.  A list of tokens
has at most one reading (`Parses.unique`).

* `parse_reading`: a list with a reading goes on to the command table, with that reading;
* `parse_replies`: and no other list does;
* `shell_reads_grammar`: so it is for the tokens of every line.

A line of blanks has no tokens.  It is not an error: the shell answers it with an empty line.
-/
import Xinu.Lexan

namespace Xinu

/-! ## 1. `shell.c`

The branches are in the order of the source.  An access outside of the arrays of `lexan` is
`none`, so that an accepted line is known to have been read inside of them. -/

def SHELL_SYNERRMSG : String := "Syntax error\n"

/-- The variables of `shell` that the reading of the tokens sets.  A name is an index in `tokbuf`,
and `none` is `NULL`. -/
structure Command where
  ntok : Int
  tlen : Int
  inname : Option Int
  outname : Option Int
  backgnd : Bool
  deriving DecidableEq

/-- What the shell does with a line: it prints a message and reads the next line, or it goes on to
look up the command. -/
inductive Reply
  | printed (text : String)
  | lookup (cmd : Command)
  deriving DecidableEq

/-- `toktyp[i]`, or `none` outside of the array. -/
def Lex.typAt (s : Lex) (i : Int) : Option Int :=
  if 0 ≤ i ∧ i < SHELL_MAXTOK then some (s.toktyp i.toNat) else none

/-- `tok[i]`, or `none` outside of the array. -/
def Lex.tokAt (s : Lex) (i : Int) : Option Int :=
  if 0 ≤ i ∧ i < SHELL_MAXTOK then some (s.tok i.toNat) else none

/-- If last token is '&', set background. -/
def background (s : Lex) (ntok tlen : Int) : Option Command := do
  if (← s.typAt (ntok - 1)) = SH_TOK_AMPER then
    some ⟨ntok - 1, tlen - 2, none, none, true⟩
  else
    some ⟨ntok, tlen, none, none, false⟩

/-- `(ntok >= 3) && (toktyp[ntok-2] == SH_TOK_LESS || toktyp[ntok-2] == SH_TOK_GREATER)` -/
def redirected (s : Lex) (ntok : Int) : Option Bool :=
  if ntok ≥ 3 then do
    let typ ← s.typAt (ntok - 2)
    some (typ = SH_TOK_LESS ∨ typ = SH_TOK_GREATER)
  else
    some false

/-- The first redirection, counted from the end. -/
def firstRedirect (s : Lex) (cmd : Command) : Option (Except String Command) := do
  if ← redirected s cmd.ntok then
    if (← s.typAt (cmd.ntok - 1)) ≠ SH_TOK_OTHER then
      return .error (SHELL_SYNERRMSG ++ "\n")
    if (← s.typAt (cmd.ntok - 2)) = SH_TOK_LESS then
      let name ← s.tokAt (cmd.ntok - 1)
      let tlen ← s.tokAt (cmd.ntok - 2)
      return .ok { cmd with inname := some name, ntok := cmd.ntok - 2, tlen := tlen }
    else
      let name ← s.tokAt (cmd.ntok - 1)
      let tlen ← s.tokAt (cmd.ntok - 2)
      return .ok { cmd with outname := some name, ntok := cmd.ntok - 2, tlen := tlen }
  else
    return .ok cmd

/-- The second redirection must not be of the same kind. -/
def secondRedirect (s : Lex) (cmd : Command) : Option (Except String Command) := do
  if ← redirected s cmd.ntok then
    if (← s.typAt (cmd.ntok - 1)) ≠ SH_TOK_OTHER then
      return .error (SHELL_SYNERRMSG ++ "\n")
    if (← s.typAt (cmd.ntok - 2)) = SH_TOK_LESS then
      if cmd.inname ≠ none then
        return .error (SHELL_SYNERRMSG ++ "\n")
      let name ← s.tokAt (cmd.ntok - 1)
      let tlen ← s.tokAt (cmd.ntok - 2)
      return .ok { cmd with inname := some name, ntok := cmd.ntok - 2, tlen := tlen }
    else
      if cmd.outname ≠ none then
        return .error (SHELL_SYNERRMSG ++ "\n")
      let name ← s.tokAt (cmd.ntok - 1)
      let tlen ← s.tokAt (cmd.ntok - 2)
      return .ok { cmd with outname := some name, ntok := cmd.ntok - 2, tlen := tlen }
  else
    return .ok cmd

/-- The loop that verifies that `n` tokens from `i` on are of type "other": where it stops. -/
def verifyOther (s : Lex) : Nat → Int → Option Int
  | 0, i => some i
  | n + 1, i => do
    if (← s.typAt i) ≠ SH_TOK_OTHER then some i else verifyOther s n (i + 1)

/-- Verify remaining tokens are type "other". -/
def verify (s : Lex) (cmd : Command) : Option Reply := do
  let i ← verifyOther s cmd.ntok.toNat 0
  if cmd.ntok = 0 ∨ i < cmd.ntok then
    some (.printed SHELL_SYNERRMSG)
  else
    some (.lookup cmd)

/-- What `shell` does with what `lexan` returned. -/
def parse (s : Lex) (ntok : Int) : Option Reply :=
  if ntok = SYSERR then
    some (.printed (SHELL_SYNERRMSG ++ "\n"))
  else if ntok = 0 then
    some (.printed "\n")
  else do
    let cmd ← background s ntok s.tlen
    match ← firstRedirect s cmd with
    | .error text => some (.printed text)
    | .ok cmd =>
      match ← secondRedirect s cmd with
      | .error text => some (.printed text)
      | .ok cmd => verify s cmd

/-! ## 2. The grammar

The grammar of the comment in the source, as a relation on lists of tokens.  It is unambiguous,
since a word is no special token. -/

/-- The tokens that are not words. -/
def amper : Token := ⟨[SH_AMPER], SH_TOK_AMPER⟩
def less : Token := ⟨[SH_LESS], SH_TOK_LESS⟩
def greater : Token := ⟨[SH_GREATER], SH_TOK_GREATER⟩

def Token.IsWord (t : Token) : Prop := t.typ = SH_TOK_OTHER

instance (t : Token) : Decidable t.IsWord := inferInstanceAs (Decidable (t.typ = SH_TOK_OTHER))

/-- A command as it is written. -/
structure Reading where
  words : List Token
  input : Option Token
  output : Option Token
  backgnd : Bool

/-- A redirection is either or both of `< input_file` and `> output_file`. -/
inductive Redirects : List Token → Option Token → Option Token → Prop
  | none : Redirects [] none none
  | input {f : Token} : f.IsWord → Redirects [less, f] (some f) none
  | output {g : Token} : g.IsWord → Redirects [greater, g] none (some g)
  | inputOutput {f g : Token} : f.IsWord → g.IsWord →
      Redirects [less, f, greater, g] (some f) (some g)
  | outputInput {f g : Token} : f.IsWord → g.IsWord →
      Redirects [greater, g, less, f] (some f) (some g)

/-- `command_name [args*] [redirection] [&]` -/
structure Parses (ts : List Token) (c : Reading) : Prop where
  named : c.words ≠ []
  words : ∀ t ∈ c.words, t.IsWord
  rest : ∃ rs, Redirects rs c.input c.output ∧
    ts = c.words ++ (rs ++ if c.backgnd then [amper] else [])

variable {ts us vs rs : List Token} {t f l : Token} {c c' : Reading} {s : Lex} {cmd : Command}

/-- What follows the words does not start with one. -/
theorem Redirects.head {i o : Option Token} {b : Bool} (h : Redirects rs i o) :
    ∀ t ∈ (rs ++ if b then [amper] else []).head?, ¬ t.IsWord := by
  intro t ht
  cases h with
  | none =>
    split_ifs at ht
    · obtain rfl : amper = t := by simpa using ht
      decide
    · simp at ht
  | input | inputOutput =>
    obtain rfl : less = t := by simpa using ht
    decide
  | output | outputInput =>
    obtain rfl : greater = t := by simpa using ht
    decide

/-- Nothing is written in two ways. -/
theorem Redirects.unique {i o i' o' : Option Token} {b b' : Bool} {rs' : List Token}
    (h : Redirects rs i o) (h' : Redirects rs' i' o')
    (he : (rs ++ if b then [amper] else []) = rs' ++ if b' then [amper] else []) :
    i = i' ∧ o = o' ∧ b = b' := by
  have hlg : less ≠ greater := by decide
  cases h <;> cases h' <;> cases b <;> cases b' <;> simp [hlg, hlg.symm] at he ⊢ <;> tauto

/-- The words are what stands before the first token of another type. -/
theorem Parses.takeWhile (h : Parses ts c) :
    ts.takeWhile (fun t => t.typ = SH_TOK_OTHER) = c.words := by
  obtain ⟨rs, hr, rfl⟩ := h.rest
  rw [List.takeWhile_append_of_pos (by intro t ht; exact decide_eq_true (h.words t ht))]
  have hhead := hr.head (b := c.backgnd)
  cases hx : rs ++ if c.backgnd then [amper] else [] with
  | nil => rw [List.takeWhile_nil, List.append_nil]
  | cons t xs =>
    rw [hx] at hhead
    have ht : ¬ t.typ = SH_TOK_OTHER := hhead t rfl
    rw [List.takeWhile_cons_of_neg (by simpa using ht), List.append_nil]

/-- **A list of tokens has at most one reading.** -/
theorem Parses.unique (h : Parses ts c) (h' : Parses ts c') : c = c' := by
  have hw : c.words = c'.words := h.takeWhile.symm.trans h'.takeWhile
  obtain ⟨rs, hr, he⟩ := h.rest
  obtain ⟨rs', hr', he'⟩ := h'.rest
  rw [he, hw] at he'
  obtain ⟨hi, ho, hb⟩ := hr.unique hr' (List.append_cancel_left he')
  cases c
  cases c'
  simp_all

/-! ## 3. The tokens in the arrays

`Front` says which tokens are left when the shell has counted down its index: it never moves a
token, and looks at a shorter part of the arrays. -/

/-- **The first tokens, as `lexan` left them.** -/
structure Front (s : Lex) (ts : List Token) : Prop where
  few : ts.length ≤ SHELL_MAXTOK
  typ : ∀ i t, ts[i]? = some t → s.toktyp i = t.typ
  tok : ∀ i, i < ts.length → s.tok i = ((packed (ts.take i)).length : Int)
  data : (List.range (packed ts).length).map s.tokbuf = packed ts
  text : ∀ t ∈ ts, NULLCH ∉ t.text
  kinds : ∀ t ∈ ts, t.IsWord ∨ t = amper ∨ t = less ∨ t = greater

theorem packed_append (us vs : List Token) : packed (us ++ vs) = packed us ++ packed vs :=
  List.flatMap_append

theorem Stored.front (h : Stored s ts) (hn : s.ntok ≤ SHELL_MAXTOK)
    (htext : ∀ t ∈ ts, NULLCH ∉ t.text)
    (hk : ∀ t ∈ ts, t.IsWord ∨ t = amper ∨ t = less ∨ t = greater) : Front s ts := by
  refine ⟨h.ntok ▸ hn, h.toktyp, h.tok, ?_, htext, hk⟩
  rw [← h.tbindex]
  exact h.written

/-- Dropping the last tokens. -/
theorem Front.left (h : Front s (us ++ vs)) : Front s us := by
  have hlen := h.few
  rw [List.length_append] at hlen
  refine ⟨by omega, fun i t ht => ?_, fun i hi => ?_, ?_, fun t ht => ?_, fun t ht => ?_⟩
  · exact h.typ i t (by rwa [List.getElem?_append_left (List.getElem?_eq_some_iff.mp ht).1])
  · rw [h.tok i (by rw [List.length_append]; omega), List.take_append_of_le_length hi.le]
  · have hd := congrArg (List.take (packed us).length) h.data
    rwa [packed_append, List.take_left', ← List.map_take, List.take_range, List.length_append,
      min_eq_left (Nat.le_add_right _ _)] at hd
    rfl
  · exact h.text t (List.mem_append_left _ ht)
  · exact h.kinds t (List.mem_append_left _ ht)

theorem Front.typAt (h : Front s (us ++ t :: vs)) : s.typAt us.length = some t.typ := by
  have hlen := h.few
  rw [List.length_append, List.length_cons] at hlen
  rw [Lex.typAt, if_pos (by omega), Int.toNat_natCast, h.typ us.length t (by simp)]

theorem Front.tokAt (h : Front s (us ++ t :: vs)) :
    s.tokAt us.length = some ((packed us).length : Int) := by
  have hlen := h.few
  rw [List.length_append, List.length_cons] at hlen
  rw [Lex.tokAt, if_pos (by omega), Int.toNat_natCast, h.tok us.length (by simp), List.take_left]

/-! ## 4. The steps of the shell

Each step looks at the last two tokens that are left.  What it does is said about the list of the
tokens, no longer about the arrays. -/

theorem background_eq (h : Front s (us ++ [t])) (tlen : Int) :
    background s (us.length + 1) tlen = some (if t.typ = SH_TOK_AMPER then
      ⟨us.length, tlen - 2, none, none, true⟩ else ⟨us.length + 1, tlen, none, none, false⟩) := by
  have ht : s.typAt ((us.length : Int) + 1 - 1) = some t.typ := by
    rw [add_sub_cancel_right]
    exact h.typAt
  simp only [background, ht, Option.bind_eq_bind, Option.bind_some]
  split_ifs
  · rw [add_sub_cancel_right]
  · rfl

/-- At the first redirection there is nothing that the second could repeat. -/
theorem firstRedirect_eq (hi : cmd.inname = none) (ho : cmd.outname = none) :
    firstRedirect s cmd = secondRedirect s cmd := by
  simp only [firstRedirect, secondRedirect, hi, ho, ne_eq, not_true_eq_false, if_false]

/-- Fewer than three tokens hold no redirection. -/
theorem redirect_short (hn : cmd.ntok < 3) : secondRedirect s cmd = some (.ok cmd) := by
  have h3 : ¬ cmd.ntok ≥ 3 := by omega
  simp [secondRedirect, redirected, h3]

/-- **What the shell does with the last two tokens.** -/
theorem redirect_eq (h : Front s (us ++ [l, f])) (hus : us ≠ []) (hn : cmd.ntok = us.length + 2) :
    secondRedirect s cmd = some (
      if l.typ = SH_TOK_LESS ∨ l.typ = SH_TOK_GREATER then
        if f.typ ≠ SH_TOK_OTHER then .error (SHELL_SYNERRMSG ++ "\n")
        else if l.typ = SH_TOK_LESS then
          if cmd.inname ≠ none then .error (SHELL_SYNERRMSG ++ "\n")
          else .ok { cmd with
            inname := some ((packed (us ++ [l])).length : Int), ntok := us.length
            tlen := (packed us).length }
        else
          if cmd.outname ≠ none then .error (SHELL_SYNERRMSG ++ "\n")
          else .ok { cmd with
            outname := some ((packed (us ++ [l])).length : Int), ntok := us.length
            tlen := (packed us).length }
      else .ok cmd) := by
  have h' : Front s ((us ++ [l]) ++ [f]) := by simpa using h
  have hn1 : cmd.ntok - 1 = ((us ++ [l]).length : Int) := by
    rw [List.length_append, List.length_singleton]
    omega
  have hn2 : cmd.ntok - 2 = (us.length : Int) := by omega
  have h3 : cmd.ntok ≥ 3 := by
    have := List.length_pos_of_ne_nil hus
    omega
  simp only [secondRedirect, redirected, if_pos h3, hn1, hn2, h.typAt, h'.typAt, h.tokAt, h'.tokAt,
    Option.bind_eq_bind, Option.bind_some, decide_eq_true_eq, Option.pure_def]
  by_cases hr : l.typ = SH_TOK_LESS ∨ l.typ = SH_TOK_GREATER
  · rw [if_pos hr, if_pos hr]
    by_cases hf : f.typ ≠ SH_TOK_OTHER
    · rw [if_pos hf, if_pos hf]
    · rw [if_neg hf, if_neg hf]
      split_ifs <;> rfl
  · rw [if_neg hr, if_neg hr]

theorem last_two (h : 3 ≤ ts.length) : ∃ us l f, us ≠ [] ∧ ts = us ++ [l, f] := by
  rcases List.eq_nil_or_concat' ts with rfl | ⟨vs, f, rfl⟩
  · simp at h
  rcases List.eq_nil_or_concat' vs with rfl | ⟨us, l, rfl⟩
  · simp at h
  refine ⟨us, l, f, ?_, by simp⟩
  rintro rfl
  simp at h

theorem redirect_words (h : Front s ts) (hw : ∀ t ∈ ts, t.IsWord) (hn : cmd.ntok = ts.length) :
    secondRedirect s cmd = some (.ok cmd) := by
  by_cases h3 : 3 ≤ ts.length
  · obtain ⟨us, l, f, hus, rfl⟩ := last_two h3
    have hl : l.typ = SH_TOK_OTHER := hw l (by simp)
    rw [redirect_eq h hus (by rw [hn]; simp), if_neg (by rw [hl]; decide)]
  · exact redirect_short (by omega)

/-- The command after `us ++ [less, f]`. -/
def Command.input (cmd : Command) (us : List Token) : Command :=
  { cmd with
    inname := some ((packed (us ++ [less])).length : Int)
    ntok := us.length
    tlen := (packed us).length }

/-- The command after `us ++ [greater, g]`. -/
def Command.output (cmd : Command) (us : List Token) : Command :=
  { cmd with
    outname := some ((packed (us ++ [greater])).length : Int)
    ntok := us.length
    tlen := (packed us).length }

theorem redirect_input (h : Front s (us ++ [less, f])) (hus : us ≠ []) (hf : f.IsWord)
    (hn : cmd.ntok = us.length + 2) (hi : cmd.inname = none) :
    secondRedirect s cmd = some (.ok (cmd.input us)) := by
  have hfw : ¬ f.typ ≠ SH_TOK_OTHER := not_not.mpr hf
  have hl : less.typ = SH_TOK_LESS := rfl
  rw [redirect_eq h hus hn, if_pos (.inl hl), if_neg hfw, if_pos hl, if_neg (not_not.mpr hi)]
  rfl

theorem redirect_output (h : Front s (us ++ [greater, f])) (hus : us ≠ []) (hf : f.IsWord)
    (hn : cmd.ntok = us.length + 2) (ho : cmd.outname = none) :
    secondRedirect s cmd = some (.ok (cmd.output us)) := by
  have hfw : ¬ f.typ ≠ SH_TOK_OTHER := not_not.mpr hf
  rw [redirect_eq h hus hn, if_pos (.inr rfl), if_neg hfw, if_neg (by decide),
    if_neg (not_not.mpr ho)]
  rfl

/-- The type of a token that is not a word tells which it is. -/
theorem Front.kind (h : Front s ts) (ht : t ∈ ts) : (t.typ = SH_TOK_AMPER → t = amper) ∧
    (t.typ = SH_TOK_LESS → t = less) ∧ (t.typ = SH_TOK_GREATER → t = greater) := by
  rcases h.kinds t ht with hw | rfl | rfl | rfl
  · have ht : t.typ = SH_TOK_OTHER := hw
    rw [ht]
    exact ⟨fun e => absurd e (by decide), fun e => absurd e (by decide),
      fun e => absurd e (by decide)⟩
  all_goals decide

/-- **A step takes one redirection off the end**, or none, or reports an error. -/
theorem redirect_cases (h : Front s ts) (hn : cmd.ntok = ts.length) :
    secondRedirect s cmd = some (.error (SHELL_SYNERRMSG ++ "\n")) ∨
    secondRedirect s cmd = some (.ok cmd) ∨
    (∃ us f, us ≠ [] ∧ f.IsWord ∧ ts = us ++ [less, f] ∧ cmd.inname = none ∧
      secondRedirect s cmd = some (.ok (cmd.input us))) ∨
    (∃ us g, us ≠ [] ∧ g.IsWord ∧ ts = us ++ [greater, g] ∧ cmd.outname = none ∧
      secondRedirect s cmd = some (.ok (cmd.output us))) := by
  by_cases h3 : 3 ≤ ts.length
  · obtain ⟨us, l, f, hus, rfl⟩ := last_two h3
    obtain ⟨-, hless, hgreater⟩ := h.kind (show l ∈ us ++ [l, f] by simp)
    have hn' : cmd.ntok = us.length + 2 := by
      rw [hn, List.length_append]
      rfl
    have heq := redirect_eq h hus hn'
    split_ifs at heq with hr hf hl hi ho
    · exact .inl heq
    · exact .inl heq
    · obtain rfl := hless hl
      exact .inr (.inr (.inl ⟨us, f, hus, not_not.mp hf, rfl, not_not.mp hi, heq⟩))
    · exact .inl heq
    · obtain rfl := hgreater (hr.resolve_left hl)
      exact .inr (.inr (.inr ⟨us, f, hus, not_not.mp hf, rfl, not_not.mp ho, heq⟩))
    · exact .inr (.inl heq)
  · exact .inr (.inl (redirect_short (by omega)))

/-- The loop stops behind the first words. -/
theorem verifyOther_eq (h : Front s (us ++ vs)) :
    verifyOther s vs.length us.length =
      some ((us.length + (vs.takeWhile fun t => t.IsWord).length : Nat) : Int) := by
  induction vs generalizing us with
  | nil => rfl
  | cons t vs ih =>
    rw [List.length_cons, verifyOther, h.typAt, Option.bind_eq_bind, Option.bind_some]
    by_cases ht : t.typ ≠ SH_TOK_OTHER
    · have hnot : ¬ t.IsWord := ht
      rw [if_pos ht, List.takeWhile_cons_of_neg (by simpa using hnot)]
      rfl
    · have hw : t.IsWord := not_not.mp ht
      have h' : Front s ((us ++ [t]) ++ vs) := by simpa using h
      have hih := ih h'
      rw [List.length_append, List.length_singleton, Nat.cast_add_one] at hih
      rw [if_neg ht, List.takeWhile_cons_of_pos (by simpa using hw), hih, List.length_cons]
      congr 2
      omega

/-- **Only words pass, and not without one.** -/
theorem verify_eq (h : Front s ts) (hn : cmd.ntok = ts.length) :
    verify s cmd = some (if ts ≠ [] ∧ ∀ t ∈ ts, t.IsWord then .lookup cmd
      else .printed SHELL_SYNERRMSG) := by
  have hv := verifyOther_eq (show Front s ([] ++ ts) from h)
  rw [List.length_nil, zero_add, Nat.cast_zero] at hv
  have hpre := List.takeWhile_prefix (l := ts) fun t => decide t.IsWord
  rw [verify, hn, Int.toNat_natCast, hv, Option.bind_eq_bind, Option.bind_some]
  by_cases hall : ts ≠ [] ∧ ∀ t ∈ ts, t.IsWord
  · obtain ⟨hne, hw⟩ := hall
    have hpos := List.length_pos_of_ne_nil hne
    rw [List.takeWhile_eq_self_iff.mpr (by intro t ht; exact decide_eq_true (hw t ht)),
      if_neg (by omega), if_pos ⟨hne, hw⟩]
  · rw [if_neg hall, if_pos]
    by_contra hno
    push Not at hno
    refine hall ⟨?_, fun t ht => ?_⟩
    · rintro rfl
      exact hno.1 rfl
    · have hle := hpre.length_le
      have hself := List.takeWhile_eq_self_iff.mp (hpre.eq_of_length (by omega))
      exact of_decide_eq_true (hself t ht)

/-! ## 5. Replies

The steps one after the other, twice: a line that the shell accepts has a reading, and a line with
a reading is accepted. -/

/-- The shell prints that the line is wrong. -/
def Reply.SyntaxError (reply : Reply) : Prop :=
  reply = .printed SHELL_SYNERRMSG ∨ reply = .printed (SHELL_SYNERRMSG ++ "\n")

instance (reply : Reply) : Decidable reply.SyntaxError := inferInstanceAs (Decidable (_ ∨ _))

/-- The name of a file, as the shell found it: the index of its characters in `tokbuf`, with a null
character behind them. -/
def Names (s : Lex) : Option Token → Option Int → Prop
  | none, name => name = none
  | some f, name => ∃ i : Nat, name = some (i : Int) ∧ NULLCH ∉ f.text ∧
      (List.range (f.text.length + 1)).map (fun j => s.tokbuf (i + j)) = f.text ++ [NULLCH]

/-- **The shell has the command that was written.** -/
structure Accepts (s : Lex) (c : Reading) (cmd : Command) : Prop where
  ntok : cmd.ntok = c.words.length
  tlen : cmd.tlen = (packed c.words).length
  words : Front s c.words
  inname : Names s c.input cmd.inname
  outname : Names s c.output cmd.outname
  backgnd : cmd.backgnd = c.backgnd

/-- A token stands behind the ones before it. -/
theorem Front.names (h : Front s (us ++ f :: vs)) :
    Names s (some f) (some ((packed us).length : Int)) := by
  refine ⟨(packed us).length, rfl, h.text f (by simp), ?_⟩
  have hp : packed (us ++ f :: vs) = packed us ++ ((f.text ++ [NULLCH]) ++ packed vs) := by
    rw [packed_append]
    rfl
  refine List.ext_getElem (by simp) fun j h1 h2 => ?_
  have hj : (packed us).length + j < (packed (us ++ f :: vs)).length := by
    rw [hp, List.length_append, List.length_append]
    omega
  have hd := List.getElem_of_eq h.data (i := (packed us).length + j) (by simpa using hj)
  simp only [List.getElem_map, List.getElem_range] at hd ⊢
  rw [hd]
  simp only [hp]
  rw [List.getElem_append_right (by omega), List.getElem_append_left (by simpa using h2)]
  simp

/-- What the steps have to do with the tokens that are left. -/
structure Command.Left (cmd : Command) (ts : List Token) : Prop where
  ntok : cmd.ntok = ts.length
  tlen : cmd.tlen = (packed ts).length

theorem Command.left_input (cmd : Command) (us : List Token) : (cmd.input us).Left us := ⟨rfl, rfl⟩

theorem Command.left_output (cmd : Command) (us : List Token) : (cmd.output us).Left us :=
  ⟨rfl, rfl⟩

/-- The shell answers with an error, or it has read the tokens. -/
def Replies (s : Lex) (ts : List Token) (o : Option Reply) : Prop :=
  (∃ reply, o = some reply ∧ reply.SyntaxError) ∨
    ∃ c cmd, Parses ts c ∧ o = some (.lookup cmd) ∧ Accepts s c cmd

/-- The last step, after the redirections. -/
theorem verify_replies (h : Front s us) (hleft : cmd.Left us) {i o : Option Token}
    (hr : Redirects rs i o) (hts : ts = us ++ (rs ++ if cmd.backgnd then [amper] else []))
    (hi : Names s i cmd.inname) (ho : Names s o cmd.outname) : Replies s ts (verify s cmd) := by
  rw [verify_eq h hleft.ntok]
  by_cases hw : us ≠ [] ∧ ∀ t ∈ us, t.IsWord
  · rw [if_pos hw]
    exact .inr ⟨⟨us, i, o, cmd.backgnd⟩, cmd, ⟨hw.1, hw.2, rs, hr, hts⟩, rfl,
      ⟨hleft.ntok, hleft.tlen, h, hi, ho, rfl⟩⟩
  · rw [if_neg hw]
    exact .inl ⟨_, rfl, .inl rfl⟩

/-- The `&` at the end. -/
theorem background_cases (h : Front s ts) (hne : ts ≠ []) (htl : s.tlen = (packed ts).length) :
    ∃ us cmd, background s ts.length s.tlen = some cmd ∧ cmd.Left us ∧ cmd.inname = none ∧
      cmd.outname = none ∧ (ts = us ++ if cmd.backgnd then [amper] else []) ∧
      (cmd.backgnd = false → ts.getLast? ≠ some amper) := by
  rcases List.eq_nil_or_concat' ts with rfl | ⟨us, t, rfl⟩
  · exact absurd rfl hne
  have hb := background_eq h s.tlen
  have hlen : ((us ++ [t]).length : Int) = us.length + 1 := by simp
  rw [hlen, hb]
  by_cases ht : t.typ = SH_TOK_AMPER
  · obtain rfl := (h.kind (List.mem_append_right us List.mem_cons_self)).1 ht
    have hp : (packed (us ++ [amper])).length = (packed us).length + 2 := by
      rw [packed_append, List.length_append]
      rfl
    rw [if_pos ht]
    refine ⟨us, _, rfl, ⟨rfl, ?_⟩, rfl, rfl, rfl, by simp⟩
    rw [htl, hp]
    push_cast
    ring
  · rw [if_neg ht]
    refine ⟨us ++ [t], _, rfl, ⟨hlen.symm, htl⟩, rfl, rfl, by simp, fun _ hlast => ht ?_⟩
    rw [List.getLast?_concat, Option.some.injEq] at hlast
    rw [hlast]
    rfl

/-- What `parse` does when the `&` is taken off. -/
theorem parse_eq (hne : ts ≠ []) (hb : background s ts.length s.tlen = some cmd)
    (hi : cmd.inname = none) (ho : cmd.outname = none) :
    parse s ts.length = (secondRedirect s cmd).bind fun
      | .error text => some (.printed text)
      | .ok cmd => (secondRedirect s cmd).bind fun
        | .error text => some (.printed text)
        | .ok cmd => verify s cmd := by
  have hpos := List.length_pos_of_ne_nil hne
  rw [parse, if_neg (by unfold SYSERR; omega), if_neg (by omega), hb, Option.bind_eq_bind,
    Option.bind_some, firstRedirect_eq hi ho]
  rfl

/-- **The shell answers with an error, or it has read the tokens.** -/
theorem parse_replies (h : Front s ts) (hne : ts ≠ []) (htl : s.tlen = (packed ts).length) :
    Replies s ts (parse s ts.length) := by
  obtain ⟨us, cmd, hb, hleft, hi, ho, hts, -⟩ := background_cases h hne htl
  have hus : Front s us := by
    rw [hts] at h
    exact h.left
  have hno : Names s none none := rfl
  rw [parse_eq hne hb hi ho]
  rcases redirect_cases hus hleft.ntok with h1 | h1 | ⟨vs, f, -, hf, rfl, -, h1⟩ |
    ⟨vs, g, -, hg, rfl, -, h1⟩
  · simp only [h1, Option.bind_some]
    exact .inl ⟨_, rfl, .inr rfl⟩
  · simp only [h1, Option.bind_some]
    exact verify_replies hus hleft .none hts (hi ▸ hno) (ho ▸ hno)
  · -- the last redirection is that of the input
    have hf' : Front s (vs ++ [less] ++ [f]) := by simpa using hus
    rcases redirect_cases hus.left (cmd.left_input vs).ntok with h2 | h2 |
      ⟨ws, g, -, hg, rfl, hn, -⟩ | ⟨ws, g, -, hg, rfl, -, h2⟩
    · simp only [h1, h2, Option.bind_some]
      exact .inl ⟨_, rfl, .inr rfl⟩
    · simp only [h1, h2, Option.bind_some]
      rw [List.append_assoc] at hts
      exact verify_replies hus.left (cmd.left_input vs) (.input hf) hts hf'.names (ho ▸ hno)
    · simp [Command.input] at hn
    · simp only [h1, h2, Option.bind_some]
      have hg' : Front s (ws ++ [greater] ++ [g]) := by simpa using hus.left
      rw [List.append_assoc, List.append_assoc] at hts
      exact verify_replies hus.left.left (Command.left_output _ ws) (.outputInput hf hg)
        hts hf'.names
        hg'.names
  · -- that of the output
    have hg' : Front s (vs ++ [greater] ++ [g]) := by simpa using hus
    rcases redirect_cases hus.left (cmd.left_output vs).ntok with h2 | h2 |
      ⟨ws, f, -, hf, rfl, -, h2⟩ | ⟨ws, f, -, hf, rfl, hn, -⟩
    · simp only [h1, h2, Option.bind_some]
      exact .inl ⟨_, rfl, .inr rfl⟩
    · simp only [h1, h2, Option.bind_some]
      rw [List.append_assoc] at hts
      exact verify_replies hus.left (cmd.left_output vs) (.output hg) hts (hi ▸ hno) hg'.names
    · simp only [h1, h2, Option.bind_some]
      have hf' : Front s (ws ++ [less] ++ [f]) := by simpa using hus.left
      rw [List.append_assoc, List.append_assoc] at hts
      exact verify_replies hus.left.left (Command.left_input _ ws) (.inputOutput hf hg)
        hts hf'.names
        hg'.names
    · simp [Command.output] at hn

/-- What is in front of the `&` ends with a word. -/
theorem Parses.last (h : Parses ts c) {rs : List Token} (hr : Redirects rs c.input c.output) :
    ∃ us t, c.words ++ rs = us ++ [t] ∧ t.IsWord := by
  generalize c.input = i at hr
  generalize c.output = o at hr
  cases hr with
  | none =>
    rcases List.eq_nil_or_concat' c.words with hnil | ⟨us, t, hw⟩
    · exact absurd hnil h.named
    · exact ⟨us, t, by rw [hw, List.append_nil], h.words t (by rw [hw]; simp)⟩
  | input hf => exact ⟨c.words ++ [less], _, by simp, hf⟩
  | output hg => exact ⟨c.words ++ [greater], _, by simp, hg⟩
  | @inputOutput f g hf hg => exact ⟨c.words ++ [less, f, greater], g, by simp, hg⟩
  | @outputInput f g hf hg => exact ⟨c.words ++ [greater, g, less], f, by simp, hf⟩

/-- **Every command that can be written is accepted.** -/
theorem parse_reading (h : Front s ts) (htl : s.tlen = (packed ts).length) (hr : Parses ts c) :
    ∃ cmd, parse s ts.length = some (.lookup cmd) := by
  obtain ⟨rs, hrs, hts⟩ := hr.rest
  obtain ⟨xs, t, hlast, ht⟩ := hr.last hrs
  have hne : ts ≠ [] := by
    rintro rfl
    exact hr.named (List.append_eq_nil_iff.mp hts.symm).1
  obtain ⟨us, cmd, hb, hleft, hi, ho, hus, hnot⟩ := background_cases h hne htl
  -- the two agree on the `&`
  have hback : us = c.words ++ rs := by
    have heq := hus.symm.trans hts
    rw [← List.append_assoc] at heq
    cases hcb : c.backgnd <;> cases hmb : cmd.backgnd
    · rw [hcb, hmb] at heq
      exact List.append_cancel_right heq
    · rw [hcb, hmb, hlast] at heq
      simp at heq
      obtain rfl := heq.2
      exact absurd ht (by decide)
    · rw [hcb, ← List.append_assoc] at hts
      exact absurd (by rw [hts]; simp) (hnot hmb)
    · rw [hcb, hmb] at heq
      exact List.append_cancel_right heq
  have hfront : Front s us := by
    rw [hus] at h
    exact h.left
  subst hback
  have hwords := hfront.left
  have hv : ∀ {x : Command}, x.Left c.words → verify s x = some (.lookup x) := by
    intro x hx
    rw [verify_eq hwords hx.ntok, if_pos ⟨hr.named, hr.words⟩]
  rw [parse_eq hne hb hi ho]
  generalize c.input = i at hrs
  generalize c.output = o at hrs
  cases hrs with
  | none =>
    rw [List.append_nil] at hleft
    simp only [redirect_words hwords hr.words hleft.ntok, Option.bind_some, hv hleft]
    exact ⟨_, rfl⟩
  | input hf =>
    have h1 := redirect_input hfront hr.named hf (hleft.ntok.trans (by simp)) hi
    have h2 := redirect_words hwords hr.words (cmd.left_input c.words).ntok
    simp only [h1, h2, Option.bind_some, hv (cmd.left_input c.words)]
    exact ⟨_, rfl⟩
  | output hg =>
    have h1 := redirect_output hfront hr.named hg (hleft.ntok.trans (by simp)) ho
    have h2 := redirect_words hwords hr.words (cmd.left_output c.words).ntok
    simp only [h1, h2, Option.bind_some, hv (cmd.left_output c.words)]
    exact ⟨_, rfl⟩
  | @inputOutput f g hf hg =>
    have hfront' : Front s (c.words ++ [less, f] ++ [greater, g]) := by simpa using hfront
    have h1 := redirect_output hfront' (by simp) hg (hleft.ntok.trans (by simp; omega)) ho
    have h2 := redirect_input hfront'.left hr.named hf
      ((cmd.left_output (c.words ++ [less, f])).ntok.trans (by simp)) hi
    simp only [h1, h2, Option.bind_some, hv (Command.left_input _ c.words)]
    exact ⟨_, rfl⟩
  | @outputInput f g hf hg =>
    have hfront' : Front s (c.words ++ [greater, g] ++ [less, f]) := by simpa using hfront
    have h1 := redirect_input hfront' (by simp) hf (hleft.ntok.trans (by simp; omega)) hi
    have h2 := redirect_output hfront'.left hr.named hg
      ((cmd.left_input (c.words ++ [greater, g])).ntok.trans (by simp)) ho
    simp only [h1, h2, Option.bind_some, hv (Command.left_output _ c.words)]
    exact ⟨_, rfl⟩

/-! ## 6. Every line

With the result about `lexan`, for every line that can be typed. -/

/-- The tokens of a text are words and the three special ones. -/
theorem Splits.token_kind {text : List UInt8} {ps : List Piece} (h : Splits text ps)
    (ht : t ∈ ps.filterMap Piece.token) : t.IsWord ∨ t = amper ∨ t = less ∨ t = greater := by
  obtain ⟨y, hy, hyt⟩ := List.mem_filterMap.mp ht
  have hok := h.ok y hy
  cases y with
  | blank c => simp [Piece.token] at hyt
  | word w =>
    obtain rfl := Option.some.inj hyt
    exact .inl rfl
  | quoted q w =>
    obtain rfl := Option.some.inj hyt
    exact .inl rfl
  | special c typ =>
    obtain rfl := Option.some.inj hyt
    rcases hok with ⟨rfl, rfl⟩ | ⟨rfl, rfl⟩ | ⟨rfl, rfl⟩
    · exact .inr (.inl rfl)
    · exact .inr (.inr (.inl rfl))
    · exact .inr (.inr (.inr rfl))

/-- What a list of tokens is answered with. -/
def Answers (s : Lex) (ts : List Token) (reply : Reply) : Prop :=
  (ts = [] ∧ reply = .printed "\n") ∨
    (∃ c cmd, Parses ts c ∧ (∀ c', Parses ts c' → c' = c) ∧ reply = .lookup cmd ∧ Accepts s c cmd) ∨
    ts ≠ [] ∧ (∀ c, ¬ Parses ts c) ∧ reply.SyntaxError

theorem parse_answers (h : Front s ts) (htl : s.tlen = (packed ts).length) :
    ∃ reply, parse s ts.length = some reply ∧ Answers s ts reply := by
  rcases eq_or_ne ts [] with rfl | hne
  · exact ⟨_, rfl, .inl ⟨rfl, rfl⟩⟩
  rcases parse_replies h hne htl with ⟨reply, hp, hsyn⟩ | ⟨c, cmd, hc, hp, hacc⟩
  · refine ⟨reply, hp, .inr (.inr ⟨hne, fun c hc => ?_, hsyn⟩)⟩
    obtain ⟨cmd, hcmd⟩ := parse_reading h htl hc
    rw [hp, Option.some.injEq] at hcmd
    rw [hcmd] at hsyn
    rcases hsyn with e | e
    · exact Reply.noConfusion e
    · exact Reply.noConfusion e
  · exact ⟨_, hp, .inr (.inl ⟨c, cmd, hc, fun c' hc' => hc'.unique hc, rfl, hacc⟩)⟩

/-- **The shell accepts the lines of its grammar.**  `lexan` reports an error, or the shell looks up
the command that the tokens are; a list of tokens that is no command is answered with the syntax
error, unless it is empty. -/
theorem shell_reads_grammar (line : List UInt8) (tokbuf : Nat → UInt8) (tlen : Int)
    (tok toktyp : Nat → Int) (hend : ∃ c ∈ line, isEnd c)
    (hlen : (lineText line).length ≤ SHELL_BUFLEN - 1) :
    ∃ s r reply, lexan line tokbuf tlen tok toktyp = some (s, r) ∧
      Inside ⟨tokbuf, tlen, tok, toktyp, 0, 0⟩ s ∧ parse s r = some reply ∧
      (r = SYSERR ∧ reply.SyntaxError ∨
        ∃ ps ts, Splits (lineText line) ps ∧ ts = ps.filterMap Piece.token ∧ r = ts.length ∧
          Answers s ts reply) := by
  have hrun := lexan_analyzes line tokbuf tlen tok toktyp hend hlen
  cases hres : lexan line tokbuf tlen tok toktyp with
  | none =>
    rw [hres] at hrun
    exact hrun.elim
  | some y =>
    obtain ⟨s, r⟩ := y
    rw [hres] at hrun
    obtain ⟨hin, rfl | ⟨ps, hs, hst, hn, htl, rfl⟩⟩ := hrun
    · exact ⟨s, SYSERR, _, rfl, hin, if_pos rfl, .inl ⟨rfl, .inr rfl⟩⟩
    rw [List.nil_append] at hst
    have hfront := hst.front hn (fun t ht => hs.token_text (lineText_text line) ht)
      fun t ht => hs.token_kind ht
    rw [hst.tbindex] at htl
    obtain ⟨reply, hp, ha⟩ := parse_answers hfront htl
    rw [hst.ntok]
    exact ⟨s, _, reply, rfl, hin, hp, .inr ⟨ps, _, hs, rfl, rfl, ha⟩⟩

/-- `wc -l < in > out &` and the end of the line. -/
def wcLine : List UInt8 :=
  [119, 99, 32, 45, 108, 32, 60, 32, 105, 110, 32, 62, 32, 111, 117, 116, 32, 38, 10]

theorem shell_reads_grammar_wc :
    ∃ s r reply, lexan wcLine (fun _ => 0) 0 (fun _ => 0) (fun _ => 0) = some (s, r) ∧
      Inside ⟨fun _ => 0, 0, fun _ => 0, fun _ => 0, 0, 0⟩ s ∧ parse s r = some reply ∧
      (r = SYSERR ∧ reply.SyntaxError ∨
        ∃ ps ts, Splits (lineText wcLine) ps ∧ ts = ps.filterMap Piece.token ∧ r = ts.length ∧
          Answers s ts reply) :=
  shell_reads_grammar wcLine _ _ _ _ ⟨10, by decide, by decide⟩ (by decide)

example : (lexan wcLine (fun _ => 0) 0 (fun _ => 0) (fun _ => 0)).bind (fun x => parse x.1 x.2) =
    some (.lookup ⟨2, 6, some 8, some 13, true⟩) := by decide

/-- **A line of blanks** has no tokens, is no command, and is not answered with the syntax error. -/
theorem blank_line_answered :
    ∃ s r ps reply, lexan [SH_BLANK, SH_NEWLINE] (fun _ => 0) 0 (fun _ => 0) (fun _ => 0) =
        some (s, r) ∧ r ≠ SYSERR ∧ Splits (lineText [SH_BLANK, SH_NEWLINE]) ps ∧
      (∀ c, ¬ Parses (ps.filterMap Piece.token) c) ∧ parse s r = some reply ∧
      ¬ reply.SyntaxError := by
  refine ⟨⟨fun _ => 0, 0, fun _ => 0, fun _ => 0, 0, 0⟩, 0, [.blank SH_BLANK], .printed "\n", rfl,
    by decide, ⟨by decide, by simp [Piece.Ok], List.isChain_singleton _⟩, ?_, rfl, by decide⟩
  intro c hc
  obtain ⟨rs, -, hts⟩ := hc.rest
  exact hc.named (List.append_eq_nil_iff.mp hts.symm).1

end Xinu
