/-
# Editing lines

A text is typed into a line at a time.  Some keys edit the line (`kill`, `erase`), some end it, and
one, typed at the beginning of a line, marks the end of the file.  `edited` is what a typed text
comes to: the items that can be read, bytes of ended lines and marks, and the line still being
edited.

A reader asks for a number of bytes and gets that many or those up to the end of the line (`read`),
or the mark.  A read that is possible stays the same when more is typed (`read_append`).
-/
import Mathlib.Tactic

namespace LineEditor

/-- The keys with a meaning. -/
structure Keys (α : Type*) where
  kill : α
  erase : α
  erase2 : α
  eof : α
  ends : α → Bool

/-- What can be read. -/
inductive Item (α : Type*)
  | byte (c : α)
  | eof
  deriving DecidableEq

namespace Keys

variable {α : Type*} (k : Keys α)

/-! ## 1. Typing -/

section Typing

variable [DecidableEq α]

/-- What a key completes when `line` is being edited, and the line it leaves. -/
def type (line : List α) (c : α) : List (Item α) × List α :=
  if c = k.kill then ([], [])
  else if c = k.erase ∨ c = k.erase2 then ([], line.dropLast)
  else if k.ends c then ((line ++ [c]).map .byte, [])
  else if c = k.eof then (if line = [] then [.eof] else [], line)
  else ([], line ++ [c])

/-- What the text comes to. -/
def edited (text : List α) : List (Item α) × List α :=
  text.foldl (fun s c => (s.1 ++ (k.type s.2 c).1, (k.type s.2 c).2)) ([], [])

@[simp] theorem edited_nil : k.edited [] = ([], []) := rfl

theorem edited_concat (text : List α) (c : α) : k.edited (text ++ [c]) =
    ((k.edited text).1 ++ (k.type (k.edited text).2 c).1, (k.type (k.edited text).2 c).2) := by
  rw [edited, List.foldl_append]
  rfl

end Typing

/-! ## 2. Reading -/

/-- Up to `n` bytes of a line. -/
def takeLine : Nat → List (Item α) → Option (List α × List (Item α))
  | 0, items => some ([], items)
  | _ + 1, [] => none
  | _ + 1, .eof :: items => some ([], .eof :: items)
  | n + 1, .byte c :: items =>
    if k.ends c then some ([c], items) else (takeLine n items).map fun r => (c :: r.1, r.2)

/-- A read of up to `n` bytes: `none` as the answer is the end of the file, and without an answer
the reader waits. -/
def read (n : Nat) : List (Item α) → Option (Option (List α) × List (Item α))
  | [] => none
  | .eof :: items => some (none, items)
  | .byte c :: items => (k.takeLine n (.byte c :: items)).map fun r => (some r.1, r.2)

variable {k} {n : Nat} {items rest more : List (Item α)} {bs line : List α} {a : Option (List α)}
  {c : α}

theorem takeLine_append (h : k.takeLine n items = some (bs, rest)) :
    k.takeLine n (items ++ more) = some (bs, rest ++ more) := by
  induction n generalizing items bs with
  | zero =>
    obtain ⟨rfl, rfl⟩ := Prod.mk.inj (Option.some.inj h)
    rfl
  | succ n ih =>
    rcases items with _ | ⟨_ | _, items⟩
    · exact absurd h (by simp [takeLine])
    · rename_i c
      rw [takeLine] at h
      rw [List.cons_append, takeLine]
      split_ifs at h ⊢ with he
      · obtain ⟨rfl, rfl⟩ := Prod.mk.inj (Option.some.inj h)
        rfl
      · obtain ⟨⟨bs', r⟩, h', hr⟩ := Option.map_eq_some_iff.mp h
        obtain ⟨rfl, rfl⟩ := Prod.mk.inj hr
        rw [ih h']
        rfl
    · obtain ⟨rfl, rfl⟩ := Prod.mk.inj (Option.some.inj h)
      rfl

/-- **What was typed later does not change a read.** -/
theorem read_append (h : k.read n items = some (a, rest)) :
    k.read n (items ++ more) = some (a, rest ++ more) := by
  rcases items with _ | ⟨_ | _, items⟩
  · exact absurd h (by simp [read])
  · obtain ⟨⟨bs, r⟩, h', hr⟩ := Option.map_eq_some_iff.mp h
    obtain ⟨rfl, rfl⟩ := Prod.mk.inj hr
    rw [List.cons_append, read, ← List.cons_append, takeLine_append h']
    rfl
  · obtain ⟨rfl, rfl⟩ := Prod.mk.inj (Option.some.inj h)
    rfl

/-! ## 3. Whole lines -/

variable (k) in
/-- What can be read ends with the end of a line or a mark, and no mark stands in a line. -/
inductive Whole : List (Item α) → Prop
  | nil : Whole []
  | eof {items : List (Item α)} : Whole items → Whole (.eof :: items)
  | last {c : α} {items : List (Item α)} : k.ends c → Whole items → Whole (.byte c :: items)
  | more {c d : α} {items : List (Item α)} :
      Whole (.byte d :: items) → Whole (.byte c :: .byte d :: items)

theorem Whole.append (h : k.Whole items) (h' : k.Whole more) : k.Whole (items ++ more) := by
  induction h with
  | nil => exact h'
  | eof _ ih => exact .eof ih
  | last hc _ ih => exact .last hc ih
  | more _ ih => exact .more ih

theorem whole_line (hc : k.ends c) : k.Whole ((line ++ [c]).map .byte) := by
  induction line with
  | nil => exact .last hc .nil
  | cons b line ih =>
    rcases line with _ | ⟨d, line⟩
    · exact .more ih
    · exact .more ih

theorem whole_type [DecidableEq α] : k.Whole (k.type line c).1 := by
  rw [type]
  split_ifs with _ _ hends
  · exact .nil
  · exact .nil
  · exact whole_line hends
  · exact .eof .nil
  · exact .nil
  · exact .nil

/-- Behind a byte that does not end its line stands another one. -/
theorem Whole.next (h : k.Whole (.byte c :: items)) (hc : k.ends c = false) :
    ∃ d rest, items = .byte d :: rest ∧ k.Whole items := by
  cases h with
  | last hc' => exact absurd hc' (by simp [hc])
  | more h' => exact ⟨_, _, rfl, h'⟩

theorem Whole.tail {i : Item α} (h : k.Whole (i :: items)) : k.Whole items := by
  cases h with
  | eof h => exact h
  | last _ h => exact h
  | more h => exact h

theorem Whole.of_suffix (h : k.Whole items) (hs : rest <:+ items) : k.Whole rest := by
  obtain ⟨pre, rfl⟩ := hs
  induction pre with
  | nil => exact h
  | cons i pre ih => exact ih h.tail

/-- What a read leaves. -/
theorem takeLine_suffix (h : k.takeLine n items = some (bs, rest)) : rest <:+ items := by
  induction n generalizing items bs with
  | zero =>
    obtain ⟨rfl, rfl⟩ := Prod.mk.inj (Option.some.inj h)
    exact List.suffix_rfl
  | succ n ih =>
    rcases items with _ | ⟨c | _, items⟩
    · exact absurd h (by simp [takeLine])
    · rw [takeLine] at h
      split_ifs at h with he
      · obtain ⟨rfl, rfl⟩ := Prod.mk.inj (Option.some.inj h)
        exact List.suffix_cons ..
      · obtain ⟨⟨bs', r⟩, h', hr⟩ := Option.map_eq_some_iff.mp h
        obtain ⟨rfl, rfl⟩ := Prod.mk.inj hr
        exact (ih h').trans (List.suffix_cons ..)
    · obtain ⟨rfl, rfl⟩ := Prod.mk.inj (Option.some.inj h)
      exact List.suffix_rfl

theorem read_suffix (h : k.read n items = some (a, rest)) : rest <:+ items := by
  rcases items with _ | ⟨c | _, items⟩
  · exact absurd h (by simp [read])
  · obtain ⟨⟨bs, r⟩, h', hr⟩ := Option.map_eq_some_iff.mp h
    obtain ⟨rfl, rfl⟩ := Prod.mk.inj hr
    exact takeLine_suffix h'
  · obtain ⟨rfl, rfl⟩ := Prod.mk.inj (Option.some.inj h)
    exact List.suffix_cons ..

/-- The key for the end of the file is in no line. -/
theorem eof_notMem_edited [DecidableEq α] (he : k.ends k.eof = false) (text : List α) :
    .byte k.eof ∉ (k.edited text).1 ∧ k.eof ∉ (k.edited text).2 := by
  induction text using List.reverseRecOn with
  | nil => simp
  | append_singleton text c ih =>
    obtain ⟨h1, h2⟩ := ih
    rw [edited_concat, type]
    split_ifs with hkill herase hends heof hline
    · simpa using h1
    · exact ⟨by simpa using h1, fun h => h2 (List.mem_of_mem_dropLast h)⟩
    · have hc : k.eof ≠ c := by
        rintro rfl
        exact absurd hends (by simp [he])
      simp [h1, h2, hc]
    · simpa [h1] using h2
    · simpa [h1] using h2
    · simp [h1, h2, Ne.symm heof]

/-! ## 4. Serving -/

variable {ι ρ σ : Type*} {serve₁ : ι → σ → Option (ρ × σ)}

/-- The answers to a list of requests, and the state afterwards. -/
def serve (serve₁ : ι → σ → Option (ρ × σ)) : List ι → σ → Option (List ρ × σ)
  | [], s => some ([], s)
  | i :: is, s =>
    (serve₁ i s).bind fun r => (serve serve₁ is r.2).map fun r' => (r.1 :: r'.1, r'.2)

theorem serve_concat {is : List ι} {i : ι} {s t u : σ} {rs : List ρ} {r : ρ}
    (h : serve serve₁ is s = some (rs, t)) (hi : serve₁ i t = some (r, u)) :
    serve serve₁ (is ++ [i]) s = some (rs ++ [r], u) := by
  induction is generalizing s rs with
  | nil =>
    obtain ⟨rfl, rfl⟩ := Prod.mk.inj (Option.some.inj h)
    simp [serve, hi]
  | cons j is ih =>
    obtain ⟨⟨r', s'⟩, h1, h2⟩ := Option.bind_eq_some_iff.mp h
    obtain ⟨⟨rs', t'⟩, h3, h4⟩ := Option.map_eq_some_iff.mp h2
    obtain ⟨rfl, rfl⟩ := Prod.mk.inj h4
    rw [List.cons_append, serve, h1, Option.bind_some, ih h3]
    rfl

/-- Answers that do not change when the state grows. -/
theorem serve_grow {τ : Type*} {serve₁ : ι → List τ → Option (ρ × List τ)}
    (hgrow : ∀ i s r t m, serve₁ i s = some (r, t) → serve₁ i (s ++ m) = some (r, t ++ m))
    {is : List ι} {s t : List τ} {rs : List ρ} (h : serve serve₁ is s = some (rs, t))
    (m : List τ) : serve serve₁ is (s ++ m) = some (rs, t ++ m) := by
  induction is generalizing s rs with
  | nil =>
    obtain ⟨rfl, rfl⟩ := Prod.mk.inj (Option.some.inj h)
    rfl
  | cons j is ih =>
    obtain ⟨⟨r', s'⟩, h1, h2⟩ := Option.bind_eq_some_iff.mp h
    obtain ⟨⟨rs', t'⟩, h3, h4⟩ := Option.map_eq_some_iff.mp h2
    obtain ⟨rfl, rfl⟩ := Prod.mk.inj h4
    rw [serve, hgrow _ _ _ _ m h1, Option.bind_some, ih h3]
    rfl

end Keys

end LineEditor
