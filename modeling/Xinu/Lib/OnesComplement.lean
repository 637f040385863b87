/-
# One's-complement sums and the Internet checksum

The Internet checksum of a sequence of bytes: adjacent bytes are paired to 16-bit words, an odd last
byte is padded with a zero byte, the words are added in one's-complement arithmetic (the carry out
of the high bit is added back in), and the checksum is the complement of the sum.  A receiver adds
all the words, the checksum among them, and expects a sum of all ones.

Programs add the words in a wider register first and fold the carries back afterwards.  `fold` is
one such step; `reduce` is the result when no carry is left.
-/
import Mathlib.Tactic

namespace OnesComplement

/-! ## 1. Definitions -/

/-- The sum of two 16-bit words, with the carry added back in. -/
def add (a b : Nat) : Nat := if a + b < 65536 then a + b else a + b - 65535

/-- The one's-complement sum of 16-bit words. -/
def sum (ws : List Nat) : Nat := ws.foldl add 0

/-- The 16-bit words of a sequence of bytes, the high byte first, an odd last byte padded. -/
def words : List UInt8 → List Nat
  | [] => []
  | [b] => [b.toNat * 256]
  | b :: c :: bs => (b.toNat * 256 + c.toNat) :: words bs

/-- The Internet checksum. -/
def checksum (bs : List UInt8) : Nat := 65535 - sum (words bs)

/-- What a receiver expects of a sequence of bytes that contains its checksum. -/
def Verifies (bs : List UInt8) : Prop := sum (words bs) = 65535

/-- The ordinary sum of the words. -/
def total (bs : List UInt8) : Nat := (words bs).sum

/-- The carry is added to the low 16 bits. -/
def fold (t : Nat) : Nat := t % 65536 + t / 65536

/-- The low 16 bits after the carry is folded until none is left: zero for zero, and otherwise the
representative of `t` modulo 65535 from 1 to 65535. -/
def reduce (t : Nat) : Nat := if t = 0 then 0 else (t - 1) % 65535 + 1

/-! ## 2. Folding -/

theorem reduce_of_lt {t : Nat} (h : t < 65536) : reduce t = t := by
  unfold reduce
  split_ifs <;> omega

theorem reduce_le (t : Nat) : reduce t ≤ 65535 := by
  unfold reduce
  split_ifs <;> omega

theorem reduce_mod (t : Nat) : reduce t % 65535 = t % 65535 := by
  unfold reduce
  split_ifs <;> omega

theorem reduce_eq_max {t : Nat} : reduce t = 65535 ↔ 0 < t ∧ t % 65535 = 0 := by
  unfold reduce
  split_ifs with h
  · simp [h]
  · constructor <;> omega

/-- Folding does not change the result. -/
theorem reduce_fold (t : Nat) : reduce (fold t) = reduce t := by
  unfold reduce fold
  split_ifs <;> omega

theorem fold_mod (t : Nat) : fold t % 65535 = t % 65535 := by
  unfold fold
  omega

/-- **One fold is enough exactly when it leaves no carry.** -/
theorem fold_mod_eq_reduce_iff {t : Nat} (h : t < 4294967296) :
    fold t % 65536 = reduce t ↔ fold t < 65536 := by
  constructor
  · intro he
    have hm := reduce_mod t
    have hf : fold t ≤ 131070 := by
      unfold fold
      omega
    rw [← he, ← fold_mod t] at hm
    omega
  · intro hlt
    rw [Nat.mod_eq_of_lt hlt, ← reduce_fold, reduce_of_lt hlt]

theorem reduce_add_reduce (s t : Nat) : reduce (reduce s + t) = reduce (s + t) := by
  unfold reduce
  split_ifs <;> omega

theorem add_eq_reduce {a b : Nat} (ha : a < 65536) (hb : b < 65536) : add a b = reduce (a + b) := by
  unfold add reduce
  split_ifs <;> omega

/-! ## 3. Sums -/

theorem words_lt (bs : List UInt8) : ∀ w ∈ words bs, w < 65536 := by
  induction bs using words.induct with
  | case1 => simp [words]
  | case2 b =>
    intro w hw
    rw [words, List.mem_singleton] at hw
    have := b.toNat_lt
    omega
  | case3 b c bs ih =>
    intro w hw
    rw [words, List.mem_cons] at hw
    rcases hw with rfl | hw
    · have := b.toNat_lt
      have := c.toNat_lt
      omega
    · exact ih w hw

theorem foldl_add {ws : List Nat} (h : ∀ w ∈ ws, w < 65536) (a : Nat) :
    ws.foldl add (reduce a) = reduce (a + ws.sum) := by
  induction ws generalizing a with
  | nil => simp
  | cons w ws ih =>
    have hw := h w List.mem_cons_self
    have ha := reduce_le a
    rw [List.foldl_cons, add_eq_reduce (by omega) hw, reduce_add_reduce,
      ih (fun x hx => h x (List.mem_cons_of_mem _ hx)), List.sum_cons, add_assoc]

/-- **The one's-complement sum is the ordinary sum with all carries folded.** -/
theorem sum_words (bs : List UInt8) : sum (words bs) = reduce (total bs) := by
  have h := foldl_add (words_lt bs) 0
  rwa [zero_add] at h

theorem checksum_eq (bs : List UInt8) : checksum bs = 65535 - reduce (total bs) := by
  rw [checksum, sum_words]

theorem verifies_iff (bs : List UInt8) : Verifies bs ↔ 0 < total bs ∧ total bs % 65535 = 0 := by
  rw [Verifies, sum_words, reduce_eq_max]

/-! ## 4. Where words stand -/

@[simp] theorem total_nil : total [] = 0 := rfl

@[simp] theorem total_cons_cons (b c : UInt8) (bs : List UInt8) :
    total (b :: c :: bs) = b.toNat * 256 + c.toNat + total bs := by
  rw [total, words, List.sum_cons, total]

theorem total_singleton (b : UInt8) : total [b] = b.toNat * 256 := by simp [total, words]

/-- An even number of bytes in front shifts no pair. -/
theorem words_append {xs : List UInt8} (h : xs.length % 2 = 0) (ys : List UInt8) :
    words (xs ++ ys) = words xs ++ words ys := by
  induction xs using words.induct with
  | case1 => rfl
  | case2 b => simp at h
  | case3 b c bs ih =>
    rw [List.length_cons, List.length_cons] at h
    rw [List.cons_append, List.cons_append, words, words, ih (by omega), List.cons_append]

theorem total_append {xs : List UInt8} (h : xs.length % 2 = 0) (ys : List UInt8) :
    total (xs ++ ys) = total xs + total ys := by
  rw [total, words_append h, List.sum_append, total, total]

theorem total_le (bs : List UInt8) : 2 * total bs ≤ 65535 * (bs.length + 1) := by
  induction bs using words.induct with
  | case1 => simp
  | case2 b =>
    have := b.toNat_lt
    rw [total_singleton, List.length_singleton]
    omega
  | case3 b c bs ih =>
    have := b.toNat_lt
    have := c.toNat_lt
    rw [total_cons_cons, List.length_cons, List.length_cons]
    omega

/-- **A pair of bytes at an even place is one word of the sum.** -/
theorem total_set {bs : List UInt8} {i : Nat} (hi : i % 2 = 0) (hlt : i + 1 < bs.length)
    (b c : UInt8) :
    total ((bs.set i b).set (i + 1) c) =
      total ((bs.set i 0).set (i + 1) 0) + (b.toNat * 256 + c.toNat) := by
  induction bs using words.induct generalizing i with
  | case1 => simp at hlt
  | case2 b => simp at hlt
  | case3 x y bs ih =>
    rcases i with _ | _ | i
    · simp only [List.set_cons_zero, List.set_cons_succ, total_cons_cons, UInt8.toNat_zero]
      omega
    · simp at hi
    · rw [List.length_cons, List.length_cons] at hlt
      simp only [List.set_cons_succ, total_cons_cons]
      rw [ih (by omega) (by omega)]
      omega

/-! ## 5. Altered words -/

/-- The bytes `ys` are `xs` altered in one word, and not from all zeros to all ones or back, which
one's-complement sums cannot tell apart. -/
structure Altered (xs ys : List UInt8) (w w' : Nat) : Prop where
  length : ys.length = xs.length
  word : ∃ i, (words xs)[i]? = some w ∧ words ys = (words xs).set i w'
  ne : w ≠ w'
  not_ones : ¬(w = 0 ∧ w' = 65535)
  not_zeros : ¬(w = 65535 ∧ w' = 0)

variable {xs ys : List UInt8} {w w' : Nat}

theorem Altered.lt (h : Altered xs ys w w') : w < 65536 ∧ w' < 65536 := by
  obtain ⟨i, hi, hy⟩ := h.word
  refine ⟨words_lt xs w (List.mem_of_getElem? hi), words_lt ys w' ?_⟩
  rw [hy]
  exact List.mem_set (List.getElem?_eq_some_iff.mp hi).1 w'

theorem sum_set {l : List Nat} {i : Nat} (h : l[i]? = some w) :
    (l.set i w').sum + w = l.sum + w' := by
  induction l generalizing i with
  | nil => simp at h
  | cons a l ih =>
    cases i with
    | zero =>
      rw [List.getElem?_cons_zero, Option.some.injEq] at h
      rw [List.set_cons_zero, List.sum_cons, List.sum_cons, h]
      omega
    | succ i =>
      rw [List.getElem?_cons_succ] at h
      have := ih h
      rw [List.set_cons_succ, List.sum_cons, List.sum_cons]
      omega

theorem Altered.total (h : Altered xs ys w w') :
    OnesComplement.total ys + w = OnesComplement.total xs + w' := by
  obtain ⟨i, hi, hy⟩ := h.word
  rw [OnesComplement.total, hy, sum_set hi, OnesComplement.total]

/-- **An altered word changes the residue of the sum.** -/
theorem Altered.residue (h : Altered xs ys w w') :
    ¬(OnesComplement.total ys : Int) % 65535 = (OnesComplement.total xs : Int) % 65535 := by
  intro he
  have ht := h.total
  have hlt := h.lt
  have hne := h.ne
  have h1 := h.not_ones
  have h2 := h.not_zeros
  have hd : ((w' : Int) - w) % 65535 = 0 := by omega
  obtain ⟨j, hj⟩ := Int.dvd_of_emod_eq_zero hd
  have hj0 : j = -1 ∨ j = 0 ∨ j = 1 := by omega
  rcases hj0 with rfl | rfl | rfl <;> omega

/-- Where an odd last byte differs, it is what was altered. -/
theorem Altered.last {b c : UInt8} (h : Altered (xs ++ [b]) (ys ++ [c]) w w')
    (hx : xs.length % 2 = 0) (hne : b ≠ c) : w = b.toNat * 256 ∧ w' = c.toNat * 256 := by
  have hlen : ys.length = xs.length := by
    have := h.length
    simp only [List.length_append, List.length_singleton] at this
    omega
  obtain ⟨i, hi, hy⟩ := h.word
  rw [words_append hx] at hi hy
  rw [words_append (by rwa [hlen])] at hy
  have hone : ∀ a : UInt8, words [a] = [a.toNat * 256] := fun a => by rw [words]
  rw [hone b] at hi hy
  rw [hone c] at hy
  rcases Nat.lt_or_ge i (words xs).length with hlt | hge
  · rw [List.set_append_left _ _ hlt] at hy
    have he := (List.cons.inj (List.append_inj_right' hy (by simp))).1
    have hbc : b.toNat = c.toNat := by omega
    exact absurd (UInt8.toNat_inj.mp hbc) hne
  · rw [List.getElem?_append_right hge] at hi
    obtain ⟨hlt, -⟩ := List.getElem?_eq_some_iff.mp hi
    have hi0 : i - (words xs).length = 0 := by
      rw [List.length_singleton] at hlt
      omega
    rw [hi0, List.getElem?_cons_zero, Option.some.injEq] at hi
    rw [List.set_append_right _ _ hge, hi0, List.set_cons_zero] at hy
    have he := (List.cons.inj (List.append_inj_right' hy (by simp))).1
    exact ⟨hi.symm, he.symm⟩

end OnesComplement
