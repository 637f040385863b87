/-
# Numerals

`numeral b n` is how the number `n` is written in base `b`: its digits, the leading one first and
not zero, and a single `0` for zero.

A converter usually fills a table with a fixed number of digits, the last digit first, and then
drops the leading zeros (`trim`).  What it leaves is the numeral, when the number fits in the table
(`trim_table`).  The value is read back digit by digit (`value_numeral`).
-/
import Mathlib.Data.List.TakeWhile
import Mathlib.Data.Nat.Digits.Lemmas

namespace Numerals

variable {α β : Type*} {b k n d : Nat}

/-! ## 1. Numerals -/

/-- The digits of `n` in base `b`, the leading one first. -/
def numeral (b n : Nat) : List Nat := if n = 0 then [0] else (Nat.digits b n).reverse

@[simp] theorem numeral_zero (b : Nat) : numeral b 0 = [0] := rfl

theorem numeral_of_pos (h : n ≠ 0) : numeral b n = (Nat.digits b n).reverse := if_neg h

theorem numeral_ne_nil (b n : Nat) : numeral b n ≠ [] := by
  by_cases hn : n = 0
  · simp [hn]
  · rw [numeral_of_pos hn]
    simpa using Nat.digits_ne_nil_iff_ne_zero.mpr hn

theorem numeral_lt (hb : 1 < b) : ∀ d ∈ numeral b n, d < b := by
  intro d hd
  by_cases hn : n = 0
  · subst hn
    rw [numeral_zero, List.mem_singleton] at hd
    omega
  · rw [numeral_of_pos hn, List.mem_reverse] at hd
    exact Nat.digits_lt_base hb hd

/-- The leading digit is not zero. -/
theorem numeral_head (hn : n ≠ 0) (hd : (numeral b n).head? = some d) : d ≠ 0 := by
  rw [numeral_of_pos hn, List.head?_reverse] at hd
  have hne := Nat.digits_ne_nil_iff_ne_zero (b := b).mpr hn
  rw [List.getLast?_eq_some_getLast hne] at hd
  rw [← Option.some.inj hd]
  exact Nat.getLast_digit_ne_zero b hn

theorem length_numeral_le_iff (hb : 1 < b) (hk : 0 < k) :
    (numeral b n).length ≤ k ↔ n < b ^ k := by
  by_cases hn : n = 0
  · subst hn
    exact iff_of_true hk (Nat.pow_pos (Nat.zero_lt_of_lt hb))
  · rw [numeral_of_pos hn, List.length_reverse, Nat.digits_length_le_iff hb]

/-- One more digit. -/
theorem numeral_concat (hb : 1 < b) (h : b ≤ n) : numeral b n = numeral b (n / b) ++ [n % b] := by
  have hn : n ≠ 0 := by omega
  have hq : n / b ≠ 0 := (Nat.div_pos h (Nat.zero_lt_of_lt hb)).ne'
  rw [numeral_of_pos hn, numeral_of_pos hq, Nat.digits_eq_cons_digits_div hb hn, List.reverse_cons]

theorem numeral_of_lt (h : n < b) : numeral b n = [n] := by
  by_cases hn : n = 0
  · rw [hn, numeral_zero]
  · rw [numeral_of_pos hn, Nat.digits_of_lt b n hn h, List.reverse_singleton]

/-- Adding to the leading digit, when it stays one. -/
theorem numeral_add_leading (hb : 1 < b) (hn : b ^ k ≤ n) (i : Nat) (hi : n / b ^ k + i < b) :
    ∃ ds, numeral b n = n / b ^ k :: ds ∧ numeral b (n + i * b ^ k) = (n / b ^ k + i) :: ds := by
  induction k generalizing n with
  | zero =>
    rw [Nat.pow_zero, Nat.div_one] at hi
    refine ⟨[], ?_, ?_⟩
    · rw [numeral_of_lt (by omega), Nat.pow_zero, Nat.div_one]
    · rw [Nat.pow_zero, Nat.mul_one, Nat.div_one, numeral_of_lt hi]
  | succ k ih =>
    have hpos : 0 < b := Nat.zero_lt_of_lt hb
    have hbn : b ≤ n := (Nat.le_self_pow (Nat.succ_ne_zero k) b).trans hn
    have hdd : n / b / b ^ k = n / b ^ (k + 1) := by rw [Nat.div_div_eq_div_mul, ← Nat.pow_succ']
    have hsplit : n + i * b ^ (k + 1) = n + b * (i * b ^ k) := by ring
    obtain ⟨ds, h1, h2⟩ := ih (n := n / b)
      ((Nat.le_div_iff_mul_le hpos).mpr (by rwa [← Nat.pow_succ])) (by rwa [hdd])
    refine ⟨ds ++ [n % b], ?_, ?_⟩
    · rw [numeral_concat hb hbn, h1, hdd]
      rfl
    · rw [numeral_concat hb (by omega), hsplit, Nat.add_mul_div_left _ _ hpos,
        Nat.add_mul_mod_self_left, h2, hdd]
      rfl

/-! ## 2. Tables of digits -/

/-- The last `k` digits of `n`, the last one first. -/
def table (b : Nat) : Nat → Nat → List Nat
  | 0, _ => []
  | k + 1, n => n % b :: table b k (n / b)

@[simp] theorem length_table (b k n : Nat) : (table b k n).length = k := by
  induction k generalizing n with
  | zero => rfl
  | succ k ih => simp [table, ih]

theorem table_lt (hb : 0 < b) : ∀ d ∈ table b k n, d < b := by
  induction k generalizing n with
  | zero => simp [table]
  | succ k ih =>
    intro d hd
    rcases List.mem_cons.mp hd with rfl | hd
    · exact Nat.mod_lt _ hb
    · exact ih d hd

theorem table_zero (b k : Nat) : table b k 0 = List.replicate k 0 := by
  induction k with
  | zero => rfl
  | succ k ih => simp [table, ih, List.replicate_succ]

/-- A table of `k + j` digits is one of `k` digits and one of the `j` digits above them. -/
theorem table_add (b k j n : Nat) : table b (k + j) n = table b k n ++ table b j (n / b ^ k) := by
  induction k generalizing n with
  | zero => simp [table]
  | succ k ih => simp [table, Nat.succ_add, ih, Nat.div_div_eq_div_mul, Nat.pow_succ']

/-- The digits above the table do not matter. -/
theorem table_add_mul (hb : 0 < b) (k n m : Nat) : table b k (n + b ^ k * m) = table b k n := by
  induction k generalizing n m with
  | zero => rfl
  | succ k ih =>
    have hpow : b ^ (k + 1) * m = b * (b ^ k * m) := by ring
    rw [table, table, hpow, Nat.add_mul_mod_self_left, Nat.add_mul_div_left _ _ hb, ih]

/-- The table without the zeros at its end, turned around; of a table of zeros one is kept. -/
def trim [DecidableEq α] (z : α) (temp : List α) : List α :=
  match temp.reverse.dropWhile (· = z) with
  | [] => temp.take 1
  | ds => ds

section Trim

variable [DecidableEq α] [DecidableEq β] {z : α}

theorem trim_replicate (hk : 0 < k) : trim z (List.replicate k z) = [z] := by
  have hdrop : (List.replicate k z).reverse.dropWhile (· = z) = [] := by simp
  obtain ⟨k, rfl⟩ := Nat.exists_eq_succ_of_ne_zero hk.ne'
  rw [trim, hdrop]
  rfl

/-- A digit goes in front of the table, that is to the end of what is left of it. -/
theorem trim_cons (x : α) {temp : List α} (h : ∃ y ∈ temp, y ≠ z) :
    trim z (x :: temp) = trim z temp ++ [x] := by
  have hne : temp.reverse.dropWhile (· = z) ≠ [] := by
    obtain ⟨y, hy, hyz⟩ := h
    intro hnil
    have hall := List.dropWhile_eq_nil_iff.mp hnil y (List.mem_reverse.mpr hy)
    exact hyz (by simpa using hall)
  obtain ⟨y, ds, hds⟩ := List.exists_cons_of_ne_nil hne
  have happ : (x :: temp).reverse.dropWhile (· = z) = y :: (ds ++ [x]) := by
    rw [List.reverse_cons, List.dropWhile_append, hds]
    rfl
  rw [trim, trim, happ, hds]
  rfl

/-- Dropping the zeros and translating the digits. -/
theorem trim_map (f : α → β) {temp : List α} (h : ∀ x ∈ temp, f x = f z ↔ x = z) :
    trim (f z) (temp.map f) = (trim z temp).map f := by
  have hdrop : (temp.map f).reverse.dropWhile (· = f z) =
      (temp.reverse.dropWhile (· = z)).map f := by
    rw [← List.map_reverse, List.dropWhile_map]
    congr 1
    have hcongr : ∀ l : List α, (∀ x ∈ l, f x = f z ↔ x = z) →
        l.dropWhile ((fun y => decide (y = f z)) ∘ f) = l.dropWhile (· = z) := by
      intro l hl
      induction l with
      | nil => rfl
      | cons x l ih =>
        have hx := hl x List.mem_cons_self
        simp only [List.dropWhile_cons, Function.comp_apply, hx,
          ih fun y hy => hl y (List.mem_cons_of_mem _ hy)]
    exact hcongr _ fun x hx => h x (List.mem_reverse.mp hx)
  rw [trim, trim, hdrop]
  cases temp.reverse.dropWhile (· = z) with
  | nil => rw [List.map_nil, List.map_take]
  | cons y ds => rfl

end Trim

/-- **What is left of the table is the numeral.** -/
theorem trim_table (hb : 1 < b) (hk : 0 < k) (hn : n < b ^ k) :
    trim 0 (table b k n) = numeral b n := by
  induction k generalizing n with
  | zero => exact absurd hk (lt_irrefl 0)
  | succ k ih =>
    by_cases hlt : n < b
    · rw [numeral_of_lt hlt, table, Nat.mod_eq_of_lt hlt, Nat.div_eq_of_lt hlt, table_zero]
      by_cases h0 : n = 0
      · subst h0
        exact trim_replicate (Nat.succ_pos k)
      · simp [trim, h0]
    · have hle : b ≤ n := Nat.le_of_not_lt hlt
      have hq : n / b < b ^ k := Nat.div_lt_of_lt_mul (by rwa [← Nat.pow_succ'])
      have hpos : n / b ≠ 0 := (Nat.div_pos hle (Nat.zero_lt_of_lt hb)).ne'
      have hk' : 0 < k := by
        by_contra h
        obtain rfl : k = 0 := by omega
        rw [Nat.pow_zero, Nat.lt_one_iff] at hq
        exact hpos hq
      rw [numeral_concat hb hle, ← ih hk' hq, table, trim_cons]
      -- Were all of its digits zero, the trimmed table would be a zero.
      by_contra hzero
      push Not at hzero
      have hrep : table b k (n / b) = List.replicate k 0 :=
        List.eq_replicate_iff.mpr ⟨length_table b k _, hzero⟩
      have hnum := ih hk' hq
      rw [hrep, trim_replicate hk'] at hnum
      exact numeral_head (b := b) hpos (by rw [← hnum]; rfl) rfl

/-! ## 3. Reading a numeral -/

/-- The value of digits, the leading one first, read on from `n`. -/
def valueFrom (b n : Nat) (ds : List Nat) : Nat := ds.foldl (fun n d => n * b + d) n

/-- The value of digits. -/
def value (b : Nat) (ds : List Nat) : Nat := valueFrom b 0 ds

@[simp] theorem valueFrom_nil (b n : Nat) : valueFrom b n [] = n := rfl

@[simp] theorem valueFrom_cons (b n d : Nat) (ds : List Nat) :
    valueFrom b n (d :: ds) = valueFrom b (n * b + d) ds := rfl

theorem le_valueFrom (hb : 0 < b) (n : Nat) (ds : List Nat) : n ≤ valueFrom b n ds := by
  induction ds generalizing n with
  | nil => exact le_rfl
  | cons d ds ih =>
    have hle := Nat.le_mul_of_pos_right n hb
    exact (hle.trans (Nat.le_add_right _ d)).trans (ih _)

theorem value_concat (b : Nat) (ds : List Nat) (d : Nat) :
    value b (ds ++ [d]) = value b ds * b + d := by
  rw [value, valueFrom, List.foldl_append]
  rfl

/-- **Reading gives the number back.** -/
theorem value_numeral (hb : 1 < b) (n : Nat) : value b (numeral b n) = n := by
  induction n using Nat.strong_induction_on with
  | _ n ih =>
    by_cases hlt : n < b
    · rw [numeral_of_lt hlt, value, valueFrom_cons, Nat.zero_mul, Nat.zero_add, valueFrom_nil]
    · have hle : b ≤ n := Nat.le_of_not_lt hlt
      rw [numeral_concat hb hle, value_concat, ih _ (Nat.div_lt_self (by omega) hb)]
      exact Nat.div_add_mod' n b

/-- Digits have no more value than they have places for. -/
theorem value_lt {ds : List Nat} (hds : ∀ d ∈ ds, d < b) : value b ds < b ^ ds.length := by
  induction ds using List.reverseRecOn with
  | nil => exact Nat.one_pos
  | append_singleton ds d ih =>
    have hd := hds d (by simp)
    have hlt := ih fun e he => hds e (List.mem_append_left _ he)
    have hmul : (value b ds + 1) * b ≤ b ^ ds.length * b := Nat.mul_le_mul_right b hlt
    rw [value_concat, List.length_append, List.length_singleton, Nat.pow_succ]
    rw [Nat.add_mul] at hmul
    omega

end Numerals
