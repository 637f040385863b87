/-
# Ring buffers

A buffer of `n` places is used in a circle: `head` is the place of the oldest element and `tail` the
one the next element goes to.  `Ring n buf head tail xs` says that it holds the elements `xs`,
oldest first.  The rules say what it holds after an element is put in at the tail, taken out at the
head, or the youngest ones are given up.
-/
import Mathlib.Tactic

namespace Rings

variable {α : Type*}

/-- The place after `i`, by the test that drivers use. -/
def next (n i : Int) : Int := if i + 1 ≥ n then 0 else i + 1

/-- The buffer holds `xs` between `head` and `tail`. -/
structure Ring (n : Int) (buf : Int → α) (head tail : Int) (xs : List α) : Prop where
  head_nonneg : 0 ≤ head
  head_lt : head < n
  tail : tail = (head + xs.length) % n
  fits : (xs.length : Int) ≤ n
  holds : ∀ (i : Nat) x, xs[i]? = some x → buf ((head + i) % n) = x

variable {n head tail : Int} {buf : Int → α} {xs : List α} {a : α}

/-- An empty buffer. -/
theorem Ring.empty (hn : 0 < n) : Ring n buf 0 0 [] :=
  ⟨le_rfl, hn, by simp, by simpa using hn.le, by simp⟩

theorem Ring.pos (h : Ring n buf head tail xs) : 0 < n := lt_of_le_of_lt h.head_nonneg h.head_lt

theorem Ring.tail_nonneg (h : Ring n buf head tail xs) : 0 ≤ tail := by
  rw [h.tail]
  exact Int.emod_nonneg _ h.pos.ne'

theorem Ring.tail_lt (h : Ring n buf head tail xs) : tail < n := by
  rw [h.tail]
  exact Int.emod_lt_of_pos _ h.pos

theorem next_eq {i : Int} (h0 : 0 ≤ i) (h : i < n) : next n i = (i + 1) % n := by
  unfold next
  split_ifs with h1
  · have he : i + 1 = n := by omega
    rw [he, Int.emod_self]
  · rw [Int.emod_eq_of_lt (by omega) (by omega)]

/-- Different offsets are different places. -/
theorem place_inj {i j : Nat} (hi : (i : Int) < n) (hj : (j : Int) < n)
    (h : (head + i) % n = (head + j) % n) : i = j := by
  have hd := Int.emod_emod_of_dvd (head + i - (head + j)) (dvd_refl n)
  have h0 : (head + i - (head + j)) % n = 0 := by
    rw [Int.sub_emod, h, sub_self, Int.zero_emod]
  have hdvd := Int.dvd_of_emod_eq_zero h0
  have hlt : |head + (i : Int) - (head + j)| < n := by
    rw [abs_lt]
    constructor <;> omega
  have := Int.eq_zero_of_abs_lt_dvd hdvd hlt
  omega

/-- **An element goes in at the tail.** -/
theorem Ring.push (h : Ring n buf head tail xs) (hlt : (xs.length : Int) < n) :
    Ring n (Function.update buf tail a) head (next n tail) (xs ++ [a]) := by
  refine ⟨h.head_nonneg, h.head_lt, ?_, ?_, fun i x hx => ?_⟩
  · rw [next_eq h.tail_nonneg h.tail_lt, h.tail, Int.emod_add_emod, List.length_append,
      List.length_singleton, Nat.cast_add, Nat.cast_one, add_assoc]
  · rw [List.length_append, List.length_singleton]
    omega
  · rcases Nat.lt_or_ge i xs.length with hi | hi
    · rw [List.getElem?_append_left hi] at hx
      rw [Function.update_of_ne, h.holds i x hx]
      rw [h.tail]
      intro e
      have := place_inj (by omega) hlt e
      omega
    · rw [List.getElem?_append_right hi] at hx
      obtain ⟨hi', -⟩ := List.getElem?_eq_some_iff.mp hx
      obtain rfl : i = xs.length := by
        simp only [List.length_singleton] at hi'
        omega
      rw [Nat.sub_self, List.getElem?_cons_zero] at hx
      rw [← h.tail, Function.update_self]
      exact Option.some.inj hx

/-- **The oldest element comes out at the head.** -/
theorem Ring.pop (h : Ring n buf head tail (a :: xs)) :
    buf head = a ∧ Ring n buf (next n head) tail xs := by
  have hnext := next_eq h.head_nonneg h.head_lt
  have hfits := h.fits
  rw [List.length_cons] at hfits
  refine ⟨?_, ?_, ?_, ?_, by omega, fun i x hx => ?_⟩
  · have := h.holds 0 a rfl
    rwa [Nat.cast_zero, add_zero, Int.emod_eq_of_lt h.head_nonneg h.head_lt] at this
  · rw [hnext]
    exact Int.emod_nonneg _ h.pos.ne'
  · rw [hnext]
    exact Int.emod_lt_of_pos _ h.pos
  · rw [hnext, Int.emod_add_emod, h.tail, List.length_cons]
    congr 1
    push_cast
    ring
  · rw [hnext, Int.emod_add_emod]
    have := h.holds (i + 1) x (by rwa [List.getElem?_cons_succ])
    rw [← this]
    congr 2
    push_cast
    ring

/-- The place `k` before the tail, by the test that drivers use. -/
theorem back_eq {i k : Int} (hi : 0 ≤ i) (hin : i < n) (hk : 0 ≤ k) (hkn : k ≤ n) :
    (i - k) % n = if i - k < 0 then i - k + n else i - k := by
  split_ifs with h
  · rw [← Int.add_emod_right, Int.emod_eq_of_lt (by omega) (by omega)]
  · rw [Int.emod_eq_of_lt (by omega) (by omega)]

/-- **The youngest elements are given up.** -/
theorem Ring.giveUp (h : Ring n buf head tail xs) {k : Nat} (hk : k ≤ xs.length) :
    Ring n buf head ((tail - k) % n) (xs.take (xs.length - k)) := by
  have hlen : (xs.take (xs.length - k)).length = xs.length - k := by
    rw [List.length_take]
    omega
  have hfits := h.fits
  refine ⟨h.head_nonneg, h.head_lt, ?_, by omega, fun i x hx => ?_⟩
  · rw [h.tail, hlen, Int.emod_sub_emod, Nat.cast_sub hk]
    congr 1
    ring
  · obtain ⟨hi, -⟩ := List.getElem?_eq_some_iff.mp hx
    rw [hlen] at hi
    rw [List.getElem?_take_of_lt hi] at hx
    exact h.holds i x hx

/-! ## Windows -/

/-- The `k` places from `head` on. -/
def window (n head : Int) (k : Nat) : Finset Int :=
    (Finset.range k).image fun i : Nat => (head + i) % n

theorem mem_window {i : Int} {k : Nat} : i ∈ window n head k ↔ ∃ j < k, (head + j) % n = i := by
  simp [window]

@[simp] theorem window_zero : window n head 0 = ∅ := rfl

theorem window_mono {k j : Nat} (h : k ≤ j) : window n head k ⊆ window n head j := by
  intro i hi
  obtain ⟨m, hm, he⟩ := mem_window.mp hi
  exact mem_window.mpr ⟨m, by omega, he⟩

theorem head_mem_window (h0 : 0 ≤ head) (h : head < n) {k : Nat} (hk : 0 < k) :
    head ∈ window n head k :=
  mem_window.mpr ⟨0, hk, by rw [Nat.cast_zero, add_zero, Int.emod_eq_of_lt h0 h]⟩

/-- A window that is not longer than the ring has as many places as it is long. -/
theorem card_window {k : Nat} (hk : (k : Int) ≤ n) : (window n head k).card = k := by
  rw [window, Finset.card_image_of_injOn, Finset.card_range]
  intro i hi j hj hij
  have hi' := Finset.mem_range.mp hi
  have hj' := Finset.mem_range.mp hj
  exact place_inj (by omega) (by omega) hij

/-- One more place at the end. -/
theorem window_succ (k : Nat) :
    window n head (k + 1) = insert ((head + k) % n) (window n head k) := by
  rw [window, Finset.range_add_one, Finset.image_insert]
  rfl

theorem notMem_window_end {k : Nat} (hk : (k : Int) < n) : (head + k) % n ∉ window n head k := by
  intro h
  obtain ⟨j, hj, he⟩ := mem_window.mp h
  have := place_inj (by omega) hk he
  omega

theorem place_next (h0 : 0 ≤ head) (h : head < n) (i : Nat) :
    (next n head + i) % n = (head + (i + 1 : Nat)) % n := by
  rw [next_eq h0 h, Int.emod_add_emod]
  congr 1
  push_cast
  ring

/-- The first place and the others. -/
theorem window_pop (h0 : 0 ≤ head) (h : head < n) (k : Nat) :
    window n head (k + 1) = insert head (window n (next n head) k) := by
  ext i
  rw [Finset.mem_insert, mem_window, mem_window]
  constructor
  · rintro ⟨j, hj, rfl⟩
    cases j with
    | zero => exact .inl (by rw [Nat.cast_zero, add_zero, Int.emod_eq_of_lt h0 h])
    | succ j => exact .inr ⟨j, by omega, place_next h0 h j⟩
  · rintro (rfl | ⟨j, hj, rfl⟩)
    · exact ⟨0, Nat.succ_pos k, by rw [Nat.cast_zero, add_zero, Int.emod_eq_of_lt h0 h]⟩
    · exact ⟨j + 1, by omega, (place_next h0 h j).symm⟩

theorem notMem_window_front (h0 : 0 ≤ head) (h : head < n) {k : Nat} (hk : (k : Int) < n) :
    head ∉ window n (next n head) k := by
  intro hmem
  obtain ⟨j, hj, he⟩ := mem_window.mp hmem
  have hself : (head + (0 : Nat)) % n = head := by
    rw [Nat.cast_zero, add_zero, Int.emod_eq_of_lt h0 h]
  rw [place_next h0 h] at he
  have := place_inj (by omega) (by omega) (he.trans hself.symm)
  omega

/-- Two windows, one behind the other. -/
theorem window_add (k j : Nat) :
    window n head (k + j) = window n head k ∪ window n ((head + k) % n) j := by
  induction j with
  | zero => simp
  | succ j ih =>
    rw [← Nat.add_assoc, window_succ, ih, window_succ, Finset.union_insert, Int.emod_add_emod]
    congr 2
    push_cast
    ring

theorem window_disjoint {k j : Nat} (hkj : ((k + j : Nat) : Int) ≤ n) :
    Disjoint (window n head k) (window n ((head + k) % n) j) := by
  rw [Finset.disjoint_left]
  intro i hi hi'
  obtain ⟨a, ha, rfl⟩ := mem_window.mp hi
  obtain ⟨b, hb, he⟩ := mem_window.mp hi'
  have hplace : (head + (k + b : Nat)) % n = (head + a) % n := by
    rw [← he, Int.emod_add_emod]
    congr 1
    push_cast
    ring
  have := place_inj (by omega) (by omega) hplace
  omega

/-- A window as long as the ring has all places. -/
theorem mem_window_full {i : Int} (hi : 0 ≤ i) (hin : i < n) : i ∈ window n head n.toNat := by
  have hpos : 0 < n := by omega
  have h0 := Int.emod_nonneg (i - head) hpos.ne'
  refine mem_window.mpr ⟨((i - head) % n).toNat, ?_, ?_⟩
  · have := Int.emod_lt_of_pos (i - head) hpos
    omega
  · rw [Int.toNat_of_nonneg h0, Int.add_emod_emod, add_sub_cancel, Int.emod_eq_of_lt hi hin]

theorem window_bounds {i : Int} {k : Nat} (hn : 0 < n) (hi : i ∈ window n head k) :
    0 ≤ i ∧ i < n := by
  obtain ⟨j, -, rfl⟩ := mem_window.mp hi
  exact ⟨Int.emod_nonneg _ hn.ne', Int.emod_lt_of_pos _ hn⟩

/-! ## Accounts -/

/-- The buffer holds `xs`, which is what was put in and has not been taken out since.  So nothing is
lost, duplicated or taken out of order. -/
structure Account (n : Int) (buf : Int → α) (head tail : Int) (put got xs : List α) : Prop where
  ring : Ring n buf head tail xs
  order : put = got ++ xs

variable {put got : List α}

theorem Account.start (hn : 0 < n) (h : put = got) : Account n buf 0 0 put got [] :=
  ⟨Ring.empty hn, by rw [h, List.append_nil]⟩

theorem Account.enter (h : Account n buf head tail put got xs) (hlt : (xs.length : Int) < n) :
    Account n (Function.update buf tail a) head (next n tail) (put ++ [a]) got (xs ++ [a]) :=
  ⟨h.ring.push hlt, by rw [h.order, List.append_assoc]⟩

/-- The element at the head is the oldest one that is in the buffer. -/
theorem Account.leave (h : Account n buf head tail put got (a :: xs)) :
    buf head = a ∧ Account n buf (next n head) tail put (got ++ [a]) xs := by
  obtain ⟨ha, hr⟩ := h.ring.pop
  exact ⟨ha, hr, by rw [h.order, List.append_assoc, List.singleton_append]⟩

end Rings
