/-
# Round-robin search in a table

A search for a free entry starts where the last one stopped, goes round the table at most once, and
stops behind the entry it finds.  `order m n` lists the entries of a table of size `m` in the order
in which a search from `n` comes to them, and `among p m n` those of them that `p` accepts: a search
takes the first (`search_eq`), and if it is not accepted any more the next search has the others in
the same order (`among_take`).
-/
import Mathlib.Data.List.Rotate
import Mathlib.Tactic

namespace RoundRobin

variable {p p' : Int → Bool} {m n x : Int}

/-! ## 1. The order -/

/-- The entries from `n` on, and then those before it. -/
def order (m n : Int) : List Int := ((List.range m.toNat).rotate n.toNat).map Nat.cast

/-- The entry after `n`. -/
def next (m n : Int) : Int := if n + 1 ≥ m then 0 else n + 1

theorem next_lt (h : 0 ≤ n) (h' : n < m) : 0 ≤ next m n ∧ next m n < m := by
  unfold next
  split_ifs <;> omega

theorem mem_order : x ∈ order m n ↔ 0 ≤ x ∧ x < m := by
  simp only [order, List.mem_map, List.mem_rotate, List.mem_range]
  constructor
  · rintro ⟨i, hi, rfl⟩
    omega
  · rintro ⟨h1, h2⟩
    exact ⟨x.toNat, by omega, by omega⟩

theorem length_order (m n : Int) : (order m n).length = m.toNat := by simp [order]

theorem nodup_order (m n : Int) : (order m n).Nodup :=
  ((List.nodup_rotate.mpr List.nodup_range).map Nat.cast_injective)

/-- One entry further on, the entry comes last. -/
theorem order_next (h : 0 ≤ n) (h' : n < m) :
    ∃ l, order m n = n :: l ∧ order m (next m n) = l ++ [n] := by
  obtain ⟨i, rfl⟩ := Int.eq_ofNat_of_zero_le h
  have hlen : i < ((List.range m.toNat).rotate i).length := by
    rw [List.length_rotate, List.length_range]
    omega
  have hhead : ((List.range m.toNat).rotate i)[0] = i := by
    rw [List.getElem_rotate, List.getElem_range, List.length_range, Nat.zero_add,
      Nat.mod_eq_of_lt (by omega)]
  have hnext : (List.range m.toNat).rotate (next m i).toNat =
      (List.range m.toNat).rotate (i + 1) := by
    unfold next
    split_ifs with hlast
    · have hm : i + 1 = (List.range m.toNat).length := by
        rw [List.length_range]
        omega
      rw [hm, List.rotate_length]
      exact List.rotate_zero _
    · congr 1
  obtain ⟨a, l, hl⟩ := List.exists_cons_of_length_pos (Nat.zero_lt_of_lt hlen)
  simp only [hl, List.getElem_cons_zero] at hhead
  refine ⟨l.map Nat.cast, ?_, ?_⟩
  · rw [order, Int.toNat_natCast, hl, List.map_cons, hhead]
  · rw [order, hnext, ← List.rotate_rotate, hl, List.rotate_cons_succ, List.rotate_zero,
      List.map_append, List.map_singleton, hhead]

/-! ## 2. The entries that are accepted -/

/-- The entries that `p` accepts, in that order. -/
def among (p : Int → Bool) (m n : Int) : List Int := (order m n).filter p

theorem mem_among : x ∈ among p m n ↔ (0 ≤ x ∧ x < m) ∧ p x = true := by
  rw [among, List.mem_filter, mem_order]

theorem nodup_among (p : Int → Bool) (m n : Int) : (among p m n).Nodup :=
  (nodup_order m n).filter _

/-- An entry that is not accepted makes no difference. -/
theorem among_skip (h : 0 ≤ n) (h' : n < m) (hn : ¬ p n = true) :
    among p m (next m n) = among p m n := by
  obtain ⟨l, h1, h2⟩ := order_next h h'
  rw [among, among, h1, h2, List.filter_append, List.filter_cons_of_neg hn,
    List.filter_cons_of_neg hn, List.filter_nil, List.append_nil]

/-- **An entry is taken.** -/
theorem among_take (h : 0 ≤ n) (h' : n < m) (hn : p n = true) (hn' : p' n = false)
    (hp : ∀ x, x ≠ n → p' x = p x) : among p m n = n :: among p' m (next m n) := by
  obtain ⟨l, h1, h2⟩ := order_next h h'
  have hnot : n ∉ l := (List.nodup_cons.mp (h1 ▸ nodup_order m n)).1
  have hsame : l.filter p' = l.filter p :=
    List.filter_congr fun x hx => hp x (ne_of_mem_of_not_mem hx hnot)
  rw [among, among, h1, h2, List.filter_append, List.filter_cons_of_pos hn,
    List.filter_cons_of_neg (by simp [hn']), List.filter_nil, List.append_nil, hsame]

/-! ## 3. The search -/

/-- Look at `fuel` entries from `n` on for one that `p` accepts.  Returns it, and where the next
search is to start. -/
def search (p : Int → Bool) (m : Int) : Nat → Int → Option Int × Int
  | 0, n => (none, n)
  | fuel + 1, n => if p n then (some n, next m n) else search p m fuel (next m n)

theorem search_found (h : 0 ≤ n) (h' : n < m) {fuel : Nat} (hs : (search p m fuel n).1 = some x) :
    (0 ≤ x ∧ x < m) ∧ p x = true ∧ (search p m fuel n).2 = next m x ∧
      ∀ p', p' x = false → (∀ y, y ≠ x → p' y = p y) →
        among p m n = x :: among p' m (next m x) := by
  induction fuel generalizing n with
  | zero => simp [search] at hs
  | succ fuel ih =>
    rw [search] at hs ⊢
    split_ifs at hs ⊢ with hn
    · obtain rfl := Option.some.inj hs
      exact ⟨⟨h, h'⟩, hn, rfl, fun p' h1 h2 => among_take h h' hn h1 h2⟩
    · obtain ⟨h1, h2⟩ := next_lt h h'
      rw [← among_skip h h' hn]
      exact ih h1 h2 hs

theorem search_lt (h : 0 ≤ n) (h' : n < m) (fuel : Nat) :
    0 ≤ (search p m fuel n).2 ∧ (search p m fuel n).2 < m := by
  induction fuel generalizing n with
  | zero => exact ⟨h, h'⟩
  | succ fuel ih =>
    obtain ⟨h1, h2⟩ := next_lt h h'
    rw [search]
    split_ifs
    · exact ⟨h1, h2⟩
    · exact ih h1 h2

theorem search_none (h : 0 ≤ n) (h' : n < m) {fuel : Nat} (hfuel : fuel ≤ m.toNat)
    (hs : (search p m fuel n).1 = none) : ((order m n).take fuel).filter p = [] := by
  induction fuel generalizing n with
  | zero => rfl
  | succ fuel ih =>
    rw [search] at hs
    split_ifs at hs with hn
    obtain ⟨h1, h2⟩ := next_lt h h'
    obtain ⟨l, h3, h4⟩ := order_next h h'
    have hrest := ih h1 h2 (by omega) hs
    have hlen : fuel ≤ l.length := by
      have := length_order m n
      rw [h3, List.length_cons] at this
      omega
    rw [h4, List.take_append_of_le_length hlen] at hrest
    rw [h3, List.take_succ_cons, List.filter_cons_of_neg hn, hrest]

/-- **A search that goes round once** takes the first entry that is accepted, if there is one. -/
theorem search_eq (h : 0 ≤ n) (h' : n < m) :
    (search p m m.toNat n).1 = (among p m n).head? := by
  cases hs : (search p m m.toNat n).1 with
  | none =>
    have hnone := search_none h h' le_rfl hs
    rw [← length_order m n, List.take_length] at hnone
    rw [among, hnone, List.head?_nil]
  | some x =>
    obtain ⟨-, -, -, hx⟩ := search_found h h' hs
    rw [hx (Function.update p x false) (Function.update_self ..)
      fun y hy => Function.update_of_ne hy .., List.head?_cons]

end RoundRobin
