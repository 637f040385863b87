/-
# Arrays kept in blocks

An array stands in a list of blocks of `n` places each: element `pos` is in place `pos % n` of block
`pos / n`.  The last blocks may be filled in part or not at all.

`Holds` says that a store of blocks holds an array.  It depends on the blocks of the list only, a
block can be added at the end, and an element is written by writing its place.
-/
import Mathlib.Tactic

namespace BlockedArray

variable {ι α : Type*}

/-! ## 1. Writing an element -/

/-- The array with `x` at `pos`, which is at most its length. -/
def write (file : List α) (pos : Nat) (x : α) : List α := file.take pos ++ x :: file.drop (pos + 1)

variable {file : List α} {pos : Nat} {x : α}

theorem length_write (h : pos ≤ file.length) :
    (write file pos x).length = max file.length (pos + 1) := by
  simp only [write, List.length_append, List.length_take, List.length_cons, List.length_drop]
  omega

theorem getElem?_write (h : pos ≤ file.length) (q : Nat) :
    (write file pos x)[q]? = if q = pos then some x else file[q]? := by
  rcases Nat.lt_trichotomy q pos with hq | rfl | hq
  · rw [write, List.getElem?_append_left (by rw [List.length_take]; omega), if_neg hq.ne,
      List.getElem?_take_of_lt hq]
  · rw [write, List.getElem?_append_right (by rw [List.length_take]; omega), List.length_take,
      Nat.min_eq_left h, Nat.sub_self, List.getElem?_cons_zero, if_pos rfl]
  · rw [write, List.getElem?_append_right (by rw [List.length_take]; omega), List.length_take,
      Nat.min_eq_left h, if_neg hq.ne', show q - pos = q - pos - 1 + 1 by omega,
      List.getElem?_cons_succ, List.getElem?_drop, show pos + 1 + (q - pos - 1) = q by omega]

/-- The array with `xs` from `pos` on. -/
def overwrite (file : List α) (pos : Nat) (xs : List α) : List α :=
  file.take pos ++ (xs ++ file.drop (pos + xs.length))

theorem overwrite_nil (file : List α) (pos : Nat) : overwrite file pos [] = file :=
  List.take_append_drop pos file

/-- **Writing one element after the other.** -/
theorem overwrite_cons (h : pos ≤ file.length) (xs : List α) :
    overwrite (write file pos x) (pos + 1) xs = overwrite file pos (x :: xs) := by
  have htake : (write file pos x).take (pos + 1) = file.take pos ++ [x] := by
    have hlen : (file.take pos).length = pos := List.length_take_of_le h
    rw [write, List.take_append, hlen, List.take_of_length_le (by omega),
      show pos + 1 - pos = 1 by omega]
    rfl
  have hdrop : (write file pos x).drop (pos + 1 + xs.length) =
    file.drop (pos + (xs.length + 1)) := by
    have hlen : (file.take pos ++ [x]).length = pos + 1 := by
      rw [List.length_append, List.length_take_of_le h, List.length_singleton]
    rw [write, List.append_cons, List.drop_append, hlen, List.drop_eq_nil_of_le (by omega),
      List.nil_append, List.drop_drop, show pos + 1 + (pos + 1 + xs.length - (pos + 1)) =
        pos + (xs.length + 1) by omega]
  rw [overwrite, overwrite, htake, hdrop, List.append_assoc]
  rfl

/-! ## 2. Arrays in a store -/

/-- The store holds `file` in `blocks`. -/
structure Holds (n : Nat) (store : ι → Nat → α) (blocks : List ι) (file : List α) : Prop where
  room : file.length ≤ n * blocks.length
  get : ∀ pos b, pos < file.length → blocks[pos / n]? = some b →
    file[pos]? = some (store b (pos % n))

variable {n : Nat} {store store' : ι → Nat → α} {blocks : List ι} {b : ι}

theorem Holds.nil : Holds n store [] ([] : List α) :=
  ⟨Nat.zero_le _, fun _ _ h => absurd h (Nat.not_lt_zero _)⟩

/-- **Frame rule.**  Other blocks do not matter. -/
theorem Holds.congr (h : Holds n store blocks file) (hs : ∀ c ∈ blocks, store' c = store c) :
    Holds n store' blocks file where
  room := h.room
  get pos c hpos hc := by
    rw [hs c (List.mem_of_getElem? hc)]
    exact h.get pos c hpos hc

/-- Every element has its block. -/
theorem Holds.block (h : Holds n store blocks file) (hpos : pos < file.length) :
    ∃ b, blocks[pos / n]? = some b := by
  have hroom := h.room
  refine ⟨_, List.getElem?_eq_getElem (Nat.div_lt_of_lt_mul ?_)⟩
  omega

/-- **A block is added** behind the others. -/
theorem Holds.addBlock (h : Holds n store blocks file) (b : ι) :
    Holds n store (blocks ++ [b]) file where
  room := by
    rw [List.length_append, Nat.mul_add]
    exact h.room.trans (Nat.le_add_right _ _)
  get pos c hpos hc := by
    obtain ⟨d, hd⟩ := h.block hpos
    rw [List.getElem?_append_left (List.getElem?_eq_some_iff.mp hd).1] at hc
    exact h.get pos c hpos hc

/-- **An element is written** in its block.  Of the rest of the block only what the array holds
there has to be kept. -/
theorem Holds.write (h : Holds n store blocks file) (hn : 0 < n) (hpos : pos ≤ file.length)
    (hb : blocks[pos / n]? = some b) (hnd : blocks.Nodup)
    (hself : store' b (pos % n) = x)
    (hrest : ∀ q < file.length, q / n = pos / n → q ≠ pos → file[q]? = some (store' b (q % n)))
    (hother : ∀ c ∈ blocks, c ≠ b → store' c = store c) :
    Holds n store' blocks (BlockedArray.write file pos x) where
  room := by
    have hroom := h.room
    have hlt : pos / n < blocks.length := (List.getElem?_eq_some_iff.mp hb).1
    rw [length_write hpos, Nat.max_le]
    refine ⟨hroom, ?_⟩
    calc pos + 1 ≤ n * (pos / n + 1) := by
          rw [Nat.mul_add, Nat.mul_one]
          have h1 := Nat.div_add_mod pos n
          have h2 := Nat.mod_lt pos hn
          omega
      _ ≤ n * blocks.length := Nat.mul_le_mul_left _ hlt
  get q c hq hc := by
    rw [getElem?_write hpos]
    split_ifs with hqp
    · subst hqp
      obtain rfl : b = c := Option.some.inj (hb.symm.trans hc)
      rw [hself]
    · rw [length_write hpos] at hq
      have hq : q < file.length := by omega
      by_cases hdiv : q / n = pos / n
      · rw [hdiv] at hc
        obtain rfl : b = c := Option.some.inj (hb.symm.trans hc)
        exact hrest q hq hdiv hqp
      · have hne : c ≠ b := by
          rintro rfl
          obtain ⟨h1, h2⟩ := List.getElem?_eq_some_iff.mp hc
          obtain ⟨h3, h4⟩ := List.getElem?_eq_some_iff.mp hb
          exact hdiv ((hnd.getElem_inj_iff).mp (h2.trans h4.symm))
        rw [hother c (List.mem_of_getElem? hc) hne]
        exact h.get q c hq hc

end BlockedArray
