/-
# Layouts of values in byte memory

A layout says how a value of a type stands in a fixed number of bytes.  What can be stored without
loss is `ok`; a value that was put can be got back, and getting looks at no other bytes.  Layouts of
words, pairs, arrays and records are built from each other, so a record's layout comes with its
round trip.

`readAt` and `writeAt` use a layout at an offset of a larger memory, such as a disk block.
-/
import Mathlib.Tactic

namespace Layouts

/-- Bytes from an address on. -/
abbrev Bytes := Nat → UInt8

/-- A layout in `size` bytes. -/
structure Layout (α : Type*) where
  size : Nat
  ok : α → Prop
  get : Bytes → α
  put : α → Bytes
  get_put : ∀ x, ok x → get (put x) = x
  get_congr : ∀ m m', (∀ i < size, m i = m' i) → get m = get m'

variable {α β : Type*}

namespace Layout

/-! ## 1. Words -/

/-- One byte. -/
def byte : Layout UInt8 where
  size := 1
  ok _ := True
  get m := m 0
  put x _ := x
  get_put _ _ := rfl
  get_congr _ _ h := h 0 one_pos

/-- The value of the 32-bit word, least significant byte first. -/
def value (m : Bytes) : Nat :=
  (m 0).toNat + 256 * (m 1).toNat + 65536 * (m 2).toNat + 16777216 * (m 3).toNat

theorem value_lt (m : Bytes) : value m < 4294967296 := by
  have h0 := (m 0).toNat_lt
  have h1 := (m 1).toNat_lt
  have h2 := (m 2).toNat_lt
  have h3 := (m 3).toNat_lt
  unfold value
  omega

theorem value_put {x : Nat} (h : x < 4294967296) :
    value (fun i => UInt8.ofNat (x / 256 ^ i)) = x := by
  simp only [value, UInt8.toNat_ofNat', pow_zero, pow_one, Nat.div_one]
  omega

/-- An unsigned 32-bit word. -/
def word : Layout Nat where
  size := 4
  ok x := x < 4294967296
  get := value
  put x i := UInt8.ofNat (x / 256 ^ i)
  get_put _ h := value_put h
  get_congr m m' h := by
    unfold value
    rw [h 0 (by decide), h 1 (by decide), h 2 (by decide), h 3 (by decide)]

/-- A signed 32-bit word. -/
def signed : Layout Int where
  size := 4
  ok x := -2147483648 ≤ x ∧ x < 2147483648
  get m := if value m < 2147483648 then value m else (value m : Int) - 4294967296
  put x i := UInt8.ofNat ((x % 4294967296).toNat / 256 ^ i)
  get_put x h := by
    rw [value_put (by omega)]
    split_ifs <;> omega
  get_congr m m' h := by
    have hv : value m = value m' := word.get_congr m m' h
    rw [hv]

/-! ## 2. Pairs, arrays, records -/

/-- The bytes from offset `n` on. -/
def from' (m : Bytes) (n : Nat) : Bytes := fun i => m (n + i)

/-- One value behind the other. -/
def pair (L : Layout α) (M : Layout β) : Layout (α × β) where
  size := L.size + M.size
  ok x := L.ok x.1 ∧ M.ok x.2
  get m := (L.get m, M.get (from' m L.size))
  put x i := if i < L.size then L.put x.1 i else M.put x.2 (i - L.size)
  get_put x h := by
    refine Prod.ext ?_ ?_
    · refine (L.get_congr _ _ fun i hi => if_pos hi).trans (L.get_put _ h.1)
    · refine (M.get_congr _ _ fun i _ => ?_).trans (M.get_put _ h.2)
      rw [from', if_neg (by omega), Nat.add_sub_cancel_left]
  get_congr m m' h := by
    refine Prod.ext (L.get_congr _ _ fun i hi => h i (by omega)) ?_
    exact M.get_congr _ _ fun i hi => h _ (by omega)

/-- `n` values one behind the other. -/
def array (n : Nat) (L : Layout α) : Layout (Fin n → α) where
  size := n * L.size
  ok f := ∀ k, L.ok (f k)
  get m k := L.get (from' m (k * L.size))
  put f i := if h : i / L.size < n then L.put (f ⟨i / L.size, h⟩) (i % L.size) else 0
  get_put f h := by
    funext k
    refine (L.get_congr _ _ fun i hi => ?_).trans (L.get_put _ (h k))
    have hdiv : (k * L.size + i) / L.size = k := by
      rw [Nat.add_comm, Nat.add_mul_div_right _ _ (by omega), Nat.div_eq_of_lt hi, Nat.zero_add]
    have hmod : (k * L.size + i) % L.size = i := by
      rw [Nat.add_comm, Nat.add_mul_mod_self_right, Nat.mod_eq_of_lt hi]
    rw [from', dif_pos (by rw [hdiv]; exact k.isLt), hmod]
    congr 2
    exact Fin.ext hdiv
  get_congr m m' h := by
    funext k
    refine L.get_congr _ _ fun i hi => h _ ?_
    calc k * L.size + i < k * L.size + L.size := by omega
      _ = (k + 1) * L.size := by ring
      _ ≤ n * L.size := Nat.mul_le_mul_right _ k.isLt

/-- A record, as the tuple of its fields. -/
def record (L : Layout α) (make : α → β) (fields : β → α) (h : ∀ y, make (fields y) = y) :
    Layout β where
  size := L.size
  ok y := L.ok (fields y)
  get m := make (L.get m)
  put y := L.put (fields y)
  get_put y hy := by rw [L.get_put _ hy, h]
  get_congr m m' hm := by rw [L.get_congr m m' hm]

/-! ## 3. At an offset -/

variable (L : Layout α) (M : Layout β)

def readAt (m : Bytes) (a : Nat) : α := L.get (from' m a)

def writeAt (m : Bytes) (a : Nat) (x : α) : Bytes :=
  fun i => if a ≤ i ∧ i < a + L.size then L.put x (i - a) else m i

variable {L M} {m m' : Bytes} {a b : Nat} {x : α} {y : β}

/-- **A value that was written is read.** -/
theorem readAt_writeAt (h : L.ok x) : L.readAt (L.writeAt m a x) a = x := by
  refine (L.get_congr _ _ fun i hi => ?_).trans (L.get_put x h)
  rw [from', writeAt, if_pos (by omega), Nat.add_sub_cancel_left]

/-- **Writing elsewhere changes nothing.** -/
theorem readAt_writeAt_apart (h : b + M.size ≤ a ∨ a + L.size ≤ b) :
    L.readAt (M.writeAt m b y) a = L.readAt m a := by
  refine L.get_congr _ _ fun i hi => ?_
  rw [from', from', writeAt, if_neg (by omega)]

end Layout

end Layouts
