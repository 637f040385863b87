/-
# A log of writes to one cell

`w i` is what the entry `i` writes to the cell, if it writes to it at all.  `replay w base xs` is
the cell's content when the entries `xs` have been carried out in order on a cell that holds `base`:
what the last of them that writes has written.
-/
import Mathlib.Tactic

namespace WriteLog

variable {ι α : Type*}

def replay (w : ι → Option α) (base : α) (xs : List ι) : α :=
  xs.foldl (fun b i => (w i).getD b) base

variable {w w' : ι → Option α} {base a : α} {xs ys : List ι} {i : ι}

@[simp] theorem replay_nil : replay w base [] = base := rfl

@[simp] theorem replay_cons : replay w base (i :: xs) = replay w ((w i).getD base) xs := rfl

@[simp] theorem replay_append : replay w base (xs ++ ys) = replay w (replay w base xs) ys :=
  List.foldl_append

/-- **Frame rule.**  Only what the entries of the log write matters. -/
theorem replay_congr (h : ∀ j ∈ xs, w j = w' j) : replay w base xs = replay w' base xs := by
  induction xs generalizing base with
  | nil => rfl
  | cons x xs ih =>
    rw [replay_cons, replay_cons, h x (by simp)]
    exact ih fun j hj => h j (List.mem_cons_of_mem _ hj)

/-- A log that does not write to the cell. -/
theorem replay_none (h : ∀ j ∈ xs, w j = none) : replay w base xs = base := by
  induction xs with
  | nil => rfl
  | cons x xs ih =>
    rw [replay_cons, h x (by simp)]
    exact ih fun j hj => h j (List.mem_cons_of_mem _ hj)

/-- **The last write stays.** -/
theorem replay_last (hi : w i = some a) (h : ∀ j ∈ ys, w j = none) :
    replay w base (xs ++ i :: ys) = a := by
  rw [replay_append, replay_cons, hi]
  exact replay_none h

end WriteLog
