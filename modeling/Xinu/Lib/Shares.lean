/-
# Sharing out a stock

A stock of items is shared out among owners, and the rest is free: every item of the stock is with
exactly one owner or free.  `Shared` says so as an equation between multisets, so that an owner who
exchanges items with the free ones only needs a permutation (`Shared.update`).
-/
import Mathlib.Tactic

namespace Shares

variable {ι α : Type*} [Fintype ι] [DecidableEq ι]

/-- The shares of the owners and the free items are the stock. -/
def Shared (share : ι → List α) (free : List α) (stock : Multiset α) : Prop :=
  ∑ i, (share i : Multiset α) + free = stock

variable {share share' : ι → List α} {free free' xs : List α} {stock : Multiset α} {i j : ι} {a : α}

omit [DecidableEq ι] in
/-- Nothing is given out. -/
theorem shared_nil (h : (free : Multiset α) = stock) :
    Shared (fun _ : ι => ([] : List α)) free stock := by
  have hsum : ∑ _i : ι, (([] : List α) : Multiset α) = 0 := Finset.sum_eq_zero fun _ _ => rfl
  rw [Shared, hsum, zero_add, h]

/-- One owner apart from the others. -/
theorem sum_eq_add_erase (share : ι → List α) (i : ι) : ∑ j, (share j : Multiset α) =
    share i + ∑ j ∈ Finset.univ.erase i, (share j : Multiset α) :=
  (Finset.add_sum_erase _ _ (Finset.mem_univ i)).symm

/-- **An owner exchanges items with the free ones.** -/
theorem Shared.update (h : Shared share free stock) (hx : (xs ++ free').Perm (share i ++ free)) :
    Shared (Function.update share i xs) free' stock := by
  have hothers : ∑ j ∈ Finset.univ.erase i, (Function.update share i xs j : Multiset α) =
      ∑ j ∈ Finset.univ.erase i, (share j : Multiset α) :=
    Finset.sum_congr rfl fun j hj => by
      rw [Function.update_of_ne (Finset.ne_of_mem_erase hj)]
  have hown : (xs : Multiset α) + free' = share i + free := by
    rw [Multiset.coe_add, Multiset.coe_add]
    exact Multiset.coe_eq_coe.mpr hx
  calc ∑ j, (Function.update share i xs j : Multiset α) + free'
      = (xs + free') + ∑ j ∈ Finset.univ.erase i, (share j : Multiset α) := by
        rw [sum_eq_add_erase _ i, Function.update_self, hothers, add_right_comm]
    _ = ∑ j, (share j : Multiset α) + free := by
        rw [hown, sum_eq_add_erase share i, add_right_comm]
    _ = stock := h

/-- What an owner has and the free items are in the stock, no item more often than there. -/
theorem Shared.own_le (h : Shared share free stock) (i : ι) :
    ((share i ++ free : List α) : Multiset α) ≤ stock := by
  rw [← h, sum_eq_add_erase share i, ← Multiset.coe_add, add_right_comm]
  exact Multiset.le_add_right _ _

/-- Two owners have different items. -/
theorem Shared.pair_le (h : Shared share free stock) (hij : i ≠ j) :
    ((share j ++ (share i ++ free) : List α) : Multiset α) ≤ stock := by
  have hj : (share j : Multiset α) ≤ ∑ k ∈ Finset.univ.erase i, (share k : Multiset α) :=
    Finset.single_le_sum (f := fun k => (share k : Multiset α)) (fun _ _ => Multiset.zero_le _)
      (Finset.mem_erase.mpr ⟨hij.symm, Finset.mem_univ j⟩)
  rw [← h, sum_eq_add_erase share i, ← Multiset.coe_add, ← Multiset.coe_add, add_right_comm,
    add_comm (share j : Multiset α)]
  exact add_le_add_right hj _

theorem Shared.mem (h : Shared share free stock) (ha : a ∈ share i ++ free) : a ∈ stock :=
  Multiset.mem_of_le (h.own_le i) (Multiset.mem_coe.mpr ha)

theorem Shared.nodup (h : Shared share free stock) (hs : stock.Nodup) (i : ι) :
    (share i ++ free).Nodup :=
  Multiset.coe_nodup.mp (Multiset.nodup_of_le (h.own_le i) hs)

/-- **What one owner has, or is free, no other owner has.** -/
theorem Shared.disjoint (h : Shared share free stock) (hs : stock.Nodup) (hij : i ≠ j)
    (ha : a ∈ share j) : a ∉ share i ++ free := fun hi =>
  (List.nodup_append.mp (Multiset.coe_nodup.mp (Multiset.nodup_of_le (h.pair_le hij) hs))).2.2
    a ha a hi rfl

omit [DecidableEq ι] in
/-- **Nothing is lost**: the items are counted. -/
theorem Shared.card (h : Shared share free stock) :
    ∑ i, (share i).length + free.length = stock.card := by
  rw [← h, Multiset.card_add, Multiset.coe_card, Multiset.card_sum]
  rfl

end Shares
