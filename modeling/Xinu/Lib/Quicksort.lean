/-
# Quicksort with a three-way partition in place

An array is a function of the index, and it is changed by exchanging elements only, so what comes
out is a rearrangement of what went in.  The partition keeps the elements that are equal to the
pivot in the middle, and moves the block of them while it works through the unknown elements on both
sides.  Its invariant (`PartInv`) says which elements are known; a round keeps it and leaves less to
do (`round_inv`, `todo_round`).

Which of the two sides is sorted first makes no difference (`sort_spec`), so it is a parameter.
-/
import Mathlib.Logic.Equiv.Basic
import Mathlib.Tactic

namespace Quicksort

variable {α : Type*} {cmp : α → α → Int}

/-! ## 1. Comparison functions

Only the sign of a comparison matters.  Elements that compare as equal need not be equal. -/

/-- The sign of a comparison is a total preorder. -/
structure IsPreorder (cmp : α → α → Int) : Prop where
  swap : ∀ x y, cmp x y < 0 ↔ 0 < cmp y x
  trans : ∀ x y z, cmp x y ≤ 0 → cmp y z ≤ 0 → cmp x z ≤ 0

variable {x y p : α}

theorem IsPreorder.zero (h : IsPreorder cmp) (hxy : cmp x y = 0) : cmp y x = 0 := by
  have h1 := h.swap x y
  have h2 := h.swap y x
  omega

theorem IsPreorder.refl (h : IsPreorder cmp) (x : α) : cmp x x = 0 := by
  have := h.swap x x
  omega

theorem IsPreorder.lt_of_lt_of_le {z : α} (h : IsPreorder cmp) (hxy : cmp x y < 0)
    (hyz : cmp y z ≤ 0) : cmp x z < 0 := by
  by_contra hno
  have hzx : cmp z x ≤ 0 := by
    have := h.swap x z
    omega
  have hyx := h.trans y z x hyz hzx
  have := (h.swap x y).mp hxy
  omega

theorem IsPreorder.lt_of_le_of_lt {z : α} (h : IsPreorder cmp) (hxy : cmp x y ≤ 0)
    (hyz : cmp y z < 0) : cmp x z < 0 := by
  by_contra hno
  have hzx : cmp z x ≤ 0 := by
    have := h.swap x z
    omega
  have hzy := h.trans z x y hzx hxy
  have := (h.swap y z).mp hyz
  omega

/-- What is equal to the pivot compares like it. -/
theorem IsPreorder.like (h : IsPreorder cmp) (hy : cmp y p = 0) (x : α) :
    (cmp x y < 0 ↔ cmp x p < 0) ∧ (cmp x y = 0 ↔ cmp x p = 0) ∧ (0 < cmp x y ↔ 0 < cmp x p) := by
  have hp := h.zero hy
  have h1 : cmp x y < 0 → cmp x p < 0 := fun hx => h.lt_of_lt_of_le hx hy.le
  have h2 : cmp x p < 0 → cmp x y < 0 := fun hx => h.lt_of_lt_of_le hx hp.le
  have h3 : 0 < cmp x y → 0 < cmp x p := fun hx =>
    (h.swap _ _).mp (h.lt_of_le_of_lt hp.le ((h.swap _ _).mpr hx))
  have h4 : 0 < cmp x p → 0 < cmp x y := fun hx =>
    (h.swap _ _).mp (h.lt_of_le_of_lt hy.le ((h.swap _ _).mpr hx))
  omega

/-! ## 2. Rearrangements

A rearrangement is a permutation of the places that leaves those outside of a range alone, so that
rearrangements compose. -/

/-- Two elements change places. -/
def exchange (A : Nat → α) (x y : Nat) : Nat → α := A ∘ Equiv.swap x y

/-- The element at `x` gets to `y`, the one at `y` to `z`, and the one at `z` to `x`. -/
def rotate (A : Nat → α) (x y z : Nat) : Nat → α := exchange (exchange A x z) z y

theorem exchange_apply (A : Nat → α) (x y w : Nat) :
    exchange A x y w = if w = x then A y else if w = y then A x else A w := by
  simp only [exchange, Function.comp_apply, Equiv.swap_apply_def]
  split_ifs <;> rfl

theorem rotate_apply (A : Nat → α) {x y z : Nat} (hxy : x ≠ y) (hxz : x ≠ z) (w : Nat) :
    rotate A x y z w =
      if w = x then A z else if w = y then A x else if w = z then A y else A w := by
  simp only [rotate, exchange_apply]
  grind

/-- The elements from `a` to `l` are rearranged, and no other. -/
def Rearranged (A B : Nat → α) (a l : Nat) : Prop :=
  ∃ σ : Equiv.Perm Nat, B = A ∘ σ ∧ ∀ w, ¬ (a ≤ w ∧ w < l) → σ w = w

variable {A B C : Nat → α} {a l a' l' n : Nat}

theorem Rearranged.refl (A : Nat → α) (a l : Nat) : Rearranged A A a l :=
  ⟨Equiv.refl _, rfl, fun _ _ => rfl⟩

theorem Rearranged.trans (h₁ : Rearranged A B a l) (h₂ : Rearranged B C a l) :
    Rearranged A C a l := by
  obtain ⟨σ, rfl, hσ⟩ := h₁
  obtain ⟨τ, rfl, hτ⟩ := h₂
  refine ⟨τ.trans σ, rfl, fun w hw => ?_⟩
  rw [Equiv.trans_apply, hτ w hw, hσ w hw]

theorem Rearranged.mono (h : Rearranged A B a' l') (ha : a ≤ a') (hl : l' ≤ l) :
    Rearranged A B a l := by
  obtain ⟨σ, hB, hσ⟩ := h
  exact ⟨σ, hB, fun w hw => hσ w (by omega)⟩

theorem rearranged_exchange {x y : Nat} (hx : a ≤ x ∧ x < l) (hy : a ≤ y ∧ y < l) :
    Rearranged A (exchange A x y) a l := by
  refine ⟨Equiv.swap x y, rfl, fun w hw => Equiv.swap_apply_of_ne_of_ne ?_ ?_⟩
  · rintro rfl
    exact hw hx
  · rintro rfl
    exact hw hy

theorem rearranged_rotate {x y z : Nat} (hx : a ≤ x ∧ x < l) (hy : a ≤ y ∧ y < l)
    (hz : a ≤ z ∧ z < l) : Rearranged A (rotate A x y z) a l :=
  (rearranged_exchange hx hz).trans (rearranged_exchange hz hy)

theorem Rearranged.outside (h : Rearranged A B a l) {w : Nat} (hw : ¬ (a ≤ w ∧ w < l)) :
    B w = A w := by
  obtain ⟨σ, rfl, hσ⟩ := h
  exact congrArg A (hσ w hw)

/-- What held of all the elements still does. -/
theorem Rearranged.forall_of (h : Rearranged A B a l) {P : α → Prop}
    (hP : ∀ w, a ≤ w → w < l → P (A w)) {w : Nat} (haw : a ≤ w) (hwl : w < l) : P (B w) := by
  obtain ⟨σ, rfl, hσ⟩ := h
  have hin : a ≤ σ w ∧ σ w < l := by
    by_contra hout
    have hw : σ w = w := σ.injective (hσ _ hout)
    omega
  exact hP _ hin.1 hin.2

/-- The elements as a list. -/
theorem Rearranged.perm (h : Rearranged A B 0 n) :
    ((List.range n).map B).Perm ((List.range n).map A) := by
  obtain ⟨σ, rfl, hσ⟩ := h
  have hperm : ((List.range n).map σ).Perm (List.range n) := by
    refine (List.perm_ext_iff_of_nodup (List.nodup_range.map σ.injective) List.nodup_range).mpr
      fun w => ?_
    simp only [List.mem_map, List.mem_range]
    constructor
    · rintro ⟨v, hv, rfl⟩
      by_contra hout
      have : σ v = v := σ.injective (hσ _ (by omega))
      omega
    · intro hw
      refine ⟨σ.symm w, ?_, σ.apply_symm_apply w⟩
      by_contra hout
      have := hσ (σ.symm w) (by omega)
      rw [σ.apply_symm_apply] at this
      omega
  have := hperm.map A
  rwa [List.map_map] at this

/-! ## 3. The partition

A round compares one element with the pivot at most, and makes one exchange or rotation at most. -/

/-- What is left of `i` is smaller than the pivot, what is right of `j` is larger, and from `lp` to
`hp` it is equal. -/
structure Parts (α : Type*) where
  arr : Nat → α
  i : Nat
  j : Nat
  lp : Nat
  hp : Nat

/-- What a round does.  The left side is looked at unless the right one is being worked on
(`inner`); nothing is done when both sides are. -/
def round (cmp : α → α → Int) (inner : Bool) (s : Parts α) : Option (Bool × Parts α) :=
  if inner = false ∧ s.i < s.lp then
    let c := cmp (s.arr s.i) (s.arr s.lp)
    if c = 0 then
      some (false, { s with arr := exchange s.arr s.i (s.lp - 1), lp := s.lp - 1 })
    else if c < 0 then some (false, { s with i := s.i + 1 })
    else some (true, s)
  else if s.hp < s.j then
    let c := cmp (s.arr s.hp) (s.arr s.j)
    if c = 0 then some (true, { s with arr := exchange s.arr (s.hp + 1) s.j, hp := s.hp + 1 })
    else if 0 < c then
      if s.i = s.lp then
        some (true, ⟨rotate s.arr s.i (s.hp + 1) s.j, s.lp + 1, s.j, s.lp + 1, s.hp + 1⟩)
      else some (false, { s with arr := exchange s.arr s.i s.j, i := s.i + 1, j := s.j - 1 })
    else some (true, { s with j := s.j - 1 })
  else if s.i = s.lp then none
  else
    some (false, ⟨rotate s.arr s.j (s.lp - 1) s.i, s.i, s.hp - 1, s.lp - 1, s.hp - 1⟩)

def partition (cmp : α → α → Int) : Nat → Bool → Parts α → Option (Parts α)
  | 0, _, _ => none
  | n + 1, inner, s =>
    match round cmp inner s with
    | none => some s
    | some (inner, t) => partition cmp n inner t

/-- What is known while an array `A` is partitioned. -/
structure PartInv (cmp : α → α → Int) (A : Nat → α) (a l : Nat) (p : α) (inner : Bool)
    (s : Parts α) : Prop where
  order : a ≤ s.i ∧ s.i ≤ s.lp ∧ s.lp ≤ s.hp ∧ s.hp ≤ s.j ∧ s.j < l
  low : ∀ w, a ≤ w → w < s.i → cmp (s.arr w) p < 0
  mid : ∀ w, s.lp ≤ w → w ≤ s.hp → cmp (s.arr w) p = 0
  high : ∀ w, s.j < w → w < l → 0 < cmp (s.arr w) p
  stuck : inner = true → s.i < s.lp → 0 < cmp (s.arr s.i) p
  rearranged : Rearranged A s.arr a l

/-- How much is to be looked at, twice, and whether the left side is next. -/
def todo (inner : Bool) (s : Parts α) : Nat :=
  2 * ((s.lp - s.i) + (s.j - s.hp)) + if inner then 0 else 1

variable {inner inner' : Bool} {s t : Parts α}

/-- **A round keeps the invariant.** -/
theorem round_inv (hcmp : IsPreorder cmp) (h : PartInv cmp A a l p inner s)
    (hround : round cmp inner s = some (inner', t)) : PartInv cmp A a l p inner' t := by
  obtain ⟨hai, hil, hlh, hhj, hjl⟩ := h.order
  have hlow := h.low
  have hmid := h.mid
  have hhigh := h.high
  have hstuck := h.stuck
  rw [round] at hround
  dsimp only at hround
  split_ifs at hround with htop heq hlt hj hc hpos hi hi'
  · -- an element on the left is equal to the pivot
    obtain ⟨rfl, rfl⟩ := Prod.mk.inj (Option.some.inj hround)
    have hp := ((hcmp.like (hmid s.lp le_rfl hlh) (s.arr s.i)).2.1).mp heq
    refine ⟨by grind, fun w h1 h2 => ?_, fun w h1 h2 => ?_, fun w h1 h2 => ?_, nofun,
      h.rearranged.trans (rearranged_exchange (by omega) (by omega))⟩
    all_goals simp only [exchange_apply] at *; grind
  · -- it is smaller
    obtain ⟨rfl, rfl⟩ := Prod.mk.inj (Option.some.inj hround)
    have hp := ((hcmp.like (hmid s.lp le_rfl hlh) (s.arr s.i)).1).mp hlt
    refine ⟨by grind, fun w h1 h2 => ?_, hmid, hhigh, nofun, h.rearranged⟩
    rcases Nat.lt_succ_iff_lt_or_eq.mp h2 with h2 | rfl
    · exact hlow w h1 h2
    · exact hp
  · -- it is larger, and stays where it is for now
    obtain ⟨rfl, rfl⟩ := Prod.mk.inj (Option.some.inj hround)
    have hp := ((hcmp.like (hmid s.lp le_rfl hlh) (s.arr s.i)).2.2).mp (by omega)
    exact ⟨h.order, hlow, hmid, hhigh, fun _ _ => hp, h.rearranged⟩
  · -- an element on the right is equal to the pivot
    obtain ⟨rfl, rfl⟩ := Prod.mk.inj (Option.some.inj hround)
    have hp := ((hcmp.like (hmid s.hp hlh le_rfl) (s.arr s.j)).2.1).mp (hcmp.zero hc)
    refine ⟨by grind, fun w h1 h2 => ?_, fun w h1 h2 => ?_, fun w h1 h2 => ?_, fun _ h1 => ?_,
      h.rearranged.trans (rearranged_exchange (by omega) (by omega))⟩
    all_goals simp only [exchange_apply] at *; grind
  · -- it is smaller, and the left side is done: the block of equal elements moves up
    obtain ⟨rfl, rfl⟩ := Prod.mk.inj (Option.some.inj hround)
    have hp := ((hcmp.like (hmid s.hp hlh le_rfl) (s.arr s.j)).1).mp ((hcmp.swap _ _).mpr hpos)
    have happly := rotate_apply s.arr (show s.i ≠ s.hp + 1 by omega) (show s.i ≠ s.j by omega)
    refine ⟨by grind, fun w h1 h2 => ?_, fun w h1 h2 => ?_, fun w h1 h2 => ?_, fun _ h1 => ?_,
      h.rearranged.trans (rearranged_rotate (by omega) (by omega) (by omega))⟩
    all_goals simp only [happly] at *; grind
  · -- it is smaller, and changes places with the larger one on the left
    obtain ⟨rfl, rfl⟩ := Prod.mk.inj (Option.some.inj hround)
    have hp := ((hcmp.like (hmid s.hp hlh le_rfl) (s.arr s.j)).1).mp ((hcmp.swap _ _).mpr hpos)
    have hinner : inner = true := by
      by_contra hno
      exact htop ⟨Bool.not_eq_true _ ▸ hno, by omega⟩
    have hq := hstuck hinner (by omega)
    refine ⟨by grind, fun w h1 h2 => ?_, fun w h1 h2 => ?_, fun w h1 h2 => ?_, nofun,
      h.rearranged.trans (rearranged_exchange (by omega) (by omega))⟩
    all_goals simp only [exchange_apply] at *; grind
  · -- it is larger
    obtain ⟨rfl, rfl⟩ := Prod.mk.inj (Option.some.inj hround)
    have hp := (hcmp.like (hmid s.hp hlh le_rfl) (s.arr s.j)).2.2.mp
      ((hcmp.swap _ _).mp (by omega))
    refine ⟨by grind, hlow, hmid, fun w h1 h2 => ?_, fun _ h1 => ?_, h.rearranged⟩
    · by_cases hw : w = s.j
      · rw [hw]
        exact hp
      · exact hhigh w (by dsimp only at h1; omega) h2
    · have hinner : inner = true := by
        by_contra hno
        exact htop ⟨Bool.not_eq_true _ ▸ hno, h1⟩
      exact hstuck hinner h1
  · -- the right side is done: the block of equal elements moves down
    obtain ⟨rfl, rfl⟩ := Prod.mk.inj (Option.some.inj hround)
    have hinner : inner = true := by
      by_contra hno
      exact htop ⟨Bool.not_eq_true _ ▸ hno, by omega⟩
    have hq := hstuck hinner (by omega)
    have happly := rotate_apply s.arr (show s.j ≠ s.lp - 1 by omega) (show s.j ≠ s.i by omega)
    refine ⟨by grind, fun w h1 h2 => ?_, fun w h1 h2 => ?_, fun w h1 h2 => ?_, nofun,
      h.rearranged.trans (rearranged_rotate (by omega) (by omega) (by omega))⟩
    all_goals simp only [happly] at *; grind

/-- **A round leaves less to do.** -/
theorem todo_round (h : PartInv cmp A a l p inner s)
    (hround : round cmp inner s = some (inner', t)) : todo inner' t < todo inner s := by
  obtain ⟨hai, hil, hlh, hhj, hjl⟩ := h.order
  rw [round] at hround
  dsimp only at hround
  split_ifs at hround with htop heq hlt hj hc hpos hi hi'
  all_goals
    obtain ⟨rfl, rfl⟩ := Prod.mk.inj (Option.some.inj hround)
    simp only [todo]
    grind

/-- A round that does nothing: both sides are done. -/
theorem round_none (h : round cmp inner s = none) : s.i = s.lp ∧ ¬ s.hp < s.j := by
  rw [round] at h
  dsimp only at h
  split_ifs at h with _ _ _ hj _ _ _ hi
  exact ⟨hi, hj⟩

/-- **The partition ends**, with both sides done. -/
theorem partition_spec (hcmp : IsPreorder cmp) (h : PartInv cmp A a l p inner s)
    (hn : todo inner s < n) : ∃ t inner', partition cmp n inner s = some t ∧
      PartInv cmp A a l p inner' t ∧ t.i = t.lp ∧ t.j = t.hp := by
  induction n generalizing inner s with
  | zero => omega
  | succ n ih =>
    rw [partition]
    cases hround : round cmp inner s with
    | none =>
      obtain ⟨hi, hj⟩ := round_none hround
      have := h.order
      exact ⟨s, inner, rfl, h, hi, by omega⟩
    | some u =>
      have := todo_round h hround
      exact ih (round_inv hcmp h hround) (by omega)

/-! ## 4. Sorting

By induction on the length of the range, with the partition in front and both sides behind it. -/

/-- Sort the elements from `a` to `l`; `first` says whether the right side is next. -/
def sort (cmp : α → α → Int) (first : Nat → Nat → Parts α → Bool) :
    Nat → (Nat → α) → Nat → Nat → Option (Nat → α)
  | 0, _, _, _ => none
  | n + 1, A, a, l =>
    if l - a ≤ 1 then some A
    else
      let m := a + (l - a) / 2
      (partition cmp (n + 1) false ⟨A, a, l - 1, m, m⟩).bind fun s =>
        if first a l s then (sort cmp first n s.arr (s.hp + 1) l).bind fun B =>
          sort cmp first n B a s.lp
        else (sort cmp first n s.arr a s.lp).bind fun B => sort cmp first n B (s.hp + 1) l

/-- Each element is at most the next ones. -/
def Sorted (cmp : α → α → Int) (A : Nat → α) (a l : Nat) : Prop :=
  ∀ v w, a ≤ v → v < w → w < l → cmp (A v) (A w) ≤ 0

/-- Two sorted sides of a partition. -/
theorem sorted_of_parts (hcmp : IsPreorder cmp) (p : α) {lp hp : Nat} (hleft : Sorted cmp A a lp)
    (hright : Sorted cmp A (hp + 1) l) (hlow : ∀ w, a ≤ w → w < lp → cmp (A w) p < 0)
    (hmid : ∀ w, lp ≤ w → w ≤ hp → cmp (A w) p = 0)
    (hhigh : ∀ w, hp + 1 ≤ w → w < l → 0 < cmp (A w) p) : Sorted cmp A a l := by
  -- unless both are on one side, the pivot is between them
  have hbelow : ∀ v, a ≤ v → v ≤ hp → cmp (A v) p ≤ 0 := fun v hav hv => by
    rcases Nat.lt_or_ge v lp with h | h
    · exact (hlow v hav h).le
    · exact (hmid v h hv).le
  have habove : ∀ w, lp ≤ w → w < l → cmp p (A w) ≤ 0 := fun w hw hwl => by
    rcases Nat.lt_or_ge hp w with h | h
    · exact ((hcmp.swap _ _).mpr (hhigh w h hwl)).le
    · exact (hcmp.zero (hmid w hw h)).le
  intro v w hav hvw hwl
  by_cases hw : w < lp
  · exact hleft v w hav hvw hw
  · by_cases hv : hp + 1 ≤ v
    · exact hright v w hv hvw hwl
    · exact hcmp.trans _ p _ (hbelow v hav (by omega)) (habove w (by omega) hwl)

/-- What sorting is to do. -/
def Sorts (cmp : α → α → Int) (A B : Nat → α) (a l : Nat) : Prop :=
  Rearranged A B a l ∧ Sorted cmp B a l

/-- Sorting another part of the array leaves a sorted one as it is. -/
theorem Sorted.congr (h : Sorted cmp A a l) (hAB : ∀ w, a ≤ w → w < l → B w = A w) :
    Sorted cmp B a l := fun v w hav hvw hwl => by
  rw [hAB v hav (by omega), hAB w (by omega) hwl]
  exact h v w hav hvw hwl

/-- **Sorting both sides** of a partition, in either order, sorts the whole. -/
theorem sorts_of_parts (hcmp : IsPreorder cmp) (h : PartInv cmp A a l p inner s)
    (hi : s.i = s.lp) (hj : s.j = s.hp)
    (hBC : (Sorts cmp s.arr B (s.hp + 1) l ∧ Sorts cmp B C a s.lp) ∨
      (Sorts cmp s.arr B a s.lp ∧ Sorts cmp B C (s.hp + 1) l)) : Sorts cmp A C a l := by
  obtain ⟨hai, hil, hlh, hhj, hjl⟩ := h.order
  have hlow : ∀ w, a ≤ w → w < s.lp → cmp (s.arr w) p < 0 := fun w h1 h2 => h.low w h1 (by omega)
  have hhigh : ∀ w, s.hp + 1 ≤ w → w < l → 0 < cmp (s.arr w) p := fun w h1 h2 =>
    h.high w (by omega) h2
  rcases hBC with ⟨⟨hAB, hsB⟩, hBC, hsC⟩ | ⟨⟨hAB, hsB⟩, hBC, hsC⟩
  · have hout : ∀ w, s.lp ≤ w → C w = B w := fun w hw => hBC.outside (by omega)
    refine ⟨h.rearranged.trans ((hAB.mono (by omega) le_rfl).trans (hBC.mono le_rfl (by omega))),
      sorted_of_parts hcmp p hsC (hsB.congr fun w h1 _ => hout w (by omega))
        (fun w h1 h2 => ?_) (fun w h1 h2 => ?_) fun w h1 h2 => ?_⟩
    · refine hBC.forall_of (P := fun e => cmp e p < 0) (fun v h3 h4 => ?_) h1 h2
      rw [hAB.outside (by omega)]
      exact hlow v h3 h4
    · rw [hout w h1, hAB.outside (by omega)]
      exact h.mid w h1 h2
    · rw [hout w (by omega)]
      exact hAB.forall_of (P := fun e => 0 < cmp e p) hhigh h1 h2
  · have hout : ∀ w, w ≤ s.hp → C w = B w := fun w hw => hBC.outside (by omega)
    refine ⟨h.rearranged.trans ((hAB.mono le_rfl (by omega)).trans (hBC.mono (by omega) le_rfl)),
      sorted_of_parts hcmp p (hsB.congr fun w _ h2 => hout w (by omega)) hsC
        (fun w h1 h2 => ?_) (fun w h1 h2 => ?_) fun w h1 h2 => ?_⟩
    · rw [hout w (by omega)]
      exact hAB.forall_of (P := fun e => cmp e p < 0) hlow h1 h2
    · rw [hout w h2, hAB.outside (by omega)]
      exact h.mid w h1 h2
    · refine hBC.forall_of (P := fun e => 0 < cmp e p) (fun v h3 h4 => ?_) h1 h2
      rw [hAB.outside (by omega)]
      exact hhigh v h3 h4

/-- The pivot is the middle element. -/
theorem partInv_start (hcmp : IsPreorder cmp) (A : Nat → α) (h : ¬ l - a ≤ 1) :
    let m := a + (l - a) / 2
    PartInv cmp A a l (A m) false ⟨A, a, l - 1, m, m⟩ := by
  refine ⟨by dsimp only; omega, fun w h1 h2 => ?_, fun w h1 h2 => ?_, fun w h1 h2 => ?_, nofun,
    Rearranged.refl ..⟩
  · dsimp only at h2
    omega
  · obtain rfl := le_antisymm h2 h1
    exact hcmp.refl _
  · dsimp only at h1
    omega

/-- A partition has so many rounds at most. -/
theorem todo_start (A : Nat → α) (h : 2 * (l - a) + 2 ≤ n) :
    todo false (⟨A, a, l - 1, a + (l - a) / 2, a + (l - a) / 2⟩ : Parts α) < n := by
  simp only [todo, Bool.false_eq_true, if_false]
  omega

/-- **Quicksort ends and sorts**, whichever side it sorts first. -/
theorem sort_spec (hcmp : IsPreorder cmp) (first : Nat → Nat → Parts α → Bool) (A : Nat → α)
    (hn : 2 * (l - a) + 2 ≤ n) : ∃ B, sort cmp first n A a l = some B ∧ Sorts cmp A B a l := by
  induction n generalizing A a l with
  | zero => omega
  | succ n ih =>
    rw [sort]
    by_cases hsmall : l - a ≤ 1
    · rw [if_pos hsmall]
      exact ⟨A, rfl, Rearranged.refl .., fun v w h1 h2 h3 => by omega⟩
    rw [if_neg hsmall]
    obtain ⟨s, inner, hpart, hs, hi, hj⟩ :=
      partition_spec hcmp (partInv_start hcmp A hsmall) (todo_start A hn)
    have horder := hs.order
    dsimp only
    rw [hpart, Option.bind_some]
    by_cases hfirst : first a l s = true
    · rw [if_pos hfirst]
      obtain ⟨B, hB, hsB⟩ := ih s.arr (show 2 * (l - (s.hp + 1)) + 2 ≤ n by omega)
      obtain ⟨C, hC, hsC⟩ := ih B (show 2 * (s.lp - a) + 2 ≤ n by omega)
      rw [hB, Option.bind_some, hC]
      exact ⟨C, rfl, sorts_of_parts hcmp hs hi hj (.inl ⟨hsB, hsC⟩)⟩
    · rw [if_neg hfirst]
      obtain ⟨B, hB, hsB⟩ := ih s.arr (show 2 * (s.lp - a) + 2 ≤ n by omega)
      obtain ⟨C, hC, hsC⟩ := ih B (show 2 * (l - (s.hp + 1)) + 2 ≤ n by omega)
      rw [hB, Option.bind_some, hC]
      exact ⟨C, rfl, sorts_of_parts hcmp hs hi hj (.inr ⟨hsB, hsC⟩)⟩

end Quicksort
