/-
# Sorting an array (`qsort.c`)

`qs1` partitions an array by its middle element, with pointers into it, calls itself for the smaller
side and goes on with the other one.  The exchanges move bytes, also where two of the elements are
the same one.

On the elements this is a quicksort by indices (`qs1_refines`), so it ends and sorts, and changes
nothing outside the array (`qsort_sorts`).
-/
import Xinu.Kernel
import Xinu.Lib.Layout
import Xinu.Lib.Quicksort

namespace Xinu

open Layouts Quicksort

/-! ## 1. The code

Memory is a function on addresses, and the arguments of the comparison function are the bytes of
the two elements.  The jumps of `qs1` are rounds of one loop, and `inner` says at which of two
places a round begins. -/

/-- The element at an address. -/
def element (es : Nat) (mem : Bytes) (ptr : Nat) : Fin es → UInt8 := fun k => mem (ptr + k)

/-- The loop of `qsexc`, for `n` bytes. -/
def qsexc : Nat → Nat → Nat → Bytes → Bytes
  | 0, _, _, mem => mem
  | n + 1, ri, rj, mem =>
    let c := mem ri
    let mem := Function.update mem ri (mem rj)
    let mem := Function.update mem rj c
    qsexc n (ri + 1) (rj + 1) mem

/-- The loop of `qstexc`, for `n` bytes. -/
def qstexc : Nat → Nat → Nat → Nat → Bytes → Bytes
  | 0, _, _, _, mem => mem
  | n + 1, ri, rj, rk, mem =>
    let c := mem ri
    let mem := Function.update mem ri (mem rk)
    let mem := Function.update mem rk (mem rj)
    let mem := Function.update mem rj c
    qstexc n (ri + 1) (rj + 1) (rk + 1) mem

/-- Memory, and the pointers of `qs1`. -/
structure Qs where
  mem : Bytes
  i : Nat
  j : Nat
  lp : Nat
  hp : Nat

variable {es : Nat}

/-- From the start of the loop, or from the label `loop` (`inner`), to the next jump to one of them,
or to the end of the partition. -/
def qsRound (qscmp : (Fin es → UInt8) → (Fin es → UInt8) → Int) (inner : Bool) (s : Qs) :
    Option (Bool × Qs) :=
  if inner = false ∧ s.i < s.lp then
    let c := qscmp (element es s.mem s.i) (element es s.mem s.lp)
    if c = 0 then
      let lp := s.lp - es
      some (false, { s with mem := qsexc es s.i lp s.mem, lp := lp })
    else if c < 0 then some (false, { s with i := s.i + es })
    else some (true, s)
  else if s.j > s.hp then
    let c := qscmp (element es s.mem s.hp) (element es s.mem s.j)
    if c = 0 then
      let hp := s.hp + es
      some (true, { s with mem := qsexc es hp s.j s.mem, hp := hp })
    else if c > 0 then
      if s.i = s.lp then
        let hp := s.hp + es
        let lp := s.lp + es
        some (true, ⟨qstexc es s.i hp s.j s.mem, lp, s.j, lp, hp⟩)
      else
        some (false, { s with mem := qsexc es s.i s.j s.mem, j := s.j - es, i := s.i + es })
    else some (true, { s with j := s.j - es })
  else if s.i = s.lp then none
  else
    let lp := s.lp - es
    let hp := s.hp - es
    some (false, ⟨qstexc es s.j lp s.i s.mem, s.i, hp, lp, hp⟩)

def qsPartition (qscmp : (Fin es → UInt8) → (Fin es → UInt8) → Int) : Nat → Bool → Qs → Option Qs
  | 0, _, _ => none
  | n + 1, inner, s =>
    match qsRound qscmp inner s with
    | none => some s
    | some (inner, t) => qsPartition qscmp n inner t

/-- `qs1(a, l)`. -/
def qs1 (qscmp : (Fin es → UInt8) → (Fin es → UInt8) → Int) :
    Nat → Bytes → Nat → Nat → Option Bytes
  | 0, _, _, _ => none
  | fuel + 1, mem, a, l =>
    let n := l - a
    if n ≤ es then some mem
    else
      let n := es * (n / (2 * es % 2 ^ 32))
      (qsPartition qscmp (fuel + 1) false ⟨mem, a, l - es, a + n, a + n⟩).bind fun s =>
        if int32 (s.lp - a) ≥ int32 (l - s.hp) then
          (qs1 qscmp fuel s.mem (s.hp + es) l).bind fun mem => qs1 qscmp fuel mem a s.lp
        else (qs1 qscmp fuel s.mem a s.lp).bind fun mem => qs1 qscmp fuel mem (s.hp + es) l

def qsort (fuel : Nat) (mem : Bytes) (a n es : Nat)
    (fc : (Fin es → UInt8) → (Fin es → UInt8) → Int) : Option Bytes :=
  qs1 fc fuel mem a (a + n * es % 2 ^ 32)

/-! ## 2. Exchanges

Both functions move one byte after the other.  They are given an address twice where an element
would change places with itself. -/

variable {mem : Bytes} {n ri rj rk q base x y z : Nat}

/-- **Two blocks** that do not overlap, or are the same, change places. -/
theorem qsexc_apply (h : ri = rj ∨ ri + n ≤ rj ∨ rj + n ≤ ri) (q : Nat) :
    qsexc n ri rj mem q =
      if ri ≤ q ∧ q < ri + n then mem (rj + (q - ri))
      else if rj ≤ q ∧ q < rj + n then mem (ri + (q - rj)) else mem q := by
  induction n generalizing ri rj mem with
  | zero =>
    rw [qsexc, if_neg (by omega), if_neg (by omega)]
  | succ n ih =>
    rw [qsexc]
    rw [ih (by omega)]
    simp only [Function.update_apply]
    grind

/-- **Three blocks**, of which the last two may be the same, move around. -/
theorem qstexc_apply (hij : ri + n ≤ rj ∨ rj + n ≤ ri) (hik : ri + n ≤ rk ∨ rk + n ≤ ri)
    (hjk : rj = rk ∨ rj + n ≤ rk ∨ rk + n ≤ rj) (q : Nat) :
    qstexc n ri rj rk mem q =
      if ri ≤ q ∧ q < ri + n then mem (rk + (q - ri))
      else if rj ≤ q ∧ q < rj + n then mem (ri + (q - rj))
      else if rk ≤ q ∧ q < rk + n then mem (rj + (q - rk)) else mem q := by
  induction n generalizing ri rj rk mem with
  | zero =>
    rw [qstexc, if_neg (by omega), if_neg (by omega), if_neg (by omega)]
  | succ n ih =>
    rw [qstexc]
    rw [ih (by omega) (by omega) (by omega)]
    simp only [Function.update_apply]
    grind

/-! ## 3. The array

What the exchanges do to the bytes is an exchange of elements in the view of the array. -/

/-- The elements of the array at an address. -/
def view (es : Nat) (mem : Bytes) (base : Nat) : Nat → Fin es → UInt8 :=
  fun x => element es mem (base + es * x)

/-- Elements at different places do not overlap. -/
theorem blocks_apart (es base : Nat) (h : x ≠ y) :
    base + es * x + es ≤ base + es * y ∨ base + es * y + es ≤ base + es * x := by
  rcases Nat.lt_or_gt_of_ne h with h | h
  · have := Nat.mul_le_mul_left es (show x + 1 ≤ y from h)
    rw [Nat.mul_add_one] at this
    omega
  · have := Nat.mul_le_mul_left es (show y + 1 ≤ x from h)
    rw [Nat.mul_add_one] at this
    omega

/-- A byte of an element is in no other one. -/
theorem mem_block_iff (base : Nat) (k : Fin es) :
    (base + es * y ≤ base + es * x + k ∧ base + es * x + k < base + es * y + es) ↔ x = y := by
  have hk := k.isLt
  constructor
  · intro h
    by_contra hne
    have := blocks_apart es base hne
    omega
  · rintro rfl
    omega

theorem view_qsexc (base x y : Nat) (mem : Bytes) :
    view es (qsexc es (base + es * x) (base + es * y) mem) base =
      exchange (view es mem base) x y := by
  funext z k
  have happart : base + es * x = base + es * y ∨ _ :=
    (eq_or_ne x y).imp (fun h => by rw [h]) (blocks_apart es base)
  simp only [view, element, qsexc_apply happart, mem_block_iff, exchange_apply]
  split_ifs with h1 h2
  · subst h1
    rw [Nat.add_sub_cancel_left]
    rfl
  · subst h2
    rw [Nat.add_sub_cancel_left]
    rfl
  · rfl

theorem view_qstexc (base : Nat) (mem : Bytes) (hxy : x ≠ y) (hxz : x ≠ z) :
    view es (qstexc es (base + es * x) (base + es * y) (base + es * z) mem) base =
      rotate (view es mem base) x y z := by
  funext w k
  have happart : base + es * y = base + es * z ∨ _ :=
    (eq_or_ne y z).imp (fun h => by rw [h]) (blocks_apart es base)
  simp only [view, element, qstexc_apply (blocks_apart es base hxy) (blocks_apart es base hxz)
    happart, mem_block_iff, rotate_apply _ hxy hxz]
  split_ifs with h1 h2 h3
  · subst h1
    rw [Nat.add_sub_cancel_left]
    rfl
  · subst h2
    rw [Nat.add_sub_cancel_left]
    rfl
  · subst h3
    rw [Nat.add_sub_cancel_left]
    rfl
  · rfl

/-- Below the blocks nothing changes. -/
theorem qsexc_below (hi : q < ri) (hj : q < rj) : qsexc n ri rj mem q = mem q := by
  induction n generalizing ri rj mem with
  | zero => rfl
  | succ n ih =>
    rw [qsexc, ih (by omega) (by omega), Function.update_of_ne (by omega),
      Function.update_of_ne (by omega)]

theorem qstexc_below (hi : q < ri) (hj : q < rj) (hk : q < rk) :
    qstexc n ri rj rk mem q = mem q := by
  induction n generalizing ri rj rk mem with
  | zero => rfl
  | succ n ih =>
    rw [qstexc, ih (by omega) (by omega) (by omega), Function.update_of_ne (by omega),
      Function.update_of_ne (by omega), Function.update_of_ne (by omega)]

/-! ## 4. Pointers and indices

A round by pointers and a round by indices are taken together.  The distance of two pointers is
that of their indices times the size of an element. -/

variable {fc : (Fin es → UInt8) → (Fin es → UInt8) → Int} {inner : Bool} {s t : Qs}
  {S T : Parts (Fin es → UInt8)} {A : Nat → Fin es → UInt8} {a l : Nat} {p : Fin es → UInt8}

/-- Memory that is the same below the array. -/
def SameBelow (base : Nat) (mem mem' : Bytes) : Prop := ∀ q < base, mem' q = mem q

/-- The pointers point to the elements with the indices. -/
structure PointsTo (base : Nat) (mem : Bytes) (s : Qs) (S : Parts (Fin es → UInt8)) : Prop where
  arr : view es s.mem base = S.arr
  i : s.i = base + es * S.i
  j : s.j = base + es * S.j
  lp : s.lp = base + es * S.lp
  hp : s.hp = base + es * S.hp
  below : SameBelow base mem s.mem

/-- **A round moves the pointers** as a round of the partition by indices. -/
theorem qsRound_refines (hes : 0 < es) (hs : PointsTo base mem s S)
    (hinv : PartInv fc A a l p inner S) :
    Option.Rel (fun x X => x.1 = X.1 ∧ PointsTo base mem x.2 X.2) (qsRound fc inner s)
      (Quicksort.round fc inner S) := by
  obtain ⟨-, hil, hlh, hhj, -⟩ := hinv.order
  have hstuck := hinv.stuck
  obtain ⟨smem, si, sj, slp, shp⟩ := s
  obtain ⟨harr, hi, hj, hlp, hhp, hbelow⟩ := hs
  dsimp only at harr hi hj hlp hhp hbelow
  subst hi hj hlp hhp
  have hlt : ∀ u v : Nat, base + es * u < base + es * v ↔ u < v := fun u v => by
    rw [Nat.add_lt_add_iff_left, Nat.mul_lt_mul_left hes]
  have heq : ∀ u v : Nat, base + es * u = base + es * v ↔ u = v := fun u v => by
    rw [Nat.add_left_cancel_iff, Nat.mul_left_cancel_iff hes]
  have hpred : ∀ u : Nat, 0 < u → base + es * u - es = base + es * (u - 1) := fun u hu => by
    rw [Nat.mul_sub_one]
    have := Nat.le_mul_of_pos_right es hu
    omega
  have hsucc : ∀ u : Nat, base + es * u + es = base + es * (u + 1) := fun u => by
    rw [Nat.mul_add_one, Nat.add_assoc]
  have hview : ∀ u, element es smem (base + es * u) = S.arr u := fun u => congrFun harr u
  rw [qsRound, Quicksort.round]
  simp only [hview, hlt, heq, gt_iff_lt, hsucc]
  by_cases htop : inner = false ∧ S.i < S.lp
  · rw [if_pos htop, if_pos htop]
    split_ifs
    · refine .some ⟨rfl, ?_, rfl, rfl, hpred _ (by omega), rfl, fun q hq => ?_⟩
      · rw [hpred _ (by omega), view_qsexc, harr]
      · exact (qsexc_below (by omega) (by rw [hpred _ (by omega)]; omega)).trans (hbelow q hq)
    · exact .some ⟨rfl, harr, rfl, rfl, rfl, rfl, hbelow⟩
    · exact .some ⟨rfl, harr, rfl, rfl, rfl, rfl, hbelow⟩
  rw [if_neg htop, if_neg htop]
  by_cases hright : S.hp < S.j
  · rw [if_pos hright, if_pos hright]
    split_ifs
    · refine .some ⟨rfl, ?_, rfl, rfl, rfl, rfl, fun q hq => ?_⟩
      · rw [view_qsexc, harr]
      · exact (qsexc_below (by omega) (by omega)).trans (hbelow q hq)
    · refine .some ⟨rfl, ?_, rfl, rfl, rfl, rfl, fun q hq => ?_⟩
      · rw [view_qstexc _ _ (by omega) (by omega), harr]
      · exact (qstexc_below (by omega) (by omega) (by omega)).trans (hbelow q hq)
    · refine .some ⟨rfl, ?_, rfl, hpred _ (by omega), rfl, rfl, fun q hq => ?_⟩
      · rw [view_qsexc, harr]
      · exact (qsexc_below (by omega) (by omega)).trans (hbelow q hq)
    · exact .some ⟨rfl, harr, rfl, hpred _ (by omega), rfl, rfl, hbelow⟩
  rw [if_neg hright, if_neg hright]
  by_cases hdone : S.i = S.lp
  · rw [if_pos hdone, if_pos hdone]
    exact .none
  · rw [if_neg hdone, if_neg hdone, hpred _ (by omega), hpred _ (by omega)]
    refine .some ⟨rfl, ?_, rfl, rfl, rfl, rfl, fun q hq => ?_⟩
    · rw [view_qstexc _ _ (by omega) (by omega), harr]
    · exact (qstexc_below (by omega) (by omega) (by omega)).trans (hbelow q hq)

/-- **So does a partition.** -/
theorem qsPartition_refines (hfc : IsPreorder fc) (hes : 0 < es) (hs : PointsTo base mem s S)
    (hinv : PartInv fc A a l p inner S) :
    Option.Rel (PointsTo base mem) (qsPartition fc n inner s) (partition fc n inner S) := by
  induction n generalizing inner s S with
  | zero => exact .none
  | succ n ih =>
    have hround := qsRound_refines hes hs hinv
    rw [qsPartition, partition]
    cases hX : Quicksort.round fc inner S with
    | none =>
      rw [hX] at hround
      cases hx : qsRound fc inner s with
      | none => exact .some hs
      | some x =>
        rw [hx] at hround
        cases hround
    | some X =>
      have hnext := round_inv hfc hinv hX
      rw [hX] at hround
      cases hx : qsRound fc inner s with
      | none =>
        rw [hx] at hround
        cases hround
      | some x =>
        obtain ⟨innerx, t⟩ := x
        obtain ⟨innerX, T⟩ := X
        rw [hx] at hround
        cases hround with
        | some h =>
          obtain ⟨rfl, hpoints⟩ := h
          exact ih hpoints hnext

/-- Which side `qs1` calls itself for, by the differences of pointers. -/
def rightFirst (es base : Nat) (a l : Nat) (s : Parts (Fin es → UInt8)) : Bool :=
  int32 ((base + es * s.lp : Nat) - (base + es * a : Nat)) ≥
    int32 ((base + es * l : Nat) - (base + es * s.hp : Nat))

/-- **`qs1` sorts by indices.** -/
theorem qs1_refines (hfc : IsPreorder fc) (hes : 0 < es) (hint : es < 2 ^ 31) {cur : Bytes}
    (hcur : view es cur base = A) (hbelow : SameBelow base mem cur) :
    Option.Rel (fun mem' B => view es mem' base = B ∧ SameBelow base mem mem')
      (qs1 fc n cur (base + es * a) (base + es * l))
      (sort fc (rightFirst es base) n A a l) := by
  induction n generalizing cur A a l with
  | zero => exact .none
  | succ n ih =>
    have hsize : base + es * l - (base + es * a) = es * (l - a) := by
      rw [Nat.mul_sub]
      omega
    have hsmall : es * (l - a) ≤ es ↔ l - a ≤ 1 := by
      have h : es * (l - a) ≤ es * 1 ↔ l - a ≤ 1 := Nat.mul_le_mul_left_iff hes
      rwa [Nat.mul_one] at h
    rw [qs1, sort]
    simp only [hsize, hsmall]
    by_cases h1 : l - a ≤ 1
    · rw [if_pos h1, if_pos h1]
      exact .some ⟨hcur, hbelow⟩
    rw [if_neg h1, if_neg h1]
    -- the offset of the middle element
    have hmid : base + es * a + es * (es * (l - a) / (2 * es % 2 ^ 32)) =
        base + es * (a + (l - a) / 2) := by
      rw [Nat.mod_eq_of_lt (by omega), Nat.mul_comm 2 es, Nat.mul_div_mul_left _ _ hes,
        Nat.mul_add, Nat.add_assoc]
    have hlast : base + es * l - es = base + es * (l - 1) := by
      rw [Nat.mul_sub_one]
      have := Nat.le_mul_of_pos_right es (show 0 < l by omega)
      omega
    have hpart := qsPartition_refines (n := n + 1) (s := ⟨cur, base + es * a, base + es * l - es,
      base + es * a + es * (es * (l - a) / (2 * es % 2 ^ 32)),
      base + es * a + es * (es * (l - a) / (2 * es % 2 ^ 32))⟩) hfc hes
      ⟨hcur, rfl, hlast, hmid, hmid, hbelow⟩ (partInv_start hfc A h1)
    generalize qsPartition fc (n + 1) false _ = o at hpart ⊢
    generalize partition fc (n + 1) false _ = O at hpart ⊢
    cases hpart with
    | none => exact .none
    | @some s S h =>
      have hsucc : s.hp + es = base + es * (S.hp + 1) := by
        rw [h.hp, Nat.mul_add_one, Nat.add_assoc]
      have hfirst : (int32 (s.lp - (base + es * a : Nat)) ≥ int32 ((base + es * l : Nat) - s.hp)) ↔
          rightFirst es base a l S = true := by
        rw [rightFirst, decide_eq_true_iff, h.lp, h.hp]
      rw [Option.bind_some, Option.bind_some]
      by_cases hf : rightFirst es base a l S = true
      · rw [if_pos (hfirst.mpr hf), if_pos hf, hsucc, h.lp]
        have hright := ih (a := S.hp + 1) (l := l) h.arr h.below
        generalize qs1 fc n s.mem _ _ = o at hright ⊢
        generalize sort fc _ n S.arr _ _ = O at hright ⊢
        cases hright with
        | none => exact .none
        | some h2 => exact ih h2.1 h2.2
      · rw [if_neg (mt hfirst.mp hf), if_neg hf, hsucc, h.lp]
        have hleft := ih (a := a) (l := S.lp) h.arr h.below
        generalize qs1 fc n s.mem _ _ = o at hleft ⊢
        generalize sort fc _ n S.arr _ _ = O at hleft ⊢
        cases hleft with
        | none => exact .none
        | some h2 => exact ih h2.1 h2.2

/-! ## 5. The result

What the library says about elements is said about the array in memory, with a frame for all bytes
outside of it. -/

/-- A byte behind the array is in an element behind its last one. -/
theorem view_byte (es : Nat) (mem : Bytes) (hes : 0 < es) (h : base ≤ q) :
    mem q = view es mem base ((q - base) / es) ⟨(q - base) % es, Nat.mod_lt _ hes⟩ := by
  have hdiv := Nat.div_add_mod (q - base) es
  simp only [view, element]
  congr 1
  omega

/-- **`qsort` ends and sorts.**  For any array in the address space, and any comparison function
that is a total preorder, the elements are those that were there, in nondecreasing order, and no
byte outside the array has changed. -/
theorem qsort_sorts (mem : Bytes) (a n es : Nat) (fc : (Fin es → UInt8) → (Fin es → UInt8) → Int)
    (hes : 0 < es) (hint : es < 2 ^ 31) (hfit : a + n * es < 2 ^ 32) (hfc : IsPreorder fc)
    (fuel : Nat) (hfuel : 2 * n + 2 ≤ fuel) :
    ∃ mem', qsort fuel mem a n es fc = some mem' ∧
      ((List.range n).map (view es mem' a)).Perm ((List.range n).map (view es mem a)) ∧
      (∀ v w, v < w → w < n → fc (view es mem' a v) (view es mem' a w) ≤ 0) ∧
      ∀ q, q < a ∨ a + n * es ≤ q → mem' q = mem q := by
  have hend : a + n * es % 2 ^ 32 = a + es * n := by
    rw [Nat.mod_eq_of_lt (by omega), Nat.mul_comm]
  obtain ⟨B, hB, hre, hsorted⟩ :=
    sort_spec (a := 0) (l := n) (n := fuel) hfc (rightFirst es a) (view es mem a) (by omega)
  have hqs := qs1_refines (n := fuel) (a := 0) (l := n) hfc hes hint
    (rfl : view es mem a = view es mem a) (fun _ _ => rfl : SameBelow a mem mem)
  rw [hB, Nat.mul_zero, Nat.add_zero] at hqs
  rw [qsort, hend]
  generalize qs1 fc fuel mem a (a + es * n) = o at hqs ⊢
  cases hqs with
  | @some mem' B h =>
    obtain ⟨rfl, hbelow⟩ := h
    refine ⟨mem', rfl, hre.perm, fun v w => hsorted v w (Nat.zero_le _), fun q hq => ?_⟩
    rcases Nat.lt_or_ge q a with hlt | hge
    · exact hbelow q hlt
    · have hbehind : n ≤ (q - a) / es := by
        rw [Nat.le_div_iff_mul_le hes]
        omega
      rw [view_byte es mem' hes hge, view_byte es mem hes hge, hre.outside (by omega)]

/-- Characters by their codes. -/
def byteCmp (x y : Fin 1 → UInt8) : Int := (x 0).toNat - (y 0).toNat

theorem byteCmp_isPreorder : IsPreorder byteCmp where
  swap x y := by
    simp only [byteCmp]
    omega
  trans x y z hxy hyz := by
    simp only [byteCmp] at hxy hyz ⊢
    omega

/-- The characters `cab` at the address 100. -/
def cab : Bytes := fun q => if q = 100 then 0x63 else if q = 101 then 0x61 else 0x62

theorem qsort_sorts_cab :
    ∃ mem', qsort 8 cab 100 3 1 byteCmp = some mem' ∧
      ((List.range 3).map (view 1 mem' 100)).Perm ((List.range 3).map (view 1 cab 100)) ∧
      (∀ v w, v < w → w < 3 → byteCmp (view 1 mem' 100 v) (view 1 mem' 100 w) ≤ 0) ∧
      ∀ q, q < 100 ∨ 100 + 3 * 1 ≤ q → mem' q = cab q :=
  qsort_sorts cab 100 3 1 byteCmp (by decide) (by decide) (by decide) byteCmp_isPreorder 8
    (by decide)

example : ((qsort 8 cab 100 3 1 byteCmp).map fun mem => [mem 100, mem 101, mem 102]) =
    some [0x61, 0x62, 0x63] := by decide

end Xinu
