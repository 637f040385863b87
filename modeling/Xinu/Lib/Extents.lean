/-
# Free stores as sorted lists of extents

A free store is a list of address ranges ("extents").  The representation invariant that
boundary-merging allocators keep is `Canonical`: extents in strictly ascending address order,
each of positive length, addresses and lengths multiples of a granule, and no two of them
overlapping or touching.

Three operations are enough for the classical allocators: `carve` from the extent that `firstFit`
finds (the low end), `carveTop` from the one that `lastFit` finds (the high end), and `release`
(give a range back and merge it with its neighbours).  Each keeps `Canonical`, and each moves
exactly the bytes it says.

Who holds which byte is counted rather than described by sets: `cover bs x` is how many extents
of `bs` contain `x`.  Conservation is then an equation between numbers, additive over lists,
and "pairwise disjoint" is `cover bs x ≤ 1`.
-/
import Mathlib.Tactic

namespace Extents

/-- An address range `[addr, addr + len)`. -/
structure Extent where
  addr : Nat
  len : Nat
deriving DecidableEq, Repr

/-- The first address after the range. -/
def Extent.fin (b : Extent) : Nat := b.addr + b.len

/-- The byte `x` lies in the range. -/
def Extent.Has (b : Extent) (x : Nat) : Prop := b.addr ≤ x ∧ x < b.fin

instance (b : Extent) (x : Nat) : Decidable (b.Has x) :=
  inferInstanceAs (Decidable (b.addr ≤ x ∧ x < b.fin))

/-! ## 1. Counting who holds a byte

Two lists hold the same bytes when they have the same count everywhere, whatever their extents
are. -/

/-- How many extents of the list contain the byte `x`. -/
def cover (bs : List Extent) (x : Nat) : Nat := bs.countP fun b => decide (b.Has x)

@[simp] theorem cover_nil (x : Nat) : cover [] x = 0 := rfl

theorem cover_cons (b : Extent) (bs : List Extent) (x : Nat) :
    cover (b :: bs) x = cover [b] x + cover bs x := by
  simp only [cover, List.countP_cons, List.countP_nil]
  omega

@[simp] theorem cover_append (bs cs : List Extent) (x : Nat) :
    cover (bs ++ cs) x = cover bs x + cover cs x := by
  simp [cover]

theorem cover_singleton (b : Extent) (x : Nat) :
    cover [b] x = if b.Has x then 1 else 0 := by
  by_cases h : b.Has x <;> simp [cover, h]

/-- Cutting an extent in two moves no byte. -/
theorem cover_split (a n k x : Nat) :
    cover [⟨a, n + k⟩] x = cover [⟨a, n⟩] x + cover [⟨a + n, k⟩] x := by
  have h : ∀ c : Extent, cover [c] x = if c.addr ≤ x ∧ x < c.addr + c.len then 1 else 0 :=
    fun c => cover_singleton c x
  rw [h, h, h]
  simp only
  split <;> split <;> split <;> omega

theorem cover_pos_iff {bs : List Extent} {x : Nat} : 0 < cover bs x ↔ ∃ b ∈ bs, b.Has x := by
  simp [cover, List.countP_pos_iff]

/-- A byte held by a member is held by the list. -/
theorem cover_pos {bs : List Extent} {b : Extent} {x : Nat} (hb : b ∈ bs) (hx : b.Has x) :
    0 < cover bs x := cover_pos_iff.mpr ⟨b, hb, hx⟩

/-- No byte is common to the two extents. -/
def Extent.Apart (b c : Extent) : Prop := ∀ x, ¬ (b.Has x ∧ c.Has x)

/-- **Pairwise disjointness is a bound on the count.** -/
theorem pairwise_apart_iff {bs : List Extent} :
    bs.Pairwise Extent.Apart ↔ ∀ x, cover bs x ≤ 1 := by
  induction bs with
  | nil => simp
  | cons b bs ih =>
    rw [List.pairwise_cons, ih]
    constructor
    · rintro ⟨hb, hbs⟩ x
      rw [cover_cons, cover_singleton]
      split_ifs with hx
      · have h0 : ¬ 0 < cover bs x := by
          rw [cover_pos_iff]
          rintro ⟨c, hc, hcx⟩
          exact hb c hc x ⟨hx, hcx⟩
        omega
      · have := hbs x; omega
    · intro h
      refine ⟨?_, fun x => ?_⟩
      · rintro c hc x ⟨hbx, hcx⟩
        have h1 := h x
        have h2 := cover_pos hc hcx
        rw [cover_cons, cover_singleton, if_pos hbx] at h1
        omega
      · have h1 := h x
        rw [cover_cons] at h1
        omega

/-- The number of bytes in the list. -/
def total (bs : List Extent) : Nat := (bs.map Extent.len).sum

@[simp] theorem total_nil : total [] = 0 := rfl

@[simp] theorem total_cons (b : Extent) (bs : List Extent) :
    total (b :: bs) = b.len + total bs := by
  simp [total]

@[simp] theorem total_append (bs cs : List Extent) : total (bs ++ cs) = total bs + total cs := by
  simp [total]

/-- The bytes of a list, counted one address after the other. -/
theorem sum_cover {bs : List Extent} {n : Nat} (h : ∀ b ∈ bs, b.fin ≤ n) :
    ∑ x ∈ Finset.range n, cover bs x = total bs := by
  induction bs with
  | nil => simp
  | cons b bs ih =>
    have hb := h b (by simp)
    have hone : ∑ x ∈ Finset.range n, cover [b] x = b.len := by
      have hset : (Finset.range n).filter b.Has = Finset.Ico b.addr b.fin := by
        ext x
        simp only [Finset.mem_filter, Finset.mem_range, Finset.mem_Ico, Extent.Has]
        omega
      simp only [cover_singleton]
      rw [← Finset.sum_filter, hset, Finset.sum_const, Nat.card_Ico, smul_eq_mul, mul_one,
        Extent.fin, Nat.add_sub_cancel_left]
    rw [total_cons, ← hone, ← ih fun c hc => h c (by simp [hc]), ← Finset.sum_add_distrib]
    exact Finset.sum_congr rfl fun x _ => cover_cons b bs x

/-- **Disjoint extents below `n` hold at most `n` bytes.** -/
theorem total_le_of_apart {bs : List Extent} {n : Nat} (ha : bs.Pairwise Extent.Apart)
    (h : ∀ b ∈ bs, b.fin ≤ n) : total bs ≤ n := by
  rw [← sum_cover h]
  calc ∑ x ∈ Finset.range n, cover bs x
      ≤ ∑ _x ∈ Finset.range n, 1 := Finset.sum_le_sum fun x _ => pairwise_apart_iff.mp ha x
    _ = n := by simp

/-! ## 2. Canonical lists

The invariant can be split anywhere: a list is canonical when its two parts are and the second one
begins behind the first one's end, with a gap. -/

/-- The representation invariant of a merging allocator, for granule `g`. -/
structure Canonical (g : Nat) (bs : List Extent) : Prop where
  aligned : ∀ b ∈ bs, g ∣ b.addr
  sized : ∀ b ∈ bs, g ∣ b.len ∧ 0 < b.len
  gaps : bs.Pairwise fun b c => b.fin < c.addr

/-- Every extent lies inside `[lo, hi]`. -/
def Within (lo hi : Nat) (bs : List Extent) : Prop := ∀ b ∈ bs, lo ≤ b.addr ∧ b.fin ≤ hi

theorem Canonical.nil (g : Nat) : Canonical g [] :=
  ⟨by simp, by simp, List.Pairwise.nil⟩

/-- Canonical lists, one split at a time. -/
theorem canonical_append_iff {g : Nat} {bs cs : List Extent} :
    Canonical g (bs ++ cs) ↔
      Canonical g bs ∧ Canonical g cs ∧ ∀ b ∈ bs, ∀ c ∈ cs, b.fin < c.addr := by
  constructor
  · intro h
    obtain ⟨h1, h2, h3⟩ := List.pairwise_append.mp h.gaps
    exact ⟨⟨fun b hb => h.aligned b (List.mem_append_left _ hb),
        fun b hb => h.sized b (List.mem_append_left _ hb), h1⟩,
      ⟨fun b hb => h.aligned b (List.mem_append_right _ hb),
        fun b hb => h.sized b (List.mem_append_right _ hb), h2⟩, h3⟩
  · rintro ⟨hb, hc, hbc⟩
    refine ⟨?_, ?_, List.pairwise_append.mpr ⟨hb.gaps, hc.gaps, hbc⟩⟩
    · intro b h
      rcases List.mem_append.mp h with h | h
      · exact hb.aligned b h
      · exact hc.aligned b h
    · intro b h
      rcases List.mem_append.mp h with h | h
      · exact hb.sized b h
      · exact hc.sized b h

theorem canonical_cons_iff {g : Nat} {b : Extent} {bs : List Extent} :
    Canonical g (b :: bs) ↔
      (g ∣ b.addr ∧ g ∣ b.len ∧ 0 < b.len) ∧ Canonical g bs ∧ ∀ c ∈ bs, b.fin < c.addr := by
  constructor
  · intro h
    obtain ⟨h1, h2⟩ := List.pairwise_cons.mp h.gaps
    exact ⟨⟨h.aligned b (by simp), h.sized b (by simp)⟩,
      ⟨fun c hc => h.aligned c (by simp [hc]), fun c hc => h.sized c (by simp [hc]), h2⟩, h1⟩
  · rintro ⟨⟨h1, h2⟩, h3, h4⟩
    refine ⟨?_, ?_, List.pairwise_cons.mpr ⟨h4, h3.gaps⟩⟩
    · intro c hc
      rcases List.mem_cons.mp hc with rfl | hc
      · exact h1
      · exact h3.aligned c hc
    · intro c hc
      rcases List.mem_cons.mp hc with rfl | hc
      · exact h2
      · exact h3.sized c hc

/-- In a canonical list no byte is held twice. -/
theorem Canonical.cover_le_one {g : Nat} {bs : List Extent} (h : Canonical g bs) (x : Nat) :
    cover bs x ≤ 1 := by
  refine pairwise_apart_iff.mp (h.gaps.imp ?_) x
  intro b c hbc y hy
  simp only [Extent.Has, Extent.fin] at hbc hy
  omega

/-- The total is at most the size of the window the extents lie in. -/
theorem Canonical.total_le {g lo hi : Nat} {bs : List Extent} (h : Canonical g bs)
    (hw : Within lo hi bs) (hlh : lo ≤ hi) : total bs ≤ hi - lo := by
  induction bs generalizing lo with
  | nil => simp
  | cons b bs ih =>
    obtain ⟨-, h2, h3⟩ := canonical_cons_iff.mp h
    have hb := hw b (by simp)
    have hw' : Within b.fin hi bs := fun c hc =>
      ⟨Nat.le_of_lt (h3 c hc), (hw c (by simp [hc])).2⟩
    have h4 := ih h2 hw' hb.2
    simp only [total_cons, Extent.fin] at *
    omega

/-! ## 3. First fit and last fit

Both searches give the list in three parts, the extent that was found with what stands before and
behind it. -/

/-- Split the list at the first extent of at least `n` bytes. -/
def firstFit (n : Nat) : List Extent → Option (List Extent × Extent × List Extent)
  | [] => none
  | b :: bs =>
    if n ≤ b.len then some ([], b, bs)
    else (firstFit n bs).map fun r => (b :: r.1, r.2)

/-- Split the list at the last extent of at least `n` bytes. -/
def lastFit (n : Nat) : List Extent → Option (List Extent × Extent × List Extent)
  | [] => none
  | b :: bs =>
    match lastFit n bs with
    | some r => some (b :: r.1, r.2)
    | none => if n ≤ b.len then some ([], b, bs) else none

theorem firstFit_none {n : Nat} {bs : List Extent} :
    firstFit n bs = none ↔ ∀ b ∈ bs, b.len < n := by
  induction bs with
  | nil => simp [firstFit]
  | cons b bs ih =>
    by_cases h : n ≤ b.len
    · simp [firstFit, h]
    · simp [firstFit, h, ih]
      omega

theorem firstFit_some {n : Nat} {bs pre post : List Extent} {b : Extent}
    (h : firstFit n bs = some (pre, b, post)) :
    bs = pre ++ b :: post ∧ n ≤ b.len ∧ ∀ c ∈ pre, c.len < n := by
  induction bs generalizing pre with
  | nil => simp [firstFit] at h
  | cons c bs ih =>
    by_cases hc : n ≤ c.len
    · simp only [firstFit, if_pos hc, Option.some.injEq, Prod.mk.injEq] at h
      obtain ⟨rfl, rfl, rfl⟩ := h
      exact ⟨rfl, hc, by simp⟩
    · simp only [firstFit, if_neg hc, Option.map_eq_some_iff, Prod.exists, Prod.mk.injEq] at h
      obtain ⟨pre', b', post', h1, rfl, rfl, rfl⟩ := h
      obtain ⟨rfl, h2, h3⟩ := ih h1
      refine ⟨rfl, h2, ?_⟩
      intro d hd
      rcases List.mem_cons.mp hd with rfl | hd
      · omega
      · exact h3 d hd

theorem lastFit_none {n : Nat} {bs : List Extent} :
    lastFit n bs = none ↔ ∀ b ∈ bs, b.len < n := by
  induction bs with
  | nil => simp [lastFit]
  | cons b bs ih =>
    cases hl : lastFit n bs with
    | some r =>
      have h1 : ¬ ∀ b ∈ bs, b.len < n := fun h => by rw [ih.mpr h] at hl; simp at hl
      simp only [lastFit, hl]
      constructor
      · intro h; simp at h
      · intro h; exact absurd (fun c hc => h c (by simp [hc])) h1
    | none =>
      have h1 := ih.mp hl
      by_cases h : n ≤ b.len
      · simp [lastFit, hl, h]
      · simp [lastFit, hl, h]
        exact ⟨by omega, h1⟩

theorem lastFit_some {n : Nat} {bs pre post : List Extent} {b : Extent}
    (h : lastFit n bs = some (pre, b, post)) :
    bs = pre ++ b :: post ∧ n ≤ b.len ∧ ∀ c ∈ post, c.len < n := by
  induction bs generalizing pre with
  | nil => simp [lastFit] at h
  | cons c bs ih =>
    cases hl : lastFit n bs with
    | some r =>
      simp only [lastFit, hl, Option.some.injEq, Prod.mk.injEq] at h
      obtain ⟨rfl, h2⟩ := h
      have hr : lastFit n bs = some (r.1, b, post) := by rw [hl, ← h2]
      obtain ⟨rfl, h3, h4⟩ := ih hr
      exact ⟨rfl, h3, h4⟩
    | none =>
      by_cases hc : n ≤ c.len
      · simp only [lastFit, hl, if_pos hc, Option.some.injEq, Prod.mk.injEq] at h
        obtain ⟨rfl, rfl, rfl⟩ := h
        exact ⟨rfl, hc, lastFit_none.mp hl⟩
      · simp [lastFit, hl, hc] at h

/-- What is left of an extent after cutting `n` bytes off its low end. -/
def carve (n : Nat) (b : Extent) : List Extent :=
  if b.len = n then [] else [⟨b.addr + n, b.len - n⟩]

/-- What is left of an extent after cutting `n` bytes off its high end. -/
def carveTop (n : Nat) (b : Extent) : List Extent :=
  if b.len = n then [] else [⟨b.addr, b.len - n⟩]

theorem cover_carve {n : Nat} {b : Extent} (h : n ≤ b.len) (x : Nat) :
    cover [b] x = cover (carve n b) x + cover [⟨b.addr, n⟩] x := by
  obtain ⟨a, len⟩ := b
  simp only at h
  by_cases hn : len = n
  · simp [carve, hn]
  · have h1 := cover_split a n (len - n) x
    have h2 : n + (len - n) = len := by omega
    rw [h2] at h1
    simp only [carve, if_neg hn]
    omega

/-- What a cut takes out of a list. -/
theorem cover_carve_mid {n : Nat} {b : Extent} (h : n ≤ b.len) (pre post : List Extent) (x : Nat) :
    cover (pre ++ b :: post) x = cover (pre ++ (carve n b ++ post)) x + cover [⟨b.addr, n⟩] x := by
  have hcut := cover_carve h x
  rw [cover_append, cover_cons, cover_append, cover_append]
  omega

theorem cover_carveTop {n : Nat} {b : Extent} (h : n ≤ b.len) (x : Nat) :
    cover [b] x = cover (carveTop n b) x + cover [⟨b.addr + (b.len - n), n⟩] x := by
  obtain ⟨a, len⟩ := b
  simp only at h
  by_cases hn : len = n
  · simp [carveTop, hn]
  · have h1 := cover_split a (len - n) n x
    have h2 : len - n + n = len := by omega
    rw [h2] at h1
    simp only [carveTop, if_neg hn]
    omega

/-- An extent list `cs` that replaces `b` inside a canonical list: it is canonical itself and
stays inside `b`. -/
structure Shrinks (g : Nat) (b : Extent) (cs : List Extent) : Prop where
  canonical : Canonical g cs
  within : Within b.addr b.fin cs

theorem shrinks_carve {g n : Nat} {b : Extent} (hb : g ∣ b.addr ∧ g ∣ b.len ∧ 0 < b.len)
    (hg : g ∣ n) (h : n ≤ b.len) : Shrinks g b (carve n b) := by
  by_cases hn : b.len = n
  · rw [carve, if_pos hn]
    exact ⟨Canonical.nil g, by simp [Within]⟩
  · rw [carve, if_neg hn]
    refine ⟨⟨?_, ?_, List.pairwise_singleton _ _⟩, ?_⟩
    · simpa using (Nat.dvd_add_right hb.1).mpr hg
    · simp only [List.mem_singleton, forall_eq]
      exact ⟨Nat.dvd_sub hb.2.1 hg, by omega⟩
    · simp only [Within, List.mem_singleton, forall_eq, Extent.fin]
      omega

theorem shrinks_carveTop {g n : Nat} {b : Extent} (hb : g ∣ b.addr ∧ g ∣ b.len ∧ 0 < b.len)
    (hg : g ∣ n) (h : n ≤ b.len) : Shrinks g b (carveTop n b) := by
  by_cases hn : b.len = n
  · rw [carveTop, if_pos hn]
    exact ⟨Canonical.nil g, by simp [Within]⟩
  · rw [carveTop, if_neg hn]
    refine ⟨⟨?_, ?_, List.pairwise_singleton _ _⟩, ?_⟩
    · simpa using hb.1
    · simp only [List.mem_singleton, forall_eq]
      exact ⟨Nat.dvd_sub hb.2.1 hg, by omega⟩
    · simp only [Within, List.mem_singleton, forall_eq, Extent.fin]
      omega

/-- **Replacing one extent by a part of it keeps the list canonical.** -/
theorem Canonical.replace {g : Nat} {pre post cs : List Extent} {b : Extent}
    (h : Canonical g (pre ++ b :: post)) (hs : Shrinks g b cs) :
    Canonical g (pre ++ (cs ++ post)) := by
  obtain ⟨h1, h2, h3⟩ := canonical_append_iff.mp h
  obtain ⟨hb, h4, h5⟩ := canonical_cons_iff.mp h2
  refine canonical_append_iff.mpr ⟨h1, canonical_append_iff.mpr ⟨hs.canonical, h4, ?_⟩, ?_⟩
  · intro c hc d hd
    have h6 := hs.within c hc
    have h7 := h5 d hd
    omega
  · intro c hc d hd
    rcases List.mem_append.mp hd with hd | hd
    · have h6 := hs.within d hd
      have h7 := h3 c hc b (by simp)
      omega
    · exact h3 c hc d (by simp [hd])

theorem Within.replace {g lo hi : Nat} {pre post cs : List Extent} {b : Extent}
    (h : Within lo hi (pre ++ b :: post)) (hs : Shrinks g b cs) :
    Within lo hi (pre ++ (cs ++ post)) := by
  intro c hc
  have hb := h b (by simp)
  rcases List.mem_append.mp hc with hc | hc
  · exact h c (by simp [hc])
  · rcases List.mem_append.mp hc with hc | hc
    · have := hs.within c hc
      omega
    · exact h c (by simp [hc])

/-! ## 4. Giving a range back

The merge with the extent above and the one with the extent below are two steps. -/

/-- Put `b` in front of the list, merging it with a first extent that starts where it ends. -/
def coalesce (b : Extent) : List Extent → List Extent
  | [] => [b]
  | c :: cs => if b.fin = c.addr then ⟨b.addr, b.len + c.len⟩ :: cs else b :: c :: cs

theorem cover_coalesce (b : Extent) (cs : List Extent) (x : Nat) :
    cover (coalesce b cs) x = cover [b] x + cover cs x := by
  cases cs with
  | nil => simp [coalesce]
  | cons c cs =>
    by_cases h : b.fin = c.addr
    · have h1 : cover [⟨b.addr, b.len + c.len⟩] x = cover [b] x + cover [⟨b.fin, c.len⟩] x :=
        cover_split b.addr b.len c.len x
      rw [h] at h1
      rw [coalesce, if_pos h, cover_cons, cover_cons c cs, h1]
      exact Nat.add_assoc _ _ _
    · rw [coalesce, if_neg h, cover_cons]

theorem total_coalesce (b : Extent) (cs : List Extent) :
    total (coalesce b cs) = b.len + total cs := by
  cases cs with
  | nil => simp [coalesce]
  | cons c cs =>
    by_cases h : b.fin = c.addr
    · simp [coalesce, h, Nat.add_assoc]
    · simp [coalesce, h]

/-- The first extent of a coalesced list starts where `b` does. -/
theorem le_addr_of_mem_coalesce {b c : Extent} {cs : List Extent}
    (h : ∀ d ∈ cs, b.fin ≤ d.addr) (hc : c ∈ coalesce b cs) : b.addr ≤ c.addr := by
  cases cs with
  | nil => simp [coalesce] at hc; rw [hc]
  | cons d cs =>
    have hd := h d (by simp)
    by_cases hm : b.fin = d.addr
    · rw [coalesce, if_pos hm] at hc
      rcases List.mem_cons.mp hc with rfl | hc
      · exact Nat.le_refl _
      · have := h c (by simp [hc]); simp only [Extent.fin] at this; omega
    · rw [coalesce, if_neg hm] at hc
      rcases List.mem_cons.mp hc with rfl | hc
      · exact Nat.le_refl _
      · have := h c hc; simp only [Extent.fin] at this; omega

theorem canonical_coalesce {g : Nat} {b : Extent} {cs : List Extent}
    (hb : g ∣ b.addr ∧ g ∣ b.len ∧ 0 < b.len) (hc : Canonical g cs)
    (h : ∀ d ∈ cs, b.fin ≤ d.addr) : Canonical g (coalesce b cs) := by
  cases cs with
  | nil => exact canonical_cons_iff.mpr ⟨hb, Canonical.nil g, by simp⟩
  | cons c cs =>
    obtain ⟨h1, h2, h3⟩ := canonical_cons_iff.mp hc
    by_cases hm : b.fin = c.addr
    · rw [coalesce, if_pos hm]
      refine canonical_cons_iff.mpr ⟨⟨hb.1, ?_, ?_⟩, h2, fun d hd => ?_⟩
      · exact (Nat.dvd_add_right hb.2.1).mpr h1.2.1
      · simp only; omega
      · have := h3 d hd
        simp only [Extent.fin] at *
        omega
    · rw [coalesce, if_neg hm]
      refine canonical_cons_iff.mpr ⟨hb, hc, fun d hd => ?_⟩
      have hbc := h c (by simp)
      rcases List.mem_cons.mp hd with rfl | hd
      · omega
      · have := h3 d hd
        simp only [Extent.fin] at *
        omega

theorem within_coalesce {lo hi : Nat} {b : Extent} {cs : List Extent}
    (hb : lo ≤ b.addr ∧ b.fin ≤ hi) (hc : Within lo hi cs) : Within lo hi (coalesce b cs) := by
  intro d hd
  cases cs with
  | nil => simp [coalesce] at hd; rw [hd]; exact hb
  | cons c cs =>
    have h1 := hc c (by simp)
    by_cases hm : b.fin = c.addr
    · rw [coalesce, if_pos hm] at hd
      rcases List.mem_cons.mp hd with rfl | hd
      · simp only [Extent.fin] at *; omega
      · exact hc d (by simp [hd])
    · rw [coalesce, if_neg hm] at hd
      rcases List.mem_cons.mp hd with rfl | hd
      · exact hb
      · exact hc d hd

/-- Give `[a, a + n)` back between the extents below `a` and those above: merge with the last
extent below when it ends at `a`, and with the first above when it starts at the end. -/
def releaseBetween (a n : Nat) (pre post : List Extent) : List Extent :=
  match pre.getLast? with
  | some p =>
    if p.fin = a then pre.dropLast ++ coalesce ⟨p.addr, p.len + n⟩ post
    else pre ++ coalesce ⟨a, n⟩ post
  | none => coalesce ⟨a, n⟩ post

/-- Give `[a, a + n)` back to the list. -/
def release (a n : Nat) (bs : List Extent) : List Extent :=
  releaseBetween a n (bs.takeWhile fun b => b.addr < a) (bs.dropWhile fun b => b.addr < a)

/-- What giving a range back did: it kept the invariants and moved the bytes in. -/
structure Gave (g lo hi a n : Nat) (bs bs' : List Extent) : Prop where
  canonical : Canonical g bs'
  within : Within lo hi bs'
  moved : ∀ x, cover bs' x = cover bs x + cover [⟨a, n⟩] x
  size : total bs' = total bs + n

theorem gave_releaseBetween {g lo hi a n : Nat} {pre post : List Extent}
    (hc : Canonical g (pre ++ post)) (hw : Within lo hi (pre ++ post))
    (ha : g ∣ a) (hn : g ∣ n ∧ 0 < n) (hin : lo ≤ a ∧ a + n ≤ hi)
    (hpre : ∀ b ∈ pre, b.fin ≤ a) (hpost : ∀ b ∈ post, a + n ≤ b.addr) :
    Gave g lo hi a n (pre ++ post) (releaseBetween a n pre post) := by
  obtain ⟨h1, h2, h3⟩ := canonical_append_iff.mp hc
  have hwpost : Within lo hi post := fun b hb => hw b (by simp [hb])
  have hwpre : Within lo hi pre := fun b hb => hw b (by simp [hb])
  -- the case in which nothing below touches the range
  have keep : (∀ b ∈ pre, b.fin < a) →
      Gave g lo hi a n (pre ++ post) (pre ++ coalesce ⟨a, n⟩ post) := by
    intro hlt
    refine ⟨canonical_append_iff.mpr ⟨h1, canonical_coalesce ⟨ha, hn⟩ h2 hpost, ?_⟩, ?_, ?_, ?_⟩
    · intro b hb c hcm
      have := le_addr_of_mem_coalesce (b := ⟨a, n⟩) hpost hcm
      have := hlt b hb
      simp only at *
      omega
    · intro b hb
      rcases List.mem_append.mp hb with hb | hb
      · exact hwpre b hb
      · exact within_coalesce (b := ⟨a, n⟩) hin hwpost b hb
    · intro x
      simp only [cover_append, cover_coalesce]
      omega
    · simp only [total_append, total_coalesce]
      omega
  rcases List.eq_nil_or_concat' pre with rfl | ⟨pre', p, rfl⟩
  · simpa [releaseBetween] using keep (by simp)
  · have hp := hpre p (by simp)
    by_cases hm : p.fin = a
    · -- the last extent below ends at `a`
      simp only [releaseBetween, List.getLast?_append, List.getLast?_singleton,
        Option.some_or, if_pos hm, List.dropLast_concat]
      obtain ⟨h4, h5, h6⟩ := canonical_append_iff.mp h1
      have hp4 := (canonical_cons_iff.mp h5).1
      have hfin : (⟨p.addr, p.len + n⟩ : Extent).fin = a + n := by
        simp only [Extent.fin] at hm ⊢; omega
      have hpost' : ∀ d ∈ post, (⟨p.addr, p.len + n⟩ : Extent).fin ≤ d.addr := by
        intro d hd; rw [hfin]; exact hpost d hd
      have hwp := hwpre p (by simp)
      refine ⟨canonical_append_iff.mpr ⟨h4, canonical_coalesce ⟨hp4.1, ?_, ?_⟩ h2 hpost', ?_⟩,
        ?_, ?_, ?_⟩
      · exact (Nat.dvd_add_right hp4.2.1).mpr hn.1
      · simp only; omega
      · intro b hb c hcm
        have h7 := le_addr_of_mem_coalesce hpost' hcm
        have h8 := h6 b hb p (by simp)
        simp only at h7
        omega
      · intro b hb
        rcases List.mem_append.mp hb with hb | hb
        · exact hwpre b (by simp [hb])
        · exact within_coalesce (b := ⟨p.addr, p.len + n⟩) ⟨hwp.1, by rw [hfin]; exact hin.2⟩
            hwpost b hb
      · intro x
        have h9 : cover [⟨p.addr, p.len + n⟩] x = cover [p] x + cover [⟨p.fin, n⟩] x :=
          cover_split p.addr p.len n x
        rw [hm] at h9
        simp only [cover_append, cover_coalesce]
        omega
      · simp only [total_append, total_coalesce, total_cons, total_nil]
        omega
    · simp only [releaseBetween, List.getLast?_append, List.getLast?_singleton,
        Option.some_or, if_neg hm]
      refine keep ?_
      intro b hb
      rcases List.mem_append.mp hb with hb' | hb'
      · have h8 := (canonical_append_iff.mp h1).2.2 b hb' p (by simp)
        simp only [Extent.fin] at *
        omega
      · simp only [List.mem_singleton] at hb'
        subst hb'
        omega

/-! ## 5. A canonical list is determined by its bytes

No two extents touch, so each is a longest range of bytes that are held. -/

theorem Canonical.addr_le_of_has {g x : Nat} {b : Extent} {bs : List Extent}
    (h : Canonical g (b :: bs)) (hx : 0 < cover (b :: bs) x) : b.addr ≤ x := by
  obtain ⟨c, hc, hcx, -⟩ := cover_pos_iff.mp hx
  rcases List.mem_cons.mp hc with rfl | hc
  · exact hcx
  · have hbc := (canonical_cons_iff.mp h).2.2 c hc
    rw [Extent.fin] at hbc
    omega

/-- The byte behind the first extent is not in the list. -/
theorem Canonical.cover_fin {g : Nat} {b : Extent} {bs : List Extent} (h : Canonical g (b :: bs)) :
    cover (b :: bs) b.fin = 0 := by
  by_contra hne
  obtain ⟨c, hc, hcx, hcf⟩ := cover_pos_iff.mp (Nat.pos_of_ne_zero hne)
  rcases List.mem_cons.mp hc with rfl | hc
  · omega
  · have hbc := (canonical_cons_iff.mp h).2.2 c hc
    omega

theorem Canonical.head_le {g : Nat} {b c : Extent} {bs cs : List Extent}
    (hb : Canonical g (b :: bs)) (hc : Canonical g (c :: cs))
    (h : ∀ x, cover (b :: bs) x = cover (c :: cs) x) : b.addr ≤ c.addr ∧ c.fin ≤ b.fin ∨
      b.addr < c.addr := by
  have hcpos := (hc.sized c (by simp)).2
  have hfirst : 0 < cover (c :: cs) c.addr :=
    cover_pos (by simp) ⟨le_rfl, by rw [Extent.fin]; omega⟩
  have hle := hb.addr_le_of_has ((h c.addr).symm ▸ hfirst)
  rcases Nat.lt_or_eq_of_le hle with hlt | heq
  · exact .inr hlt
  · refine .inl ⟨hle, ?_⟩
    by_contra hshort
    -- the byte behind `b` is in `c`
    have hin : 0 < cover (c :: cs) b.fin := by
      refine cover_pos (by simp) ⟨?_, not_le.mp hshort⟩
      rw [Extent.fin]
      omega
    rw [← h, hb.cover_fin] at hin
    exact absurd hin (Nat.lt_irrefl 0)

/-- **Two canonical lists of the same bytes are the same list.** -/
theorem Canonical.ext {g : Nat} {bs cs : List Extent} (hb : Canonical g bs) (hc : Canonical g cs)
    (h : ∀ x, cover bs x = cover cs x) : bs = cs := by
  induction bs generalizing cs with
  | nil =>
    cases cs with
    | nil => rfl
    | cons c cs =>
      have hpos := (hc.sized c (by simp)).2
      have hfirst : 0 < cover (c :: cs) c.addr :=
        cover_pos (by simp) ⟨le_rfl, by rw [Extent.fin]; omega⟩
      rw [← h] at hfirst
      exact absurd hfirst (Nat.lt_irrefl 0)
  | cons b bs ih =>
    cases cs with
    | nil =>
      have hpos := (hb.sized b (by simp)).2
      have hfirst : 0 < cover (b :: bs) b.addr :=
        cover_pos (by simp) ⟨le_rfl, by rw [Extent.fin]; omega⟩
      rw [h] at hfirst
      exact absurd hfirst (Nat.lt_irrefl 0)
    | cons c cs =>
      have h1 := hb.head_le hc h
      have h2 := hc.head_le hb fun x => (h x).symm
      have hbc : b = c := by
        obtain ⟨ba, bl⟩ := b
        obtain ⟨ca, cl⟩ := c
        simp only [Extent.fin] at h1 h2
        simp only [Extent.mk.injEq]
        omega
      subst hbc
      rw [ih (canonical_cons_iff.mp hb).2.1 (canonical_cons_iff.mp hc).2.1 fun x => ?_]
      have hx := h x
      rw [cover_cons b bs, cover_cons b cs] at hx
      omega

end Extents
