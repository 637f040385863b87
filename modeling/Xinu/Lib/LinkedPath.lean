/-
# Doubly linked lists inside a table of links

A table gives every index a successor and a predecessor.  `Path next prev a xs b` says that
following successors from `a` visits exactly the indices `xs` and then `b`, and that
predecessors lead back along the same way.  `a` and `b` are the two sentinels of a list whose
members are `xs`; nothing is said about what the table holds elsewhere, so many lists can live
in one table.

The update rules are stated by what the new table holds, not by how it was computed: a
splice is any pair of functions that agree with the old ones except at the four places a
splice writes.
-/
import Mathlib.Tactic

namespace LinkedPath

variable {ι : Type*}

/-- From `a` through `xs` to `b`, in both directions. -/
def Path (next prev : ι → ι) : ι → List ι → ι → Prop
  | a, [], b => next a = b ∧ prev b = a
  | a, x :: xs, b => next a = x ∧ prev x = a ∧ Path next prev x xs b

variable {next prev next' prev' : ι → ι} {a b p : ι} {xs ys : List ι}

/-! ## 1. Reading a path -/

/-- The index before the tail part of a split list, sentinel included. -/
theorem getLastD_mem (xs : List ι) (a : ι) : xs.getLastD a ∈ a :: xs := by
  induction xs generalizing a with
  | nil => simp
  | cons x xs ih =>
    rw [List.getLastD_cons]
    exact List.mem_cons_of_mem _ (ih x)

/-- The index after the front part of a split list, sentinel included. -/
theorem headD_mem (ys : List ι) (b : ι) : ys.headD b ∈ ys ++ [b] := by
  cases ys <;> simp

theorem Path.next_getLastD (h : Path next prev a (xs ++ ys) b) :
    next (xs.getLastD a) = ys.headD b := by
  induction xs generalizing a with
  | nil => cases ys with
    | nil => exact h.1
    | cons y ys => exact h.1
  | cons x xs ih =>
    rw [List.getLastD_cons]
    exact ih h.2.2

theorem Path.prev_headD (h : Path next prev a (xs ++ ys) b) :
    prev (ys.headD b) = xs.getLastD a := by
  induction xs generalizing a with
  | nil => cases ys with
    | nil => exact h.2
    | cons y ys => exact h.2.1
  | cons x xs ih =>
    rw [List.getLastD_cons]
    exact ih h.2.2

/-- The successor of the head sentinel. -/
theorem Path.next_head (h : Path next prev a xs b) : next a = xs.headD b :=
  Path.next_getLastD (show Path next prev a ([] ++ xs) b from h)

/-- The predecessor of the tail sentinel. -/
theorem Path.prev_tail (h : Path next prev a xs b) : prev b = xs.getLastD a := by
  have h' : Path next prev a (xs ++ []) b := by simpa using h
  simpa using h'.prev_headD

/-- The neighbours of a member. -/
theorem Path.next_mid (h : Path next prev a (xs ++ p :: ys) b) : next p = ys.headD b := by
  have h' : Path next prev a ((xs ++ [p]) ++ ys) b := by simpa using h
  simpa using h'.next_getLastD

theorem Path.prev_mid (h : Path next prev a (xs ++ p :: ys) b) : prev p = xs.getLastD a := by
  simpa using h.prev_headD

/-! ## 2. Changing the table -/

/-- **Frame rule.**  A path reads successors at `a` and its members, predecessors at its
members and `b`, and nothing else. -/
theorem Path.congr (h : Path next prev a xs b) (hn : ∀ i ∈ a :: xs, next' i = next i)
    (hp : ∀ i ∈ xs ++ [b], prev' i = prev i) : Path next' prev' a xs b := by
  induction xs generalizing a with
  | nil => exact ⟨(hn a (by simp)).trans h.1, (hp b (by simp)).trans h.2⟩
  | cons x xs ih =>
    refine ⟨(hn a (by simp)).trans h.1, (hp x (by simp)).trans h.2.1, ih h.2.2 ?_ ?_⟩
    · exact fun i hi => hn i (List.mem_cons_of_mem _ hi)
    · exact fun i hi => hp i (by simp only [List.cons_append, List.mem_cons]; exact Or.inr hi)

/-- **Splicing a new index in**, between the last of `xs` and the first of `ys`. -/
theorem Path.insert (h : Path next prev a (xs ++ ys) b) (hnd : (a :: (xs ++ ys ++ [b])).Nodup)
    (hp : p ∉ a :: (xs ++ ys ++ [b]))
    (hnv : next' (xs.getLastD a) = p) (hnp : next' p = ys.headD b)
    (hn : ∀ i, i ≠ xs.getLastD a → i ≠ p → next' i = next i)
    (hpc : prev' (ys.headD b) = p) (hpp : prev' p = xs.getLastD a)
    (hpr : ∀ i, i ≠ ys.headD b → i ≠ p → prev' i = prev i) :
    Path next' prev' a (xs ++ p :: ys) b := by
  induction xs generalizing a with
  | nil =>
    simp only [List.nil_append, List.getLastD_nil] at *
    refine ⟨hnv, hpp, ?_⟩
    cases ys with
    | nil => exact ⟨hnp, hpc⟩
    | cons y ys =>
      refine ⟨hnp, hpc, h.2.2.congr (fun i hi => hn i ?_ ?_) (fun i hi => hpr i ?_ ?_)⟩
      · rintro rfl
        simp only [List.cons_append, List.nodup_cons, List.mem_cons] at hnd
        simp only [List.mem_cons] at hi
        exact hnd.1 (by rcases hi with h1 | h1 <;> simp [h1])
      · rintro rfl
        simp only [List.cons_append, List.mem_cons] at hp hi
        exact hp (by rcases hi with h1 | h1 <;> simp [h1])
      · rintro rfl
        simp only [List.cons_append, List.nodup_cons] at hnd hi
        exact hnd.2.1 hi
      · rintro rfl
        simp only [List.cons_append, List.mem_cons] at hp
        exact hp (Or.inr (Or.inr hi))
  | cons x xs ih =>
    rw [List.getLastD_cons] at hnv hn hpp
    simp only [List.cons_append, List.nodup_cons] at hnd
    have hv : xs.getLastD x ∈ x :: xs := getLastD_mem xs x
    have hc : ys.headD b ∈ ys ++ [b] := headD_mem ys b
    have hax : a ≠ xs.getLastD x := by
      rintro rfl
      refine hnd.1 ?_
      rcases List.mem_cons.mp hv with h1 | h1
      · exact List.mem_cons.mpr (Or.inl h1)
      · exact List.mem_cons_of_mem _ (List.mem_append_left _ (List.mem_append_left _ h1))
    have hxc : x ≠ ys.headD b := by
      rintro rfl
      refine hnd.2.1 ?_
      rw [List.append_assoc]
      exact List.mem_append_right _ hc
    have hap : a ≠ p := by rintro rfl; exact hp (by simp)
    have hxp : x ≠ p := by rintro rfl; exact hp (by simp)
    refine ⟨(hn a hax hap).trans h.1, (hpr x hxc hxp).trans h.2.1, ?_⟩
    refine ih h.2.2 ?_ ?_ hnv hn hpp
    · simpa using hnd.2
    · intro hm
      refine hp ?_
      simp only [List.cons_append]
      exact List.mem_cons_of_mem _ hm

/-- **Unlinking a member.** -/
theorem Path.remove (h : Path next prev a (xs ++ p :: ys) b)
    (hnd : (a :: (xs ++ p :: ys ++ [b])).Nodup)
    (hnv : next' (xs.getLastD a) = ys.headD b)
    (hn : ∀ i, i ≠ xs.getLastD a → next' i = next i)
    (hpc : prev' (ys.headD b) = xs.getLastD a)
    (hpr : ∀ i, i ≠ ys.headD b → prev' i = prev i) :
    Path next' prev' a (xs ++ ys) b := by
  induction xs generalizing a with
  | nil =>
    simp only [List.nil_append, List.getLastD_nil] at *
    cases ys with
    | nil => exact ⟨hnv, hpc⟩
    | cons y ys =>
      refine ⟨hnv, hpc, h.2.2.2.2.congr (fun i hi => hn i ?_) (fun i hi => hpr i ?_)⟩
      · rintro rfl
        simp only [List.cons_append, List.nodup_cons, List.mem_cons] at hnd
        simp only [List.mem_cons] at hi
        exact hnd.1 (by rcases hi with h1 | h1 <;> simp [h1])
      · rintro rfl
        simp only [List.cons_append, List.nodup_cons] at hnd hi
        exact hnd.2.2.1 hi
  | cons x xs ih =>
    rw [List.getLastD_cons] at hnv hn hpc
    simp only [List.cons_append, List.nodup_cons] at hnd
    have hv : xs.getLastD x ∈ x :: xs := getLastD_mem xs x
    have hc : ys.headD b ∈ ys ++ [b] := headD_mem ys b
    have hax : a ≠ xs.getLastD x := by
      rintro rfl
      refine hnd.1 ?_
      rcases List.mem_cons.mp hv with h1 | h1
      · exact List.mem_cons.mpr (Or.inl h1)
      · exact List.mem_cons_of_mem _ (List.mem_append_left _ (List.mem_append_left _ h1))
    have hxc : x ≠ ys.headD b := by
      rintro rfl
      refine hnd.2.1 ?_
      rw [List.append_assoc]
      refine List.mem_append_right _ ?_
      simp only [List.cons_append, List.mem_cons]
      exact Or.inr hc
    refine ⟨(hn a hax).trans h.1, (hpr x hxc).trans h.2.1, ?_⟩
    refine ih h.2.2 ?_ hnv hn hpc
    simpa using hnd.2

/-! ## 3. Assignments

The same with the assignments of a program: two links written, or four. -/

section Assignments

variable [DecidableEq ι] {c d x y v w : ι} {zs : List ι}

/-- Links written elsewhere. -/
theorem Path.frame (h : Path next prev c zs d) (hx : x ∉ c :: zs) (hy : y ∉ zs ++ [d]) :
    Path (Function.update next x v) (Function.update prev y w) c zs d :=
  h.congr (fun _ hi => Function.update_of_ne (ne_of_mem_of_not_mem hi hx) ..)
    fun _ hi => Function.update_of_ne (ne_of_mem_of_not_mem hi hy) ..

theorem Path.frame_next (h : Path next prev c zs d) (hx : x ∉ c :: zs) :
    Path (Function.update next x v) prev c zs d :=
  h.congr (fun _ hi => Function.update_of_ne (ne_of_mem_of_not_mem hi hx) ..) fun _ _ => rfl

/-- The neighbours of a member are pointed to each other. -/
theorem Path.unlink (h : Path next prev a (xs ++ p :: ys) b)
    (hnd : (a :: (xs ++ p :: ys ++ [b])).Nodup) :
    Path (Function.update next (prev p) (next p)) (Function.update prev (next p) (prev p))
      a (xs ++ ys) b := by
  rw [h.prev_mid, h.next_mid]
  exact h.remove hnd (Function.update_self ..) (fun _ hi => Function.update_of_ne hi ..)
    (Function.update_self ..) fun _ hi => Function.update_of_ne hi ..

/-- A new member behind the head. -/
theorem Path.insert_front (h : Path next prev a xs b) (hnd : (a :: (xs ++ [b])).Nodup)
    (hp : p ∉ a :: (xs ++ [b])) :
    Path (Function.update (Function.update next p (next a)) a p)
      (Function.update (Function.update prev p a) (next a) p) a (p :: xs) b := by
  have hpa : p ≠ a := fun he => hp (by simp [he])
  have hph : p ≠ xs.headD b := fun he => hp (List.mem_cons_of_mem _ (he ▸ headD_mem xs b))
  rw [h.next_head]
  refine Path.insert (show Path next prev a ([] ++ xs) b from h) hnd hp (Function.update_self ..) ?_
    (fun i h1 h2 => ?_)
    (Function.update_self ..) ?_ fun i h1 h2 => ?_
  · rw [Function.update_of_ne hpa, Function.update_self]
  · exact (Function.update_of_ne h1 ..).trans (Function.update_of_ne h2 ..)
  · rw [Function.update_of_ne hph, Function.update_self]
    rfl
  · exact (Function.update_of_ne h1 ..).trans (Function.update_of_ne h2 ..)

/-- A new member before the tail. -/
theorem Path.insert_back (h : Path next prev a xs b) (hnd : (a :: (xs ++ [b])).Nodup)
    (hp : p ∉ a :: (xs ++ [b])) :
    Path (Function.update (Function.update next p (next (prev b))) (prev b) p)
      (Function.update (Function.update prev b p) p (prev b)) a (xs ++ [p]) b := by
  have h' : Path next prev a (xs ++ []) b := by rwa [List.append_nil]
  have hlast : next (xs.getLastD a) = b := h'.next_getLastD
  have hpl : p ≠ xs.getLastD a := by
    intro he
    have hm := getLastD_mem xs a
    rw [← he] at hm
    rcases List.mem_cons.mp hm with h1 | h1 <;> exact hp (by simp [h1])
  have hpb : p ≠ b := fun he => hp (by simp [he])
  rw [h.prev_tail, hlast]
  refine Path.insert h' (by simpa using hnd) (by simpa using hp)
    (Function.update_self ..) ?_ (fun i h1 h2 => ?_) ?_ (Function.update_self ..) fun i h1 h2 => ?_
  · rw [Function.update_of_ne hpl, Function.update_self]
    rfl
  · exact (Function.update_of_ne h1 ..).trans (Function.update_of_ne h2 ..)
  · exact (Function.update_of_ne (Ne.symm hpb) ..).trans (Function.update_self ..)
  · exact (Function.update_of_ne h2 ..).trans (Function.update_of_ne h1 ..)

end Assignments

end LinkedPath
