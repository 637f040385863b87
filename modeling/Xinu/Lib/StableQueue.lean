/-
# Queues in descending order of keys

A queue in descending order that takes each arrival behind all members with at least its key serves
by key, and among equal keys in the order of arrival.  `Ranks es ws` ties such a queue `es` to the
arrivals `ws` that are not served yet, in the order in which they came: the same members, and for
every key in the same order.

`Ranks.arrive` and `Ranks.serve` are the two steps; the second says that the first of the queue is
the one to be served next (`Next`).
-/
import Mathlib.Tactic

namespace StableQueue

variable {α κ : Type*} [LinearOrder κ] {es ws xs ys : List (α × κ)} {x e : α × κ}

/-- No key is larger than one before it. -/
abbrev Descending (es : List (α × κ)) : Prop := es.Pairwise fun a b => b.2 ≤ a.2

/-- Of all in `ws` none has a higher key than `x`, and none with the same key came before it. -/
def Next (ws : List (α × κ)) (x : α × κ) : Prop :=
  ∃ pre post, ws = pre ++ x :: post ∧ (∀ y ∈ pre, y.2 < x.2) ∧ ∀ y ∈ post, y.2 ≤ x.2

/-- The queue holds the arrivals, by key and then by time. -/
structure Ranks (es ws : List (α × κ)) : Prop where
  descending : Descending es
  stable : ∀ v, es.filter (fun e => e.2 = v) = ws.filter fun e => e.2 = v

theorem Ranks.refl (h : Descending es) : Ranks es es := ⟨h, fun _ => rfl⟩

theorem Ranks.mem_iff (h : Ranks es ws) : e ∈ es ↔ e ∈ ws := by
  have hall := congrArg (e ∈ ·) (h.stable e.2)
  simpa using hall

theorem Ranks.eq_nil_iff (h : Ranks es ws) : es = [] ↔ ws = [] := by
  rw [List.eq_nil_iff_forall_not_mem, List.eq_nil_iff_forall_not_mem]
  exact forall_congr' fun e => not_congr h.mem_iff

/-- The place of an arrival keeps the order of keys. -/
theorem descending_insert (h : Descending (xs ++ ys)) (hxs : ∀ e ∈ xs, x.2 ≤ e.2)
    (hys : ∀ e ∈ ys, e.2 < x.2) : Descending (xs ++ x :: ys) := by
  obtain ⟨h1, h2, h3⟩ := List.pairwise_append.mp h
  refine List.pairwise_append.mpr ⟨h1, List.pairwise_cons.mpr ⟨fun e he => (hys e he).le, h2⟩, ?_⟩
  intro a ha b hb
  rcases List.mem_cons.mp hb with rfl | hb
  · exact hxs a ha
  · exact h3 a ha b hb

/-- **One arrives**, and takes its place behind all with at least its key. -/
theorem Ranks.arrive (h : Ranks (xs ++ ys) ws) (hxs : ∀ e ∈ xs, x.2 ≤ e.2)
    (hys : ∀ e ∈ ys, e.2 < x.2) : Ranks (xs ++ x :: ys) (ws ++ [x]) := by
  refine ⟨descending_insert h.descending hxs hys, fun v => ?_⟩
  rw [List.filter_append, List.filter_append, ← h.stable v, List.filter_append]
  by_cases hv : x.2 = v
  · -- nobody behind it has its key
    have hnone : ys.filter (fun e => e.2 = v) = [] := by
      refine List.filter_eq_nil_iff.mpr fun e he => ?_
      simpa using fun heq => (hys e he).ne (heq.trans hv.symm)
    rw [List.filter_cons_of_pos (by simpa using hv), List.filter_cons_of_pos (by simpa using hv),
      hnone, List.append_nil]
    rfl
  · rw [List.filter_cons_of_neg (by simpa using hv), List.filter_cons_of_neg (by simpa using hv)]
    simp

/-- **The first is served**, and it is the one that should be. -/
theorem Ranks.serve [DecidableEq α] (h : Ranks (x :: es) ws) :
    Next ws x ∧ Ranks es (ws.erase x) := by
  have hfirst := h.stable x.2
  rw [List.filter_cons_of_pos (by simp)] at hfirst
  obtain ⟨pre, post, rfl, hpre, -, hpost⟩ := List.filter_eq_cons_iff.mp hfirst.symm
  obtain ⟨htop, hdesc⟩ := List.pairwise_cons.mp h.descending
  have hle : ∀ y ∈ pre ++ x :: post, y.2 ≤ x.2 := by
    intro y hy
    rcases List.mem_cons.mp (h.mem_iff.mpr hy) with rfl | hy
    · exact le_rfl
    · exact htop y hy
  have hlt : ∀ y ∈ pre, y.2 < x.2 := fun y hy =>
    lt_of_le_of_ne (hle y (List.mem_append_left _ hy)) (by simpa using hpre y hy)
  have hx : x ∉ pre := fun hm => lt_irrefl _ (hlt x hm)
  refine ⟨⟨pre, post, rfl, hlt, fun y hy => hle y (by simp [hy])⟩, hdesc, fun v => ?_⟩
  have hv := h.stable v
  rw [List.erase_append_right _ hx, List.erase_cons_head]
  rw [List.filter_append] at hv ⊢
  by_cases hxv : x.2 = v
  · rw [List.filter_cons_of_pos (by simpa using hxv),
      List.filter_cons_of_pos (by simpa using hxv)] at hv
    have hnone : pre.filter (fun e => e.2 = v) = [] :=
      List.filter_eq_nil_iff.mpr fun e he => by simpa [← hxv] using hpre e he
    rw [hnone] at hv ⊢
    exact (List.cons.inj hv).2
  · rwa [List.filter_cons_of_neg (by simpa using hxv),
      List.filter_cons_of_neg (by simpa using hxv)] at hv

end StableQueue
