/-
# Delta lists

A delta list holds waiting times as differences: each entry has a key, and a member waits for
the sum of the keys up to its own.  One entry has to change when time passes, whatever the
length of the list.

`insert` and `remove` leave everybody else's time alone (`due_insert_of_ne`, `due_remove_of_ne`).
`tick` lets time pass and `rest` is the list without the members whose time is over.  Where the
first key was positive a tick brings every member one nearer to its time, and those at zero go
(`due_rest_tick`, `mem_expired_tick`).  Where it was not, the time that is still in the
list does not pass at all (`due_rest_tick_of_zero`).
-/
import Mathlib.Tactic

namespace DeltaList

variable {α : Type*}

/-- How long `p` still waits, if it is on the list. -/
def due [DecidableEq α] (p : α) : List (α × Int) → Option Int
  | [] => none
  | (x, d) :: es => if x = p then some d else (due p es).map (d + ·)

/-- The time of the last member. -/
def total : List (α × Int) → Int
  | [] => 0
  | (_, d) :: es => d + total es

/-- Put `p` on the list with a time to wait, after those with the same time. -/
def insert (p : α) : Int → List (α × Int) → List (α × Int)
  | key, [] => [(p, key)]
  | key, (x, d) :: es =>
    if d ≤ key then (x, d) :: insert p (key - d) es else (p, key) :: (x, d - key) :: es

/-- The first member gets so much more time. -/
def inherit (d : Int) : List (α × Int) → List (α × Int)
  | [] => []
  | (x, e) :: es => (x, e + d) :: es

/-- Take `p` off the list; its successor inherits its key. -/
def remove [DecidableEq α] (p : α) : List (α × Int) → List (α × Int)
  | [] => []
  | (x, d) :: es => if x = p then inherit d es else (x, d) :: remove p es

/-- Time passes. -/
abbrev tick (es : List (α × Int)) : List (α × Int) := inherit (-1) es

/-- The members at the front that have no time left. -/
abbrev expired (es : List (α × Int)) : List (α × Int) := es.takeWhile fun e => e.2 ≤ 0

/-- The list without them. -/
abbrev rest (es : List (α × Int)) : List (α × Int) := es.dropWhile fun e => e.2 ≤ 0

/-- No key is negative. -/
def NonNeg (es : List (α × Int)) : Prop := ∀ e ∈ es, 0 ≤ e.2

variable {p q x : α} {d key bound : Int} {es : List (α × Int)}

/-! ## 1. Non-negative keys -/

theorem nonNeg_cons : NonNeg ((x, d) :: es) ↔ 0 ≤ d ∧ NonNeg es := List.forall_mem_cons

theorem NonNeg.total_nonneg (h : NonNeg es) : 0 ≤ total es := by
  induction es with
  | nil => exact le_refl 0
  | cons e es ih =>
    obtain ⟨h1, h2⟩ := nonNeg_cons.mp h
    exact add_nonneg h1 (ih h2)

theorem NonNeg.inherit (h : NonNeg es) (hd : 0 ≤ d) : NonNeg (inherit d es) := by
  cases es with
  | nil => exact h
  | cons e es =>
    obtain ⟨h1, h2⟩ := nonNeg_cons.mp h
    exact nonNeg_cons.mpr ⟨add_nonneg h1 hd, h2⟩

theorem NonNeg.insert (h : NonNeg es) (hk : 0 ≤ key) : NonNeg (insert p key es) := by
  induction es generalizing key with
  | nil => exact nonNeg_cons.mpr ⟨hk, h⟩
  | cons e es ih =>
    obtain ⟨h1, h2⟩ := nonNeg_cons.mp h
    rw [DeltaList.insert]
    split_ifs with hd
    · exact nonNeg_cons.mpr ⟨h1, ih h2 (by omega)⟩
    · exact nonNeg_cons.mpr ⟨hk, nonNeg_cons.mpr ⟨by omega, h2⟩⟩

theorem total_inherit_le (hd : 0 ≤ d) : total (inherit d es) ≤ d + total es := by
  cases es with
  | nil => exact le_add_of_nonneg_left hd
  | cons e es =>
    simp only [inherit, total]
    omega

theorem total_insert_le (hk : key ≤ bound) (hb : total es ≤ bound) :
    total (insert p key es) ≤ bound := by
  induction es generalizing key bound with
  | nil =>
    simp only [insert, total]
    omega
  | cons e es ih =>
    rw [total] at hb
    rw [insert]
    split_ifs with hd
    · have := @ih (key - e.2) (bound - e.2) (by omega) (by omega)
      rw [total]
      omega
    · simp only [total]
      omega

theorem NonNeg.rest (h : NonNeg es) : NonNeg (rest es) := fun e he =>
  h e ((List.dropWhile_sublist _).mem he)

theorem NonNeg.tick (h : NonNeg ((x, d) :: es)) (hd : 0 < d) : NonNeg (tick ((x, d) :: es)) :=
  nonNeg_cons.mpr ⟨by omega, (nonNeg_cons.mp h).2⟩

theorem total_rest_le (h : NonNeg es) : total (rest es) ≤ total es := by
  induction es with
  | nil => exact le_refl _
  | cons e es ih =>
    obtain ⟨h1, h2⟩ := nonNeg_cons.mp h
    by_cases he : e.2 ≤ 0
    · rw [DeltaList.rest, List.dropWhile_cons_of_pos (by simpa using he), total]
      exact (ih h2).trans (le_add_of_nonneg_left h1)
    · rw [DeltaList.rest, List.dropWhile_cons_of_neg (by simpa using he)]

theorem NonNeg.rest_tick (h : NonNeg es) : NonNeg (DeltaList.rest (DeltaList.tick es)) := by
  cases es with
  | nil => exact h
  | cons e es =>
    obtain ⟨h1, h2⟩ := nonNeg_cons.mp h
    rcases lt_or_eq_of_le h1 with hd | hd
    · exact (h.tick hd).rest
    · rw [DeltaList.tick, DeltaList.inherit, ← hd, DeltaList.rest,
        List.dropWhile_cons_of_pos (by simp)]
      exact h2.rest

theorem total_rest_tick_le (h : NonNeg es) : total (rest (tick es)) ≤ total es := by
  cases es with
  | nil => exact le_refl _
  | cons e es =>
    obtain ⟨h1, h2⟩ := nonNeg_cons.mp h
    rcases lt_or_eq_of_le h1 with hd | hd
    · refine (total_rest_le (h.tick hd)).trans ?_
      simp only [tick, inherit, total]
      omega
    · rw [tick, inherit, ← hd, rest, List.dropWhile_cons_of_pos (by simp), total, ← hd]
      exact (total_rest_le h2).trans (by omega)

/-- The members that go and those that stay. -/
theorem drop_expired (es : List (α × Int)) : es.drop (expired es).length = rest es := by
  have h : (expired es ++ rest es).drop (expired es).length = rest es := List.drop_left
  rwa [expired, rest, List.takeWhile_append_dropWhile] at h

theorem take_expired (es : List (α × Int)) : es.take (expired es).length = expired es := by
  have h : (expired es ++ rest es).take (expired es).length = expired es := List.take_left
  rwa [expired, rest, List.takeWhile_append_dropWhile] at h

theorem total_append (es es' : List (α × Int)) : total (es ++ es') = total es + total es' := by
  induction es with
  | nil => simp [total]
  | cons e es ih =>
    rw [List.cons_append, total, total, ih]
    omega

/-- A key is no larger than the time of the last member. -/
theorem NonNeg.key_le {e : α × Int} (h : NonNeg es) (he : e ∈ es) : e.2 ≤ total es := by
  induction es with
  | nil => simp at he
  | cons x es ih =>
    obtain ⟨h1, h2⟩ := nonNeg_cons.mp h
    have h3 := h2.total_nonneg
    rw [total]
    rcases List.mem_cons.mp he with rfl | he
    · omega
    · have := ih h2 he
      omega

/-! ## 2. Inserting and removing -/

variable [DecidableEq α]

theorem NonNeg.remove (h : NonNeg es) : NonNeg (remove p es) := by
  induction es with
  | nil => exact h
  | cons e es ih =>
    obtain ⟨h1, h2⟩ := nonNeg_cons.mp h
    rw [DeltaList.remove]
    split_ifs
    · exact h2.inherit h1
    · exact nonNeg_cons.mpr ⟨h1, ih h2⟩

theorem total_remove_le (h : NonNeg es) : total (remove p es) ≤ total es := by
  induction es with
  | nil => exact le_refl _
  | cons e es ih =>
    obtain ⟨h1, h2⟩ := nonNeg_cons.mp h
    rw [remove]
    split_ifs
    · exact total_inherit_le h1
    · exact add_le_add_right (ih h2) _

/-- A member waits no longer than the last. -/
theorem NonNeg.due_le (h : NonNeg es) (hp : due p es = some d) : 0 ≤ d ∧ d ≤ total es := by
  induction es generalizing d with
  | nil => simp [due] at hp
  | cons e es ih =>
    obtain ⟨h1, h2⟩ := nonNeg_cons.mp h
    have h3 := h2.total_nonneg
    rw [due] at hp
    rw [total]
    split_ifs at hp with hx
    · obtain rfl := Option.some.inj hp
      omega
    · obtain ⟨d', hd, rfl⟩ := Option.map_eq_some_iff.mp hp
      have := ih h2 hd
      omega

theorem due_eq_none : due p es = none ↔ p ∉ es.map Prod.fst := by
  induction es with
  | nil => simp [due]
  | cons e es ih =>
    rw [due]
    split_ifs with hx
    · simp [hx]
    · simp [ih, Ne.symm hx]

theorem due_ne_none : due p es ≠ none ↔ p ∈ es.map Prod.fst := by
  rw [Ne, due_eq_none, not_not]

/-- Where `remove` finds its member. -/
theorem remove_mid {xs : List (α × Int)} (hp : p ∉ xs.map Prod.fst) :
    remove p (xs ++ (p, d) :: es) = xs ++ inherit d es := by
  induction xs with
  | nil => exact if_pos rfl
  | cons e xs ih =>
    simp only [List.map_cons, List.mem_cons, not_or] at hp
    rw [List.cons_append, remove, if_neg (Ne.symm hp.1), ih hp.2, List.cons_append]

/-- The new member waits its time. -/
theorem due_insert_self (hp : p ∉ es.map Prod.fst) : due p (insert p key es) = some key := by
  induction es generalizing key with
  | nil => simp [insert, due]
  | cons e es ih =>
    simp only [List.map_cons, List.mem_cons, not_or] at hp
    rw [insert]
    split_ifs with hd
    · rw [due, if_neg (Ne.symm hp.1), ih hp.2, Option.map_some, add_sub_cancel]
    · rw [due, if_pos rfl]

/-- **A new member moves nobody else's time.** -/
theorem due_insert_of_ne (hq : q ≠ p) : due q (insert p key es) = due q es := by
  induction es generalizing key with
  | nil => simp [insert, due, Ne.symm hq]
  | cons e es ih =>
    rw [insert]
    split_ifs with hd
    · rw [due, due, ih]
    · rw [due, if_neg (Ne.symm hq), due, due]
      split_ifs
      · simp
      · rw [Option.map_map]
        refine congrArg (fun f => (due q es).map f) (funext fun a => ?_)
        simp only [Function.comp_apply]
        omega

/-- **The place of a new member**: behind those that wait as long or less. -/
theorem insert_place (h : NonNeg es) (hnd : (es.map Prod.fst).Nodup) (p : α) (key : Int) :
    ∃ xs ys, es.map Prod.fst = xs ++ ys ∧ (insert p key es).map Prod.fst = xs ++ p :: ys ∧
      (∀ x ∈ xs, ∀ d, due x es = some d → d ≤ key) ∧ ∀ y ∈ ys, ∀ d, due y es = some d →
        key < d := by
  induction es generalizing key with
  | nil => exact ⟨[], [], rfl, rfl, by simp, by simp⟩
  | cons e es ih =>
    obtain ⟨h1, h2⟩ := nonNeg_cons.mp h
    obtain ⟨he, hnd⟩ := List.nodup_cons.mp hnd
    -- the times of the others behind the first
    have hlater : ∀ x ∈ es.map Prod.fst, ∀ d, due x (e :: es) = some d →
        due x es = some (d - e.2) := by
      intro x hx d hd
      have hne : e.1 ≠ x := fun heq => he (heq ▸ hx)
      rw [due, if_neg hne] at hd
      obtain ⟨d', hd', rfl⟩ := Option.map_eq_some_iff.mp hd
      rw [hd', add_sub_cancel_left]
    rw [insert]
    by_cases hle : e.2 ≤ key
    · obtain ⟨xs, ys, hs, hins, hxs, hys⟩ := ih h2 hnd (key - e.2)
      rw [if_pos hle]
      refine ⟨e.1 :: xs, ys, by rw [List.map_cons, hs]; rfl, by rw [List.map_cons, hins]; rfl,
        fun x hx d hd => ?_, fun y hy d hd => ?_⟩
      · rcases List.mem_cons.mp hx with rfl | hx
        · rw [due, if_pos rfl] at hd
          exact Option.some.inj hd ▸ hle
        · have := hxs x hx _ (hlater x (hs ▸ List.mem_append_left _ hx) d hd)
          omega
      · have := hys y hy _ (hlater y (hs ▸ List.mem_append_right _ hy) d hd)
        omega
    · rw [if_neg hle]
      refine ⟨[], e.1 :: es.map Prod.fst, rfl, rfl, by simp, fun y hy d hd => ?_⟩
      rcases List.mem_cons.mp hy with rfl | hy
      · rw [due, if_pos rfl] at hd
        have := Option.some.inj hd
        omega
      · have := (h2.due_le (hlater y hy d hd)).1
        omega

theorem due_inherit : due q (inherit d es) = (due q es).map (· + d) := by
  cases es with
  | nil => rfl
  | cons e es =>
    rw [inherit, due, due]
    split_ifs
    · rfl
    · rw [Option.map_map]
      refine congrArg (fun f => (due q es).map f) (funext fun a => ?_)
      simp only [Function.comp_apply]
      omega

/-- **Taking a member off the list moves nobody else's time.** -/
theorem due_remove_of_ne (hq : q ≠ p) : due q (remove p es) = due q es := by
  induction es with
  | nil => rfl
  | cons e es ih =>
    rw [remove]
    split_ifs with hx
    · subst hx
      rw [due_inherit, due, if_neg (Ne.symm hq)]
      exact congrArg (fun f => (due q es).map f) (funext fun a => add_comm a _)
    · rw [due, due, ih]

/-! ## 3. Time passes -/

/-- The members that stay wait as before. -/
theorem due_rest (h : NonNeg es) (hp : p ∉ (expired es).map Prod.fst) :
    due p (rest es) = due p es := by
  induction es with
  | nil => rfl
  | cons e es ih =>
    obtain ⟨h1, h2⟩ := nonNeg_cons.mp h
    by_cases he : e.2 ≤ 0
    · rw [expired, List.takeWhile_cons_of_pos (by simpa using he), List.map_cons, List.mem_cons,
        not_or] at hp
      have hz : e.2 = 0 := le_antisymm he h1
      rw [rest, List.dropWhile_cons_of_pos (by simpa using he), due, if_neg (Ne.symm hp.1),
        ih h2 hp.2, hz]
      simp
    · rw [rest, List.dropWhile_cons_of_neg (by simpa using he)]

/-- The members that go are those with no time left. -/
theorem mem_expired (h : NonNeg es) : p ∈ (expired es).map Prod.fst ↔ due p es = some 0 := by
  induction es with
  | nil => simp [due]
  | cons e es ih =>
    obtain ⟨h1, h2⟩ := nonNeg_cons.mp h
    by_cases he : e.2 ≤ 0
    · have hz : e.2 = 0 := le_antisymm he h1
      rw [expired, List.takeWhile_cons_of_pos (by simpa using he), List.map_cons, List.mem_cons,
        ih h2, due, hz]
      split_ifs with hx
      · simp [hx]
      · simp [Ne.symm hx]
    · rw [expired, List.takeWhile_cons_of_neg (by simpa using he), due]
      split_ifs with hx
      · simpa using fun e' : e.2 = 0 => he (le_of_eq e')
      · refine iff_of_false (by simp) fun e' => ?_
        obtain ⟨a, ha, hs⟩ := Option.map_eq_some_iff.mp e'
        have := (h2.due_le ha).1
        omega

/-- **A tick takes one from everybody's time**, and those at zero go. -/
theorem mem_expired_tick (h : NonNeg ((x, d) :: es)) (hd : 0 < d) :
    p ∈ (expired (tick ((x, d) :: es))).map Prod.fst ↔ due p ((x, d) :: es) = some 1 := by
  rw [mem_expired (h.tick hd), tick, due_inherit, Option.map_eq_some_iff]
  refine ⟨fun ⟨a, ha, hs⟩ => ?_, fun ha => ⟨1, ha, by simp⟩⟩
  rw [ha]
  congr 1
  omega

theorem due_rest_tick (h : NonNeg ((x, d) :: es)) (hd : 0 < d)
    (hp : p ∉ (expired (tick ((x, d) :: es))).map Prod.fst) :
    due p (rest (tick ((x, d) :: es))) = (due p ((x, d) :: es)).map (· - 1) :=
  (due_rest (h.tick hd) hp).trans due_inherit

/-- **With a zero key in front a tick takes nothing from anybody's time.** -/
theorem due_rest_tick_of_zero (h : NonNeg es)
    (hp : p ∉ (expired (tick ((x, 0) :: es))).map Prod.fst) :
    due p (rest (tick ((x, 0) :: es))) = due p ((x, 0) :: es) := by
  simp only [tick, inherit, expired, rest] at hp ⊢
  rw [List.takeWhile_cons_of_pos (by simp), List.map_cons, List.mem_cons, not_or] at hp
  rw [List.dropWhile_cons_of_pos (by simp), due, if_neg (Ne.symm hp.1)]
  rw [due_rest h hp.2]
  simp

/-- Those without any time left go all the same. -/
theorem mem_expired_tick_of_zero (h : NonNeg es) :
    p ∈ (expired (tick ((x, 0) :: es))).map Prod.fst ↔ due p ((x, 0) :: es) = some 0 := by
  simp only [tick, inherit, expired]
  rw [List.takeWhile_cons_of_pos (by simp), List.map_cons, List.mem_cons, mem_expired h, due]
  split_ifs with hx
  · simp [hx]
  · simp [Ne.symm hx]

end DeltaList
