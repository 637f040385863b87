/-
# Singly linked chains

`Walk next a xs b`: following `next` from `a` visits exactly `xs` and stops at `b`.  A list that
ends in a null pointer is a walk to the null pointer, and a doubly linked list is two walks.
Nothing is said about `next` elsewhere, so many chains can stand in one memory.

`search` is the loop that follows a chain and looks for a node.  On a walk it finds what
`List.find?` finds in the list (`search_walk`).
-/
import Xinu.Lib.LinkedPath

namespace Chains

open LinkedPath

variable {ι α : Type*}

/-! ## 1. Walks

A walk is a list of links, one for each member.  Its rules are those of a list segment: it depends
on its members only, and may be taken apart and put together where one part ends and the next one
begins. -/

/-- From `a` through `xs` to `b`. -/
def Walk (next : ι → ι) : ι → List ι → ι → Prop
  | a, [], b => a = b
  | a, x :: xs, b => a = x ∧ Walk next (next x) xs b

/-- A walk can be tested. -/
instance Walk.decidable [DecidableEq ι] (next : ι → ι) :
    ∀ (a : ι) (xs : List ι) (b : ι), Decidable (Walk next a xs b)
  | a, [], b => inferInstanceAs (Decidable (a = b))
  | a, x :: xs, b =>
    have := Walk.decidable next (next x) xs b
    inferInstanceAs (Decidable (a = x ∧ Walk next (next x) xs b))

variable {next next' prev : ι → ι} {a b : ι} {xs ys : List ι}

/-- **Frame rule.**  A walk reads the links of its members only. -/
theorem Walk.congr (h : Walk next a xs b) (hn : ∀ x ∈ xs, next' x = next x) :
    Walk next' a xs b := by
  induction xs generalizing a with
  | nil => exact h
  | cons x xs ih =>
    refine ⟨h.1, ?_⟩
    rw [hn x (by simp)]
    exact ih h.2 fun y hy => hn y (List.mem_cons_of_mem _ hy)

theorem Walk.frame [DecidableEq ι] {x v : ι} (h : Walk next a xs b) (hx : x ∉ xs) :
    Walk (Function.update next x v) a xs b :=
  h.congr fun _ hi => Function.update_of_ne (ne_of_mem_of_not_mem hi hx) ..

theorem walk_append :
    Walk next a (xs ++ ys) b ↔ ∃ c, Walk next a xs c ∧ Walk next c ys b := by
  induction xs generalizing a with
  | nil => simp [Walk]
  | cons x xs ih =>
    simp only [List.cons_append, Walk, ih]
    constructor
    · rintro ⟨rfl, c, h1, h2⟩
      exact ⟨c, ⟨rfl, h1⟩, h2⟩
    · rintro ⟨c, ⟨rfl, h1⟩, h2⟩
      exact ⟨rfl, c, h1, h2⟩

/-- The first index of a walk. -/
theorem Walk.head (h : Walk next a xs b) : xs.headD b = a := by
  cases xs with
  | nil => exact Eq.symm h
  | cons x xs => exact h.1.symm

/-- A walk that ends outside its members has only one way to go. -/
theorem Walk.unique (h : Walk next a xs b) (h' : Walk next a ys b) (hx : b ∉ xs) (hy : b ∉ ys) :
    xs = ys := by
  induction xs generalizing a ys with
  | nil =>
    cases ys with
    | nil => rfl
    | cons y ys =>
      have hb : y = b := h'.1.symm.trans h
      exact absurd (by simp [hb]) hy
  | cons x xs ih =>
    cases ys with
    | nil =>
      have hb : x = b := h.1.symm.trans h'
      exact absurd (by simp [hb]) hx
    | cons y ys =>
      obtain ⟨rfl, h⟩ := h
      obtain ⟨rfl, h'⟩ := h'
      rw [ih h h' (fun e => hx (List.mem_cons_of_mem _ e)) fun e => hy (List.mem_cons_of_mem _ e)]

/-- It visits no index twice, for then it would go round for ever. -/
theorem Walk.nodup (h : Walk next a xs b) (hb : b ∉ xs) : xs.Nodup := by
  induction xs generalizing a with
  | nil => exact List.nodup_nil
  | cons x xs ih =>
    refine List.nodup_cons.mpr ⟨fun hx => ?_, ih h.2 fun e => hb (List.mem_cons_of_mem _ e)⟩
    obtain ⟨ys, zs, rfl⟩ := List.append_of_mem hx
    obtain ⟨c, -, h2⟩ := walk_append.mp h.2
    obtain ⟨rfl, h2⟩ := h2
    -- two walks from the second visit, one longer than the other
    have heq : zs = ys ++ c :: zs :=
      h2.unique h.2 (fun e => hb (by simp [e])) fun e => hb (by simp [e])
    have hlen := congrArg List.length heq
    simp only [List.length_append, List.length_cons] at hlen
    omega

/-- The last member is sent elsewhere, wherever that is. -/
theorem Walk.redirect {g : ι → ι} (h : Walk next a (a :: xs) b) (hnd : (a :: xs).Nodup)
    (hn : ∀ x ∈ a :: xs, x ≠ xs.getLastD a → g x = next x) :
    Walk g a (a :: xs) (g (xs.getLastD a)) := by
  induction xs generalizing a with
  | nil => exact ⟨rfl, rfl⟩
  | cons x xs ih =>
    rw [List.getLastD_cons] at hn ⊢
    have hax : a ≠ xs.getLastD x := by
      intro e
      refine (List.nodup_cons.mp hnd).1 ?_
      rw [e]
      exact getLastD_mem xs x
    obtain ⟨-, hx, h⟩ := h
    refine ⟨rfl, ?_⟩
    rw [hn a (by simp) hax, hx]
    exact ih ⟨rfl, h⟩ (List.nodup_cons.mp hnd).2 fun y hy => hn y (List.mem_cons_of_mem _ hy)

/-- **Splice rule.**  The last member of the front part is sent another way. -/
theorem Walk.splice {zs : List ι} (h : Walk next a (a :: xs ++ ys) b) (hnd : (a :: xs).Nodup)
    (hn : ∀ x ∈ a :: xs, x ≠ xs.getLastD a → next' x = next x)
    (hz : Walk next' (next' (xs.getLastD a)) zs b) : Walk next' a (a :: xs ++ zs) b := by
  obtain ⟨c, hfront, -⟩ := walk_append.mp h
  exact walk_append.mpr ⟨_, hfront.redirect hnd hn, hz⟩

/-- What follows the front part. -/
theorem Walk.rest (h : Walk next a (a :: xs ++ ys) b) : Walk next (next (xs.getLastD a)) ys b := by
  induction xs generalizing a with
  | nil => exact h.2
  | cons x xs ih =>
    rw [List.getLastD_cons]
    obtain ⟨-, rfl, h⟩ := h
    exact ih ⟨rfl, h⟩

/-- **Unlinking a member.**  The link before it takes over its own. -/
theorem Walk.unlink {p : ι} (h : Walk next a (a :: xs ++ p :: ys) b)
    (hnd : (a :: xs ++ p :: ys).Nodup)
    (hn : ∀ x ∈ a :: xs ++ ys, x ≠ xs.getLastD a → next' x = next x)
    (hp : next' (xs.getLastD a) = next p) : Walk next' a (a :: xs ++ ys) b := by
  obtain ⟨h1, -, h3⟩ := List.nodup_append.mp hnd
  refine h.splice h1 (fun x hx => hn x (List.mem_append_left _ hx)) ?_
  rw [hp]
  refine h.rest.2.congr fun y hy => hn y (List.mem_append_right _ hy) ?_
  exact (h3 _ (getLastD_mem xs a) y (List.mem_cons_of_mem _ hy)).symm

/-- A doubly linked list is a walk along the successors, -/
theorem walk_of_path (h : Path next prev a xs b) : Walk next (next a) xs b := by
  induction xs generalizing a with
  | nil => exact h.1
  | cons x xs ih => exact ⟨h.1, ih h.2.2⟩

/-- and a walk back along the predecessors. -/
theorem walk_back_of_path (h : Path next prev a xs b) : Walk prev (prev b) xs.reverse a := by
  induction xs generalizing a with
  | nil => exact h.2
  | cons x xs ih =>
    rw [List.reverse_cons, walk_append]
    exact ⟨x, ih h.2.2, rfl, h.2.1⟩

/-- Counting along a walk: the `k`-th index of a function that follows the links and stays at the
end is the `k`-th member. -/
theorem Walk.get {f : Nat → ι} [DecidableEq ι] (h : Walk next a xs b) (hb : b ∉ xs) (h0 : f 0 = a)
    (hs : ∀ k, f (k + 1) = if f k = b then b else next (f k)) (k : Nat) : f k = xs[k]?.getD b := by
  induction xs generalizing a f k with
  | nil =>
    rw [List.getElem?_nil, Option.getD_none]
    induction k with
    | zero => exact h0.trans h
    | succ k ih => rw [hs, if_pos ih]
  | cons x xs ih =>
    obtain ⟨rfl, h⟩ := h
    cases k with
    | zero => exact h0
    | succ k =>
      rw [List.getElem?_cons_succ]
      refine ih (f := fun k => f (k + 1)) h (fun e => hb (List.mem_cons_of_mem _ e)) ?_
        (fun k => hs (k + 1)) k
      rw [hs, h0, if_neg fun e => hb (by simp [e])]

/-- Such a function visits the members and no others. -/
theorem Walk.visits {f : Nat → ι} [DecidableEq ι] (h : Walk next a xs b) (hb : b ∉ xs)
    (h0 : f 0 = a) (hs : ∀ k, f (k + 1) = if f k = b then b else next (f k)) (P : ι → Prop) :
    (∃ k, f k ≠ b ∧ P (f k)) ↔ ∃ x ∈ xs, P x := by
  constructor
  · rintro ⟨k, hne, hP⟩
    rw [h.get hb h0 hs k] at hne hP
    cases hget : xs[k]? with
    | none => exact absurd (by simp [hget]) hne
    | some x =>
      rw [hget, Option.getD_some] at hP
      exact ⟨x, List.mem_of_getElem? hget, hP⟩
  · rintro ⟨x, hx, hP⟩
    obtain ⟨k, hk⟩ := List.getElem?_of_mem hx
    refine ⟨k, ?_⟩
    rw [h.get hb h0 hs k, hk, Option.getD_some]
    exact ⟨fun e => hb (e ▸ hx), hP⟩

/-! ## 2. Following a chain to its end

A program that follows links does not have the list.  It comes to the end when the chain does not
return to a node, and then the chain is a walk (`onward_iff`), if there are finitely many nodes. -/

/-- From `a` on, the links lead to new nodes only, until they lead to `b`. -/
def Onward (next : ι → ι) (a b : ι) : Prop := ∀ xs c, Walk next a xs c → b ∉ xs → c ∉ xs

/-- What is reached from `a` before `b`. -/
def Passes (next : ι → ι) (a b x : ι) : Prop := ∃ xs, Walk next a xs x ∧ b ∉ xs ∧ x ≠ b

/-- A chain that is at its end already. -/
theorem onward_self : Onward next a a := by
  intro xs c h hb hc
  cases xs with
  | nil => exact absurd hc (by simp)
  | cons x xs => exact hb (by simp [h.1])

theorem not_passes_self {x : ι} : ¬ Passes next a a x := by
  rintro ⟨xs, h, hb, hx⟩
  cases xs with
  | nil => exact hx (Eq.symm h)
  | cons y xs => exact hb (by simp [h.1])

/-- One walk is the beginning of the other. -/
theorem Walk.prefix_or {c : ι} (h : Walk next a xs b) (h' : Walk next a ys c) (hb : b ∉ ys) :
    ∃ zs, xs = ys ++ zs ∧ Walk next c zs b := by
  induction ys generalizing a xs with
  | nil => exact ⟨xs, rfl, (show a = c from h') ▸ h⟩
  | cons y ys ih =>
    obtain ⟨rfl, h'⟩ := h'
    cases xs with
    | nil => exact absurd (show a = b from h) fun e => hb (by simp [e])
    | cons x xs =>
      obtain ⟨rfl, h⟩ := h
      obtain ⟨zs, rfl, hz⟩ := ih h h' fun e => hb (List.mem_cons_of_mem _ e)
      exact ⟨zs, rfl, hz⟩

theorem Walk.passes {x : ι} (h : Walk next a xs b) (hb : b ∉ xs) (hx : x ∈ xs) :
    Passes next a b x := by
  obtain ⟨ys, zs, rfl⟩ := List.append_of_mem hx
  obtain ⟨c, h1, rfl, -⟩ := walk_append.mp h
  exact ⟨ys, h1, fun e => hb (by simp [e]), fun e => hb (by simp [e])⟩

theorem Walk.end_mem {S : Finset ι} (h : Walk next a xs b) (ha : a ∈ S) (hS : ∀ x, next x ∈ S) :
    b ∈ S := by
  induction xs generalizing a with
  | nil => exact (show a = b from h) ▸ ha
  | cons x xs ih => exact ih h.2 (hS x)

/-- **In a finite set, a chain that does not return comes to its end.** -/
theorem onward_iff {S : Finset ι} (ha : a ∈ S) (hS : ∀ x, next x ∈ S) :
    Onward next a b ↔ ∃ xs, Walk next a xs b ∧ b ∉ xs := by
  constructor
  · intro hon
    by_contra hend
    -- longer and longer walks through different nodes
    have hlong : ∀ n, ∃ xs c, xs.length = n ∧ Walk next a xs c ∧ b ∉ xs ∧ xs.Nodup ∧
        (∀ x ∈ xs, x ∈ S) ∧ c ∈ S := by
      intro n
      induction n with
      | zero => exact ⟨[], a, rfl, rfl, by simp, .nil, by simp, ha⟩
      | succ n ih =>
        obtain ⟨xs, c, hlen, hw, hb, hnd, hin, hc⟩ := ih
        have hcb : c ≠ b := fun e => hend ⟨xs, e ▸ hw, hb⟩
        refine ⟨xs ++ [c], next c, by simp [hlen], walk_append.mpr ⟨c, hw, rfl, rfl⟩, ?_, ?_, ?_,
          hS c⟩
        · simpa [hb] using hcb.symm
        · exact List.nodup_append.mpr ⟨hnd, List.nodup_singleton c, by
            rintro x hx y hy rfl
            exact hon xs c hw hb ((List.mem_singleton.mp hy) ▸ hx)⟩
        · intro x hx
          rcases List.mem_append.mp hx with hx | hx
          · exact hin x hx
          · exact (List.mem_singleton.mp hx) ▸ hc
    classical
    obtain ⟨xs, c, hlen, -, -, hnd, hin, -⟩ := hlong (S.card + 1)
    have hcard : xs.toFinset.card ≤ S.card :=
      Finset.card_le_card fun x hx => hin x (List.mem_toFinset.mp hx)
    rw [List.toFinset_card_of_nodup hnd, hlen] at hcard
    omega
  · rintro ⟨xs, hw, hb⟩ ys c hy hby hc
    have hbb : b ∉ ys := hby
    obtain ⟨zs, rfl, hz⟩ := hw.prefix_or hy hbb
    have hnd := hw.nodup hb
    cases zs with
    | nil => exact hby ((show c = b from hz) ▸ hc)
    | cons z zs =>
      obtain ⟨rfl, -⟩ := hz
      exact (List.nodup_append.mp hnd).2.2 c hc c (by simp) rfl

section Follow

variable [DecidableEq ι]

/-- The loop that follows links from `a` to `stop` and counts them; `get k` reads the link of the
`k`-th node.  After `n` steps it is given up. -/
def follow (get : Nat → ι → ι) (stop : ι) : Nat → Nat → ι → Option Nat
  | 0, _, _ => none
  | n + 1, count, a => if a = stop then some count else follow get stop n (count + 1) (get count a)

variable {get : Nat → ι → ι} {k : Nat}

/-- A node that is its own successor is never left. -/
theorem follow_stuck {n : Nat} (hab : a ≠ b) (h : ∀ j, get j a = a) :
    follow get b n k a = none := by
  induction n generalizing k with
  | zero => rfl
  | succ n ih =>
    rw [follow, if_neg hab, h]
    exact ih

theorem follow_more {n r : Nat} (h : follow get b n k a = some r) (m : Nat) :
    follow get b (n + m) k a = some r := by
  induction n generalizing a k with
  | zero => exact nomatch h
  | succ n ih =>
    rw [follow] at h
    rw [Nat.add_right_comm, follow]
    split_ifs at h ⊢
    · exact h
    · exact ih h

/-- The loop along a walk whose links it reads as they are. -/
theorem follow_walk {c : ι} {xs : List ι} {n : Nat} (h : Walk next a xs c) (hb : b ∉ xs)
    (hget : ∀ j, ∀ x ∈ xs, get j x = next x) :
    follow get b (xs.length + n) k a = follow get b n (k + xs.length) c := by
  induction xs generalizing a k with
  | nil => rw [(show a = c from h), List.length_nil, Nat.zero_add, Nat.add_zero]
  | cons x xs ih =>
    obtain ⟨rfl, h⟩ := h
    rw [List.length_cons, Nat.add_right_comm, follow, if_neg fun e => hb (by simp [e]),
      hget k a (by simp), ih h (fun e => hb (List.mem_cons_of_mem _ e))
        fun j x hx => hget j x (List.mem_cons_of_mem _ hx)]
    congr 1
    omega

/-- The loop reaches its end along a walk only. -/
theorem walk_of_follow {n r : Nat} (h : follow get b n k a = some r)
    (hget : ∀ j x, Passes next a b x → get j x = next x) :
    ∃ xs, Walk next a xs b ∧ b ∉ xs ∧ r = k + xs.length := by
  induction n generalizing a k with
  | zero => exact nomatch h
  | succ n ih =>
    rw [follow] at h
    split_ifs at h with he
    · exact ⟨[], he, by simp, by simpa using h.symm⟩
    · rw [hget k a ⟨[], rfl, by simp, he⟩] at h
      obtain ⟨xs, hw, hb, rfl⟩ := ih h fun j x => by
        rintro ⟨ys, hy, hby, hx⟩
        exact hget j x ⟨a :: ys, ⟨rfl, hy⟩, by simpa [hby] using Ne.symm he, hx⟩
      exact ⟨a :: xs, ⟨rfl, hw⟩, by simpa [hb] using Ne.symm he, by simp; omega⟩

/-- **When the loop comes to its end whatever it reads in place of the links of bad nodes**: it
passes no bad node, and no node twice. -/
theorem follow_always_iff {S : Finset ι} {bad : ι → Prop} [DecidablePred bad] (ha : a ∈ S)
    (hS : ∀ x, next x ∈ S) :
    (∀ stray : Nat → ι, (∀ j, stray j ∈ S) →
        ∃ n, follow (fun j x => if bad x then stray j else next x) b n 0 a ≠ none) ↔
      Onward next a b ∧ ∀ x, Passes next a b x → ¬ bad x := by
  constructor
  · intro hall
    have hgood : ∀ x, Passes next a b x → ¬ bad x := by
      rintro x ⟨xs, hw, hb, hx⟩ hbad
      -- the first bad node on the way is read as its own successor
      obtain ⟨d, hd⟩ : ∃ d, (xs ++ [x]).find? (fun y => decide (bad y)) = some d :=
        Option.isSome_iff_exists.mp (List.find?_isSome.mpr ⟨x, by simp, by simpa using hbad⟩)
      obtain ⟨hdbad, ys, zs, hsplit, hbefore⟩ := List.find?_eq_some_iff_append.mp hd
      have hwalk : Walk next a (ys ++ d :: zs) (next x) := by
        rw [← hsplit]
        exact walk_append.mpr ⟨x, hw, rfl, rfl⟩
      obtain ⟨c, hy, rfl, -⟩ := walk_append.mp hwalk
      have hnot : b ∉ ys ++ c :: zs := by
        rw [← hsplit]
        simpa [hb] using hx.symm
      have hcS : c ∈ S := hy.end_mem ha fun y => hS y
      obtain ⟨n, hn⟩ := hall (fun _ => c) fun _ => hcS
      have hstuck : ∀ n k, follow (fun _ x => if bad x then c else next x) b n k c = none :=
        fun _ _ => follow_stuck (fun e => hnot (by simp [e])) fun _ => if_pos (by simpa using hdbad)
      refine hn ?_
      by_contra hsome
      obtain ⟨r, hr⟩ := Option.ne_none_iff_exists'.mp hsome
      have hrun := @follow_walk _ next _ b _ (fun _ x => if bad x then c else next x) 0 _ _ n hy
        (fun e => hnot (List.mem_append_left _ e)) fun _ x hx =>
          if_neg (by simpa using hbefore x hx)
      rw [hstuck, Nat.add_comm, follow_more hr] at hrun
      exact nomatch hrun
    refine ⟨(onward_iff ha hS).mpr ?_, hgood⟩
    obtain ⟨n, hn⟩ := hall (fun _ => a) fun _ => ha
    obtain ⟨r, hr⟩ := Option.ne_none_iff_exists'.mp hn
    obtain ⟨xs, hw, hb, -⟩ := walk_of_follow hr fun j x hx => if_neg (hgood x hx)
    exact ⟨xs, hw, hb⟩
  · rintro ⟨hon, hgood⟩ stray -
    obtain ⟨xs, hw, hb⟩ := (onward_iff ha hS).mp hon
    refine ⟨xs.length + 1, ?_⟩
    rw [follow_walk hw hb fun _ x hx => if_neg (hgood x (hw.passes hb hx)), follow, if_pos rfl]
    exact Option.some_ne_none _

end Follow

/-! ## 3. Searching

A search is lost when it reads a link that belongs to no node, and it goes on for ever in a
circle.  On a walk through nodes neither happens. -/

/-- Follow `next` from `a` to the first node that passes the test, or to `stop`.  Outside nodes the
search is lost, and after `n` steps it is given up. -/
def search [DecidableEq ι] (next : ι → ι) (node : ι → Option α) (test : α → Bool) (stop : ι) :
    Nat → ι → Option (Option α)
  | 0, _ => none
  | n + 1, a =>
    if a = stop then some none
    else (node a).bind fun x =>
      if test x then some (some x) else search next node test stop n (next a)

variable [DecidableEq ι] {node : ι → Option α} {test : α → Bool} {ptr : α → ι} {stop : ι} {n : Nat}

/-- **On a walk the search finds the first member that passes the test.** -/
theorem search_walk {as : List α} (h : Walk next a (as.map ptr) stop)
    (hnode : ∀ x, node (ptr x) = some x) (hstop : ∀ x ∈ as, ptr x ≠ stop) (hn : as.length < n) :
    search next node test stop n a = some (as.find? test) := by
  induction as generalizing a n with
  | nil =>
    cases n with
    | zero => exact absurd hn (by simp)
    | succ n => exact if_pos (show a = stop from h)
  | cons x as ih =>
    cases n with
    | zero => exact absurd hn (by simp)
    | succ n =>
      obtain ⟨rfl, h⟩ := h
      have hrest := ih h (fun y hy => hstop y (List.mem_cons_of_mem _ hy))
        (by simpa using hn)
      rw [search, if_neg (hstop x (by simp)), hnode, Option.bind_some, List.find?_cons, hrest]
      cases test x <;> rfl

/-- When the first and the last that pass the test are the same, no other passes it. -/
theorem only_of_both_ends {as : List α} {x : α} (hnd : as.Nodup) (hf : as.find? test = some x)
    (hb : as.reverse.find? test = some x) {y : α} (hy : y ∈ as) (ht : test y) : y = x := by
  obtain ⟨-, xs₁, xs₂, hxs, hbefore⟩ := List.find?_eq_some_iff_append.mp hf
  obtain ⟨-, ys₁, ys₂, hys, hbehind⟩ := List.find?_eq_some_iff_append.mp hb
  have hrev : as = ys₂.reverse ++ x :: ys₁.reverse := by
    rw [← as.reverse_reverse, hys]
    simp
  rw [hxs] at hnd hy
  obtain ⟨hx, -⟩ := List.nodup_cons.mp (List.nodup_middle.mp hnd)
  obtain ⟨-, -, heq⟩ := (List.append_cons_inj_of_notMem (fun h => hx (List.mem_append_left _ h))
    fun h => hx (List.mem_append_right _ h)).mp (hxs.symm.trans hrev)
  rcases List.mem_append.mp hy with h1 | h2
  · exact absurd ht (by simpa using hbefore y h1)
  rcases List.mem_cons.mp h2 with rfl | h2
  · rfl
  · rw [heq] at h2
    exact absurd ht (by simpa using hbehind y (List.mem_reverse.mp h2))

end Chains
