/-
# Delta queues: `insertd.c`, `unsleep.c`

What one call does to a queue whose keys are the differences of delays.  `insertd` gives the new
member its delay and a place behind those with the same one, and `unsleep` takes a member out; the
delays of the others, the sums of the keys up to theirs, stay what they were.

Keys are `int32`.  `insertdChecked` is `insertd` in an arithmetic that refuses a number too large
for that, and on a queue in bounds it refuses nothing.
-/
import Xinu.SleepTime

namespace Xinu

open LinkedPath

variable {k : Kernel} {qs : Int → List Int} {p q key : Int} {xs : List Int} {t t' : QTab}

/-! ## 1. Checked arithmetic -/

/-- A number that an `int32` holds. -/
def checked (x : Int) : Option Int := if int32 x = x then some x else none

theorem checked_eq {x : Int} (h : int32 x = x) : checked x = some (int32 x) := by
  rw [checked, if_pos h, h]

/-- The search loop of `insertd`. -/
def insertdSearchChecked (t : QTab) (q : Int) : Nat → Int → Int → Int → Option (Int × Int × Int)
  | 0, _, _, _ => none
  | fuel + 1, key, prev, next =>
    if next ≠ queuetail q ∧ (t next).qkey ≤ key then do
      let key ← checked (key - (t next).qkey)
      insertdSearchChecked t q fuel key next (t next).qnext
    else some (key, prev, next)

/-- `insertd`, which gives nothing when a key cannot be computed. -/
def insertdChecked (pid q key : Int) (k : Kernel) : Option (Kernel × Int) :=
  if isbadqid q ∨ isbadpid k pid then some (k, SYSERR)
  else do
    let (key, prev, next) ←
      insertdSearchChecked k.queuetab q NQENT.toNat key (queuehead q) (firstid k.queuetab q)
    let t := linkBetween (k.queuetab.setKey pid key) pid prev next
    if next ≠ queuetail q then
      let key' ← checked ((t next).qkey - key)
      return (k.setQueue (t.setKey next key'), OK)
    return (k.setQueue t, OK)

theorem insertdSearchChecked_eq {a : Int} {fuel : Nat}
    (h : Path (fun i => (t i).qnext) (fun i => (t i).qprev) a xs (queuetail q))
    (hin : InBounds (xs.map t.entry)) (h0 : 0 ≤ key) (hkey : key ≤ maxDelay) :
    insertdSearchChecked t q fuel key a (xs.headD (queuetail q)) =
      insertdSearch t q fuel key a (xs.headD (queuetail q)) := by
  induction xs generalizing a key fuel with
  | nil =>
    cases fuel with
    | zero => rfl
    | succ n => simp [insertdSearchChecked, insertdSearch]
  | cons x xs ih =>
    cases fuel with
    | zero => rfl
    | succ n =>
      obtain ⟨hx0, hxs⟩ := DeltaList.nonNeg_cons.mp hin.nonneg
      have htotal : (t x).qkey + DeltaList.total (xs.map t.entry) ≤ maxDelay := hin.total
      have hpos := hxs.total_nonneg
      change 0 ≤ (t x).qkey at hx0
      rw [List.headD_cons, insertdSearchChecked, insertdSearch]
      by_cases hk : x ≠ queuetail q ∧ (t x).qkey ≤ key
      · have hnext : (t x).qnext = xs.headD (queuetail q) := h.2.2.next_head
        have hint : int32 (key - (t x).qkey) = key - (t x).qkey := by
          unfold maxDelay at hkey
          exact Xinu.int32_eq (by omega) (by omega)
        rw [if_pos hk, if_pos hk, checked_eq hint, hint, hnext]
        exact ih h.2.2 ⟨hxs, by omega⟩ (by omega) (by omega)
      · rw [if_neg hk, if_neg hk]

/-- **Nothing is refused**: no arithmetic of `insertd` overflows. -/
theorem insertdChecked_eq (h : Linked k.queuetab qs) (hq : IsQueue q) (hp : p ∉ qs q)
    (hin : InBounds (k.queuetab.entries q)) (h0 : 0 ≤ key) (hkey : key ≤ maxDelay) :
    insertdChecked p q key k = insertd p q key k := by
  have hpath := h.path q hq
  have hfirst : firstid k.queuetab q = (qs q).headD (queuetail q) := hpath.next_head
  rw [h.entries_map hq] at hin
  obtain ⟨key', us, vs, hs, hsearch, h1, h2, -⟩ :=
    insertdSearch_insert hpath (h.length_lt hq) (h.tail_notMem hq) hin h0 hkey
  rw [insertdChecked, insertd, hfirst, insertdSearchChecked_eq hpath hin h0 hkey, hsearch]
  by_cases hbad : isbadqid q ∨ isbadpid k p
  · rw [if_pos hbad, if_pos hbad]
  rw [if_neg hbad, if_neg hbad]
  simp only [Option.bind_eq_bind, Option.bind_some]
  cases vs with
  | nil =>
    rw [List.headD_nil, if_neg (not_not.mpr rfl), if_neg (not_not.mpr rfl)]
  | cons v vs =>
    -- the successor is a member, and its key is in bounds
    have hv : v ∈ qs q := by rw [hs]; simp
    have hvp : v ≠ p := fun e => hp (e ▸ hv)
    have hint : int32 ((k.queuetab v).qkey - key') = (k.queuetab v).qkey - key' :=
      hin.int32_eq (List.mem_map_of_mem (f := k.queuetab.entry) hv) h1 h2
    have hkeep : (linkBetween (k.queuetab.setKey p key') p (us.getLastD q) v v).qkey =
        (k.queuetab v).qkey := by
      rw [linkBetween_qkey, setKey_qkey, if_neg hvp]
    rw [List.headD_cons, hkeep, checked_eq hint]
    rfl

/-! ## 2. One call -/

/-- `p` was put on the queue with a delay of `key`. -/
structure DelayInserted (t t' : QTab) (q p key : Int) : Prop where
  bounds : InBounds (t'.entries q)
  delay : DeltaList.due p (t'.entries q) = some key
  others : ∀ x, x ≠ p → DeltaList.due x (t'.entries q) = DeltaList.due x (t.entries q)
  place : ∃ xs ys, t.members q = xs ++ ys ∧ t'.members q = xs ++ p :: ys ∧
    (∀ x ∈ xs, ∀ d, DeltaList.due x (t.entries q) = some d → d ≤ key) ∧
      ∀ y ∈ ys, ∀ d, DeltaList.due y (t.entries q) = some d → key < d

/-- `p` was taken off the queue. -/
structure DelayRemoved (t t' : QTab) (q p : Int) : Prop where
  bounds : InBounds (t'.entries q)
  gone : DeltaList.due p (t'.entries q) = none
  others : ∀ x, x ≠ p → DeltaList.due x (t'.entries q) = DeltaList.due x (t.entries q)
  order : t'.members q = (t.members q).erase p

/-- **`insertd`** does its arithmetic without overflow, and inserts a delay. -/
theorem insertd_delay (h : Linked k.queuetab qs) (hq : IsQueue q)
    (hin : InBounds (k.queuetab.entries q)) (hp : ¬ isbadpid k p)
    (hnew : ∀ q', IsQueue q' → p ∉ qs q') (h0 : 0 ≤ key) (hkey : key ≤ maxDelay) :
    ∃ t', insertd p q key k = some (k.setQueue t', OK) ∧
      insertdChecked p q key k = some (k.setQueue t', OK) ∧
      Linked t' (Function.update qs q (t'.members q)) ∧
      DelayInserted k.queuetab t' q p key := by
  obtain ⟨t', xs, ys, hi, -, hl, -⟩ := insertd_spec h hq hp hnew key
  have he : t'.entries q = DeltaList.insert p key (k.queuetab.entries q) :=
    insertd_entries h hq hp hnew hin h0 hkey hi
  have hmem := hl.members_eq hq
  rw [Function.update_self] at hmem
  have hfst := map_fst_entries k.queuetab q
  have hpq : p ∉ (k.queuetab.entries q).map Prod.fst := by
    rw [hfst, h.members_eq hq]
    exact hnew q hq
  refine ⟨t', hi, (insertdChecked_eq h hq (hnew q hq) hin h0 hkey).trans hi, hmem ▸ hl, ?_, ?_,
    fun x hx => ?_, ?_⟩
  · exact he ▸ ⟨hin.nonneg.insert h0, DeltaList.total_insert_le hkey hin.total⟩
  · rw [he]
    exact DeltaList.due_insert_self hpq
  · rw [he]
    exact DeltaList.due_insert_of_ne hx
  · have hnd : ((k.queuetab.entries q).map Prod.fst).Nodup := by
      rw [hfst, h.members_eq hq]
      exact h.nodup q hq
    have hplace := DeltaList.insert_place hin.nonneg hnd p key
    rwa [← he, map_fst_entries, map_fst_entries] at hplace

/-- **`unsleep`** takes a delay off the queue. -/
theorem unsleep_delay (h : Linked k.queuetab qs) (hq : IsQueue q)
    (hin : InBounds (k.queuetab.entries q)) (hp : ¬ isbadpid k p) (hm : p ∈ qs q)
    (hst : (k.proctab p).prstate = .sleep ∨ (k.proctab p).prstate = .rectim) :
    ∃ t', unsleep p k = (k.setQueue t', OK) ∧ Linked t' (Function.update qs q (t'.members q)) ∧
      DelayRemoved k.queuetab t' q p := by
  obtain ⟨xs, ys, hs⟩ := List.append_of_mem hm
  obtain ⟨t', hu, hl, -⟩ := unsleep_linked h hq hs hp hst
  have he := unsleep_entries h hq hm hp hst hin
  rw [hu] at he
  have hmem := hl.members_eq hq
  rw [Function.update_self] at hmem
  have hnd := h.nodup q hq
  have hpx : p ∉ xs := by
    rw [hs, List.nodup_middle] at hnd
    exact fun hx => (List.nodup_cons.mp hnd).1 (List.mem_append_left _ hx)
  have hpy : p ∉ xs ++ ys := by
    rw [hs, List.nodup_middle] at hnd
    exact (List.nodup_cons.mp hnd).1
  refine ⟨t', hu, hmem ▸ hl, ?_, ?_, fun x hx => ?_, ?_⟩
  · exact he ▸ ⟨hin.nonneg.remove, (DeltaList.total_remove_le hin.nonneg).trans hin.total⟩
  · rw [DeltaList.due_eq_none, map_fst_entries, hmem]
    exact hpy
  · exact he ▸ DeltaList.due_remove_of_ne hx
  · rw [hmem, h.members_eq hq, hs, List.erase_append_right _ hpx, List.erase_cons_head]

/-- **Delta queues.**  On every queue whose keys are not negative and add up to an `int32`,
`insertd` inserts a delay and `unsleep` removes one. -/
theorem delays_kept (h : Linked k.queuetab qs) (hq : IsQueue q)
    (hin : InBounds (k.queuetab.entries q)) :
    (∀ p key, ¬ isbadpid k p → (∀ q', IsQueue q' → p ∉ qs q') → 0 ≤ key → key ≤ maxDelay →
      ∃ t', insertd p q key k = some (k.setQueue t', OK) ∧
        insertdChecked p q key k = some (k.setQueue t', OK) ∧
        Linked t' (Function.update qs q (t'.members q)) ∧ DelayInserted k.queuetab t' q p key) ∧
    ∀ p ∈ qs q, ¬ isbadpid k p →
      (k.proctab p).prstate = .sleep ∨ (k.proctab p).prstate = .rectim →
      ∃ t', unsleep p k = (k.setQueue t', OK) ∧
        Linked t' (Function.update qs q (t'.members q)) ∧ DelayRemoved k.queuetab t' q p :=
  ⟨fun _ _ hp hnew h0 hkey => insertd_delay h hq hin hp hnew h0 hkey,
    fun _ hm hp hst => unsleep_delay h hq hin hp hm hst⟩

/-- The first process makes another one and goes to sleep. -/
def sleepFive : List Event :=
  [makeMain 20, makeProcess 30, .finish, .call (.sleepms 5)]

theorem delays_kept_sleeper :
    ∃ (k : Kernel) (t₁ t₂ : QTab), k.queuetab.entries k.sleepq = [(1, 5)] ∧
    insertd 2 k.sleepq 7 k = some (k.setQueue t₁, OK) ∧
      DelayInserted k.queuetab t₁ k.sleepq 2 7 ∧
    unsleep 1 k = (k.setQueue t₂, OK) ∧ DelayRemoved k.queuetab t₂ k.sleepq 1 := by
  have h1 : (runFromBoot sleepFive).map
    (fun s => decide (s.k.queuetab.entries s.k.sleepq = [(1, 5)] ∧
      ¬ isbadpid s.k 1 ∧ ¬ isbadpid s.k 2 ∧ (s.k.proctab 1).prstate = .sleep ∧
      (s.k.proctab 2).prstate = .susp)) = some true := by decide +kernel
  obtain ⟨s, hs, hp⟩ := Option.map_eq_some_iff.mp h1
  obtain ⟨he, hg1, hg2, hs1, hs2⟩ := of_decide_eq_true hp
  have hinv := (reachable_runFromBoot hs).inv False fun hf => hf.elim
  obtain ⟨qs, hpl⟩ := hinv.kernel.settled.placed
  have hq := hpl.queues.sleep.1
  have hin : InBounds (s.k.queuetab.entries s.k.sleepq) := by
    rw [he]
    exact ⟨by simp [DeltaList.NonNeg], by decide⟩
  have hnew : ∀ q', IsQueue q' → 2 ∉ qs q' := by
    intro q' hq' hm
    have hh := (hpl.placed 2 q' (by decide) hq' (by simp)).mp hm
    simp [home, hs2] at hh
  have hm : 1 ∈ qs s.k.sleepq := by
    refine (hpl.placed 1 _ (by decide) hq (by simp)).mpr ?_
    simp [home, hs1]
  obtain ⟨hins, hrem⟩ := delays_kept hpl.linked hq hin
  obtain ⟨t₁, h2, -, -, h3⟩ := hins 2 7 hg2 hnew (by decide) (by decide)
  obtain ⟨t₂, h4, -, h5⟩ := hrem 1 hm hg1 (.inl hs1)
  exact ⟨s.k, t₁, t₂, he, h2, h3, h4, h5⟩

end Xinu
