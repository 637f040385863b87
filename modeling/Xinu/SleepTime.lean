/-
# When a sleeper wakes: `sleep.c`, `recvtime.c`, `insertd.c`, `unsleep.c`, `clkhandler.c`

The sleep queue is a delta list.  A calendar tells for every process asleep in `sleepms` how many
ticks are left to it: the call enters its argument, each tick takes one from everybody, and whoever
is killed is struck out.  No call by anybody else touches an entry, so a caller of `sleepms(n)` that
nobody kills has its turn at the `n`-th tick.

The queue agrees with the calendar as long as no tick finds a key of zero in front
(`sleeps_on_time`).  `recvtime(0)` puts one there: `clkhandler` then counts that key down instead of
the next one, and everybody else sleeps a tick longer (`sleeper_late`).

The agreement of queue and calendar is one equation for each sleeper: what the calendar has for it
is the sum of the keys up to its own.  Inserting, removing and counting down keep it by the rules
for delta lists of the library, and the code is compared with these operations on the entries of
the queue (sections 1 and 3).
-/
import Xinu.Lib.DeltaList
import Xinu.QueueFrame

namespace Xinu

open LinkedPath

variable {strict : Prop} {k k' : Kernel} {qs : Int → List Int} {p q key : Int} {xs : List Int}
  {t : QTab}

/-! ## 1. The sleep queue is a delta list

`insertd` subtracts the keys it passes, and keys are `int32`.  Where no sum of the delays is too
large no subtraction wraps, and the search ends at the place that the delta list has for the
delay. -/

/-- The largest delay, as an `int32`. -/
def maxDelay : Int := 2147483647

/-- Delays in bounds: none is negative and no sum of them is too large. -/
structure InBounds (es : List (Int × Int)) : Prop where
  nonneg : DeltaList.NonNeg es
  total : DeltaList.total es ≤ maxDelay

/-- A process with its key. -/
def QTab.entry (t : QTab) (i : Int) : Int × Int := (i, (t i).qkey)

theorem Linked.entries_map (h : Linked t qs) (hq : IsQueue q) :
    t.entries q = (qs q).map t.entry := h.entries_eq hq

theorem map_fst_entry (t : QTab) (xs : List Int) : (xs.map t.entry).map Prod.fst = xs := by
  rw [List.map_map]
  exact List.map_id xs

/-- The keys that no sum of keys exceeds are stored as they are. -/
theorem InBounds.int32_eq {es : List (Int × Int)} (h : InBounds es) {e : Int × Int} (he : e ∈ es)
    {d : Int} (h0 : 0 ≤ d) (hd : d ≤ maxDelay) : int32 (e.2 - d) = e.2 - d := by
  have h1 := h.nonneg e he
  have h2 := h.nonneg.key_le he
  have h3 := h.total
  unfold maxDelay at h3 hd
  exact Xinu.int32_eq (by omega) (by omega)

/-- **The search of `insertd` finds the place in the delta list.** -/
theorem insertdSearch_insert {a : Int} {fuel : Nat}
    (h : Path (fun i => (t i).qnext) (fun i => (t i).qprev) a xs (queuetail q))
    (hfuel : xs.length < fuel) (htail : queuetail q ∉ xs) (hin : InBounds (xs.map t.entry))
    (h0 : 0 ≤ key) (hkey : key ≤ maxDelay) : ∃ key' us vs, xs = us ++ vs ∧
      insertdSearch t q fuel key a (xs.headD (queuetail q)) =
        some (key', us.getLastD a, vs.headD (queuetail q)) ∧ 0 ≤ key' ∧ key' ≤ maxDelay ∧
      ∀ p, DeltaList.insert p key (xs.map t.entry) =
        us.map t.entry ++ (p, key') :: DeltaList.inherit (-key') (vs.map t.entry) := by
  induction xs generalizing a key fuel with
  | nil =>
    obtain ⟨n, rfl⟩ : ∃ n, fuel = n + 1 := ⟨fuel - 1, by simp at hfuel; omega⟩
    refine ⟨key, [], [], rfl, ?_, h0, hkey, fun p => rfl⟩
    simp [insertdSearch]
  | cons x xs ih =>
    obtain ⟨n, rfl⟩ : ∃ n, fuel = n + 1 := ⟨fuel - 1, by simp at hfuel; omega⟩
    simp only [List.mem_cons, not_or] at htail
    obtain ⟨hx0, hxs⟩ := DeltaList.nonNeg_cons.mp hin.nonneg
    have htotal : (t x).qkey + DeltaList.total (xs.map t.entry) ≤ maxDelay := hin.total
    have hpos := hxs.total_nonneg
    change 0 ≤ (t x).qkey at hx0
    have hbounds : InBounds (xs.map t.entry) := ⟨hxs, by omega⟩
    rcases le_or_gt (t x).qkey key with hle | hgt
    · have hnext : (t x).qnext = xs.headD (queuetail q) := h.2.2.next_head
      have hint : int32 (key - (t x).qkey) = key - (t x).qkey := by
        unfold maxDelay at hkey
        exact Xinu.int32_eq (by omega) (by omega)
      have hlen : xs.length < n := by
        simp at hfuel
        omega
      obtain ⟨key', us, vs, hs, hr, h1, h2, h3⟩ :=
        @ih (key - (t x).qkey) x n h.2.2 hlen htail.2 hbounds (by omega) (by omega)
      refine ⟨key', x :: us, vs, by simp [hs], ?_, h1, h2, fun p => ?_⟩
      · rw [List.headD_cons, insertdSearch, if_pos ⟨Ne.symm htail.1, hle⟩, hnext, hint, hr,
          List.getLastD_cons]
      · rw [List.map_cons, List.map_cons, List.cons_append, ← h3 p]
        exact if_pos hle
    · refine ⟨key, [], x :: xs, rfl, ?_, h0, hkey, fun p => ?_⟩
      · rw [List.headD_cons, insertdSearch, if_neg (fun e => absurd e.2 (by omega)),
          List.getLastD_nil]
      · rw [List.map_cons, List.map_nil, List.nil_append, DeltaList.inherit]
        exact if_neg (by simpa [QTab.entry] using hgt)

/-- The successor's key changes, the others keep theirs. -/
theorem map_entry_inherit {t' : QTab} {vs : List Int} {d : Int} (hnd : vs.Nodup)
    (hk : ∀ i ∈ vs, (t' i).qkey = if vs.head? = some i then (t i).qkey + d else (t i).qkey) :
    vs.map t'.entry = DeltaList.inherit d (vs.map t.entry) := by
  cases vs with
  | nil => rfl
  | cons v vs =>
    rw [List.nodup_cons] at hnd
    have hv : t'.entry v = (v, (t v).qkey + d) := by
      rw [QTab.entry, hk v List.mem_cons_self, List.head?_cons, if_pos rfl]
    rw [List.map_cons, List.map_cons, DeltaList.inherit, hv]
    refine congrArg _ (List.map_congr_left fun i hi => ?_)
    rw [QTab.entry, QTab.entry, hk i (List.mem_cons_of_mem _ hi), List.head?_cons, if_neg]
    intro e
    exact hnd.1 (Option.some.inj e ▸ hi)

/-- **`insertd` inserts in the delta list.** -/
theorem insertd_entries (h : Linked k.queuetab qs) (hq : IsQueue q) (hp : ¬ isbadpid k p)
    (hnew : ∀ q', IsQueue q' → p ∉ qs q') (hin : InBounds (k.queuetab.entries q)) (h0 : 0 ≤ key)
    (hkey : key ≤ maxDelay) {r : Kernel × Int} (hi : insertd p q key k = some r) :
    r.1.queuetab.entries q = DeltaList.insert p key (k.queuetab.entries q) := by
  have hfirst : firstid k.queuetab q = (qs q).headD (queuetail q) := (h.path q hq).next_head
  rw [h.entries_map hq] at hin ⊢
  obtain ⟨key', us, vs, hs, hsearch, h1, h2, hins⟩ :=
    insertdSearch_insert (h.path q hq) (h.length_lt hq) (h.tail_notMem hq) hin h0 hkey
  rw [← hfirst] at hsearch
  obtain ⟨t', hi', hl, hk⟩ := insertd_at h hq hp hnew hs hsearch
  obtain rfl := Option.some.inj (hi'.symm.trans hi)
  have hnd := hs ▸ h.nodup q hq
  rw [List.nodup_append] at hnd
  have hpq : p ∉ us ++ vs := hs ▸ hnew q hq
  rw [setQueue_queuetab, hl.entries_map hq, Function.update_self, hins, List.map_append,
    List.map_cons]
  have hus : us.map t'.entry = us.map k.queuetab.entry := by
    refine List.map_congr_left fun i hm => ?_
    rw [QTab.entry, QTab.entry, hk, if_neg, if_neg]
    · intro e
      exact hnd.2.2 i hm i (List.mem_of_mem_head? e) rfl
    · intro e
      exact hpq (List.mem_append_left _ (e ▸ hm))
  have hvs : vs.map t'.entry = DeltaList.inherit (-key') (vs.map k.queuetab.entry) := by
    refine map_entry_inherit hnd.2.1 fun i hm => ?_
    have hip : i ≠ p := fun e => hpq (List.mem_append_right _ (e ▸ hm))
    have hmem : k.queuetab.entry i ∈ (qs q).map k.queuetab.entry :=
      List.mem_map_of_mem (hs ▸ List.mem_append_right _ hm)
    rw [hk, if_neg hip]
    split_ifs
    · exact hin.int32_eq hmem h1 h2
    · rfl
  have hpe : t'.entry p = (p, key') := by rw [QTab.entry, hk, if_pos rfl]
  rw [hus, hvs, hpe]

/-- **`unsleep` removes from the delta list.** -/
theorem unsleep_entries (h : Linked k.queuetab qs) (hq : IsQueue q) (hm : p ∈ qs q)
    (hgood : ¬ isbadpid k p)
    (hst : (k.proctab p).prstate = .sleep ∨ (k.proctab p).prstate = .rectim)
    (hin : InBounds (k.queuetab.entries q)) :
    (unsleep p k).1.queuetab.entries q = DeltaList.remove p (k.queuetab.entries q) := by
  obtain ⟨xs, ys, hs⟩ := List.append_of_mem hm
  obtain ⟨t', hu, hl', hk⟩ := unsleep_linked h hq hs hgood hst
  have hnd := hs ▸ h.nodup _ hq
  rw [List.nodup_append, List.nodup_cons] at hnd
  rw [h.entries_map hq] at hin ⊢
  have hl := hl'.entries_map hq
  rw [Function.update_self] at hl
  rw [hu]
  refine hl.trans ?_
  have hpx : p ∉ xs := fun hm => hnd.2.2 p hm p List.mem_cons_self rfl
  have hmid : DeltaList.remove p ((qs q).map k.queuetab.entry) = xs.map k.queuetab.entry ++
      DeltaList.inherit (k.queuetab p).qkey (ys.map k.queuetab.entry) := by
    rw [hs, List.map_append, List.map_cons]
    exact DeltaList.remove_mid (by rwa [map_fst_entry])
  rw [hmid, List.map_append]
  congr 1
  · refine List.map_congr_left fun i hi => ?_
    rw [QTab.entry, QTab.entry, hk, if_neg]
    intro e
    exact hnd.2.2 i hi i (List.mem_cons_of_mem _ (List.mem_of_mem_head? e)) rfl
  · refine map_entry_inherit hnd.2.1.2 fun i hi => ?_
    rw [hk]
    split_ifs with he
    · -- the sum of two neighbouring keys is in bounds
      have hin' := hin
      rw [hs] at hin'
      have htot := hin'.total
      rw [List.map_append, DeltaList.total_append, List.map_cons] at htot
      have hnn := hin'.nonneg
      have hx : DeltaList.NonNeg (xs.map k.queuetab.entry) := fun e he => hnn e (by
        rw [List.map_append]
        exact List.mem_append_left _ he)
      have hy : DeltaList.NonNeg (ys.map k.queuetab.entry) := fun e he => hnn e (by
        rw [List.map_append, List.map_cons]
        exact List.mem_append_right _ (List.mem_cons_of_mem _ he))
      have h1 := hx.total_nonneg
      have h2 := hy.key_le (List.mem_map_of_mem (f := k.queuetab.entry) hi)
      have h3 := hy _ (List.mem_map_of_mem (f := k.queuetab.entry) hi)
      have h4 := hnn (k.queuetab.entry p) (by simp)
      simp only [QTab.entry, DeltaList.total] at h2 h3 h4 htot
      unfold maxDelay at htot
      exact Xinu.int32_eq (by omega) (by omega)
    · rfl

/-! ## 2. Who is asleep

A process is on the sleep queue exactly when its state says that it sleeps.  Of these the calendar
has the callers of `sleepms`; those that wait for a message with a time limit are on the queue
with it. -/

/-- The members of the sleep queue are those that sleep, with or without a message to wait for. -/
theorem Placed.mem_sleepq (h : Placed strict k qs none) (hp : IsProc p) :
    p ∈ k.queuetab.members k.sleepq ↔
      (k.proctab p).prstate = .sleep ∨ (k.proctab p).prstate = .rectim := by
  rw [h.linked.members_eq h.queues.sleep.1]
  refine ⟨h.mem_sleep hp, fun hst => (h.placed p _ hp h.queues.sleep.1 (by simp)).mpr ?_⟩
  rcases hst with e | e <;> simp [home, e]

/-- Nobody fell asleep and nobody left the sleep queue. -/
theorem sleepers_iff {qs' : Int → List Int} (h : Placed strict k qs none)
    (h' : Placed strict k' qs' none)
    (hm : k'.queuetab.members k'.sleepq = k.queuetab.members k.sleepq)
    (hb : ∀ st, st = .sleep ∨ st = .rectim → ∀ p, (k'.proctab p).prstate = st →
      (k.proctab p).prstate = st) (hp : IsProc p) :
    (k'.proctab p).prstate = .sleep ↔ (k.proctab p).prstate = .sleep := by
  refine ⟨hb _ (Or.inl rfl) p, fun hs => ?_⟩
  have hmem := (h.mem_sleepq hp).mpr (Or.inl hs)
  rw [← hm] at hmem
  rcases (h'.mem_sleepq hp).mp hmem with h1 | h1
  · exact h1
  · rw [hb _ (Or.inr rfl) p h1] at hs
    exact absurd hs (by simp)

/-- The ticks that are left to each process asleep in `sleepms`. -/
abbrev Calendar := Int → Option Int

/-- **The calendar is right**: it has the processes asleep in `sleepms`, each with as many ticks as
the delays on the sleep queue up to its own add up to. -/
structure OnTime (k : Kernel) (σ : Calendar) : Prop where
  asleep : ∀ p, IsProc p → ((k.proctab p).prstate = .sleep ↔ σ p ≠ none)
  due : ∀ p d, IsProc p → σ p = some d →
    0 < d ∧ DeltaList.due p (k.queuetab.entries k.sleepq) = some d

variable {σ : Calendar}

theorem OnTime.same {qs' : Int → List Int} (h : OnTime k σ) (hp : Placed strict k qs none)
    (hp' : Placed strict k' qs' none)
    (he : k'.queuetab.entries k'.sleepq = k.queuetab.entries k.sleepq)
    (hb : ∀ st, st = .sleep ∨ st = .rectim → ∀ p, (k'.proctab p).prstate = st →
      (k.proctab p).prstate = st) : OnTime k' σ := by
  have hm : k'.queuetab.members k'.sleepq = k.queuetab.members k.sleepq := by
    rw [← map_fst_entries, he, map_fst_entries]
  refine ⟨fun p hpp => (sleepers_iff hp hp' hm hb hpp).trans (h.asleep p hpp), ?_⟩
  rw [he]
  exact h.due

/-- The caller goes on the sleep queue. -/
theorem OnTime.insert (h : OnTime k σ) (hin : InBounds (k.queuetab.entries k.sleepq))
    (hset : Settled strict k) (hcur : k.currpid ≠ NULLPROC) {st : PrState}
    (hst : st = .sleep ∨ st = .rectim) {d v : Int} (h0 : 0 ≤ d) (hd : d ≤ maxDelay)
    (hpos : st = .sleep → 0 < d) {k₁ : Kernel}
    (hi : insertd k.currpid k.sleepq d k = some (k₁, v))
    (hs : resched (k₁.setState k.currpid st) = some k') :
    InBounds (k'.queuetab.entries k'.sleepq) ∧
      OnTime k' (Function.update σ k.currpid (if st = .sleep then some d else none)) := by
  obtain ⟨qs, t', xs, ys, hp, hi', hl, hb, -⟩ := sleepOn_placed hset hcur hst d
  obtain ⟨rfl, -⟩ := Prod.mk.inj (Option.some.inj (hi'.symm.trans hi))
  have hsq := hp.queues.sleep
  have hhome : home k k.currpid = none := by simp [home, hset.running]
  have hnew : ∀ q, IsQueue q → k.currpid ∉ qs q := by
    intro q hq hm
    have := (hp.placed _ q hp.currProc hq (by simp)).mp hm
    simp [hhome] at this
  have he := insertd_entries hp.linked hsq.1 (running_good hset) hnew hin h0 hd hi
  have hid : k'.sleepq = k.sleepq := (resched_only hs).queueids.2
  have he' : k'.queuetab.entries k.sleepq =
      ((k.setQueue t').setState k.currpid st).queuetab.entries k.sleepq :=
    resched_entries hb hs hsq.1 hsq.2
  have het : ((k.setQueue t').setState k.currpid st).queuetab.entries k.sleepq =
    DeltaList.insert k.currpid d (k.queuetab.entries k.sleepq) := he
  rw [hid, he', het]
  refine ⟨⟨hin.nonneg.insert h0, DeltaList.total_insert_le hd hin.total⟩, ?_⟩
  obtain ⟨k₂, hs₂, hset', -⟩ := resched_settled hb hset.open_
  obtain rfl := Option.some.inj (hs₂.symm.trans hs)
  obtain ⟨qs', hp'⟩ := hset'.placed
  -- who sleeps after the call of `resched` slept before it
  have hm : k₂.queuetab.members k₂.sleepq =
      ((k.setQueue t').setState k.currpid st).queuetab.members k.sleepq := by
    rw [hid]
    exact members_of_entries he'
  have hiff : ∀ p, IsProc p → ((k₂.proctab p).prstate = .sleep ↔
      (((k.setQueue t').setState k.currpid st).proctab p).prstate = .sleep) := fun p hpp =>
    sleepers_iff hb hp' hm (fun st hst => (resched_wakes hs).asleep hst) hpp
  have hcurr : k.currpid ∉ (k.queuetab.entries k.sleepq).map Prod.fst := by
    rw [map_fst_entries, hp.linked.members_eq hsq.1]
    exact hnew _ hsq.1
  refine ⟨fun p hpp => ?_, fun p d' hpp hσ => ?_⟩
  · rw [hiff p hpp]
    rcases eq_or_ne p k.currpid with rfl | hne
    · rw [setState_same, Function.update_self]
      rcases hst with rfl | rfl <;> simp
    · rw [Function.update_of_ne hne, ← h.asleep p hpp, setState_prstate, if_neg hne,
        setQueue_proctab]
  · rw [hid, he', het]
    rcases eq_or_ne p k.currpid with rfl | hne
    · rw [Function.update_self] at hσ
      split_ifs at hσ with hsl
      obtain rfl := Option.some.inj hσ
      exact ⟨hpos hsl, DeltaList.due_insert_self hcurr⟩
    · rw [Function.update_of_ne hne] at hσ
      rw [DeltaList.due_insert_of_ne hne]
      exact h.due p d' hpp hσ

/-- A sleeper is killed. -/
theorem OnTime.remove (h : OnTime k σ) (hin : InBounds (k.queuetab.entries k.sleepq))
    (hp : Placed strict k qs none) (hgood : ¬ isbadpid k p)
    (hst : (k.proctab p).prstate = .sleep ∨ (k.proctab p).prstate = .rectim) :
    InBounds ((killTail p k).queuetab.entries (killTail p k).sleepq) ∧
      OnTime (killTail p k) (Function.update σ p none) := by
  obtain ⟨t', xs, ys, hu, hs, -, -⟩ := unsleep_spec hp hgood hst
  have he : (killTail p k).queuetab.entries k.sleepq =
      DeltaList.remove p (k.queuetab.entries k.sleepq) :=
    unsleep_entries hp.linked hp.queues.sleep.1 (by rw [hs]; simp) hgood hst hin
  have hid : (killTail p k).sleepq = k.sleepq := by
    rw [killTail, hu]
    rfl
  have hstate : ∀ x, ((killTail p k).proctab x).prstate =
      if x = p then .free else (k.proctab x).prstate := by
    intro x
    rw [killTail, hu, setState_prstate]
    rfl
  rw [hid, he]
  refine ⟨⟨hin.nonneg.remove, (DeltaList.total_remove_le hin.nonneg).trans hin.total⟩,
    fun x hx => ?_, fun x d hx hσ => ?_⟩
  · rw [hstate]
    rcases eq_or_ne x p with rfl | hne
    · simp
    · rw [if_neg hne, Function.update_of_ne hne]
      exact h.asleep x hx
  · rcases eq_or_ne x p with rfl | hne
    · rw [Function.update_self] at hσ
      simp at hσ
    · rw [Function.update_of_ne hne] at hσ
      rw [hid, he, DeltaList.due_remove_of_ne hne]
      exact h.due x d hx hσ

/-! ## 3. The clock

`clkhandler` counts down the first key and calls `wakeup` when the key is not positive
afterwards.  With a key of zero in front it counts that one below zero, and the keys behind it are
not reached: the tick is lost for everybody behind. -/

/-- The key `clkhandler` counts down. -/
theorem firstkey_of_entries (h : Linked t qs) (hq : IsQueue q) {d : Int} {es : List (Int × Int)}
    (he : t.entries q = (p, d) :: es) : firstkey t q = d := by
  have hfirst : firstid t q = (qs q).headD (queuetail q) := (h.path q hq).next_head
  rw [h.entries_map hq] at he
  cases hs : qs q with
  | nil => simp [hs] at he
  | cons x xs =>
    rw [hs, List.map_cons, List.cons.injEq] at he
    rw [firstkey, hfirst, hs, List.headD_cons]
    exact congrArg Prod.snd he.1

/-- **What a tick does to the sleep queue.** -/
theorem clkhandler_sleepq (h : Settled strict k) (hin : InBounds (k.queuetab.entries k.sleepq))
    (hc : clkhandler k = some k') :
    k'.queuetab.entries k'.sleepq =
        DeltaList.rest (DeltaList.tick (k.queuetab.entries k.sleepq)) ∧
      (∀ p ∈ (DeltaList.expired (DeltaList.tick (k.queuetab.entries k.sleepq))).map Prod.fst,
        Active k' p) ∧
      ∀ st, st = .sleep ∨ st = .rectim → ∀ p, (k'.proctab p).prstate = st →
        (k.proctab p).prstate = st := by
  have hid : k'.sleepq = k.sleepq := (clkhandler_keeps h hc).quiet.ids.2.1
  have h₁ := (countMs_keeps h).settled
  have e := (countMs_same k).1
  rw [hid]
  unfold clkhandler at hc
  generalize countMs k = k₀ at *
  rcases clkSleepers_releases h₁ hc with ⟨he, rfl⟩ |
    ⟨p, d, es, k₁, n, he, he₁, hst, -, -, hn, hrel⟩
  · rw [e.queuetab, e.sleepq] at he
    rw [e.queuetab, he]
    refine ⟨rfl, fun p hp => absurd hp List.not_mem_nil, fun st _ p hp => ?_⟩
    rwa [e.prstate] at hp
  · rw [e.queuetab, e.sleepq] at he
    rw [e.sleepq] at he₁ hrel
    have hd : int32 (d - 1) = d + -1 := by
      have h0 := hin.nonneg (p, d) (by simp [he])
      have h1 := hin.nonneg.key_le (e := (p, d)) (by simp [he])
      have h2 := hin.total
      unfold maxDelay at h2
      dsimp only at h0 h1
      rw [Xinu.int32_eq (by omega) (by omega)]
      rfl
    rw [hd] at he₁ hn
    have htick : k₁.queuetab.entries k.sleepq =
        DeltaList.tick (k.queuetab.entries k.sleepq) := by rw [he₁, he]; rfl
    have hlen : n = (DeltaList.expired (DeltaList.tick (k.queuetab.entries k.sleepq))).length := by
      rw [hn, he]
      rfl
    generalize DeltaList.tick (k.queuetab.entries k.sleepq) = ts at *
    refine ⟨?_, fun x hx => hrel.active x ?_, fun st hs x hx => ?_⟩
    · rw [hrel.entries, htick, hlen, DeltaList.drop_expired]
    · rwa [← map_fst_entries, ← List.map_take, htick, hlen, DeltaList.take_expired]
    · have := hrel.wakes.asleep hs x hx
      rwa [hst, e.prstate] at this

/-- What a tick does to the calendar. -/
def Calendar.tick (σ : Calendar) : Calendar := fun p =>
  (σ p).bind fun d => if d ≤ 1 then none else some (d - 1)

/-- The tick finds no key of zero in front, or nobody is asleep in `sleepms`. -/
def PunctualTick (k : Kernel) : Prop :=
  0 < firstkey k.queuetab k.sleepq ∨
    ∀ p ∈ k.queuetab.members k.sleepq, (k.proctab p).prstate ≠ .sleep

instance (k : Kernel) : Decidable (PunctualTick k) := inferInstanceAs (Decidable (_ ∨ _))

/-- A process asleep in `sleepms` is on the queue. -/
theorem OnTime.mem (h : OnTime k σ) (hp : Placed strict k qs none) (hpp : IsProc p) {d : Int}
    (hσ : σ p = some d) : p ∈ k.queuetab.members k.sleepq :=
  (hp.mem_sleepq hpp).mpr (Or.inl ((h.asleep p hpp).mpr (by simp [hσ])))

/-- **A tick takes one from what is left to everybody asleep, exactly if it finds no key of zero in
front of one.** -/
theorem OnTime.tick_iff (h : OnTime k σ) (hin : InBounds (k.queuetab.entries k.sleepq))
    (hset : Settled strict k) (hc : clkhandler k = some k') :
    OnTime k' σ.tick ↔ PunctualTick k := by
  obtain ⟨hent, hact, hb⟩ := clkhandler_sleepq hset hin hc
  obtain ⟨qs, hp⟩ := hset.placed
  obtain ⟨qs', hp'⟩ := (clkhandler_keeps hset hc).settled.placed
  have hsq := hp.queues.sleep.1
  -- a sleeper that the tick leaves on the queue stays asleep
  have stays : ∀ p, IsProc p → (k.proctab p).prstate = .sleep → ∀ d,
      DeltaList.due p (k'.queuetab.entries k'.sleepq) = some d →
        (k'.proctab p).prstate = .sleep := by
    intro p hpp hs d hd
    have hm : p ∈ k'.queuetab.members k'.sleepq := by
      rw [← map_fst_entries, ← DeltaList.due_ne_none, hd]
      simp
    rcases (hp'.mem_sleepq hpp).mp hm with h1 | h1
    · exact h1
    · have := hb _ (Or.inr rfl) p h1
      rw [hs] at this
      simp at this
  constructor
  · -- the tick was early for nobody
    intro h'
    by_contra hno
    simp only [PunctualTick, not_or, not_forall, not_not, not_lt] at hno
    obtain ⟨hkey, p, hm, hs⟩ := hno
    have hpp : IsProc p := by
      rw [hp.linked.members_eq hsq] at hm
      exact hp.linked.procs _ hsq p hm
    obtain ⟨d, hd⟩ := Option.ne_none_iff_exists'.mp ((h.asleep p hpp).mp hs)
    obtain ⟨hpos, hdue⟩ := h.due p d hpp hd
    cases he : k.queuetab.entries k.sleepq with
    | nil => simp [he, DeltaList.due] at hdue
    | cons x es =>
      obtain ⟨x, d₀⟩ := x
      have hkey₀ := firstkey_of_entries hp.linked hsq he
      have hnn := hin.nonneg
      rw [he] at hnn hdue hent
      obtain ⟨h0, hes⟩ := DeltaList.nonNeg_cons.mp hnn
      obtain rfl : d₀ = 0 := by
        omega
      have hex : p ∉ (DeltaList.expired (DeltaList.tick ((x, 0) :: es))).map Prod.fst := by
        rw [DeltaList.mem_expired_tick_of_zero hes, hdue]
        intro e
        have := Option.some.inj e
        omega
      have hlate : DeltaList.due p (k'.queuetab.entries k'.sleepq) = some d := by
        rw [hent, DeltaList.due_rest_tick_of_zero hes hex, hdue]
      have hs' := stays p hpp hs d hlate
      obtain ⟨d', hd'⟩ := Option.ne_none_iff_exists'.mp ((h'.asleep p hpp).mp hs')
      have hdue' := (h'.due p d' hpp hd').2
      rw [hlate] at hdue'
      obtain rfl := Option.some.inj hdue'
      rw [Calendar.tick, hd, Option.bind_some] at hd'
      split_ifs at hd'
      have := Option.some.inj hd'
      omega
  · intro hok
    -- what becomes of a process with `d` ticks left
    have left : ∀ p d, IsProc p → σ p = some d →
        (d = 1 → Active k' p) ∧
          (d ≠ 1 → DeltaList.due p (k'.queuetab.entries k'.sleepq) = some (d - 1)) := by
      intro p d hpp hσ
      obtain ⟨hpos, hdue⟩ := h.due p d hpp hσ
      have hkey : 0 < firstkey k.queuetab k.sleepq := by
        refine hok.resolve_right fun hno => ?_
        exact hno p (h.mem hp hpp hσ) ((h.asleep p hpp).mpr (by simp [hσ]))
      cases he : k.queuetab.entries k.sleepq with
      | nil => simp [he, DeltaList.due] at hdue
      | cons x es =>
        obtain ⟨x, d₀⟩ := x
        rw [firstkey_of_entries hp.linked hsq he] at hkey
        have hnn := hin.nonneg
        rw [he] at hnn hdue hent hact
        refine ⟨fun h1 => hact p ?_, fun h1 => ?_⟩
        · rw [DeltaList.mem_expired_tick hnn hkey, hdue, h1]
        · have hex : p ∉ (DeltaList.expired (DeltaList.tick ((x, d₀) :: es))).map Prod.fst := by
            rw [DeltaList.mem_expired_tick hnn hkey, hdue]
            exact fun e => h1 (Option.some.inj e)
          rw [hent, DeltaList.due_rest_tick hnn hkey hex, hdue]
          rfl
    refine ⟨fun p hpp => ⟨fun hs => ?_, fun hs => ?_⟩, fun p d hpp hσ => ?_⟩
    · obtain ⟨d, hd⟩ := Option.ne_none_iff_exists'.mp
        ((h.asleep p hpp).mp (hb _ (Or.inl rfl) p hs))
      obtain ⟨hpos, -⟩ := h.due p d hpp hd
      have h1 : d ≠ 1 := by
        rintro rfl
        have := (left p 1 hpp hd).1 rfl
        unfold Active at this
        rw [hs] at this
        simp at this
      rw [Calendar.tick, hd, Option.bind_some, if_neg (by omega)]
      simp
    · obtain ⟨d', hd'⟩ := Option.ne_none_iff_exists'.mp hs
      obtain ⟨d, hd, hdd⟩ := Option.bind_eq_some_iff.mp hd'
      split_ifs at hdd with h1
      exact stays p hpp ((h.asleep p hpp).mpr (by simp [hd])) _
        ((left p d hpp hd).2 (by omega))
    · obtain ⟨d₁, hd, hdd⟩ := Option.bind_eq_some_iff.mp hσ
      split_ifs at hdd with h1
      obtain rfl := Option.some.inj hdd
      exact ⟨by omega, (left p d₁ hpp hd).2 (by omega)⟩

/-- At its last tick a sleeper is made ready. -/
theorem OnTime.last_tick (h : OnTime k σ) (hin : InBounds (k.queuetab.entries k.sleepq))
    (hset : Settled strict k) (hok : PunctualTick k) (hc : clkhandler k = some k') (hpp : IsProc p)
    (hσ : σ p = some 1) : Active k' p := by
  obtain ⟨-, hact, -⟩ := clkhandler_sleepq hset hin hc
  obtain ⟨qs, hp⟩ := hset.placed
  obtain ⟨-, hdue⟩ := h.due p 1 hpp hσ
  have hkey : 0 < firstkey k.queuetab k.sleepq := by
    refine hok.resolve_right fun hno => ?_
    exact hno p (h.mem hp hpp hσ) ((h.asleep p hpp).mpr (by simp [hσ]))
  refine hact p ?_
  cases he : k.queuetab.entries k.sleepq with
  | nil => simp [he, DeltaList.due] at hdue
  | cons x es =>
    obtain ⟨x, d⟩ := x
    rw [firstkey_of_entries hp.linked hp.queues.sleep.1 he] at hkey
    have hnn := hin.nonneg
    rw [he] at hnn hdue
    rw [DeltaList.mem_expired_tick hnn hkey, hdue]

/-! ## 4. Calls

Only `sleepms` enters something in the calendar and only `kill` strikes something out.  All other
calls leave the sleepers alone, by the frames of `QueueFrame`, or put a process on the queue that
the calendar does not have. -/

theorem makeProc_sleepq {fill : Int → Kernel → Kernel} {f n : Nat} {prio : Pri16}
    {nm : Nat → UInt8} {as : List Nat} {pid : Int} {r : Kernel × Int}
    (hfill : ∀ k, Bland k (fill pid k)) (hm : makeProc fill f n prio nm as pid k = some r) :
    r.1.sleepq = k.sleepq := by
  rcases makeProc_cases hm with rfl | ⟨k₁, hg, rfl⟩ | ⟨-, k₁, saddr, hg, -, rfl⟩
  · rfl
  · exact (getstk_bland hg).same.sleepq
  · refine Eq.trans ?_ (getstk_bland hg).same.sleepq
    exact (hfill _).same.sleepq

theorem killSwitch_sleepq {pid : Int} {r : Kernel × Cont} (hk : killSwitch pid k = some r) :
    r.1.sleepq = k.sleepq := by
  unfold killSwitch at hk
  split at hk
  case h_1 =>
    obtain ⟨k₁, h1, hk⟩ := Option.bind_eq_some_iff.mp hk
    rw [← Option.some.inj hk]
    exact (resched_only h1).queueids.2
  case h_4 => rw [← Option.some.inj hk]; rfl
  case h_5 => rw [← Option.some.inj hk]; rfl
  case h_6 => rw [← Option.some.inj hk]; rfl
  all_goals
    rw [← Option.some.inj hk]
    show (unsleep pid k).1.sleepq = k.sleepq
    unfold unsleep
    split_ifs <;> rfl

theorem kill_sleepq {pid : Int} {r : Kernel × Cont} (hk : kill pid k = some r) :
    r.1.sleepq = k.sleepq := by
  rcases kill_cases hk with ⟨-, rfl⟩ | ⟨-, -, k₁, v₁, k₂, v₂, hs, hf, hk⟩
  · rfl
  · have h₁ : k₁.sleepq = k.sleepq := (send_bland hs).same.sleepq
    exact ((killSwitch_sleepq hk).trans (freestk_bland hf).same.sleepq).trans h₁

/-- Every call leaves the number of the sleep queue alone. -/
theorem enter_sleepq {c : Call} (h : Settled strict k)
    (hnull : k.currpid = NULLPROC → c.byNull = true) {r : Kernel × Cont}
    (he : c.enter k = some r) : r.1.sleepq = k.sleepq := by
  have keeps : c.schedules = true → r.1.sleepq = k.sleepq := fun hc =>
    (enter_keeps h hc hnull he).quiet.ids.2.1
  have bland : c.isBland = true → r.1.sleepq = k.sleepq := fun hc =>
    (enter_bland hc he).same.sleepq
  cases c with
  | create f n p nm as =>
    obtain ⟨x, hx, rfl⟩ := returning_some he
    unfold Xinu.create at hx
    split_ifs at hx
    · rw [← Option.some.inj hx]
    · exact (makeProc_sleepq (createFill_bland _) hx :)
  | rcreate f n p nm as =>
    obtain ⟨x, hx, rfl⟩ := returning_some he
    unfold Xinu.rcreate at hx
    split_ifs at hx
    · rw [← Option.some.inj hx]
    · obtain ⟨⟨k₁, pid⟩, hm, hx⟩ := Option.bind_eq_some_iff.mp hx
      have h₁ : k₁.sleepq = k.sleepq := makeProc_sleepq (fun k => Bland.refl k) hm
      dsimp only at hx
      split_ifs at hx
      · rw [← Option.some.inj hx]
        exact h₁
      · obtain ⟨y, hy, hx⟩ := Option.bind_eq_some_iff.mp hx
        rw [← Option.some.inj hx]
        exact (ready_only hy).queueids.2.trans h₁
  | kill pid => exact kill_sleepq he
  | userret => exact kill_sleepq he
  | chprio pid p =>
    obtain ⟨x, hx, rfl⟩ := returning_some he
    rw [← Option.some.inj hx, chprio]
    split_ifs <;> rfl
  | recvclr | send | cbregister | cbunregister | getmem | freemem | getstk | freestk =>
    exact bland rfl
  | _ => exact keeps rfl

theorem finish_sleepq {c : Cont} (hc : ∀ x, c ≠ .kill x) {r : Kernel × Cont}
    (hf : finishCall k c = some r) : r.1.sleepq = k.sleepq := by
  cases c with
  | user => simp [finishCall] at hf
  | ret v => obtain rfl := Option.some.inj hf; rfl
  | suspend pid => obtain rfl := Option.some.inj hf; rfl
  | receive =>
    obtain rfl := Option.some.inj hf
    exact (receiveTail_bland k).same.sleepq
  | recvtime =>
    obtain rfl := Option.some.inj hf
    exact (recvtimeTail_bland k).same.sleepq
  | kill pid => exact absurd rfl (hc pid)
  | clkhandler =>
    rw [finishCall] at hf
    obtain ⟨k₁, h1, rfl⟩ := Option.map_eq_some_iff.mp hf
    have hset : ∀ n, ({ k with preempt := n } : Kernel).sleepq = k.sleepq := fun _ => rfl
    unfold clkhandlerTail at h1
    simp only at h1
    split_ifs at h1 with h2
    · exact (resched_only h1).queueids.2.trans (hset QUANTUM)
    · exact (congrArg Kernel.sleepq (Option.some.inj h1)).symm.trans (hset _)
  | iret => obtain rfl := Option.some.inj hf; rfl

/-- What a call enters in the calendar. -/
def Call.calendar (c : Call) (k : Kernel) (σ : Calendar) : Calendar :=
  assignAt (c.victim k) none (match c.delay k with
    | some (.sleep, d) => Function.update σ k.currpid (some d)
    | _ => σ)

/-- The observer of a run keeps the calendar. -/
def sleepSee (s : Sys) (e : Event) (_ : Sys) (σ : Calendar) : Calendar :=
  match e with
  | .call c => c.calendar s.k σ
  | .tick => σ.tick
  | _ => σ

/-- The delay a call passes is an `int32`. -/
def DelayFits : Event → Prop
  | .call (.sleepms d) => d ≤ maxDelay
  | .call (.recvtime d) => d ≤ maxDelay
  | _ => True

instance (e : Event) : Decidable (DelayFits e) := by
  unfold DelayFits
  split <;> infer_instance

theorem delay_bounds {c : Call} (hfits : DelayFits (.call c)) {st : PrState} {d : Int}
    (hd : c.delay k = some (st, d)) : 0 ≤ d ∧ d ≤ maxDelay ∧ (st = .sleep → 0 < d) := by
  cases c with
  | sleepms n =>
    simp only [Call.delay] at hd
    split_ifs at hd with h0
    obtain ⟨rfl, rfl⟩ := Prod.mk.inj (Option.some.inj hd)
    exact ⟨by omega, hfits, fun _ => h0⟩
  | sleep n =>
    simp only [Call.delay] at hd
    split_ifs at hd with h0
    obtain ⟨rfl, rfl⟩ := Prod.mk.inj (Option.some.inj hd)
    unfold maxDelay
    exact ⟨by omega, by omega, fun _ => by omega⟩
  | recvtime n =>
    simp only [Call.delay] at hd
    split_ifs at hd with h0
    obtain ⟨rfl, rfl⟩ := Prod.mk.inj (Option.some.inj hd)
    exact ⟨h0.1, hfits, fun e => absurd e (by simp)⟩
  | _ => simp [Call.delay] at hd

theorem OnTime.strike (h : OnTime k σ) (hp : IsProc p → (k.proctab p).prstate ≠ .sleep) :
    OnTime k (Function.update σ p none) := by
  refine ⟨fun x hx => ?_, fun x d hx hσ => ?_⟩
  · rcases eq_or_ne x p with rfl | hne
    · simpa using hp hx
    · rw [Function.update_of_ne hne]
      exact h.asleep x hx
  · rcases eq_or_ne x p with rfl | hne
    · rw [Function.update_self] at hσ
      simp at hσ
    · rw [Function.update_of_ne hne] at hσ
      exact h.due x d hx hσ

theorem OnTime.tables (h : OnTime k σ) (he : SameTables k k') : OnTime k' σ := by
  refine ⟨fun p hp => ?_, ?_⟩
  · rw [he.prstate]
    exact h.asleep p hp
  · rw [he.queuetab, he.sleepq]
    exact h.due

/-- `kill` strikes its victim out. -/
theorem OnTime.kill (h : OnTime k σ) (hin : InBounds (k.queuetab.entries k.sleepq))
    (hinv : KernelInv strict k) {pid : Int} {r : Kernel × Cont} (hk : kill pid k = some r)
    (hinv' : Settled strict r.1) :
    InBounds (r.1.queuetab.entries r.1.sleepq) ∧ OnTime r.1 (Function.update σ pid none) := by
  obtain ⟨qs, hp⟩ := hinv.settled.placed
  obtain ⟨qs', hp'⟩ := hinv'.placed
  have hid := kill_sleepq hk
  have hf := kill_frame hinv hk
  rcases kill_cases hk with ⟨hbad, rfl⟩ | ⟨hgood, hnull, k₁, v₁, k₂, v₂, hs, hfr, hsw⟩
  · -- nobody asleep is refused
    refine ⟨hin, h.strike fun hpp hsl => ?_⟩
    rcases hbad with hb | rfl
    · rcases hb with h1 | h1 | h1
      · exact absurd hpp.1 (by omega)
      · exact absurd hpp.2 (by omega)
      · rw [hsl] at h1
        simp at h1
    · rcases hp.null with h1 | h1 <;> rw [hsl] at h1 <;> simp at h1
  obtain ⟨he, -⟩ := kill_prefix hinv hgood hnull hs hfr hsw
  by_cases hst : (k.proctab pid).prstate = .sleep ∨ (k.proctab pid).prstate = .rectim
  · have hr : r.1 = killTail pid k₂ := by
      have hst₂ := hst
      rw [← he.prstate] at hst₂
      unfold killSwitch at hsw
      rcases hst₂ with e | e <;> rw [e] at hsw <;> rw [← Option.some.inj hsw]
    have hgood' : ¬ isbadpid k₂ pid := by simpa only [isbadpid, he.prstate] using hgood
    have hin₂ : InBounds (k₂.queuetab.entries k₂.sleepq) := by rwa [he.queuetab, he.sleepq]
    rw [hr]
    exact (h.tables he).remove hin₂ (hp.congr he) hgood' (by rwa [he.prstate])
  · -- the victim is on another queue, if any
    have hh : home k pid ≠ some k.sleepq := by
      intro e
      have hm := (hp.placed pid _ (IsProc.of_not_bad hgood) hp.queues.sleep.1 (by simp)).mpr e
      exact hst (hp.mem_sleep (IsProc.of_not_bad hgood) hm)
    have hent : r.1.queuetab.entries r.1.sleepq = k.queuetab.entries k.sleepq := by
      rw [hid]
      exact hf.entries _ hp.queues.sleep.1 hp.queues.sleep.2 hh
    refine ⟨by rwa [hent], (h.same hp hp' hent hf.asleep).strike fun _ hsl => ?_⟩
    exact hst (Or.inl (hf.asleep _ (Or.inl rfl) _ hsl))

/-- A call about a bad semaphore changes nothing. -/
theorem enter_badsem {c : Call} {r : Kernel × Cont} (he : c.enter k = some r) {sem : Int}
    (hsem : isbadsem sem) (hc : c = .wait sem ∨ c = .signal sem ∨ (∃ n, c = .signaln sem n) ∨
      c = .semdelete sem ∨ ∃ n, c = .semreset sem n) : r.1 = k := by
  rcases hc with rfl | rfl | ⟨n, rfl⟩ | rfl | ⟨n, rfl⟩ <;> obtain ⟨x, hx, rfl⟩ := returning_some he
  · rw [Xinu.wait, if_pos hsem] at hx
    rw [← Option.some.inj hx]
  · rw [Xinu.signal, if_pos hsem] at hx
    rw [← Option.some.inj hx]
  · rw [Xinu.signaln, if_pos (Or.inl hsem)] at hx
    rw [← Option.some.inj hx]
  · rw [Xinu.semdelete, if_pos hsem] at hx
    rw [← Option.some.inj hx]
  · rw [Xinu.semreset, if_pos (Or.inr (Or.inl hsem))] at hx
    rw [← Option.some.inj hx]

/-- A call that works on the sleep queue puts the caller there, kills or does nothing. -/
theorem queue_sleepq {c : Call} (hp : Placed strict k qs none) (hs : c.sleeps = false)
    (hvic : c.victim k = none) (hq : c.queue k = some k.sleepq) {r : Kernel × Cont}
    (he : c.enter k = some r) : r.1 = k := by
  have hbad : ∀ sem, (k.semtab sem).squeue = k.sleepq → isbadsem sem := by
    intro sem e
    by_contra hgood
    exact (hp.queues.sem sem hgood).2.2 e
  cases c with
  | wait sem => exact enter_badsem he (hbad sem (Option.some.inj hq)) (Or.inl rfl)
  | signal sem => exact enter_badsem he (hbad sem (Option.some.inj hq)) (by simp)
  | signaln sem n => exact enter_badsem he (hbad sem (Option.some.inj hq)) (by simp)
  | semdelete sem => exact enter_badsem he (hbad sem (Option.some.inj hq)) (by simp)
  | semreset sem n => exact enter_badsem he (hbad sem (Option.some.inj hq)) (by simp)
  | kill | userret => simp [Call.victim] at hvic
  | sleepms | sleep | recvtime => simp [Call.sleeps] at hs
  | _ => simp [Call.queue] at hq

/-- **A call keeps the calendar right.** -/
theorem OnTime.enter (h : OnTime k σ) (hin : InBounds (k.queuetab.entries k.sleepq))
    (hinv : KernelInv strict k) {c : Call} (hfits : DelayFits (.call c))
    (hnull : k.currpid = NULLPROC → c.byNull = true) {r : Kernel × Cont}
    (he : c.enter k = some r) (hset : Settled strict r.1) :
    InBounds (r.1.queuetab.entries r.1.sleepq) ∧ OnTime r.1 (c.calendar k σ) := by
  obtain ⟨qs, hp⟩ := hinv.settled.placed
  obtain ⟨qs', hp'⟩ := hset.placed
  have hid := enter_sleepq hinv.settled hnull he
  have hsq := hp.queues.sleep
  -- nothing happens to the sleepers
  have same : r.1.queuetab.entries k.sleepq = k.queuetab.entries k.sleepq →
      (∀ st, st = .sleep ∨ st = .rectim → ∀ p, (r.1.proctab p).prstate = st →
        (k.proctab p).prstate = st) →
      InBounds (r.1.queuetab.entries r.1.sleepq) ∧ OnTime r.1 σ := by
    intro hent hb
    rw [← hid] at hent
    rw [hid] at hent ⊢
    exact ⟨by rwa [hent], h.same hp hp' (by rw [hid, hent]) hb⟩
  cases hs : c.sleeps with
  | true =>
    have hcur : k.currpid ≠ NULLPROC := by
      intro hn
      have := hnull hn
      cases c <;> simp [Call.sleeps] at hs <;> simp [Call.byNull] at this
    have hvic : c.victim k = none := by
      cases c <;> simp [Call.sleeps] at hs <;> rfl
    have hdo := enter_sleeps hinv.settled hs hcur he
    rw [Call.calendar, hvic]
    cases hd : c.delay k with
    | none =>
      rw [hd] at hdo
      rcases hdo with hdo | hdo
      · rw [hdo]
        exact ⟨hin, h⟩
      · exact same (resched_entries hp hdo hsq.1 hsq.2) fun st hst => (resched_wakes hdo).asleep hst
    | some x =>
      obtain ⟨st, d⟩ := x
      rw [hd] at hdo
      obtain ⟨hst, k₁, v, hi, hr⟩ := hdo
      obtain ⟨h0, h1, hpos⟩ := delay_bounds hfits hd
      obtain ⟨hin', hon⟩ := h.insert hin hinv.settled hcur hst h0 h1 hpos hi hr
      refine ⟨hin', ?_⟩
      rcases hst with rfl | rfl
      · exact hon
      · have hnone : σ k.currpid = none := by
          by_contra hne
          have := (h.asleep _ hp.currProc).mpr hne
          rw [hinv.settled.running] at this
          simp at this
        rw [if_neg (by simp), ← hnone, Function.update_eq_self] at hon
        exact hon
  | false =>
    have hd : c.delay k = none := by
      cases c <;> simp [Call.sleeps] at hs <;> rfl
    rw [Call.calendar, hd]
    cases hvic : c.victim k with
    | some pid =>
      have hk : Xinu.kill pid k = some r := by
        cases c <;> simp [Call.victim] at hvic <;> subst hvic <;> exact he
      exact h.kill hin hinv hk hset
    | none =>
      have hf := enter_frame hinv hs hnull he
      by_cases hq : c.queue k = some k.sleepq
      · rw [queue_sleepq hp hs hvic hq he]
        exact ⟨hin, h⟩
      · exact same (hf.entries _ hsq.1 hsq.2 hq) hf.asleep

/-! ## 5. Every run

The condition of a step is exact: a step from a state in which the calendar is right leads to one
in which it is right if and only if it is punctual. -/

/-- The invariant of a watched run. -/
structure SleepInv (x : Sys × Calendar) : Prop where
  sys : SysInv False x.1
  bounds : InBounds (x.1.k.queuetab.entries x.1.k.sleepq)
  onTime : OnTime x.1.k x.2

/-- The condition under which sleepers wake on time: every tick is punctual. -/
def Punctual (s : Sys) : Event → Prop
  | .tick => PunctualTick s.k
  | _ => True

instance (s : Sys) (e : Event) : Decidable (Punctual s e) := by
  unfold Punctual
  split <;> infer_instance

variable {s s' : Sys} {e : Event}

/-- What is not a call or a tick concerns no sleeper. -/
theorem SleepInv.same (h : SleepInv (s, σ)) (hinv : SysInv False s')
    (he : s'.k.queuetab.entries s.k.sleepq = s.k.queuetab.entries s.k.sleepq)
    (hid : s'.k.sleepq = s.k.sleepq)
    (hb : ∀ st, st = .sleep ∨ st = .rectim → ∀ p, (s'.k.proctab p).prstate = st →
      (s.k.proctab p).prstate = st) : SleepInv (s', σ) := by
  obtain ⟨qs, hp⟩ := h.sys.kernel.settled.placed
  obtain ⟨qs', hp'⟩ := hinv.kernel.settled.placed
  have hent : s'.k.queuetab.entries s'.k.sleepq = s.k.queuetab.entries s.k.sleepq := by
    rw [hid, he]
  exact ⟨hinv, by rw [hent]; exact h.bounds, h.onTime.same hp hp' hent hb⟩

/-- **The step lemma.**  A step keeps the calendar right exactly if it is punctual. -/
theorem SleepInv.step (h : SleepInv (s, σ)) (hfits : DelayFits e) (hs : step s e = some s') :
    (OnTime s'.k (sleepSee s e s' σ) ↔ Punctual s e) ∧
      (Punctual s e → SleepInv (s', sleepSee s e s' σ)) := by
  have hi' := step_inv h.sys (e := e) (fun hf => hf.elim) hs
  obtain ⟨qs, hp⟩ := h.sys.kernel.settled.placed
  have hsq := hp.queues.sleep
  have always : Punctual s e → SleepInv (s', sleepSee s e s' σ) →
      (OnTime s'.k (sleepSee s e s' σ) ↔ Punctual s e) ∧
        (Punctual s e → SleepInv (s', sleepSee s e s' σ)) := fun hpun hinv =>
    ⟨iff_of_true hinv.onTime hpun, fun _ => hinv⟩
  cases e with
  | call c =>
    refine always trivial ?_
    simp only [Xinu.step] at hs
    split_ifs at hs with hg
    obtain ⟨r, hr, he⟩ := Option.map_eq_some_iff.mp hs
    have hk : s'.k = r.1 := by rw [← he]
    have hset : Settled False r.1 := hk ▸ hi'.kernel.settled
    obtain ⟨h1, h2⟩ := h.onTime.enter h.bounds h.sys.kernel hfits hg.2.2 hr hset
    rw [← hk] at h1 h2
    exact ⟨hi', h1, h2⟩
  | finish =>
    refine always trivial ?_
    obtain ⟨r, hr, rfl⟩ := Option.map_eq_some_iff.mp hs
    have hf := finish_frame h.sys.kernel h.sys.alive hr
    refine h.same hi' (hf.entries _ hsq.1 hsq.2 (by simp)) ?_ hf.asleep
    exact finish_sleepq h.sys.alive hr
  | callback =>
    refine always trivial ?_
    obtain ⟨hb, -⟩ := callback_bland hs
    refine h.same hi' (by rw [hb.same.queuetab]) hb.same.sleepq fun st _ p hp => ?_
    rwa [hb.same.prstate] at hp
  | tick =>
    simp only [Xinu.step] at hs
    split_ifs at hs with hg
    obtain ⟨k', hk, rfl⟩ := Option.map_eq_some_iff.mp hs
    have hiff := h.onTime.tick_iff h.bounds h.sys.kernel.settled hk
    refine ⟨hiff, fun hpun => ⟨hi', ?_, hiff.mpr hpun⟩⟩
    obtain ⟨hent, -, -⟩ := clkhandler_sleepq h.sys.kernel.settled h.bounds hk
    refine ⟨?_, ?_⟩
    · rw [hent]
      exact h.bounds.nonneg.rest_tick
    · rw [hent]
      exact (DeltaList.total_rest_tick_le h.bounds.nonneg).trans h.bounds.total
  | store a v =>
    refine always trivial ?_
    simp only [Xinu.step] at hs
    split_ifs at hs with hg
    obtain rfl := Option.some.inj hs
    exact h.same hi' rfl rfl fun _ _ _ hp => hp

theorem boot_sleepers {image : Image} {heap : Heap} (h : boot image heap = some s) :
    SleepInv (s, fun _ => none) := by
  have hinv : SysInv False s := boot_inv h
  obtain ⟨base, hb⟩ := boot_spec h
  obtain ⟨qs, hp⟩ := hinv.kernel.settled.placed
  -- nobody but the null process exists
  have awake : ∀ p, (s.k.proctab p).prstate ≠ .sleep ∧ (s.k.proctab p).prstate ≠ .rectim := by
    intro p
    rw [hb.proctab]
    rcases eq_or_ne p NULLPROC with rfl | hn
    · rw [Function.update_self]
      simp [nullEntry]
    · rw [Function.update_of_ne hn]
      simp [zeroProc]
  have hnil : s.k.queuetab.entries s.k.sleepq = [] := by
    rw [hp.linked.entries_eq hp.queues.sleep.1, List.map_eq_nil_iff,
      List.eq_nil_iff_forall_not_mem]
    intro p hm
    rcases hp.mem_sleep (hp.linked.procs _ hp.queues.sleep.1 p hm) hm with h1 | h1
    · exact (awake p).1 h1
    · exact (awake p).2 h1
  refine ⟨hinv, ?_, fun p _ => by simp [(awake p).1], by simp⟩
  rw [hnil]
  refine ⟨by simp [DeltaList.NonNeg], ?_⟩
  simp [DeltaList.total, maxDelay]

/-- **Sleepers wake on time.**  In every run whose ticks find no key of zero in front of a sleeper,
whoever called `sleepms(n)` and was not killed is asleep until `n` ticks have passed and on its way
after the last of them.  The first tick that does find one spoils the calendar. -/
theorem sleeps_on_time {x : Sys × Calendar}
    (h : Watched sleepSee (fun _ => none) (fun x e => DelayFits e ∧ Punctual x.1 e) x) :
    OnTime x.1.k x.2 ∧ ∀ e y, DelayFits e → Runs.watch step sleepSee x e = some y →
      (OnTime y.1.k y.2 ↔ Punctual x.1 e) ∧
        (Punctual x.1 e → e = .tick → ∀ p, IsProc p → x.2 p = some 1 → Active y.1.k p) := by
  have hinv : SleepInv x := by
    obtain ⟨image, heap, s₀, hb, hr⟩ := h
    refine hr.invariant (boot_sleepers hb) fun t e u ht hok hs => ?_
    obtain ⟨s', hs', rfl⟩ := Runs.watch_some.mp hs
    exact (ht.step hok.1 hs').2 hok.2
  refine ⟨hinv.onTime, fun e y hfits hs => ?_⟩
  obtain ⟨s', hs', rfl⟩ := Runs.watch_some.mp hs
  refine ⟨(hinv.step hfits hs').1, ?_⟩
  rintro hpun rfl p hpp hσ
  simp only [step] at hs'
  split_ifs at hs' with hg
  obtain ⟨k', hk, rfl⟩ := Option.map_eq_some_iff.mp hs'
  exact hinv.onTime.last_tick hinv.bounds hinv.sys.kernel.settled hpun hk hpp hσ

/-- The second process sleeps for two ticks, and the clock ticks twice. -/
def sleepTwo : List Event :=
  [makeMain 20, makeProcess 30, .finish, .call (.resume 2),
    .call (.sleepms 2), .finish, .tick, .finish, .finish, .tick]

theorem sleeps_on_time_two : ∃ x : Sys × Calendar, (x.1.k.proctab 2).prstate = .curr ∧
    OnTime x.1.k x.2 := by
  have h1 : (watchFromBoot sleepSee (fun _ => none) (fun x e => DelayFits e ∧ Punctual x.1 e)
      sleepTwo).map (fun x => decide ((x.1.k.proctab 2).prstate = .curr)) = some true := by
    decide +kernel
  obtain ⟨x, hx, hp⟩ := Option.map_eq_some_iff.mp h1
  exact ⟨x, of_decide_eq_true hp, (sleeps_on_time (watched_watchFromBoot hx)).1⟩

/-- While it sleeps the first process waits zero ticks for a message. -/
def sleepBehindZero : List Event :=
  [makeMain 20, makeProcess 30, .finish, .call (.resume 2),
    .call (.sleepms 2), .finish, .call (.recvtime 0), .finish, .tick, .finish, .tick]

/-- **Two ticks later it is still asleep.** -/
theorem sleeper_late : ∃ x, Watched sleepSee (fun _ => none) (fun _ e => DelayFits e) x ∧
    x.2 2 = none ∧ (x.1.k.proctab 2).prstate = .sleep := by
  have h1 : (watchFromBoot sleepSee (fun _ => none) (fun _ e => DelayFits e) sleepBehindZero).map
      (fun x => decide (x.2 2 = none ∧ (x.1.k.proctab 2).prstate = .sleep)) = some true := by
    decide +kernel
  obtain ⟨x, hx, hp⟩ := Option.map_eq_some_iff.mp h1
  exact ⟨x, watched_watchFromBoot hx, of_decide_eq_true hp⟩

end Xinu
