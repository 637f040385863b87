/-
# Priority queues: `insert.c`, `queue.c`

`insert` walks along a queue to the first smaller key and takes its place there.  The walk ends at
the tail at the latest, whose key is below every priority.  Seen from outside, a queue that is only
used by `insert` and `dequeue` serves by priority and, among equals, in the order of arrival
(`serves_by_priority`): with every process put back when its time slice is over, that is round
robin.
-/
import Xinu.Lib.StableQueue
import Xinu.SleepTime

namespace Xinu

open LinkedPath StableQueue

variable {k : Kernel} {qs : Int → List Int} {p q : Int} {ys : List Int} {t : QTab}
  {ws : List (Int × Int)}

/-! ## 1. One call -/

/-- A priority is above the key of a tail. -/
theorem minKey_lt (prio : Pri16) : MINKEY < prio.val := by
  have := prio.property.1
  simp only [MINKEY]
  omega

/-- `p` was put on a queue with the key `key`. -/
structure KeyInserted (t t' : QTab) (q p key : Int) : Prop where
  descending : Descending (t'.entries q)
  place : ∃ xs ys, t.entries q = xs ++ ys ∧ t'.entries q = xs ++ (p, key) :: ys ∧
    (∀ e ∈ xs, key ≤ e.2) ∧ ∀ e ∈ ys, e.2 < key

/-- **`insert`** on a queue in descending order. -/
theorem insert_key (h : Linked k.queuetab qs) (hq : IsQueue q)
    (hdesc : Descending (k.queuetab.entries q)) (hp : ¬ isbadpid k p)
    (hnew : ∀ q', IsQueue q' → p ∉ qs q') (prio : Pri16) :
    ∃ t', insert p q prio.val k = some (k.setQueue t', OK) ∧
      Linked t' (Function.update qs q (t'.members q)) ∧
      KeyInserted k.queuetab t' q p prio.val := by
  obtain ⟨t', xs, ys, hi, hs, hl, hkeys, hxs, hys⟩ := insert_spec h hq hp hnew (minKey_lt prio)
  have hmem := hl.members_eq hq
  rw [Function.update_self] at hmem
  have hpq := hnew q hq
  have hkeep : ∀ i ∈ qs q, t'.entry i = k.queuetab.entry i := by
    intro i hi
    have hne : i ≠ p := fun e => hpq (e ▸ hi)
    rw [QTab.entry, QTab.entry, hkeys, if_neg hne]
  have hfront : xs.map t'.entry = xs.map k.queuetab.entry :=
    List.map_congr_left fun i hi => hkeep i (by rw [hs]; exact List.mem_append_left _ hi)
  have hback : ys.map t'.entry = ys.map k.queuetab.entry :=
    List.map_congr_left fun i hi => hkeep i (by rw [hs]; exact List.mem_append_right _ hi)
  have hself : t'.entry p = (p, prio.val) := by rw [QTab.entry, hkeys, if_pos rfl]
  have hold : k.queuetab.entries q = xs.map k.queuetab.entry ++ ys.map k.queuetab.entry := by
    rw [h.entries_map hq, hs, List.map_append]
  have hnow : t'.entries q =
      xs.map k.queuetab.entry ++ (p, prio.val) :: ys.map k.queuetab.entry := by
    rw [hl.entries_map hq, Function.update_self, List.map_append, List.map_cons, hfront, hback,
      hself]
  have hbefore : ∀ e ∈ xs.map k.queuetab.entry, prio.val ≤ e.2 := by
    intro e he
    obtain ⟨x, hx, rfl⟩ := List.mem_map.mp he
    exact hxs x hx
  rw [hold] at hdesc
  have hbehind : ∀ e ∈ ys.map k.queuetab.entry, e.2 < prio.val := by
    cases ys with
    | nil => simp
    | cons y ys =>
      have hy := hys y rfl
      rw [List.map_cons] at hdesc ⊢
      obtain ⟨htop, -⟩ := List.pairwise_cons.mp (List.pairwise_append.mp hdesc).2.1
      intro e he
      rcases List.mem_cons.mp he with rfl | he
      · exact hy
      · exact lt_of_le_of_lt (htop e he) hy
  exact ⟨t', hi, hmem ▸ hl, hnow ▸ descending_insert hdesc hbefore hbehind, _, _, hold, hnow,
    hbefore, hbehind⟩

/-- **`dequeue`** takes the first. -/
theorem dequeue_entries (h : Linked t qs) (hq : IsQueue q) (hs : qs q = p :: ys) :
    ∃ t', dequeue q t = (t', p) ∧ Linked t' (Function.update qs q ys) ∧
      t.entries q = t.entry p :: t'.entries q := by
  obtain ⟨t', hd, hl, hkeys⟩ := dequeue_spec h hq hs
  refine ⟨t', hd, hl, ?_⟩
  rw [h.entries_map hq, hl.entries_map hq, Function.update_self, hs, List.map_cons]
  refine congrArg _ (List.map_congr_left fun i _ => ?_)
  rw [QTab.entry, QTab.entry, hkeys]

/-! ## 2. Every run -/

/-- A call that uses the queue. -/
inductive QueueOp
  | insert (pid : Int) (prio : Pri16)
  | dequeue

/-- What the call leaves. -/
def QueueOp.run (q : Int) (k : Kernel) : QueueOp → Option Kernel
  | .insert pid prio => (Xinu.insert pid q prio.val k).map Prod.fst
  | .dequeue => some (k.setQueue (Xinu.dequeue q k.queuetab).1)

/-- The processes on the queue in the order in which they came. -/
def arrivals (q : Int) (k : Kernel) (op : QueueOp) (_ : Kernel) (ws : List (Int × Int)) :
    List (Int × Int) :=
  match op with
  | .insert pid prio => ws ++ [(pid, prio.val)]
  | .dequeue => ws.erase (k.queuetab.entry (dequeue q k.queuetab).2)

/-- Processes of the table are inserted, which are on no list. -/
def Insertable (x : Kernel × List (Int × Int)) : QueueOp → Prop
  | .insert pid _ => ¬ isbadpid x.1 pid ∧ ∀ q', IsQueue q' → pid ∉ x.1.queuetab.members q'
  | .dequeue => True

/-- The queue is well formed and holds the arrivals. -/
def Holding (q : Int) (x : Kernel × List (Int × Int)) : Prop :=
  (∃ qs, Linked x.1.queuetab qs) ∧ Ranks (x.1.queuetab.entries q) x.2

/-- What `dequeue` takes is what is to be served next. -/
structure ServesNext (q : Int) (k : Kernel) (ws : List (Int × Int)) : Prop where
  empty : ws = [] → dequeue q k.queuetab = (k.queuetab, EMPTY)
  next : ws ≠ [] → Next ws (k.queuetab.entry (dequeue q k.queuetab).2)

theorem Holding.servesNext (hq : IsQueue q) (h : Holding q (k, ws)) :
    ServesNext q k ws ∧ Holding q (k.setQueue (dequeue q k.queuetab).1,
      ws.erase (k.queuetab.entry (dequeue q k.queuetab).2)) := by
  obtain ⟨⟨qs, hl⟩, hr⟩ := h
  cases hs : qs q with
  | nil =>
    have hd := dequeue_nil hl hq hs
    have he : k.queuetab.entries q = [] := by rw [hl.entries_map hq, hs, List.map_nil]
    have hw : ws = [] := hr.eq_nil_iff.mp he
    refine ⟨⟨fun _ => hd, fun hne => absurd hw hne⟩, ⟨qs, ?_⟩, ?_⟩
    · rw [hd]
      exact hl
    · rw [hd, hw, List.erase_nil]
      exact hw ▸ hr
  | cons p ys =>
    obtain ⟨t', hd, hl', he⟩ := dequeue_entries hl hq hs
    have hr' : Ranks (k.queuetab.entry p :: t'.entries q) ws := he ▸ hr
    obtain ⟨hnext, hrest⟩ := hr'.serve
    have hne : ws ≠ [] := by
      rintro rfl
      exact absurd (hr'.eq_nil_iff.mpr rfl) (List.cons_ne_nil _ _)
    rw [hd]
    exact ⟨⟨fun hw => absurd hw hne, fun _ => by rw [hd]; exact hnext⟩, ⟨_, hl'⟩, hrest⟩

/-- **The step lemma.** -/
theorem Holding.step (hq : IsQueue q) {x y : Kernel × List (Int × Int)} {op : QueueOp}
    (h : Holding q x) (hok : Insertable x op)
    (hs : Runs.watch (QueueOp.run q) (arrivals q) x op = some y) : Holding q y := by
  obtain ⟨k', hk', rfl⟩ := Runs.watch_some.mp hs
  obtain ⟨k, ws⟩ := x
  cases op with
  | insert p prio =>
    obtain ⟨⟨qs, hl⟩, hr⟩ := h
    obtain ⟨hp, hnew⟩ := hok
    have hnew' : ∀ q', IsQueue q' → p ∉ qs q' := fun q' hq' =>
      hl.members_eq hq' ▸ hnew q' hq'
    obtain ⟨t', hi, hl', -, xs, ys, hold, hnow, hxs, hys⟩ :=
      insert_key hl hq hr.descending hp hnew' prio
    obtain rfl : k' = k.setQueue t' := by
      simp only [QueueOp.run, hi, Option.map_some] at hk'
      exact (Option.some.inj hk').symm
    refine ⟨⟨_, hl'⟩, ?_⟩
    have harr := Ranks.arrive (x := (p, prio.val)) (hold ▸ hr) hxs hys
    exact hnow ▸ harr
  | dequeue =>
    obtain rfl := Option.some.inj hk'
    exact (h.servesNext hq).2

/-- A call always returns: the walk of `insert` ends inside the queue. -/
theorem Holding.returns (hq : IsQueue q) {x : Kernel × List (Int × Int)} {op : QueueOp}
    (h : Holding q x) (hok : Insertable x op) : ∃ k', op.run q x.1 = some k' := by
  obtain ⟨⟨qs, hl⟩, hr⟩ := h
  cases op with
  | insert p prio =>
    obtain ⟨hp, hnew⟩ := hok
    have hnew' : ∀ q', IsQueue q' → p ∉ qs q' := fun q' hq' =>
      hl.members_eq hq' ▸ hnew q' hq'
    obtain ⟨t', hi, -⟩ := insert_key hl hq hr.descending hp hnew' prio
    exact ⟨x.1.setQueue t', by rw [QueueOp.run, hi]; rfl⟩
  | dequeue => exact ⟨_, rfl⟩

/-- **Service by priority.**  On every queue in descending order `insert` keeps the order, and takes
the place behind all processes of the same priority.  In every sequence of calls from there on,
`dequeue` takes the process with the highest priority that came first. -/
theorem serves_by_priority (h : Linked k.queuetab qs) (hq : IsQueue q)
    (hdesc : Descending (k.queuetab.entries q)) :
    (∀ p (prio : Pri16), ¬ isbadpid k p → (∀ q', IsQueue q' → p ∉ qs q') →
      ∃ t', insert p q prio.val k = some (k.setQueue t', OK) ∧
        Linked t' (Function.update qs q (t'.members q)) ∧
        KeyInserted k.queuetab t' q p prio.val) ∧
    ∀ x, Runs.Reaches (Runs.watch (QueueOp.run q) (arrivals q)) Insertable
        (k, k.queuetab.entries q) x →
      Holding q x ∧ ServesNext q x.1 x.2 ∧
        ∀ op, Insertable x op → ∃ k', op.run q x.1 = some k' := by
  refine ⟨fun p prio hp hnew => insert_key h hq hdesc hp hnew prio, fun x hr => ?_⟩
  have hx : Holding q x := hr.invariant ⟨⟨qs, h⟩, .refl hdesc⟩ fun _ _ _ ht hok hs =>
    ht.step hq hok hs
  exact ⟨hx, (hx.servesNext hq).1, fun op hok => hx.returns hq hok⟩

/-- The first process makes another one. -/
def makeSecond : List Event := [makeMain 20, makeProcess 30, .finish]

theorem serves_by_priority_second : ∃ (k : Kernel) (t' : QTab),
    k.queuetab.entries k.readylist = [(0, 0)] ∧
    insert 2 k.readylist 30 k = some (k.setQueue t', OK) ∧
      KeyInserted k.queuetab t' k.readylist 2 30 ∧
      ServesNext k.readylist (k.setQueue t') [(0, 0), (2, 30)] := by
  have h1 : (runFromBoot makeSecond).map (fun s =>
      decide (s.k.queuetab.entries s.k.readylist = [(0, 0)] ∧ ¬ isbadpid s.k 2 ∧
        (s.k.proctab 2).prstate = .susp)) = some true := by decide +kernel
  obtain ⟨s, hs, hp⟩ := Option.map_eq_some_iff.mp h1
  obtain ⟨he, hg, hs2⟩ := of_decide_eq_true hp
  have hinv := (reachable_runFromBoot hs).inv False fun hf => hf.elim
  obtain ⟨qs, hpl⟩ := hinv.kernel.settled.placed
  have hq := hpl.queues.ready
  have hnew : ∀ q', IsQueue q' → 2 ∉ qs q' := by
    intro q' hq' hm
    have hh := (hpl.placed 2 q' (by decide) hq' (by simp)).mp hm
    simp [home, hs2] at hh
  obtain ⟨hins, hrun⟩ := serves_by_priority hpl.linked hq (by rw [he]; simp)
  obtain ⟨t', hi, -, hk⟩ := hins 2 ⟨30, by decide⟩ hg hnew
  refine ⟨s.k, t', he, hi, hk, ?_⟩
  have hstep : Runs.watch (QueueOp.run s.k.readylist) (arrivals s.k.readylist)
      (s.k, s.k.queuetab.entries s.k.readylist) (.insert 2 ⟨30, by decide⟩) =
        some (s.k.setQueue t', [(0, 0), (2, 30)]) := by
    simp [Runs.watch, QueueOp.run, hi, arrivals, he]
  have hok : Insertable (s.k, s.k.queuetab.entries s.k.readylist) (.insert 2 ⟨30, by decide⟩) :=
    ⟨hg, fun q' hq' => hpl.linked.members_eq hq' ▸ hnew q' hq'⟩
  exact (hrun _ (.tail .refl hok hstep)).2.1

end Xinu
