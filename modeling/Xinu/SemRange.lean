/-
# Semaphore counts at the end of their range

`signal` and `signaln` count up without a look at the largest `int32`, and every count that is not
negative is accepted by `semcreate` and `semreset`.  A count pushed past the largest one becomes the
smallest: from then on the semaphore says that somebody waits while its queue is empty, every
`wait` blocks, and every `signal` takes a process from the empty queue.

`counts_never_wrap` says when a call does its arithmetic and its releases as it should: exactly when
the count it comes to is an `int32`.
-/
import Xinu.SemCount

namespace Xinu

open LinkedPath Counting

variable {strict : Prop} {k : Kernel} {s s' : Sys} {σ : Store} {e : Event} {sem : Int}
  {c : Counter Int}

/-! ## 1. One round -/

/-- What `signal` does once is right here: the queue it takes a process from is not empty, and
the count goes up by one. -/
structure RoundSound (k : Kernel) (sem : Int) : Prop where
  found : (k.semtab sem).scount < 0 → waitList k sem ≠ []
  counts : int32 ((k.semtab sem).scount + 1) = (k.semtab sem).scount + 1

theorem Holds.roundSound_iff (h : Holds k sem c) (hlow : -100 ≤ c.count)
    (hmax : c.count ≤ maxCount) :
    RoundSound k sem ↔ c.count + 1 ≤ maxCount := by
  constructor
  · intro hr
    by_contra hover
    have hc : c.count = maxCount := by omega
    have hwrap := hr.counts
    rw [h.count, hc] at hwrap
    exact absurd hwrap (by decide)
  · intro hnext
    simp only [maxCount] at hnext
    refine ⟨fun hneg => ?_, ?_⟩
    · rw [h.list]
      exact c.waiting_ne_nil.mpr (h.count ▸ hneg)
    · rw [h.count]
      exact int32_eq (by omega) hnext

/-- **Every round of `signaln`.** -/
theorem Holds.rounds_iff (h : Holds k sem c) (hd : Deferred strict k) (hsem : ¬ isbadsem sem)
    (hmax : c.count ≤ maxCount) (n : Nat) :
    (∀ i < n, ∀ k', signalnLoop sem i k = some k' → RoundSound k' sem) ↔
      n = 0 ∨ c.count + n ≤ maxCount := by
  -- the state before a round that is not past the largest count
  have hround : ∀ i : Nat, c.count + i ≤ maxCount → ∃ k', signalnLoop sem i k = some k' ∧
      (RoundSound k' sem ↔ c.count + i + 1 ≤ maxCount) := by
    intro i hi
    obtain ⟨k', hk'⟩ := signalnLoop_returns hd hsem i
    obtain ⟨hr, hs⟩ := h.of_signalnLoop hd hsem hi hk'
    have hd' := (signalnLoop_deferred hsem hd hk').1
    obtain ⟨qs, hp⟩ := hd'.placed
    have hc := h.released hr hs
    exact ⟨k', hk', hc.roundSound_iff (hc.low hp hsem) hi⟩
  constructor
  · intro hall
    by_contra hover
    rw [not_or] at hover
    -- the round that starts at the largest count
    have hlast : c.count + ((maxCount - c.count).toNat : Int) = maxCount := by omega
    obtain ⟨k', hk', hiff⟩ := hround (maxCount - c.count).toNat (by omega)
    have := hiff.mp (hall _ (by omega) k' hk')
    omega
  · intro hn i hi k' hk'
    have hnext : c.count + i + 1 ≤ maxCount := by omega
    obtain ⟨k'', hk'', hiff⟩ := hround i (by omega)
    obtain rfl := Option.some.inj (hk''.symm.trans hk')
    exact hiff.mpr hnext

/-! ## 2. One call -/

/-- The arguments that are counts are `int32`. -/
def Int32Args : Event → Prop
  | .call (.signaln _ n) => n ≤ maxCount
  | .call (.semcreate n) => n ≤ maxCount
  | .call (.semreset _ n) => n ≤ maxCount
  | _ => True

/-- The semaphore can be used. -/
def InUse (k : Kernel) (sem : Int) : Prop := ¬ isbadsem sem ∧ (k.semtab sem).sstate = .used

/-- **The call does what it should to the count**: no arithmetic wraps, and no process is taken from
an empty queue. -/
def CallSound (s : Sys) : Event → Prop
  | .call (.wait sem) => InUse s.k sem →
    int32 ((s.k.semtab sem).scount - 1) = (s.k.semtab sem).scount - 1
  | .call (.signal sem) => InUse s.k sem → RoundSound s.k sem
  | .call (.signaln sem n) => InUse s.k sem → ∀ k v, reschedCntl DEFER_START s.k = some (k, v) →
    ∀ i < n.toNat, ∀ k', signalnLoop sem i k = some k' → RoundSound k' sem
  | _ => True

theorem KeeperInv.callSound_iff (h : KeeperInv (s, σ)) (harg : Int32Args e) :
    CallSound s e ↔ InRange s e := by
  have hset := h.sys.kernel.settled
  obtain ⟨qs, hp⟩ := hset.placed
  cases e with
  | call cl =>
    cases cl with
    | wait sem =>
      refine iff_of_true (fun ⟨hsem, hused⟩ => ?_) trivial
      obtain ⟨c, -, hmax, hh⟩ := h.kept.used hsem hused
      have hlow := hh.low hp hsem
      simp only [maxCount] at hmax
      rw [hh.count]
      exact int32_eq (by omega) (by omega)
    | signal sem =>
      have hone : ∀ hsem : ¬ isbadsem sem, ∀ hused : (s.k.semtab sem).sstate = .used,
          (RoundSound s.k sem ↔ (s.k.semtab sem).scount + 1 ≤ maxCount) := by
        intro hsem hused
        obtain ⟨c, -, hmax, hh⟩ := h.kept.used hsem hused
        rw [hh.count]
        exact hh.roundSound_iff (hh.low hp hsem) hmax
      exact ⟨fun hc hsem hused => (hone hsem hused).mp (hc ⟨hsem, hused⟩),
        fun hc ⟨hsem, hused⟩ => (hone hsem hused).mpr (hc hsem hused)⟩
    | signaln sem n =>
      obtain ⟨k₁, hdefer, hd₁, -, he⟩ := deferStart_spec hset
      have hs₁ := (reschedCntl_only hdefer).semtab
      have hall : ∀ hsem : ¬ isbadsem sem, ∀ hused : (s.k.semtab sem).sstate = .used,
          ((∀ i < n.toNat, ∀ k', signalnLoop sem i k₁ = some k' → RoundSound k' sem) ↔
            (s.k.semtab sem).scount + n ≤ maxCount) := by
        intro hsem hused
        obtain ⟨c, -, hmax, hh⟩ := h.kept.used hsem hused
        have hh₁ : Holds k₁ sem c :=
          ⟨by rw [hs₁]; exact hh.count, by rw [waitList, he.queuetab, hs₁]; exact hh.list⟩
        rw [hh₁.rounds_iff hd₁ hsem hmax, hh.count]
        omega
      constructor
      · intro hc hsem hused
        exact (hall hsem hused).mp (hc ⟨hsem, hused⟩ k₁ _ hdefer)
      · rintro hc ⟨hsem, hused⟩ k v hk
        obtain ⟨rfl, -⟩ := Prod.mk.inj (Option.some.inj (hdefer.symm.trans hk))
        exact (hall hsem hused).mpr (hc hsem hused)
    | semcreate n => exact iff_of_true trivial harg
    | semreset sem n => exact iff_of_true trivial harg
    | _ => exact Iff.rfl
  | _ => exact Iff.rfl

/-! ## 3. Every run -/

/-- **Counts that never wrap.**  In every run in which no call pushes a count past the largest
`int32`, a call of that kind, and no other, does its arithmetic and its releases as it should, and
leaves no semaphore with a negative count and an empty queue. -/
theorem counts_never_wrap {x : Sys × Store}
    (h : Watched semSee (fun _ => none) (fun x => InRange x.1) x) (harg : Int32Args e)
    (hs : step x.1 e = some s') :
    (CallSound x.1 e ∧ ∀ sem, InUse s'.k sem → (s'.k.semtab sem).scount < 0 →
      waitList s'.k sem ≠ []) ↔ InRange x.1 e := by
  have hinv : KeeperInv (x.1, x.2) := h.keeper
  refine ⟨fun hc => (hinv.callSound_iff harg).mp hc.1, fun hok =>
    ⟨(hinv.callSound_iff harg).mpr hok,
    fun sem ⟨hsem, hused⟩ => ?_⟩⟩
  exact ((hinv.step hok hs).1.agree.count sem hsem hused).1.mp

instance (k : Kernel) (sem : Int) : Decidable (InUse k sem) :=
  inferInstanceAs (Decidable (¬ isbadsem sem ∧ (k.semtab sem).sstate = .used))

/-- The first process creates a semaphore with a count of `n`. -/
def createSem (n : Int) : List Event :=
  [makeMain 20, .call (.semcreate n), .finish]

theorem counts_never_wrap_atMax : ∃ (x : Sys × Store) (s' : Sys),
    step x.1 (.call (.signal 0)) = some s' ∧ CallSound x.1 (.call (.signal 0)) ∧
      (s'.k.semtab 0).scount = maxCount := by
  have h1 : (watchFromBoot semSee (fun _ => none) (fun x => InRange x.1)
      (createSem 2147483646)).map (fun x => ((x.1.k.semtab 0).scount,
        (step x.1 (.call (.signal 0))).map fun s' => (s'.k.semtab 0).scount)) =
          some (2147483646, some maxCount) := by decide +kernel
  obtain ⟨x, hx, hp⟩ := Option.map_eq_some_iff.mp h1
  obtain ⟨hcount, hstep⟩ := Prod.mk.inj hp
  obtain ⟨s', hs', hc'⟩ := Option.map_eq_some_iff.mp hstep
  have hok : InRange x.1 (.call (.signal 0)) := by
    intro _ _
    rw [hcount]
    decide
  have harg : Int32Args (.call (.signal 0)) := trivial
  exact ⟨x, s', hs', ((counts_never_wrap (watched_watchFromBoot hx) harg hs').mpr hok).1, hc'⟩

/-- **A count past the largest `int32`**: nobody waits, the count says that 2147483648 processes do,
and the next `signal` takes one from the empty queue. -/
theorem count_wraps : ∃ s, Reachable Runs.always s ∧ InUse s.k 0 ∧
    (s.k.semtab 0).scount = -2147483648 ∧ waitList s.k 0 = [] ∧
      ¬ CallSound s (.call (.signal 0)) := by
  have h1 : (runFromBoot (createSem 2147483647 ++ [.call (.signal 0), .finish])).map (fun s =>
      decide (InUse s.k 0 ∧ (s.k.semtab 0).scount = -2147483648 ∧ waitList s.k 0 = [])) =
        some true := by decide +kernel
  obtain ⟨s, hs, hp⟩ := Option.map_eq_some_iff.mp h1
  obtain ⟨hin, hcount, hempty⟩ := of_decide_eq_true hp
  refine ⟨s, reachable_runFromBoot hs, hin, hcount, hempty, fun hc => ?_⟩
  exact (hc hin).found (by omega) hempty

end Xinu
