/-
# Who runs: priorities, `chprio` and deferral

`insert` keeps the ready list in order of the keys its members had when they were inserted, and
`resched` compares the current priority with the first key.  Both are right as long as the key
of a ready process is its priority.  `chprio` assigns to `prprio` and does nothing else, so a
change of the priority of a ready process, or a change that puts the current process below a
ready one, leaves the wrong process running.

The second half is about deferral: between the first `DEFER_START` and the `DEFER_STOP` that
matches it, at any depth, a request to reschedule is remembered, and it is carried out by that
`DEFER_STOP` and by no earlier one.
-/
import Xinu.TableRuns

namespace Xinu

/-! ## 1. The highest priority runs -/

/-- The current process has the highest priority, and the keys on the ready list are the
priorities. -/
structure RunsHighest (k : Kernel) : Prop where
  top : ∀ p, IsProc p → (k.proctab p).prstate = .ready →
    (k.proctab p).prprio.val ≤ (k.proctab k.currpid).prprio.val
  keys : ∀ p, IsProc p → (k.proctab p).prstate = .ready →
    (k.queuetab p).qkey = (k.proctab p).prprio.val

/-- **The order of scheduling**, in every run whose `chprio` calls keep it. -/
theorem Reachable.runsHighest {s : Sys} (h : Reachable KeepsOrder s) : RunsHighest s.k := by
  have hi := h.inv True fun _ _ _ hok => hok
  obtain ⟨qs, hp⟩ := hi.kernel.settled.placed
  exact ⟨hi.kernel.settled.top trivial, fun p hpp hr =>
    (hp.ordered trivial).keys p ((hp.mem_ready hpp).mpr hr)⟩

/-! ## 2. Nested deferral -/

/-- What a routine can do while rescheduling is deferred. -/
inductive DeferOp
  /-- `resched_cntl(DEFER_START)`. -/
  | start
  /-- `resched_cntl(DEFER_STOP)`. -/
  | stop
  /-- A call of `resched`. -/
  | request
  /-- Anything that leaves `Defer` alone. -/
  | other (f : Kernel → Kernel) (hf : ∀ k, (f k).defer = k.defer)

def DeferOp.run : DeferOp → Kernel → Option Kernel
  | .start, k => (reschedCntl DEFER_START k).map Prod.fst
  | .stop, k => (reschedCntl DEFER_STOP k).map Prod.fst
  | .request, k => resched k
  | .other f _, k => some (f k)

/-- Run a list of such operations. -/
def runDeferred : List DeferOp → Kernel → Option Kernel
  | [], k => some k
  | op :: ops, k => (op.run k).bind (runDeferred ops)

/-- The depth of nesting after a list of operations, from depth `d`; `none` when it leaves the
range from 1 to the largest `int32`. -/
def depthAfter : Int → List DeferOp → Option Int
  | d, [] => some d
  | d, .start :: ops => if d + 1 < 2147483648 then depthAfter (d + 1) ops else none
  | d, .stop :: ops => if 1 < d then depthAfter (d - 1) ops else none
  | d, _ :: ops => depthAfter d ops

/-- Somebody asks for rescheduling. -/
def Requested (ops : List DeferOp) : Prop := DeferOp.request ∈ ops

theorem deferStart_nested {k : Kernel} {d : Int} (hk : k.defer.ndefers = d) (hd : 1 ≤ d)
    (hlt : d + 1 < 2147483648) :
    reschedCntl DEFER_START k = some (k.setDefer ⟨d + 1, k.defer.attempt⟩, OK) := by
  have hne : ¬ d = 0 := by omega
  have hwrap : int32 (d + 1) = d + 1 := by
    unfold int32
    rw [Int.bmod_def]
    split_ifs <;> omega
  simp only [reschedCntl, if_true, hk, hne, if_false, hwrap]

theorem deferStop_nested {k : Kernel} {d : Int} (hk : k.defer.ndefers = d) (hd : 1 < d) :
    reschedCntl DEFER_STOP k = some (k.setDefer ⟨d - 1, k.defer.attempt⟩, OK) := by
  have hne : ¬ DEFER_STOP = DEFER_START := by decide
  have h1 : ¬ d ≤ 0 := by omega
  have h2 : ¬ d - 1 = 0 := by omega
  simp only [reschedCntl, hne, if_false, if_true, hk, h1, setDefer_defer, h2, false_and]

/-- The outermost `DEFER_STOP` carries out a remembered request. -/
theorem deferStop_outermost {k : Kernel} (hk : k.defer.ndefers = 1) (ha : k.defer.attempt ≠ 0) :
    reschedCntl DEFER_STOP k =
      (resched (k.setDefer ⟨0, k.defer.attempt⟩)).map fun k => (k, OK) := by
  have hne : ¬ DEFER_STOP = DEFER_START := by decide
  have h1 : ¬ (1 : Int) ≤ 0 := by omega
  simp only [reschedCntl, hne, if_false, if_true, hk, h1, setDefer_defer, sub_self, ne_eq, ha,
    not_false_iff, and_self]
  cases resched (k.setDefer ⟨0, k.defer.attempt⟩) <;> rfl

/-- **While deferred, operations only count and remember**: nothing is rescheduled, and a
request made, or remembered from before, is remembered at the end. -/
theorem runDeferred_spec {ops : List DeferOp} {k : Kernel} {d d' : Int}
    (hk : k.defer.ndefers = d) (hd : 1 ≤ d) (h : depthAfter d ops = some d') :
    ∃ k', runDeferred ops k = some k' ∧ k'.defer.ndefers = d' ∧ 1 ≤ d' ∧
      (k.defer.attempt ≠ 0 ∨ Requested ops → k'.defer.attempt ≠ 0) := by
  induction ops generalizing k d with
  | nil =>
    obtain rfl := Option.some.inj h
    refine ⟨k, rfl, hk, hd, ?_⟩
    rintro (ha | hr)
    · exact ha
    · simp [Requested] at hr
  | cons op ops ih =>
    have skip : ∀ k₁ d₁, op ≠ .request → op.run k = some k₁ →
        k₁.defer.attempt = k.defer.attempt → k₁.defer.ndefers = d₁ → 1 ≤ d₁ →
        depthAfter d₁ ops = some d' → ∃ k', runDeferred (op :: ops) k = some k' ∧
          k'.defer.ndefers = d' ∧ 1 ≤ d' ∧
          (k.defer.attempt ≠ 0 ∨ Requested (op :: ops) → k'.defer.attempt ≠ 0) := by
      intro k₁ d₁ hop hrun hatt hk₁ hd₁ h₁
      obtain ⟨k', hr, hn, hd', ha⟩ := ih hk₁ hd₁ h₁
      refine ⟨k', by rw [runDeferred, hrun]; exact hr, hn, hd', fun hreq => ha ?_⟩
      rcases hreq with h1 | h1
      · exact Or.inl (by rw [hatt]; exact h1)
      · refine Or.inr ?_
        simpa [Requested, Ne.symm hop] using h1
    cases op with
    | start =>
      simp only [depthAfter] at h
      split_ifs at h with hlt
      exact skip (k.setDefer ⟨d + 1, k.defer.attempt⟩) (d + 1) (by simp)
        (by rw [DeferOp.run, deferStart_nested hk hd hlt]; rfl) rfl rfl (by omega) h
    | stop =>
      simp only [depthAfter] at h
      split_ifs at h with hlt
      exact skip (k.setDefer ⟨d - 1, k.defer.attempt⟩) (d - 1) (by simp)
        (by rw [DeferOp.run, deferStop_nested hk hlt]; rfl) rfl rfl (by omega) h
    | other f hf =>
      have hf' := hf k
      exact skip _ d (by simp) rfl (by rw [hf']) (by rw [hf']; exact hk) hd h
    | request =>
      -- `resched` records the attempt
      have hrun := resched_deferred (k := k) (by omega)
      obtain ⟨k', hr, hn, hd', ha⟩ := ih (k := k.setDefer ⟨k.defer.ndefers, TRUE⟩) hk hd h
      refine ⟨k', ?_, hn, hd', fun _ => ha (Or.inl ?_)⟩
      · rw [runDeferred, DeferOp.run, hrun]
        exact hr
      · show TRUE ≠ 0
        decide

/-- **A request made while deferrals are nested takes place at the outermost `DEFER_STOP`.** -/
theorem nested_request {ops : List DeferOp} {k : Kernel} (hk : k.defer.ndefers = 0)
    (hdepth : depthAfter 1 ops = some 1) (hreq : Requested ops) :
    ∃ k₁ k', reschedCntl DEFER_START k = some (k₁, OK) ∧ runDeferred ops k₁ = some k' ∧
      reschedCntl DEFER_STOP k' =
        (resched (k'.setDefer ⟨0, k'.defer.attempt⟩)).map fun k => (k, OK) := by
  have h1 : reschedCntl DEFER_START k = some (k.setDefer ⟨1, FALSE⟩, OK) := by
    simp only [reschedCntl, if_true, hk]
    rfl
  obtain ⟨k', hr, hn, -, ha⟩ := runDeferred_spec (k := k.setDefer ⟨1, FALSE⟩) (d := 1) rfl
    (by decide) hdepth
  exact ⟨_, k', h1, hr, deferStop_outermost hn (ha (Or.inr hreq))⟩

/-! ## 3. Both together -/

/-- **The scheduling invariant, where it holds.**  In every run whose `chprio` calls are refused,
change nothing, have a target that is neither ready nor running, or leave the caller on top, the
highest priority runs and keys are priorities; and deferred requests are carried out by the
outermost `DEFER_STOP`. -/
theorem order_kept (k : Kernel) (ops : List DeferOp) :
    (∀ s, Reachable KeepsOrder s → s.idle → s.k.defer.ndefers = 0 → RunsHighest s.k) ∧
    (k.defer.ndefers = 0 → depthAfter 1 ops = some 1 →
      Requested ops → ∃ k₁ k', reschedCntl DEFER_START k = some (k₁, OK) ∧
        runDeferred ops k₁ = some k' ∧ reschedCntl DEFER_STOP k' =
          (resched (k'.setDefer ⟨0, k'.defer.attempt⟩)).map fun k => (k, OK)) :=
  ⟨fun _ h _ _ => h.runsHighest, fun hk hd hr => nested_request hk hd hr⟩

/-- The first process makes a second one of lower priority, resumes it and raises its priority. -/
def raiseReady : List Event :=
  [makeMain 20, makeProcess 10, .finish, .call (.resume 2), .finish,
    .call (.chprio 2 50), .finish]

/-- **`chprio` of a ready process breaks the order**: a process of priority 20 runs while one of
priority 50 is ready, under the key 10. -/
theorem order_broken : ∃ s, Reachable Runs.always s ∧ s.idle ∧ s.k.defer.ndefers = 0 ∧
    ¬ RunsHighest s.k := by
  have hrun : (runFromBoot raiseReady).map (fun s =>
      (s.cont s.k.currpid, s.k.defer.ndefers, (s.k.proctab 2).prstate,
        (s.k.proctab 2).prprio.val, (s.k.proctab s.k.currpid).prprio.val)) =
      some (.user, 0, .ready, 50, 20) := by decide +kernel
  obtain ⟨s, hs, he⟩ := Option.map_eq_some_iff.mp hrun
  simp only [Prod.mk.injEq] at he
  obtain ⟨h1, h2, h3, h4, h5⟩ := he
  refine ⟨s, reachable_runFromBoot hs, h1, h2, fun h => ?_⟩
  have := h.top 2 (by decide) h3
  omega

end Xinu
