/-
# Runs of a transition system whose steps meet a condition

A system is a partial step function on states and events.  `Reaches step ok s s'` says that a
run leads from `s` to `s'` and that every one of its steps met the condition `ok`, which sees
the state before the step and the event.  With `ok := always` these are all the runs.

A safety result is an invariant: it holds at the start and every admissible step keeps it
(`Reaches.invariant`).  Concrete runs are built by executing a list of events (`exec`).

A property of a run's history is a property of the states of a *watched* run, in which an
observer sees every step and remembers what it needs (`watch`).  Watching changes nothing: a
watched step is a step (`watch_some`).
-/
import Mathlib.Tactic

namespace Runs

variable {σ ε : Type*}

/-- The condition every step meets. -/
def always : σ → ε → Prop := fun _ _ => True

/-- Some run leads from `s` to the second state, each step admissible. -/
inductive Reaches (step : σ → ε → Option σ) (ok : σ → ε → Prop) (s : σ) : σ → Prop
  | refl : Reaches step ok s s
  | tail {t u : σ} {e : ε} :
      Reaches step ok s t → ok t e → step t e = some u → Reaches step ok s u

variable {step : σ → ε → Option σ} {ok ok' : σ → ε → Prop} {s t u : σ}

/-- **The invariant rule.** -/
theorem Reaches.invariant {I : σ → Prop} (h : Reaches step ok s t) (h0 : I s)
    (hstep : ∀ t e u, I t → ok t e → step t e = some u → I u) : I t := by
  induction h with
  | refl => exact h0
  | tail _ hok hs ih => exact hstep _ _ _ ih hok hs

/-- Fewer steps are admissible under a stronger condition. -/
theorem Reaches.mono (h : Reaches step ok s t) (himp : ∀ t e, ok t e → ok' t e) :
    Reaches step ok' s t := by
  induction h with
  | refl => exact .refl
  | tail _ hok hs ih => exact .tail ih (himp _ _ hok) hs

theorem Reaches.trans (h₁ : Reaches step ok s t) (h₂ : Reaches step ok t u) :
    Reaches step ok s u := by
  induction h₂ with
  | refl => exact h₁
  | tail _ hok hs ih => exact .tail ih hok hs

instance : DecidableRel (always : σ → ε → Prop) := fun _ _ => isTrue trivial

/-- Execute a list of events, as long as they are admissible. -/
def exec (step : σ → ε → Option σ) (ok : σ → ε → Prop) [DecidableRel ok] : σ → List ε → Option σ
  | s, [] => some s
  | s, e :: es => if ok s e then (step s e).bind fun t => exec step ok t es else none

/-- An execution is a run. -/
theorem reaches_of_exec [DecidableRel ok] {es : List ε} (h : exec step ok s es = some t) :
    Reaches step ok s t := by
  induction es generalizing s with
  | nil =>
    simp only [exec, Option.some.injEq] at h
    subst h
    exact .refl
  | cons e es ih =>
    rw [exec] at h
    split_ifs at h with hok
    obtain ⟨u, hu, ht⟩ := Option.bind_eq_some_iff.mp h
    exact Reaches.trans (.tail .refl hok hu) (ih ht)

/-! ## Watched runs -/

variable {γ : Type*}

/-- The system with an observer, which sees the state before a step, the event and the state
after. -/
def watch (step : σ → ε → Option σ) (see : σ → ε → σ → γ → γ) (x : σ × γ) (e : ε) :
    Option (σ × γ) :=
  (step x.1 e).map fun t => (t, see x.1 e t x.2)

variable {see : σ → ε → σ → γ → γ} {x y : σ × γ} {e : ε}

theorem watch_some : watch step see x e = some y ↔
    ∃ t, step x.1 e = some t ∧ y = (t, see x.1 e t x.2) := by
  rw [watch, Option.map_eq_some_iff]
  exact ⟨fun ⟨t, h1, h2⟩ => ⟨t, h1, h2.symm⟩, fun ⟨t, h1, h2⟩ => ⟨t, h1, h2.symm⟩⟩

end Runs
