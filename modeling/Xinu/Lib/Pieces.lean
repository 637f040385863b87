/-
# Pieces that are made of steps

A system `fine` is the system `coarse` seen more closely: where `coarse` takes one step on the event
`tick`, `fine` takes as many as the piece has statements.  Between pieces it is `idle`, and inside
one nothing keeps the other events from coming, which `coarse` knows nothing of.

`Finishes` goes through the rest of a piece.  A step is `Undisturbed` when it is not an event that
comes into a piece.  `Splits` says what `fine` has to show of one piece.  Then

* every run of `coarse` is an undisturbed run of `fine` (`Splits.lift`), and
* an undisturbed run of `fine` is, up to the end of its last piece, a run of `coarse`, when the
  pieces that begin in it are steps of `coarse` (`Splits.reaches`).

Both hold with an observer of the other events as well (`Splits.watch`).
-/
import Xinu.Lib.Runs

namespace Pieces

open Runs

variable {τ σ ε γ : Type*}

/-! ## 1. The rest of a piece -/

section Finish

/-- Going on with `tick` alone, the piece that `t` is in ends in the second state. -/
inductive Finishes (fine : τ → ε → Option τ) (tick : ε) (idle : τ → Prop) : τ → τ → Prop
  | done {t : τ} : idle t → Finishes fine tick idle t t
  | step {t u v : τ} : ¬ idle t → fine t tick = some u → Finishes fine tick idle u v →
      Finishes fine tick idle t v

variable {fine : τ → ε → Option τ} {tick : ε} {idle : τ → Prop} {t u v : τ}

theorem Finishes.idle_end (h : Finishes fine tick idle t v) : idle v := by
  induction h with
  | done hi => exact hi
  | step _ _ _ ih => exact ih

/-- Between pieces there is nothing to finish. -/
theorem Finishes.eq_of_idle (h : Finishes fine tick idle t v) (hi : idle t) : v = t := by
  cases h with
  | done _ => rfl
  | step hn _ _ => exact absurd hi hn

/-- Inside a piece the next statement is determined. -/
theorem Finishes.tail (h : Finishes fine tick idle t v) (hn : ¬ idle t)
    (hs : fine t tick = some u) : Finishes fine tick idle u v := by
  cases h with
  | done hi => exact absurd hi hn
  | step _ hs' h =>
    obtain rfl := Option.some.inj (hs'.symm.trans hs)
    exact h

end Finish

/-! ## 2. What a piece has to show -/

/-- No event comes into a piece, and between pieces the step is admissible in the coarse system. -/
def Undisturbed (tick : ε) (idle : τ → Prop) (abs : τ → σ) (ok : σ → ε → Prop) (t : τ) (e : ε) :
    Prop :=
  (e ≠ tick → idle t) ∧ (idle t → ok (abs t) e)

/-- `fine` splits the steps that `coarse` takes on `tick`. -/
structure Splits (fine : τ → ε → Option τ) (tick : ε) (idle : τ → Prop) (abs : τ → σ)
    (coarse : σ → ε → Option σ) : Prop where
  /-- The other events are the same. -/
  other : ∀ t e, idle t → e ≠ tick →
    (fine t e).map abs = coarse (abs t) e ∧ ∀ u, fine t e = some u → idle u
  /-- A coarse step is a piece. -/
  piece : ∀ t s', idle t → coarse (abs t) tick = some s' →
    ∃ u v, fine t tick = some u ∧ Finishes fine tick idle u v ∧ abs v = s'

/-- Where an admissible piece begins, `coarse` has a step. -/
def Begins (fine : τ → ε → Option τ) (tick : ε) (idle : τ → Prop) (abs : τ → σ)
    (coarse : σ → ε → Option σ) (ok : σ → ε → Prop) : Prop :=
  ∀ t, idle t → ok (abs t) tick → fine t tick ≠ none → coarse (abs t) tick ≠ none

/-- The rest of a piece is an undisturbed run. -/
theorem Finishes.reaches {fine : τ → ε → Option τ} {tick : ε} {idle : τ → Prop} {abs : τ → σ}
    {ok : σ → ε → Prop} {t₀ t v : τ} (h : Finishes fine tick idle t v)
    (hr : Reaches fine (Undisturbed tick idle abs ok) t₀ t) :
    Reaches fine (Undisturbed tick idle abs ok) t₀ v := by
  induction h with
  | done _ => exact hr
  | step hn hs _ ih => exact ih (.tail hr ⟨fun he => absurd rfl he, fun hi => absurd hi hn⟩ hs)

namespace Splits

variable {fine : τ → ε → Option τ} {tick : ε} {idle : τ → Prop} {abs : τ → σ}
  {coarse : σ → ε → Option σ} {ok : σ → ε → Prop} {t₀ t u : τ} {s : σ}

/-- One step, seen from the end of its piece. -/
theorem step (h : Splits fine tick idle abs coarse) (hb : Begins fine tick idle abs coarse ok)
    {v : τ} {e : ε} (hv : Finishes fine tick idle t v) (hr : Reaches coarse ok s (abs v))
    (hok : Undisturbed tick idle abs ok t e) (hs : fine t e = some u) :
    ∃ v, Finishes fine tick idle u v ∧ Reaches coarse ok s (abs v) := by
  by_cases hi : idle t
  · obtain rfl := hv.eq_of_idle hi
    by_cases he : e = tick
    · subst he
      obtain ⟨s', hs'⟩ : ∃ s', coarse (abs v) e = some s' := by
        refine Option.ne_none_iff_exists'.mp (hb v hi (hok.2 hi) ?_)
        rw [hs]
        exact Option.some_ne_none u
      obtain ⟨u', v', hu', hfin, rfl⟩ := h.piece v s' hi hs'
      obtain rfl := Option.some.inj (hu'.symm.trans hs)
      exact ⟨v', hfin, .tail hr (hok.2 hi) hs'⟩
    · obtain ⟨hmap, hidle⟩ := h.other v e hi he
      rw [hs, Option.map_some] at hmap
      exact ⟨u, .done (hidle u hs), .tail hr (hok.2 hi) hmap.symm⟩
  · -- inside a piece the coarse state at its end does not change
    have he : e = tick := not_imp_comm.mp hok.1 hi
    subst he
    exact ⟨v, hv.tail hi hs, hr⟩

/-- **Soundness.**  An undisturbed run is a coarse run, as soon as the piece it is in ends. -/
theorem reaches (h : Splits fine tick idle abs coarse) (hb : Begins fine tick idle abs coarse ok)
    (h₀ : idle t₀) (hr : Reaches fine (Undisturbed tick idle abs ok) t₀ t) :
    ∃ v, Finishes fine tick idle t v ∧ Reaches coarse ok (abs t₀) (abs v) := by
  refine hr.invariant (I := fun t => ∃ v, Finishes fine tick idle t v ∧
    Reaches coarse ok (abs t₀) (abs v)) ⟨t₀, .done h₀, .refl⟩ ?_
  rintro t e u ⟨v, hv, hr⟩ hok hs
  exact h.step hb hv hr hok hs

/-- Between pieces it is one already. -/
theorem reaches_idle (h : Splits fine tick idle abs coarse)
    (hb : Begins fine tick idle abs coarse ok) (h₀ : idle t₀)
    (hr : Reaches fine (Undisturbed tick idle abs ok) t₀ t) (hi : idle t) :
    Reaches coarse ok (abs t₀) (abs t) := by
  obtain ⟨v, hv, hc⟩ := h.reaches hb h₀ hr
  rwa [hv.eq_of_idle hi] at hc

/-- **Completeness.**  Every coarse run is an undisturbed one. -/
theorem lift (h : Splits fine tick idle abs coarse) (h₀ : idle t₀)
    (hr : Reaches coarse ok (abs t₀) s) :
    ∃ t, idle t ∧ abs t = s ∧ Reaches fine (Undisturbed tick idle abs ok) t₀ t := by
  refine hr.invariant (I := fun s => ∃ t, idle t ∧ abs t = s ∧
    Reaches fine (Undisturbed tick idle abs ok) t₀ t) ⟨t₀, h₀, rfl, .refl⟩ ?_
  rintro _ e s' ⟨t, hi, rfl, hr⟩ hok hs
  have hund : Undisturbed tick idle abs ok t e := ⟨fun _ => hi, fun _ => hok⟩
  by_cases he : e = tick
  · subst he
    obtain ⟨u, v, hu, hv, rfl⟩ := h.piece t s' hi hs
    exact ⟨v, hv.idle_end, rfl, hv.reaches (.tail hr hund hu)⟩
  · obtain ⟨hmap, hidle⟩ := h.other t e hi he
    rw [hs] at hmap
    obtain ⟨u, hu, rfl⟩ := Option.map_eq_some_iff.mp hmap
    exact ⟨u, hidle u hu, rfl, .tail hr hund hu⟩

end Splits

/-! ## 3. Observers -/

section Watch

variable {fine : τ → ε → Option τ} {tick : ε} {idle : τ → Prop} {abs : τ → σ}
  {coarse : σ → ε → Option σ} {ok : σ → ε → Prop} {see : σ → ε → σ → γ → γ} {t v : τ}

/-- The observer of the coarse states, in the fine system. -/
def watchThrough (abs : τ → σ) (see : σ → ε → σ → γ → γ) : τ → ε → τ → γ → γ :=
  fun t e u => see (abs t) e (abs u)

/-- To the end of a piece an observer who does not look at `tick` sees nothing. -/
theorem Finishes.watch (hq : ∀ s s' w, see s tick s' w = w) (w : γ)
    (h : Finishes fine tick idle t v) :
    Finishes (Runs.watch fine (watchThrough abs see)) tick (fun x => idle x.1) (t, w) (v, w) := by
  induction h with
  | done hi => exact .done hi
  | @step t u v hn hs _ ih =>
    refine .step hn (watch_some.mpr ⟨u, hs, ?_⟩) ih
    rw [watchThrough, hq]

/-- It holds of the pair that whoever watches at the end watched before. -/
theorem Finishes.watched_eq (hq : ∀ s s' w, see s tick s' w = w) {x y : τ × γ}
    (h : Finishes (Runs.watch fine (watchThrough abs see)) tick (fun x => idle x.1) x y) :
    y.2 = x.2 := by
  induction h with
  | done _ => rfl
  | step _ hs _ ih =>
    obtain ⟨u, -, rfl⟩ := watch_some.mp hs
    rw [ih]
    exact hq ..

/-- **A watched system splits as the system does.** -/
theorem Splits.watch (h : Splits fine tick idle abs coarse)
    (hq : ∀ s s' w, see s tick s' w = w) :
    Splits (Runs.watch fine (watchThrough abs see)) tick (fun x => idle x.1)
      (fun x => (abs x.1, x.2)) (Runs.watch coarse see) where
  other x e hi he := by
    obtain ⟨hmap, hidle⟩ := h.other x.1 e hi he
    refine ⟨?_, fun y hy => ?_⟩
    · simp only [Runs.watch, ← hmap, Option.map_map]
      rfl
    · obtain ⟨u, hu, rfl⟩ := watch_some.mp hy
      exact hidle u hu
  piece x y hi hy := by
    obtain ⟨s', hs', rfl⟩ := watch_some.mp hy
    obtain ⟨u, v, hu, hv, rfl⟩ := h.piece x.1 s' hi hs'
    refine ⟨(u, x.2), (v, x.2), watch_some.mpr ⟨u, hu, ?_⟩, hv.watch hq x.2, ?_⟩
    · rw [watchThrough, hq]
    · rw [hq]

theorem Begins.watch (hb : Begins fine tick idle abs coarse ok) :
    Begins (Runs.watch fine (watchThrough abs see)) tick (fun x => idle x.1)
      (fun x => (abs x.1, x.2)) (Runs.watch coarse see) fun x => ok x.1 := by
  intro x hi hok hne hn
  refine hb x.1 hi hok (fun hf => hne ?_) (Option.map_eq_none_iff.mp hn)
  rw [Runs.watch, hf, Option.map_none]

end Watch

end Pieces
