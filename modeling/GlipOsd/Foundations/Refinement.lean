import GlipOsd.Foundations.Runs

/-! # Forward simulation for systems that answer

An implementation answers each call, `step : σ → ι → Option (ο × σ)`; its specification is a
relation `Spec : τ → ι → ο → τ → Prop` that may leave choices open. If every step of the
implementation is matched from related states, every run is (`simulation`).
-/

namespace GlipOsd.Refinement
set_option autoImplicit false

variable {σ τ ι ο : Type*}

/-- The answers to the calls `ls` and the state after them. -/
def answers (step : σ → ι → Option (ο × σ)) : σ → List ι → Option (List ο × σ)
  | s, [] => some ([], s)
  | s, l :: ls => (step s l).bind fun r => (answers step r.2 ls).map fun q => (r.1 :: q.1, q.2)

/-- The specification allows the answers `os` to the calls `ls`, leading from `s` to `s'`. -/
inductive SpecRun (Spec : τ → ι → ο → τ → Prop) : τ → List ι → List ο → τ → Prop
  | nil (t : τ) : SpecRun Spec t [] [] t
  | cons {t t' t'' : τ} {l : ι} {o : ο} {ls : List ι} {os : List ο} :
      Spec t l o t' → SpecRun Spec t' ls os t'' → SpecRun Spec t (l :: ls) (o :: os) t''

variable {step : σ → ι → Option (ο × σ)} {Spec : τ → ι → ο → τ → Prop}

theorem answers_cons_eq_some {s s' : σ} {l : ι} {ls : List ι} {os : List ο} :
    answers step s (l :: ls) = some (os, s') ↔
      ∃ o m os', step s l = some (o, m) ∧ answers step m ls = some (os', s') ∧ os = o :: os' := by
  simp only [answers, Option.bind_eq_some_iff, Option.map_eq_some_iff, Prod.exists, Prod.mk.injEq]
  constructor
  · rintro ⟨o, m, hstep, os', t, hrest, rfl, rfl⟩
    exact ⟨o, m, os', hstep, hrest, rfl⟩
  · rintro ⟨o, m, os', hstep, hrest, rfl⟩
    exact ⟨o, m, hstep, os', s', hrest, rfl, rfl⟩

theorem simulation {Rep : σ → τ → Prop}
    (hsim : ∀ s t l o s', Rep s t → step s l = some (o, s') → ∃ t', Spec t l o t' ∧ Rep s' t')
    {s s' : σ} {t : τ} {ls : List ι} {os : List ο} (h : Rep s t)
    (hrun : answers step s ls = some (os, s')) : ∃ t', SpecRun Spec t ls os t' ∧ Rep s' t' := by
  induction ls generalizing s t os with
  | nil =>
    simp only [answers, Option.some.injEq, Prod.mk.injEq] at hrun
    obtain ⟨rfl, rfl⟩ := hrun
    exact ⟨t, .nil t, h⟩
  | cons l ls ih =>
    obtain ⟨o, m, os', hstep, hrest, rfl⟩ := answers_cons_eq_some.mp hrun
    obtain ⟨t₁, hspec, hrep⟩ := hsim s t l o m h hstep
    obtain ⟨t', hrun', hrep'⟩ := ih hrep hrest
    exact ⟨t', .cons hspec hrun', hrep'⟩

end GlipOsd.Refinement
