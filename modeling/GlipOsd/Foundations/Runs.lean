import Mathlib.Data.List.Basic
import Mathlib.Tactic

/-! # Runs of a labelled step function

A system is a partial step function `step : σ → ι → Option σ`: the label says what happens next,
and `none` says that it cannot happen in this state. All nondeterminism (scheduling, timing, data)
is in the labels, so that a run is a list of labels.

* `runFrom step s ls`: the state after the labels `ls`, when each is enabled in turn.
* `Passes P`: every state of the run, first and last included, satisfies `P`.
* `Takes C`: every step of the run is taken from a state and with a label that satisfy `C`.
* `passes_iff_takes` reduces "the run passes `P` only" to a condition on its steps.
-/

namespace GlipOsd.Runs
set_option autoImplicit false

variable {σ ι : Type*} (step : σ → ι → Option σ)

/-- The state after the labels `ls`; `none` as soon as one of them is not enabled. -/
def runFrom : σ → List ι → Option σ
  | s, [] => some s
  | s, l :: ls => (step s l).bind fun s' => runFrom s' ls

@[simp] theorem runFrom_nil (s : σ) : runFrom step s [] = some s := rfl

@[simp] theorem runFrom_cons (s : σ) (l : ι) (ls : List ι) :
    runFrom step s (l :: ls) = (step s l).bind fun s' => runFrom step s' ls := rfl

theorem runFrom_append (s : σ) (ls ms : List ι) :
    runFrom step s (ls ++ ms) = (runFrom step s ls).bind fun s' => runFrom step s' ms := by
  induction ls generalizing s with
  | nil => rfl
  | cons l ls ih =>
    rw [List.cons_append, runFrom_cons, runFrom_cons]
    cases step s l with
    | none => rfl
    | some s' => exact ih s'

theorem runFrom_cons_eq_some {s t : σ} {l : ι} {ls : List ι} :
    runFrom step s (l :: ls) = some t ↔ ∃ s', step s l = some s' ∧ runFrom step s' ls = some t := by
  rw [runFrom_cons, Option.bind_eq_some_iff]

/-! ## Invariants -/

/-- `Inv` survives every enabled step. -/
def Stable (Inv : σ → Prop) : Prop := ∀ s l s', Inv s → step s l = some s' → Inv s'

variable {step}

/-- The invariant rule: a stable property of the first state holds of the last one. -/
theorem Stable.run {Inv : σ → Prop} (h : Stable step Inv) {s t : σ} {ls : List ι} (hs : Inv s)
    (hrun : runFrom step s ls = some t) : Inv t := by
  induction ls generalizing s with
  | nil =>
    rw [runFrom_nil, Option.some.injEq] at hrun
    exact hrun ▸ hs
  | cons l ls ih =>
    obtain ⟨s', hstep, hrest⟩ := (runFrom_cons_eq_some step).mp hrun
    exact ih (h s l s' hs hstep) hrest

/-- Every step of a system is one of a component: then every run is one of it. -/
theorem Stable.project {τ κ : Type*} {step' : τ → κ → Option τ} {Inv : σ → Prop}
    {label : σ → ι → κ} (h : Stable step Inv) (part : σ → τ)
    (hpart : ∀ s l s', Inv s → step s l = some s' → step' (part s) (label s l) = some (part s'))
    {s t : σ} {ls : List ι} (hs : Inv s) (hrun : runFrom step s ls = some t) :
    ∃ ms, runFrom step' (part s) ms = some (part t) := by
  induction ls generalizing s with
  | nil =>
    rw [runFrom_nil, Option.some.injEq] at hrun
    exact ⟨[], hrun ▸ rfl⟩
  | cons l ls ih =>
    obtain ⟨s', hstep, hrest⟩ := (runFrom_cons_eq_some step).mp hrun
    obtain ⟨ms, hms⟩ := ih (h s l s' hs hstep) hrest
    exact ⟨label s l :: ms, (runFrom_cons_eq_some step').mpr ⟨_, hpart s l s' hs hstep, hms⟩⟩

/-- What holds before every step behind which it holds, holds at the beginning of a run. -/
theorem holds_before {P : σ → Prop} (hP : ∀ s l s', step s l = some s' → P s' → P s) {s t : σ}
    {ls : List ι} (hrun : runFrom step s ls = some t) (ht : P t) : P s := by
  induction ls generalizing s with
  | nil =>
    rw [runFrom_nil, Option.some.injEq] at hrun
    exact hrun ▸ ht
  | cons l ls ih =>
    obtain ⟨s', hstep, hrest⟩ := (runFrom_cons_eq_some step).mp hrun
    exact hP s l s' hstep (ih hrest)

/-- So it may be used for an invariant. -/
theorem run_of_last {Inv P : σ → Prop} (hP : ∀ s l s', step s l = some s' → P s' → P s)
    (hInv : ∀ s l s', Inv s → P s → step s l = some s' → Inv s') {s t : σ} {ls : List ι} (hs : Inv s)
    (hrun : runFrom step s ls = some t) (ht : P t) : Inv t := by
  induction ls generalizing s with
  | nil =>
    rw [runFrom_nil, Option.some.injEq] at hrun
    exact hrun ▸ hs
  | cons l ls ih =>
    have hPs := holds_before hP hrun ht
    obtain ⟨s', hstep, hrest⟩ := (runFrom_cons_eq_some step).mp hrun
    exact ih (hInv s l s' hs hPs hstep) hrest

theorem Stable.run_total {Inv : σ → Prop} (h : Stable step Inv)
    (htot : ∀ s l, Inv s → (step s l).isSome) (s : σ) (ls : List ι) (hs : Inv s) :
    ∃ t, runFrom step s ls = some t := by
  induction ls generalizing s with
  | nil => exact ⟨s, rfl⟩
  | cons l ls ih =>
    obtain ⟨s', hstep⟩ := Option.isSome_iff_exists.mp (htot s l hs)
    obtain ⟨t, ht⟩ := ih s' (h s l s' hs hstep)
    exact ⟨t, (runFrom_cons_eq_some step).mpr ⟨s', hstep, ht⟩⟩

/-! ## Properties of every state and of every step of a run -/

theorem exists_run (step : σ → ι → Option σ) (htot : ∀ s l, (step s l).isSome) (s : σ) (ls : List ι) :
    ∃ t, runFrom step s ls = some t := by
  have htrue : Stable step fun _ => True := fun _ _ _ _ _ => trivial
  exact htrue.run_total (fun s l _ => htot s l) s ls trivial

/-- A history to which every step appends what its label says. -/
theorem runFrom_history {β : Type*} {hist : σ → List β} {out : ι → List β}
    (h : ∀ s l s', step s l = some s' → hist s' = hist s ++ out l) {s t : σ} {ls : List ι}
    (hrun : runFrom step s ls = some t) : hist t = hist s ++ ls.flatMap out := by
  induction ls generalizing s with
  | nil =>
    obtain rfl := Option.some.inj hrun
    exact (List.append_nil _).symm
  | cons l ls ih =>
    obtain ⟨s', hstep, hrest⟩ := (runFrom_cons_eq_some step).mp hrun
    rw [ih hrest, h s l s' hstep, List.append_assoc, List.flatMap_cons]

variable (step)

/-- Every state of the run from `s` along `ls` satisfies `P`. -/
def Passes (P : σ → Prop) : σ → List ι → Prop
  | s, [] => P s
  | s, l :: ls => P s ∧ ∀ s', step s l = some s' → Passes P s' ls

/-- Every step of the run from `s` along `ls` is taken in a state, with a label, that satisfy `C`. -/
def Takes (C : σ → ι → Prop) : σ → List ι → Prop
  | _, [] => True
  | s, l :: ls => C s l ∧ ∀ s', step s l = some s' → Takes C s' ls

/-! Both can be decided for a given run. -/

instance decidablePasses (P : σ → Prop) [DecidablePred P] :
    ∀ (s : σ) (ls : List ι), Decidable (Passes step P s ls)
  | s, [] => inferInstanceAs (Decidable (P s))
  | s, l :: ls =>
    match h : step s l with
    | none => decidable_of_iff (P s) (by simp [Passes, h])
    | some s' =>
      have := decidablePasses P s' ls
      decidable_of_iff (P s ∧ Passes step P s' ls) (by simp [Passes, h])

instance decidableTakes (C : σ → ι → Prop) [∀ s l, Decidable (C s l)] :
    ∀ (s : σ) (ls : List ι), Decidable (Takes step C s ls)
  | _, [] => inferInstanceAs (Decidable True)
  | s, l :: ls =>
    match h : step s l with
    | none => decidable_of_iff (C s l) (by simp [Takes, h])
    | some s' =>
      have := decidableTakes C s' ls
      decidable_of_iff (C s l ∧ Takes step C s' ls) (by simp [Takes, h])

variable {step}

theorem Passes.head {P : σ → Prop} {s : σ} {ls : List ι} (h : Passes step P s ls) : P s := by
  cases ls with
  | nil => exact h
  | cons l ls => exact h.1

theorem Passes.last {P : σ → Prop} {s t : σ} {ls : List ι} (h : Passes step P s ls)
    (hrun : runFrom step s ls = some t) : P t := by
  induction ls generalizing s with
  | nil =>
    rw [runFrom_nil, Option.some.injEq] at hrun
    exact hrun ▸ h
  | cons l ls ih =>
    obtain ⟨s', hstep, hrest⟩ := (runFrom_cons_eq_some step).mp hrun
    exact ih (h.2 s' hstep) hrest

theorem Passes.mono {P Q : σ → Prop} (h : ∀ s, P s → Q s) {s : σ} {ls : List ι}
    (hp : Passes step P s ls) : Passes step Q s ls := by
  induction ls generalizing s with
  | nil => exact h s hp
  | cons l ls ih => exact ⟨h s hp.1, fun s' hstep => ih (hp.2 s' hstep)⟩

theorem takes_of_labels {C : σ → ι → Prop} {ls : List ι} (h : ∀ s, ∀ l ∈ ls, C s l) (s : σ) : Takes step C s ls := by
  induction ls generalizing s with
  | nil => trivial
  | cons l ls ih => exact ⟨h s l List.mem_cons_self, fun s' _ => ih (fun t m hm => h t m (List.mem_cons_of_mem l hm)) s'⟩

theorem takes_of_last {P : σ → Prop} (hP : ∀ s l s', step s l = some s' → P s' → P s) {s t : σ}
    {ls : List ι} (hrun : runFrom step s ls = some t) (ht : P t) : Takes step (fun s _ => P s) s ls := by
  induction ls generalizing s with
  | nil => trivial
  | cons l ls ih =>
    refine ⟨holds_before hP hrun ht, fun s' hstep => ih ?_⟩
    obtain ⟨u, hu, hrest⟩ := (runFrom_cons_eq_some step).mp hrun
    obtain rfl := Option.some.inj (hstep.symm.trans hu)
    exact hrest

/-- A run that does not pass `P` can be cut where it reaches a state without `P`. -/
theorem exists_not_of_not_passes {P : σ → Prop} {s : σ} {ls : List ι} (h : ¬ Passes step P s ls) :
    ∃ ms t, runFrom step s ms = some t ∧ ¬ P t := by
  induction ls generalizing s with
  | nil => exact ⟨[], s, rfl, h⟩
  | cons l ls ih =>
    by_cases hs : P s
    · have hrest : ∃ s', step s l = some s' ∧ ¬ Passes step P s' ls := by
        by_contra hc
        push Not at hc
        exact h ⟨hs, hc⟩
      obtain ⟨s', hstep, hs'⟩ := hrest
      obtain ⟨ms, t, hrun, ht⟩ := ih hs'
      exact ⟨l :: ms, t, (runFrom_cons_eq_some step).mpr ⟨s', hstep, hrun⟩, ht⟩
    · exact ⟨[], s, rfl, hs⟩

/-- What every step with an admitted label preserves is passed by the runs with such labels. -/
theorem passes_of_labels {Inv : σ → Prop} {Q : ι → Prop}
    (h : ∀ s l s', Inv s → Q l → step s l = some s' → Inv s') {s : σ} {ls : List ι} (hs : Inv s)
    (hls : ∀ l ∈ ls, Q l) : Passes step Inv s ls := by
  induction ls generalizing s with
  | nil => exact hs
  | cons l ls ih =>
    refine ⟨hs, fun s' hstep => ih (h s l s' hs (hls l List.mem_cons_self) hstep) ?_⟩
    exact fun m hm => hls m (List.mem_cons_of_mem l hm)

theorem Takes.and {C D : σ → ι → Prop} {s : σ} {ls : List ι} (hC : Takes step C s ls)
    (hD : Takes step D s ls) : Takes step (fun s l => C s l ∧ D s l) s ls := by
  induction ls generalizing s with
  | nil => trivial
  | cons l ls ih => exact ⟨⟨hC.1, hD.1⟩, fun s' hstep => ih (hC.2 s' hstep) (hD.2 s' hstep)⟩

theorem Takes.passes {Inv : σ → Prop} {C : σ → ι → Prop}
    (h : ∀ s l s', Inv s → C s l → step s l = some s' → Inv s') {s : σ} {ls : List ι} (hs : Inv s)
    (ht : Takes step C s ls) : Passes step Inv s ls := by
  induction ls generalizing s with
  | nil => exact hs
  | cons l ls ih => exact ⟨hs, fun s' hstep => ih (h s l s' hs ht.1 hstep) (ht.2 s' hstep)⟩

theorem Takes.mono {Inv : σ → Prop} {C D : σ → ι → Prop}
    (h : ∀ s l s', Inv s → C s l → step s l = some s' → Inv s') (hD : ∀ s l, Inv s → C s l → D s l) {s : σ}
    {ls : List ι} (hs : Inv s) (ht : Takes step C s ls) : Takes step D s ls := by
  induction ls generalizing s with
  | nil => trivial
  | cons l ls ih => exact ⟨hD s l hs ht.1, fun s' hstep => ih (h s l s' hs ht.1 hstep) (ht.2 s' hstep)⟩

/-- Exact conditions for a run. `Inv` survives the steps between states that satisfy `P`; from such a
state, a step leads to a state that satisfies `P` exactly when `C` holds of it. Then a run passes
`P` exactly when all its steps satisfy `C`. -/
theorem passes_iff_takes (Inv : σ → Prop) {P : σ → Prop} {C : σ → ι → Prop}
    (hInv : ∀ s l s', Inv s → P s → step s l = some s' → P s' → Inv s')
    (hC : ∀ s l s', Inv s → P s → step s l = some s' → (P s' ↔ C s l)) {s t : σ} {ls : List ι}
    (hI : Inv s) (hP : P s) (hrun : runFrom step s ls = some t) :
    Passes step P s ls ↔ Takes step C s ls := by
  induction ls generalizing s with
  | nil => exact ⟨fun _ => trivial, fun _ => hP⟩
  | cons l ls ih =>
    obtain ⟨s', hstep, hrest⟩ := (runFrom_cons_eq_some step).mp hrun
    constructor
    · rintro ⟨-, hp⟩
      have hP' : P s' := (hp s' hstep).head
      have hI' : Inv s' := hInv s l s' hI hP hstep hP'
      refine ⟨(hC s l s' hI hP hstep).mp hP', fun u hu => ?_⟩
      obtain rfl : s' = u := Option.some.inj (hstep.symm.trans hu)
      exact (ih hI' hP' hrest).mp (hp s' hstep)
    · rintro ⟨hc, ht⟩
      have hP' : P s' := (hC s l s' hI hP hstep).mpr hc
      have hI' : Inv s' := hInv s l s' hI hP hstep hP'
      refine ⟨hP, fun u hu => ?_⟩
      obtain rfl : s' = u := Option.some.inj (hstep.symm.trans hu)
      exact (ih hI' hP' hrest).mpr (ht s' hstep)

/-! ## Progress

A rank `Q k` that every step keeps and that a marked step lowers, unless the goal `G` is reached, which
no step undoes. A run with more than `k` segments that contain a marked step reaches the goal.
-/

theorem Takes.of_append {C : σ → ι → Prop} {s t : σ} {ls ms : List ι} (h : Takes step C s (ls ++ ms))
    (hrun : runFrom step s ls = some t) : Takes step C s ls ∧ Takes step C t ms := by
  induction ls generalizing s with
  | nil =>
    obtain rfl := Option.some.inj hrun
    exact ⟨trivial, h⟩
  | cons l ls ih =>
    obtain ⟨s', hstep, hrest⟩ := (runFrom_cons_eq_some step).mp hrun
    obtain ⟨hls, hms⟩ := ih (h.2 s' hstep) hrest
    refine ⟨⟨h.1, fun u hu => ?_⟩, hms⟩
    obtain rfl : s' = u := Option.some.inj (hstep.symm.trans hu)
    exact hls

theorem Takes.append {C : σ → ι → Prop} {s t : σ} {ls ms : List ι} (hls : Takes step C s ls)
    (hrun : runFrom step s ls = some t) (hms : Takes step C t ms) : Takes step C s (ls ++ ms) := by
  induction ls generalizing s with
  | nil =>
    obtain rfl := Option.some.inj hrun
    exact hms
  | cons l ls ih =>
    obtain ⟨s', hstep, hrest⟩ := (runFrom_cons_eq_some step).mp hrun
    refine ⟨hls.1, fun u hu => ?_⟩
    obtain rfl : s' = u := Option.some.inj (hstep.symm.trans hu)
    exact ih (hls.2 s' hstep) hrest

theorem runFrom_append_eq_some {s u : σ} {ls ms : List ι} :
    runFrom step s (ls ++ ms) = some u ↔ ∃ t, runFrom step s ls = some t ∧ runFrom step t ms = some u := by
  rw [runFrom_append, Option.bind_eq_some_iff]

theorem Takes.run (Inv : σ → Prop) {C : σ → ι → Prop} (h : ∀ s l s', Inv s → C s l → step s l = some s' → Inv s')
    {s t : σ} {ls : List ι} (hs : Inv s) (ht : Takes step C s ls) (hrun : runFrom step s ls = some t) : Inv t :=
  (ht.passes h hs).last hrun

/-- What the steps keep under an invariant holds at the end. -/
theorem Takes.keep {Inv P : σ → Prop} {C : σ → ι → Prop}
    (hInv : ∀ s l s', Inv s → C s l → step s l = some s' → Inv s')
    (hP : ∀ s l s', Inv s → C s l → step s l = some s' → P s → P s') {s t : σ} {ls : List ι}
    (ht : Takes step C s ls) (hs : Inv s) (h : P s) (hrun : runFrom step s ls = some t) : P t := by
  have hboth : Inv t ∧ P t := by
    refine Takes.run (fun s => Inv s ∧ P s) ?_ ⟨hs, h⟩ ht hrun
    rintro s l s' ⟨hs, h⟩ hc hstep
    exact ⟨hInv s l s' hs hc hstep, hP s l s' hs hc hstep h⟩
  exact hboth.2

section Progress
variable {Inv G : σ → Prop} {C : σ → ι → Prop} {Q : ℕ → σ → Prop} {mark : ι → Prop}

theorem rank_segment (hInv : ∀ s l s', Inv s → C s l → step s l = some s' → Inv s')
    (hG : ∀ s l s', Inv s → C s l → step s l = some s' → G s → G s')
    (hkeep : ∀ k s l s', Inv s → C s l → step s l = some s' → Q k s → G s' ∨ Q k s')
    (hdrop : ∀ k s l s', Inv s → C s l → step s l = some s' → mark l → Q k s → G s' ∨ ∃ m, k = m + 1 ∧ Q m s')
    {s t : σ} {ls : List ι} {k : ℕ} (hmark : ∃ l ∈ ls, mark l) (hs : Inv s) (hQ : Q k s)
    (hrun : runFrom step s ls = some t) (ht : Takes step C s ls) : G t ∨ ∃ m, k = m + 1 ∧ Q m t := by
  have hreach (m : ℕ) (s : σ) (l : ι) (s' : σ) (hs : Inv s) (hc : C s l) (hstep : step s l = some s')
      (h : G s ∨ Q m s) : G s' ∨ Q m s' := by
    obtain hg | hq := h
    · exact .inl (hG s l s' hs hc hstep hg)
    · exact hkeep m s l s' hs hc hstep hq
  induction ls generalizing s with
  | nil =>
    obtain ⟨l, hl, -⟩ := hmark
    cases hl
  | cons l ls ih =>
    obtain ⟨s', hstep, hrun'⟩ := (runFrom_cons_eq_some step).mp hrun
    have hs' := hInv s l s' hs ht.1 hstep
    have ht' := ht.2 s' hstep
    by_cases hl : mark l
    · obtain hg | ⟨m, rfl, hq⟩ := hdrop k s l s' hs ht.1 hstep hl hQ
      · exact .inl (ht'.keep hInv hG hs' hg hrun')
      · obtain hg | hq := ht'.keep hInv (hreach m) hs' (.inr hq) hrun'
        · exact .inl hg
        · exact .inr ⟨m, rfl, hq⟩
    · have hmark' : ∃ l ∈ ls, mark l := by
        obtain ⟨l', hmem, hl'⟩ := hmark
        obtain rfl | hmem := List.mem_cons.mp hmem
        · exact absurd hl' hl
        · exact ⟨l', hmem, hl'⟩
      obtain hg | hq := hkeep k s l s' hs ht.1 hstep hQ
      · exact .inl (ht'.keep hInv hG hs' hg hrun')
      · exact ih hmark' hs' hq hrun' ht'

theorem rank_reaches (Inv G : σ → Prop) (Q : ℕ → σ → Prop) (mark : ι → Prop)
    (hInv : ∀ s l s', Inv s → C s l → step s l = some s' → Inv s')
    (hG : ∀ s l s', Inv s → C s l → step s l = some s' → G s → G s')
    (hkeep : ∀ k s l s', Inv s → C s l → step s l = some s' → Q k s → G s' ∨ Q k s')
    (hdrop : ∀ k s l s', Inv s → C s l → step s l = some s' → mark l → Q k s → G s' ∨ ∃ m, k = m + 1 ∧ Q m s')
    {s t : σ} {segs : List (List ι)} {k : ℕ} (hsegs : ∀ seg ∈ segs, ∃ l ∈ seg, mark l)
    (hk : k < segs.length) (hs : Inv s) (hQ : Q k s) (hrun : runFrom step s segs.flatten = some t)
    (ht : Takes step C s segs.flatten) : G t := by
  induction segs generalizing s k with
  | nil => exact absurd hk (Nat.not_lt_zero k)
  | cons seg segs ih =>
    rw [List.flatten_cons] at hrun ht
    obtain ⟨u, hseg, hrest⟩ := runFrom_append_eq_some.mp hrun
    obtain ⟨htseg, htrest⟩ := ht.of_append hseg
    have hu := htseg.run Inv hInv hs hseg
    obtain hg | ⟨m, rfl, hq⟩ := rank_segment hInv hG hkeep hdrop (hsegs seg List.mem_cons_self) hs hQ hseg htseg
    · exact htrest.keep hInv hG hu hg hrest
    · refine ih (fun seg hmem => hsegs seg (List.mem_cons_of_mem _ hmem)) ?_ hu hq hrest htrest
      rw [List.length_cons] at hk
      omega

end Progress

/-! Which steps lower the rank may depend on the state: a helpful step does, and the others leave the rank and what is
helpful, or lower the rank as well. A run with more segments than the rank, each of them with a helpful step for any
state, passes the goal.
-/

section Helpful
variable {Inv G : σ → Prop} {C helpful : σ → ι → Prop} {rank : σ → ℕ}

theorem rank_le (hInv : ∀ s l s', Inv s → C s l → step s l = some s' → Inv s')
    (hrank : ∀ s l s', Inv s → ¬ G s → C s l → step s l = some s' → ¬ G s' →
      rank s' < rank s ∨ rank s' = rank s ∧ ¬ helpful s l ∧ ∀ m, helpful s m → helpful s' m)
    {s t : σ} {ls : List ι} (hs : Inv s) (hG : Passes step (fun s => ¬ G s) s ls) (ht : Takes step C s ls)
    (hrun : runFrom step s ls = some t) : rank t ≤ rank s := by
  induction ls generalizing s with
  | nil =>
    obtain rfl := Option.some.inj hrun
    exact le_rfl
  | cons l ls ih =>
    obtain ⟨s', hstep, hrun'⟩ := (runFrom_cons_eq_some step).mp hrun
    have hrest := ih (hInv s l s' hs ht.1 hstep) (hG.2 s' hstep) (ht.2 s' hstep) hrun'
    obtain h | ⟨h, -⟩ := hrank s l s' hs hG.1 ht.1 hstep (hG.2 s' hstep).head
    · omega
    · omega

theorem rank_lt (hInv : ∀ s l s', Inv s → C s l → step s l = some s' → Inv s')
    (hrank : ∀ s l s', Inv s → ¬ G s → C s l → step s l = some s' → ¬ G s' →
      rank s' < rank s ∨ rank s' = rank s ∧ ¬ helpful s l ∧ ∀ m, helpful s m → helpful s' m)
    {s t : σ} {ls : List ι} (hs : Inv s) (hG : Passes step (fun s => ¬ G s) s ls) (ht : Takes step C s ls)
    (hrun : runFrom step s ls = some t) (hhelp : ∃ l ∈ ls, helpful s l) : rank t < rank s := by
  induction ls generalizing s with
  | nil =>
    obtain ⟨l, hl, -⟩ := hhelp
    cases hl
  | cons l ls ih =>
    obtain ⟨s', hstep, hrun'⟩ := (runFrom_cons_eq_some step).mp hrun
    have hs' := hInv s l s' hs ht.1 hstep
    obtain h | ⟨h, hl, hkeep⟩ := hrank s l s' hs hG.1 ht.1 hstep (hG.2 s' hstep).head
    · exact lt_of_le_of_lt (rank_le hInv hrank hs' (hG.2 s' hstep) (ht.2 s' hstep) hrun') h
    · have hhelp' : ∃ l ∈ ls, helpful s' l := by
        obtain ⟨m, hmem, hm⟩ := hhelp
        obtain rfl | hmem := List.mem_cons.mp hmem
        · exact absurd hm hl
        · exact ⟨m, hmem, hkeep m hm⟩
      exact h ▸ ih hs' (hG.2 s' hstep) (ht.2 s' hstep) hrun' hhelp'

theorem Passes.of_append {P : σ → Prop} {s t : σ} {ls ms : List ι} (h : Passes step P s (ls ++ ms))
    (hrun : runFrom step s ls = some t) : Passes step P s ls ∧ Passes step P t ms := by
  induction ls generalizing s with
  | nil =>
    obtain rfl := Option.some.inj hrun
    exact ⟨h.head, h⟩
  | cons l ls ih =>
    obtain ⟨s', hstep, hrest⟩ := (runFrom_cons_eq_some step).mp hrun
    obtain ⟨hls, hms⟩ := ih (h.2 s' hstep) hrest
    refine ⟨⟨h.1, fun u hu => ?_⟩, hms⟩
    obtain rfl : s' = u := Option.some.inj (hstep.symm.trans hu)
    exact hls

theorem helpful_reaches (Inv G : σ → Prop) (helpful : σ → ι → Prop) (rank : σ → ℕ)
    (hInv : ∀ s l s', Inv s → C s l → step s l = some s' → Inv s')
    (hrank : ∀ s l s', Inv s → ¬ G s → C s l → step s l = some s' → ¬ G s' →
      rank s' < rank s ∨ rank s' = rank s ∧ ¬ helpful s l ∧ ∀ m, helpful s m → helpful s' m)
    {s t : σ} {segs : List (List ι)} (hsegs : ∀ seg ∈ segs, ∀ s, ∃ l ∈ seg, helpful s l)
    (hk : rank s < segs.length) (hs : Inv s) (hrun : runFrom step s segs.flatten = some t)
    (ht : Takes step C s segs.flatten) : ¬ Passes step (fun s => ¬ G s) s segs.flatten := by
  induction segs generalizing s with
  | nil => exact absurd hk (Nat.not_lt_zero _)
  | cons seg segs ih =>
    rw [List.flatten_cons] at hrun ht ⊢
    intro hG
    obtain ⟨u, hseg, hrest⟩ := runFrom_append_eq_some.mp hrun
    obtain ⟨htseg, htrest⟩ := ht.of_append hseg
    obtain ⟨hGseg, hGrest⟩ := hG.of_append hseg
    have hu := htseg.run Inv hInv hs hseg
    have hlt := rank_lt hInv hrank hs hGseg htseg hseg (hsegs seg List.mem_cons_self s)
    refine ih (fun seg hmem => hsegs seg (List.mem_cons_of_mem _ hmem)) ?_ hu hrest htrest hGrest
    rw [List.length_cons] at hk
    omega

end Helpful

end GlipOsd.Runs
