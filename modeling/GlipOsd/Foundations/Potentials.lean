import GlipOsd.Foundations.Runs
import Mathlib.Algebra.BigOperators.Group.Finset.Basic
import Mathlib.Algebra.Order.BigOperators.Group.Finset

/-! # Potentials

What a run costs, paid out of a potential of the state: a step may cost something only if the
potential sinks, and the potential rises only by what is paid in. The potential of a line of stages
counts for each item how many stages there are before it.
-/

namespace GlipOsd.Runs
set_option autoImplicit false

variable {σ ι : Type*} (step : σ → ι → Option σ)

/-- The costs of the steps of the run from `s` along `ls`. -/
def cost (c : σ → ι → ℕ) : σ → List ι → ℕ
  | _, [] => 0
  | s, l :: ls => c s l + ((step s l).map fun s' => cost c s' ls).getD 0

variable {step}

theorem cost_cons {c : σ → ι → ℕ} {s s' : σ} {l : ι} (ls : List ι) (hstep : step s l = some s') :
    cost step c s (l :: ls) = c s l + cost step c s' ls := by
  rw [cost, hstep]
  rfl

section Potential
variable {Inv : σ → Prop} {C : σ → ι → Prop} {rank : σ → ℕ}

/-- A rank that every step lowers while it can. -/
theorem Takes.countdown (hInv : ∀ s l s', Inv s → C s l → step s l = some s' → Inv s')
    (hrank : ∀ s l s', Inv s → C s l → step s l = some s' → rank s' ≤ rank s - 1) {s t : σ}
    {ls : List ι} (ht : Takes step C s ls) (hs : Inv s) (hrun : runFrom step s ls = some t) :
    rank t ≤ rank s - ls.length := by
  induction ls generalizing s with
  | nil =>
    obtain rfl := Option.some.inj hrun
    exact le_rfl
  | cons l ls ih =>
    obtain ⟨s', hstep, hrest⟩ := (runFrom_cons_eq_some step).mp hrun
    have hone := hrank s l s' hs ht.1 hstep
    have hmore := ih (ht.2 s' hstep) (hInv s l s' hs ht.1 hstep) hrest
    rw [List.length_cons]
    omega

/-- The costs of a run are paid by what the potential sinks and what is paid in. -/
theorem Takes.cost_le {c : σ → ι → ℕ} {paid : σ → ℕ}
    (hInv : ∀ s l s', Inv s → C s l → step s l = some s' → Inv s')
    (hpay : ∀ s l s', Inv s → C s l → step s l = some s' → rank s' + c s l + paid s ≤ rank s + paid s')
    {s t : σ} {ls : List ι} (ht : Takes step C s ls) (hs : Inv s) (hrun : runFrom step s ls = some t) :
    rank t + cost step c s ls + paid s ≤ rank s + paid t := by
  induction ls generalizing s with
  | nil =>
    obtain rfl := Option.some.inj hrun
    exact le_rfl
  | cons l ls ih =>
    obtain ⟨s', hstep, hrest⟩ := (runFrom_cons_eq_some step).mp hrun
    have hone := hpay s l s' hs ht.1 hstep
    have hmore := ih (ht.2 s' hstep) (hInv s l s' hs ht.1 hstep) hrest
    rw [cost_cons ls hstep]
    omega

end Potential

/-! ## A line of stages -/

/-- Every item counts as many times as there are stages before it, its own included. -/
def ahead (n : ℕ) (stored : ℕ → ℕ) : ℕ := ∑ k ∈ Finset.range n, (n - k) * stored k

theorem ahead_eq_zero {n : ℕ} {stored : ℕ → ℕ} :
    ahead n stored = 0 ↔ ∀ k < n, stored k = 0 := by
  unfold ahead
  rw [Finset.sum_eq_zero_iff]
  refine forall_congr' fun k => ?_
  rw [Finset.mem_range, Nat.mul_eq_zero]
  exact ⟨fun h hk => (h hk).resolve_left (by omega), fun h hk => .inr (h hk)⟩

theorem ahead_le_sum (n : ℕ) (stored : ℕ → ℕ) :
    ahead n stored ≤ n * ∑ k ∈ Finset.range n, stored k := by
  rw [Finset.mul_sum]
  exact Finset.sum_le_sum fun k _ => Nat.mul_le_mul_right _ (Nat.sub_le n k)

theorem ahead_le {n b : ℕ} {stored : ℕ → ℕ} (h : ∀ k < n, stored k ≤ b) :
    2 * ahead n stored ≤ n * (n + 1) * b := by
  have hsum : ahead n stored ≤ ∑ k ∈ Finset.range n, (n - k) * b :=
    Finset.sum_le_sum fun k hk => Nat.mul_le_mul_left _ (h k (Finset.mem_range.mp hk))
  have htotal : ∀ n, 2 * ∑ k ∈ Finset.range n, (n - k) * b = n * (n + 1) * b := by
    intro n
    induction n with
    | zero => simp
    | succ n ih =>
      rw [Finset.sum_range_succ', Nat.mul_add]
      simp only [Nat.add_sub_add_right, Nat.sub_zero]
      rw [ih]
      ring
  calc 2 * ahead n stored ≤ 2 * ∑ k ∈ Finset.range n, (n - k) * b := Nat.mul_le_mul_left 2 hsum
    _ = n * (n + 1) * b := htotal n

/-- What passes from each stage to the next lowers the potential, and what is added raises it. -/
theorem ahead_next {n : ℕ} {stored stored' entering flow added : ℕ → ℕ} (hfirst : flow 0 = 0)
    (hstage : ∀ k < n, flow (k + 1) + stored' k = stored k + entering k)
    (hlink : ∀ k < n, entering k ≤ flow k + added k) :
    ahead n stored' + ∑ k ∈ Finset.range n, flow (k + 1) ≤ ahead n stored + ahead n added := by
  have hshift : ∑ k ∈ Finset.range n, (n - k) * flow k =
      ∑ k ∈ Finset.range n, (n - (k + 1)) * flow (k + 1) := by
    have hends := (Finset.sum_range_succ (fun k => (n - k) * flow k) n).symm.trans
      (Finset.sum_range_succ' (fun k => (n - k) * flow k) n)
    rwa [Nat.sub_self, Nat.zero_mul, Nat.add_zero, hfirst, Nat.mul_zero, Nat.add_zero] at hends
  have hone : ∀ k ∈ Finset.range n,
      (n - k) * stored' k + flow (k + 1) + (n - (k + 1)) * flow (k + 1) ≤
        (n - k) * stored k + (n - k) * added k + (n - k) * flow k := by
    intro k hk
    have hlt := Finset.mem_range.mp hk
    have hn : n - k = (n - (k + 1)) + 1 := by omega
    calc (n - k) * stored' k + flow (k + 1) + (n - (k + 1)) * flow (k + 1)
        = (n - k) * (flow (k + 1) + stored' k) := by
          rw [hn]
          ring
      _ ≤ (n - k) * (stored k + (flow k + added k)) := by
          rw [hstage k hlt]
          exact Nat.mul_le_mul_left _ (Nat.add_le_add_left (hlink k hlt) _)
      _ = (n - k) * stored k + (n - k) * added k + (n - k) * flow k := by ring
  have hall := Finset.sum_le_sum hone
  simp only [Finset.sum_add_distrib] at hall
  rw [hshift] at hall
  unfold ahead
  omega

end GlipOsd.Runs
