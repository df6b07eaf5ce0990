import Mathlib.Data.List.Basic
import Mathlib.Data.List.Range

/-! # Synchronous circuits under an input waveform

A circuit is a next-state function `step` on its registers. Its inputs form a waveform
`e : ℕ → ι`, one value a clock cycle.

* `stateAt step s e t`: the registers at the start of cycle `t`, when they hold `s` in cycle 0.
* `trace step out s e a n`: what the observer `out` sees in the `n` cycles from cycle `a` on.
* `stateAt_invariant`: what every clock edge preserves holds in every cycle.
* `stateAt_add`, `stateAt_part`: the later cycles of a circuit, and the cycles of a part of it.
* `getLsbD_oneHot`, `getLsbD_writeBit`: a one-hot register, and a register one bit of which is written.
-/

namespace GlipOsd.Clocked
set_option autoImplicit false

variable {σ ι ο : Type*} (step : σ → ι → σ) (out : σ → ι → ο)

def stateAt (s : σ) (e : ℕ → ι) : ℕ → σ
  | 0 => s
  | t + 1 => step (stateAt s e t) (e t)

def trace (s : σ) (e : ℕ → ι) (a n : ℕ) : List ο :=
  (List.range n).map fun i => out (stateAt step s e (a + i)) (e (a + i))

variable {s : σ} {e : ℕ → ι} {a m n : ℕ}

theorem stateAt_succ (t : ℕ) : stateAt step s e (t + 1) = step (stateAt step s e t) (e t) := rfl

variable {step out}

theorem stateAt_invariant (Inv : σ → Prop) (hstep : ∀ s i, Inv s → Inv (step s i)) (hs : Inv s)
    (t : ℕ) : Inv (stateAt step s e t) := by
  induction t with
  | zero => exact hs
  | succ t ih => exact hstep _ _ ih

/-- From cycle `a` on a circuit runs as if it started there. -/
theorem stateAt_add (a n : ℕ) :
    stateAt step s e (a + n) = stateAt step (stateAt step s e a) (fun t => e (a + t)) n := by
  induction n with
  | zero => rfl
  | succ n ih => exact congrArg (step · (e (a + n))) ih

/-- A part of a circuit is a circuit, whose inputs are what the rest shows it. -/
theorem stateAt_part {τ κ : Type*} {step' : τ → κ → τ} (part : σ → τ) (sees : σ → ι → κ)
    (h : ∀ s i, part (step s i) = step' (part s) (sees s i)) (t : ℕ) :
    part (stateAt step s e t) = stateAt step' (part s) (fun k => sees (stateAt step s e k) (e k)) t := by
  induction t with
  | zero => rfl
  | succ t ih =>
    rw [stateAt_succ step, h, ih]
    rfl

theorem length_trace : (trace step out s e a n).length = n := by
  rw [trace, List.length_map, List.length_range]

theorem trace_add : trace step out s e a (m + n) =
    trace step out s e a m ++ trace step out s e (a + m) n := by
  simp only [trace, List.range_add, List.map_append, List.map_map, Function.comp_def, Nat.add_assoc]

theorem trace_succ : trace step out s e a (n + 1) =
    trace step out s e a n ++ [out (stateAt step s e (a + n)) (e (a + n))] := by
  simp only [trace, List.range_succ, List.map_append, List.map_cons, List.map_nil]

theorem trace_eq_map {f : ℕ → ο} (h : ∀ i < n, out (stateAt step s e (a + i)) (e (a + i)) = f i) :
    trace step out s e a n = (List.range n).map f := by
  apply List.map_congr_left
  intro i hi
  exact h i (List.mem_range.mp hi)

/-! ## One bit of a register -/

section Bits
variable {W i k : ℕ}

theorem getLsbD_oneHot (hi : i < W) : (1#W <<< k).getLsbD i = decide (i = k) := by
  rw [← BitVec.twoPow_eq, BitVec.getLsbD_twoPow]
  by_cases heq : i = k
  · simp [heq, heq ▸ hi]
  · simp [heq, Ne.symm heq]

/-- A bit is set with a one-hot mask and cleared with its complement. -/
theorem getLsbD_writeBit (x : BitVec W) (b : Bool) (hi : i < W) :
    (if b then x ||| 1#W <<< k else x &&& ~~~(1#W <<< k)).getLsbD i = if i = k then b else x.getLsbD i := by
  cases b with
  | false =>
    rw [if_neg Bool.false_ne_true, BitVec.getLsbD_and, BitVec.getLsbD_not, getLsbD_oneHot hi]
    by_cases heq : i = k <;> simp [heq, hi]
  | true =>
    rw [if_pos rfl, BitVec.getLsbD_or, getLsbD_oneHot hi]
    by_cases heq : i = k <;> simp [heq]

end Bits

end GlipOsd.Clocked
