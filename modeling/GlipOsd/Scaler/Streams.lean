import GlipOsd.Foundations.Pairs
import GlipOsd.Foundations.Streams
import GlipOsd.Uart.WidthCrossing

/-! # The scalers as stream transformers

`glip_upscale` and `glip_downscale` at any width, out of reset, with any input and any readiness of the output in every
cycle; and the one behind the other.
-/

namespace GlipOsd.Scaler
open Runs Pairs Streams Uart
set_option autoImplicit false

variable {n : ℕ}

/-- The two inputs of a scaler and the ready of its output. -/
structure In (n : ℕ) where
  inData : BitVec n
  inValid : Bool
  outReady : Bool
  deriving DecidableEq

def transfer (data : BitVec n) (valid ready : Bool) : List (BitVec n) := if valid && ready then [data] else []

def upscale (n : ℕ) : Circuit (Upscale n) (In n) (BitVec n) (BitVec (n + n)) where
  next s i := s.next false i.inData i.inValid i.outReady
  ins s i := transfer i.inData i.inValid (s.inReady i.outReady)
  outs s i := transfer (s.outData i.inData) (s.outValid i.inValid) i.outReady

def downscale (n : ℕ) : Circuit (Downscale n) (In (n + n)) (BitVec (n + n)) (BitVec n) where
  next s i := s.next false i.inData i.inValid i.outReady
  ins s i := transfer i.inData i.inValid (s.inReady i.outReady)
  outs s i := transfer (s.outData i.inData) (s.outValid i.inValid) i.outReady

/-- Both scalers with one clock. -/
structure Pair (n : ℕ) where
  up : Upscale n
  down : Downscale n

namespace Pair
variable (s : Pair n) (i : In n)

/-- What the downscaler sees. -/
def between : In (n + n) := ⟨s.up.outData i.inData, s.up.outValid i.inValid, i.outReady⟩

/-- What the upscaler sees. -/
def before : In n := { i with outReady := s.down.inReady i.outReady }

end Pair

def pair (n : ℕ) : Circuit (Pair n) (In n) (BitVec n) (BitVec n) where
  next s i := ⟨(upscale n).next s.up (s.before i), (downscale n).next s.down (s.between i)⟩
  ins s i := (upscale n).ins s.up (s.before i)
  outs s i := (downscale n).outs s.down (s.between i)

/-! ## Words and their halves -/

theorem joinWord_parts (word : BitVec (n + n)) : joinWord (upperPart word) (lowerPart word) = word := by
  apply BitVec.eq_of_getLsbD_eq
  intro i hi
  rw [joinWord, BitVec.getLsbD_append, upperPart, lowerPart, BitVec.getLsbD_extractLsb', BitVec.getLsbD_extractLsb']
  by_cases hlow : i < n
  · simp [hlow]
  · have hrest : i - n < n := by omega
    have hi' : n + (i - n) = i := by omega
    simp [hlow, hrest, hi']

theorem split_join (word : BitVec (n + n)) :
    ∃ first second, splitWord word = [first, second] ∧ joinWord first second = word :=
  ⟨_, _, rfl, joinWord_parts word⟩

/-! ## One cycle -/

/-- The half of a word that is in the upscaler. -/
def upHeld (s : Upscale n) : List (BitVec n) := if s.scale then [s.upper] else []

def downHeld (s : Downscale n) : List (BitVec n) := if s.scale then [s.lower] else []

theorem upscale_flows (s : Upscale n) (i : In n) :
    Flows (upHeld s) ((upscale n).ins s i) (((upscale n).outs s i).flatMap splitWord) (upHeld ((upscale n).next s i)) := by
  obtain ⟨scale, upper⟩ := s
  obtain ⟨data, valid, ready⟩ := i
  cases scale <;> cases valid <;> cases ready <;>
    simp [Flows, upscale, transfer, upHeld, Upscale.next, Upscale.inReady, Upscale.outValid, Upscale.outData,
      splitWord_joinWord]

theorem downscale_flows (s : Downscale n) (i : In (n + n)) :
    Flows (downHeld s) (((downscale n).ins s i).flatMap splitWord) ((downscale n).outs s i)
      (downHeld ((downscale n).next s i)) := by
  obtain ⟨scale, lower⟩ := s
  obtain ⟨data, valid, ready⟩ := i
  cases scale <;> cases valid <;> cases ready <;>
    simp [Flows, downscale, transfer, downHeld, Downscale.next, Downscale.inReady, Downscale.outValid,
      Downscale.outData, splitWord]

theorem outs_eq_ins (s : Pair n) (i : In n) :
    (upscale n).outs s.up (s.before i) = (downscale n).ins s.down (s.between i) := rfl

theorem pair_flows (s : Pair n) (i : In n) :
    Flows (downHeld s.down ++ upHeld s.up) ((pair n).ins s i) ((pair n).outs s i)
      (downHeld ((pair n).next s i).down ++ upHeld ((pair n).next s i).up) := by
  have hup := upscale_flows s.up (s.before i)
  rw [outs_eq_ins] at hup
  exact hup.chain (downscale_flows s.down (s.between i))

/-! ## Runs -/

theorem length_upHeld_le (s : Upscale n) : (upHeld s).length ≤ 1 := by
  unfold upHeld
  split_ifs <;> simp

theorem length_downHeld_le (s : Downscale n) : (downHeld s).length ≤ 1 := by
  unfold downHeld
  split_ifs <;> simp

/-- **The scalers are inverse stream transformers.** Of any width, from reset on and in all cycles: the upscaler gives
out the pairs of the words taken in; the downscaler gives out the halves of the words taken in, but for a lower half
that is still held; the downscaler behind the upscaler gives out the words taken in, but for at most two. The registers
without a reset value hold anything at first. -/
theorem scalers_inverse (upper lower : BitVec n) (is : List (In n)) (js : List (In (n + n))) :
    Passes (upscale n).step (fun t => t.outs = pairs joinWord t.ins ∧ t.ins = t.outs.flatMap splitWord ++ upHeld t.state)
        (start ⟨false, upper⟩) is ∧
      Passes (downscale n).step (fun t => t.ins.flatMap splitWord = t.outs ++ downHeld t.state) (start ⟨false, lower⟩) js ∧
      Passes (pair n).step (fun t => t.ins = t.outs ++ t.inside ∧ t.inside.length ≤ 2)
        (start ⟨⟨false, upper⟩, ⟨false, lower⟩⟩) is := by
  refine ⟨?_, ?_, ?_⟩
  · have hflows := (upscale n).always_flows (s := ⟨false, upper⟩) (fun _ => True) upHeld (fun w => [w]) splitWord
      (fun s i _ => ⟨trivial, by rw [List.flatMap_singleton']; exact upscale_flows s i⟩) trivial rfl is
    refine hflows.mono ?_
    rintro t ⟨-, hflow⟩
    rw [List.flatMap_singleton'] at hflow
    exact ⟨by rw [hflow, pairs_flatMap joinWord split_join _ (length_upHeld_le t.state)], hflow⟩
  · have hflows := (downscale n).always_flows (s := ⟨false, lower⟩) (fun _ => True) downHeld splitWord (fun w => [w])
      (fun s i _ => ⟨trivial, by rw [List.flatMap_singleton']; exact downscale_flows s i⟩) trivial rfl js
    refine hflows.mono ?_
    rintro t ⟨-, hflow⟩
    rwa [List.flatMap_singleton'] at hflow
  · have hflows := (pair n).always_queue (s := ⟨⟨false, upper⟩, ⟨false, lower⟩⟩) (fun _ => True)
      (fun s => downHeld s.down ++ upHeld s.up) (fun s i _ => ⟨trivial, pair_flows s i⟩) trivial rfl is
    refine hflows.mono ?_
    rintro t ⟨-, hflow⟩
    have hup := length_upHeld_le t.state.up
    have hdown := length_downHeld_le t.state.down
    rw [Seen.inside_eq hflow, List.length_append]
    exact ⟨hflow, by omega⟩

/-- Both scalers with the output held back in some cycles. -/
example : ((runFrom (pair 8).step (start ⟨⟨false, 0⟩, ⟨false, 0⟩⟩)
    [⟨1, true, true⟩, ⟨2, true, false⟩, ⟨2, true, true⟩, ⟨3, true, true⟩, ⟨4, false, true⟩]).map Seen.outs) =
      some [1, 2] := by decide

end GlipOsd.Scaler
