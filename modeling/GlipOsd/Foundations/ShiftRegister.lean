import Mathlib.Data.List.Basic
import Mathlib.Tactic

/-! # Shift registers

A register that is shifted towards its least significant bit, the new bit coming in at the top.

* `bits x`: the bits of a register, the one that leaves first in front.
* `Shifts x ds y outs`: from `x`, the bits `ds` have been shifted in and `outs` have left, and `y` is in
  the register.
-/

namespace GlipOsd.ShiftRegister
set_option autoImplicit false

variable {W : ℕ}

/-- `{b, x[W-1:1]}` -/
def shiftIn (b : Bool) (x : BitVec W) : BitVec W := (BitVec.ofBool b ++ x.extractLsb' 1 (W - 1)).setWidth W

def bits (x : BitVec W) : List Bool := (List.range W).map x.getLsbD

theorem length_bits (x : BitVec W) : (bits x).length = W := by
  rw [bits, List.length_map, List.length_range]

theorem bits_injective {x y : BitVec W} (h : bits x = bits y) : x = y := by
  apply BitVec.eq_of_getLsbD_eq
  intro k hk
  exact List.map_inj_left.mp h k (List.mem_range.mpr hk)

theorem getLsbD_shiftIn (b : Bool) (x : BitVec W) {k : ℕ} (hk : k < W) :
    (shiftIn b x).getLsbD k = if k + 1 < W then x.getLsbD (k + 1) else b := by
  simp only [shiftIn, BitVec.getLsbD_setWidth, hk, decide_true, Bool.true_and, BitVec.getLsbD_append,
    BitVec.getLsbD_extractLsb']
  by_cases hlow : k + 1 < W
  · rw [if_pos (by omega), if_pos hlow, Nat.add_comm 1 k]
    simp
    omega
  · have hlast : k - (W - 1) = 0 := by omega
    rw [if_neg (by omega), if_neg hlow, hlast]
    simp

theorem bits_shiftIn (hW : 0 < W) (b : Bool) (x : BitVec W) : bits (shiftIn b x) = (bits x).tail ++ [b] := by
  apply List.ext_getElem
  · simp [length_bits]
    omega
  · intro k hk hk'
    rw [length_bits] at hk
    simp only [bits, List.getElem_map, List.getElem_range, getLsbD_shiftIn b x hk]
    by_cases hlow : k + 1 < W
    · rw [if_pos hlow, List.getElem_append_left (by simp; omega)]
      simp
    · rw [if_neg hlow, List.getElem_append_right (by simp; omega)]
      simp

structure Shifts (x : BitVec W) (ds : List Bool) (y : BitVec W) (outs : List Bool) : Prop where
  stored : bits y = (bits x ++ ds).drop ds.length
  left : outs = (bits x ++ ds).take ds.length

theorem Shifts.start (x : BitVec W) : Shifts x [] x [] where
  stored := (List.append_nil _).symm
  left := rfl

theorem Shifts.next (hW : 0 < W) {x y : BitVec W} {ds outs : List Bool} (h : Shifts x ds y outs)
    (d : Bool) : Shifts x (ds ++ [d]) (shiftIn d y) (outs ++ [y.getLsbD 0]) := by
  obtain ⟨hstored, hleft⟩ := h
  have hlen : ds.length < (bits x ++ ds).length := by
    rw [List.length_append, length_bits]
    omega
  have hsucc : (ds ++ [d]).length = ds.length + 1 := by rw [List.length_append, List.length_singleton]
  have hassoc : bits x ++ (ds ++ [d]) = bits x ++ ds ++ [d] := (List.append_assoc _ _ _).symm
  generalize bits x ++ ds = all at hstored hleft hlen hassoc
  have hhead : all[ds.length] = y.getLsbD 0 := by
    have hget : (bits y)[0]? = all[ds.length]? := by rw [hstored, List.getElem?_drop, Nat.add_zero]
    rw [List.getElem?_eq_getElem (by rw [length_bits]; exact hW), List.getElem?_eq_getElem hlen,
      Option.some.injEq] at hget
    rw [← hget]
    simp [bits]
  constructor
  · rw [bits_shiftIn hW, hstored, List.tail_drop, hassoc, hsucc, List.drop_append_of_le_length hlen]
  · rw [hleft, hassoc, hsucc, List.take_append_of_le_length hlen, List.take_succ_eq_append_getElem hlen, hhead]

/-- Once as many bits are shifted in as the register has, they are in it and all others have left. -/
theorem Shifts.full {x y : BitVec W} {ds outs : List Bool} (h : Shifts x ds y outs)
    (hlen : ds.length = W) : bits y = ds ∧ outs = bits x := by
  have hx : (bits x).length = ds.length := (length_bits x).trans hlen.symm
  exact ⟨h.stored.trans (List.drop_left' hx), h.left.trans (List.take_left' hx)⟩

end GlipOsd.ShiftRegister
