import GlipOsd.Foundations.Packets

/-! # The debug interconnect interface

`dii_flit`, the flits between debug modules. A flit is transferred in a cycle in which it is valid and
the receiver is ready.
-/

namespace GlipOsd
set_option autoImplicit false

structure DiiFlit where
  valid : Bool
  last : Bool
  data : BitVec 16
  deriving DecidableEq, Repr

namespace DiiFlit

def idle : DiiFlit := ⟨false, false, 0⟩

def transfer (flit : DiiFlit) (ready : Bool) : List DiiFlit := if flit.valid && ready then [flit] else []

theorem transfer_of_ready {flit : DiiFlit} {ready : Bool} (hv : flit.valid = true) (hr : ready = true) :
    flit.transfer ready = [flit] := by
  rw [transfer, hv, hr]
  rfl

theorem transfer_of_not_valid {flit : DiiFlit} (ready : Bool) (hv : flit.valid = false) :
    flit.transfer ready = [] := by
  rw [transfer, hv]
  rfl

@[simp] theorem transfer_idle (ready : Bool) : idle.transfer ready = [] := rfl

@[simp] theorem transfer_true (flit : DiiFlit) : flit.transfer true = if flit.valid then [flit] else [] := by
  rw [transfer, Bool.and_true]

theorem transfer_of_not_ready (flit : DiiFlit) {ready : Bool} (hr : ready = false) :
    flit.transfer ready = [] := by
  rw [transfer, hr, Bool.and_false]
  rfl

end DiiFlit

end GlipOsd
