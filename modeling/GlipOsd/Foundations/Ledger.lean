import Mathlib.Data.List.Basic
import Mathlib.Data.List.Nodup

/-! # A ledger of resources

What has been acquired and not been released. The environment gives out a resource only while it is not held;
a release of something that is not held goes on record.
-/

namespace GlipOsd.Resources
set_option autoImplicit false

variable {α : Type*} [DecidableEq α]

structure Ledger (α : Type*) where
  held : List α
  stray : List α
  nodup : held.Nodup
  deriving DecidableEq

def empty : Ledger α := ⟨[], [], List.nodup_nil⟩

/-- `none` if the resource is held. -/
def Ledger.acquire (l : Ledger α) (a : α) : Option (Ledger α) :=
  if h : a ∈ l.held then none else some ⟨a :: l.held, l.stray, List.nodup_cons.mpr ⟨h, l.nodup⟩⟩

def Ledger.release (l : Ledger α) (a : α) : Ledger α :=
  if a ∈ l.held then ⟨l.held.erase a, l.stray, l.nodup.erase a⟩ else ⟨l.held, a :: l.stray, l.nodup⟩

variable {l l' : Ledger α} {a : α}

theorem acquire_eq_some (h : l.acquire a = some l') : a ∉ l.held ∧ l'.held = a :: l.held ∧ l'.stray = l.stray := by
  unfold Ledger.acquire at h
  split_ifs at h with hmem
  cases h
  exact ⟨hmem, rfl, rfl⟩

theorem release_held (h : a ∈ l.held) : (l.release a).held = l.held.erase a ∧ (l.release a).stray = l.stray := by
  rw [Ledger.release, if_pos h]
  exact ⟨rfl, rfl⟩

theorem release_stray (h : a ∉ l.held) : (l.release a).stray ≠ [] := by
  rw [Ledger.release, if_neg h]
  exact List.cons_ne_nil _ _

/-- What is given back at once leaves no trace. -/
theorem release_acquire (h : l.acquire a = some l') : l'.release a = l := by
  unfold Ledger.acquire at h
  split_ifs at h with hmem
  cases h
  rw [Ledger.release, if_pos List.mem_cons_self]
  simp only [List.erase_cons_head]

end GlipOsd.Resources
