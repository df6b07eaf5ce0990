import Mathlib.Data.List.TakeWhile
import Mathlib.Tactic

/-! # Items between separators

`next` takes the first item of a list, behind separators in front of it and together with the separator behind it;
`items` takes one after the other. There are no empty items.
-/

namespace GlipOsd.Tokens
set_option autoImplicit false

variable {α : Type*} (sep : α → Bool)

/-- The first item and what follows it. -/
def next (s : List α) : Option (List α × List α) :=
  match s.dropWhile sep with
  | [] => none
  | a :: as => some (a :: as.takeWhile fun b => !sep b, (as.dropWhile fun b => !sep b).tail)

variable {sep}

theorem length_of_next {s item rest : List α} (h : next sep s = some (item, rest)) : rest.length < s.length := by
  unfold next at h
  split at h
  · cases h
  · next a as hdrop =>
    obtain ⟨-, rfl⟩ := Prod.mk.inj (Option.some.inj h)
    have hle := (List.dropWhile_sublist sep (l := s)).length_le
    have hle' := (List.dropWhile_sublist (fun b => !sep b) (l := as)).length_le
    rw [hdrop, List.length_cons] at hle
    rw [List.length_tail]
    omega

variable (sep)

def items (s : List α) : List (List α) :=
  match _h : next sep s with
  | none => []
  | some (item, rest) => item :: items rest
termination_by s.length
decreasing_by exact length_of_next _h

theorem items_of_none {s : List α} (h : next sep s = none) : items sep s = [] := by
  rw [items]
  split
  · rfl
  · next heq =>
    rw [h] at heq
    cases heq

theorem items_of_some {s item rest : List α} (h : next sep s = some (item, rest)) :
    items sep s = item :: items sep rest := by
  rw [items]
  split
  · next heq =>
    rw [h] at heq
    cases heq
  · next heq =>
    obtain ⟨rfl, rfl⟩ := Prod.mk.inj (Option.some.inj (h.symm.trans heq))
    rfl

/-! ## Items that are written down -/

/-- `Written sep is s`: the list `s` has the items `is` with separators between them, and others anywhere around them. -/
inductive Written : List (List α) → List α → Prop
  | nil : Written [] []
  | sep {a : α} {is : List (List α)} {s : List α} (ha : sep a) (h : Written is s) : Written is (a :: s)
  | last {item : List α} (hne : item ≠ []) (hitem : ∀ a ∈ item, ¬ sep a) : Written [item] item
  | item {item : List α} {a : α} {is : List (List α)} {s : List α} (hne : item ≠ []) (hitem : ∀ b ∈ item, ¬ sep b)
      (ha : sep a) (h : Written is s) : Written (item :: is) (item ++ a :: s)

variable {sep}

theorem next_sep {a : α} (ha : sep a) (s : List α) : next sep (a :: s) = next sep s := by
  unfold next
  rw [List.dropWhile_cons_of_pos ha]

theorem items_sep {a : α} (ha : sep a) (s : List α) : items sep (a :: s) = items sep s := by
  have hnext := next_sep ha s
  cases h : next sep s with
  | none => rw [items_of_none sep h, items_of_none sep (hnext.trans h)]
  | some r => rw [items_of_some sep h, items_of_some sep (hnext.trans h)]

theorem next_last {item : List α} (hne : item ≠ []) (hitem : ∀ a ∈ item, ¬ sep a) :
    next sep item = some (item, []) := by
  obtain ⟨a, as, rfl⟩ := List.exists_cons_of_ne_nil hne
  have has : ∀ b ∈ as, (!sep b) = true := by simpa using fun b hb => hitem b (List.mem_cons_of_mem a hb)
  have htake : as.takeWhile (fun b => !sep b) = as := List.takeWhile_eq_self_iff.2 has
  have hdrop : as.dropWhile (fun b => !sep b) = [] := List.dropWhile_eq_nil_iff.2 has
  unfold next
  rw [List.dropWhile_cons_of_neg (hitem a List.mem_cons_self)]
  dsimp only
  rw [htake, hdrop, List.tail_nil]

theorem next_item {item : List α} (hne : item ≠ []) (hitem : ∀ a ∈ item, ¬ sep a) {b : α} (hb : sep b)
    (s : List α) : next sep (item ++ b :: s) = some (item, s) := by
  obtain ⟨a, as, rfl⟩ := List.exists_cons_of_ne_nil hne
  have has : ∀ c ∈ as, (!sep c) = true := by simpa using fun c hc => hitem c (List.mem_cons_of_mem a hc)
  have htake : (as ++ b :: s).takeWhile (fun c => !sep c) = as := by
    rw [List.takeWhile_append_of_pos has]
    simp [hb]
  have hdrop : (as ++ b :: s).dropWhile (fun c => !sep c) = b :: s := by
    rw [List.dropWhile_append_of_pos has]
    simp [hb]
  unfold next
  rw [List.cons_append, List.dropWhile_cons_of_neg (hitem a List.mem_cons_self)]
  dsimp only
  rw [htake, hdrop, List.tail_cons]

/-- The items that are taken are those that were written. -/
theorem items_of_written {is : List (List α)} {s : List α} (h : Written sep is s) : items sep s = is := by
  induction h with
  | nil => exact items_of_none sep rfl
  | sep ha h ih => rw [items_sep ha, ih]
  | last hne hitem => rw [items_of_some sep (next_last hne hitem), items_of_none sep rfl]
  | item hne hitem ha h ih => rw [items_of_some sep (next_item hne hitem ha _), ih]

end GlipOsd.Tokens
