import Mathlib.Tactic

/-! # A list in pairs

`pairs f as` combines the elements of a list two by two and drops a last one that is left alone. Done chunk by chunk,
an element is lost for every chunk of odd length.
-/

namespace GlipOsd.Pairs
set_option autoImplicit false

variable {α β : Type*} (f : α → α → β)

def pairs : List α → List β
  | [] => []
  | [_] => []
  | a :: b :: as => f a b :: pairs as

theorem length_pairs (as : List α) : (pairs f as).length = as.length / 2 := by
  fun_induction pairs f as with
  | case1 => simp
  | case2 => simp
  | case3 a b as ih =>
    rw [List.length_cons, ih, List.length_cons, List.length_cons]
    omega

theorem pairs_append {as : List α} (h : Even as.length) (bs : List α) :
    pairs f (as ++ bs) = pairs f as ++ pairs f bs := by
  fun_induction pairs f as with
  | case1 => rfl
  | case2 => simp at h
  | case3 a b as ih =>
    have heven : Even as.length := by
      rw [List.length_cons, List.length_cons] at h
      simpa [Nat.even_add] using h
    rw [List.cons_append, List.cons_append, pairs, ih heven, List.cons_append]

theorem pairs_split {as : List α} {n : ℕ} (h : 2 * n ≤ as.length) :
    pairs f as = pairs f (as.take (2 * n)) ++ pairs f (as.drop (2 * n)) ∧ (pairs f (as.take (2 * n))).length = n := by
  have hlen : (as.take (2 * n)).length = 2 * n := List.length_take_of_le h
  have heven : Even (as.take (2 * n)).length := by
    rw [hlen]
    exact even_two_mul n
  have hsplit := pairs_append f heven (as.drop (2 * n))
  rw [List.take_append_drop] at hsplit
  exact ⟨hsplit, by rw [length_pairs, hlen, Nat.mul_div_cancel_left _ (by norm_num)]⟩

theorem pairs_take {as : List α} {n : ℕ} (h : 2 * n ≤ as.length) :
    pairs f (as.take (2 * n)) = (pairs f as).take n := by
  obtain ⟨hsplit, hlen⟩ := pairs_split f h
  rw [hsplit, List.take_left' hlen]

theorem pairs_drop {as : List α} {n : ℕ} (h : 2 * n ≤ as.length) :
    pairs f (as.drop (2 * n)) = (pairs f as).drop n := by
  obtain ⟨hsplit, hlen⟩ := pairs_split f h
  rw [hsplit, List.drop_left' hlen]

/-- The pairs are read at the even positions, whatever follows. -/
theorem pairs_eq_map (d : α) (as bs : List α) :
    pairs f as =
      (List.range (as.length / 2)).map fun i => f ((as ++ bs).getD (2 * i) d) ((as ++ bs).getD (2 * i + 1) d) := by
  fun_induction pairs f as with
  | case1 => simp
  | case2 => simp
  | case3 a b as ih =>
    have hlen : (a :: b :: as).length / 2 = as.length / 2 + 1 := by
      rw [List.length_cons, List.length_cons]
      omega
    rw [hlen, List.range_succ_eq_map, List.map_cons, List.map_map, ih]
    rfl

/-- Two elements for each word, and at most one behind them, are paired to the words. -/
theorem pairs_flatMap {split : β → List α} (hsplit : ∀ w, ∃ a b, split w = [a, b] ∧ f a b = w) (ws : List β)
    {held : List α} (h : held.length ≤ 1) : pairs f (ws.flatMap split ++ held) = ws := by
  induction ws with
  | nil =>
    match held, h with
    | [], _ => rfl
    | [_], _ => rfl
  | cons w ws ih =>
    obtain ⟨a, b, hw, hf⟩ := hsplit w
    rw [List.flatMap_cons, hw, List.append_assoc, List.cons_append, List.cons_append, List.nil_append, pairs, hf, ih]

/-! ## Chunks -/

theorem length_flatMap_pairs (cs : List (List α)) :
    2 * (cs.flatMap (pairs f)).length + cs.countP (fun c => !decide (Even c.length)) = cs.flatten.length := by
  induction cs with
  | nil => rfl
  | cons c cs ih =>
    rw [List.flatMap_cons, List.length_append, List.countP_cons, List.flatten_cons, List.length_append, length_pairs,
      ← ih]
    obtain h | h := Nat.even_or_odd c.length
    · have heven := Nat.two_mul_div_two_of_even h
      simp only [h, decide_true, Bool.not_true, Bool.false_eq_true, if_false]
      omega
    · have hodd := Nat.two_mul_div_two_add_one_of_odd h
      simp only [Nat.not_even_iff_odd.mpr h, decide_false, Bool.not_false, if_true]
      omega

theorem flatMap_pairs {cs : List (List α)} (h : ∀ c ∈ cs, Even c.length) :
    cs.flatMap (pairs f) = pairs f cs.flatten := by
  induction cs with
  | nil => rfl
  | cons c cs ih =>
    rw [List.forall_mem_cons] at h
    rw [List.flatMap_cons, List.flatten_cons, pairs_append f h.1, ih h.2]

/-- A list of even length is paired the same in one piece and in chunks of even length, and there are fewer pairs in
other chunks. -/
theorem length_flatMap_pairs_lt {cs : List (List α)} (h : ¬ ∀ c ∈ cs, Even c.length) (heven : Even cs.flatten.length) :
    (cs.flatMap (pairs f)).length < (pairs f cs.flatten).length := by
  have hcount := length_flatMap_pairs f cs
  have hpos : 0 < cs.countP (fun c => !decide (Even c.length)) := by
    rw [List.countP_pos_iff]
    push Not at h
    obtain ⟨c, hc, hodd⟩ := h
    exact ⟨c, hc, by simpa using hodd⟩
  have htotal := Nat.two_mul_div_two_of_even heven
  rw [length_pairs]
  omega

theorem flatMap_pairs_eq_iff {cs : List (List α)} (heven : Even cs.flatten.length) :
    cs.flatMap (pairs f) = pairs f cs.flatten ↔ ∀ c ∈ cs, Even c.length := by
  constructor
  · intro h
    by_contra hodd
    exact (length_flatMap_pairs_lt f hodd heven).ne (congrArg List.length h)
  · exact flatMap_pairs f

end GlipOsd.Pairs
