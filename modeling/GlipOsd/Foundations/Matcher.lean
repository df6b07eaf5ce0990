import Mathlib.Algebra.Group.Nat.Even
import Mathlib.Data.List.Infix
import Mathlib.Tactic

/-! # Matching with one index

A matcher reads a text symbol by symbol and keeps the length of the front of the pattern that it has just seen.
On a symbol that does not fit it starts from the beginning, with the next symbol. It never goes back, so that it
can miss the pattern: behind the front of one, if the symbol that does not fit begins it.

* `progress_eq_length_iff`: the pattern is found where it begins at the index 0.
* `progress_eq_zero_iff`: when the first symbol occurs once in the pattern, the index is 0 behind an even number of
  fronts of the pattern that follow one another.
-/

namespace GlipOsd.Matcher
set_option autoImplicit false

variable {α : Type*} (pattern : List α)

/-- A front of the pattern, not empty and not all of it. -/
def Partial (b : List α) : Prop := b ≠ [] ∧ b <+: pattern ∧ b ≠ pattern

/-- The text ends with an even number of fronts of the pattern, and with no other one before them. -/
def EvenFronts (text : List α) : Prop :=
  ∃ (rest : List α) (bs : List (List α)), text = rest ++ bs.flatten ∧ (∀ b ∈ bs, Partial pattern b) ∧
    (∀ b, Partial pattern b → ¬ b <:+ rest) ∧ Even bs.length

variable {pattern}

theorem Partial.eq_take {b : List α} (h : Partial pattern b) :
    0 < b.length ∧ b.length < pattern.length ∧ b = pattern.take b.length := by
  obtain ⟨hne, hpre, hproper⟩ := h
  refine ⟨List.length_pos_of_ne_nil hne, ?_, List.prefix_iff_eq_take.mp hpre⟩
  exact lt_of_le_of_ne hpre.length_le fun hlen => hproper (hpre.eq_of_length hlen)

theorem partial_take {k : ℕ} (hpos : 0 < k) (hlt : k < pattern.length) : Partial pattern (pattern.take k) := by
  have hlen : (pattern.take k).length = k := List.length_take_of_le hlt.le
  refine ⟨List.ne_nil_of_length_pos (by omega), List.take_prefix k pattern, fun heq => ?_⟩
  rw [heq] at hlen
  omega

variable (pattern) in
/-- Every text ends with fronts of the pattern, none in the simplest case. -/
theorem exists_fronts (text : List α) : ∃ (rest : List α) (bs : List (List α)), text = rest ++ bs.flatten ∧
    (∀ b ∈ bs, Partial pattern b) ∧ ∀ b, Partial pattern b → ¬ b <:+ rest := by
  induction hn : text.length using Nat.strong_induction_on generalizing text with
  | _ n ih =>
    by_cases hend : ∃ b, Partial pattern b ∧ b <:+ text
    · obtain ⟨b, hb, front, rfl⟩ := hend
      have hpos := hb.eq_take.1
      rw [List.length_append] at hn
      obtain ⟨rest, bs, rfl, hbs, hrest⟩ := ih front.length (by omega) front rfl
      refine ⟨rest, bs ++ [b], ?_, ?_, hrest⟩
      · rw [List.flatten_append, List.flatten_singleton, List.append_assoc]
      · intro b' hb'
        obtain hb' | hb' := List.mem_append.mp hb'
        · exact hbs b' hb'
        · rwa [List.mem_singleton.mp hb']
    · push Not at hend
      exact ⟨text, [], (List.append_nil text).symm, fun b hb => absurd hb List.not_mem_nil, hend⟩

/-! ## The index -/

section Index
variable [DecidableEq α] (pattern)

/-- The index behind the symbol `c`; it stays when the pattern was found. -/
def advance (f : ℕ) (c : α) : ℕ :=
  if f = pattern.length then f else if pattern[f]? = some c then f + 1 else 0

/-- The index behind a text. -/
def progress (text : List α) : ℕ := text.foldl (advance pattern) 0

variable {pattern}

theorem progress_concat (text : List α) (c : α) :
    progress pattern (text ++ [c]) = advance pattern (progress pattern text) c := by
  rw [progress, List.foldl_append]
  rfl

theorem advance_match {f : ℕ} {c : α} (h : pattern[f]? = some c) : advance pattern f c = f + 1 := by
  have hlt : f < pattern.length := (List.getElem?_eq_some_iff.mp h).1
  rw [advance, if_neg hlt.ne, if_pos h]

theorem advance_mismatch {f : ℕ} {c : α} (hne : f ≠ pattern.length) (h : pattern[f]? ≠ some c) :
    advance pattern f c = 0 := by
  rw [advance, if_neg hne, if_neg h]

theorem progress_le (text : List α) : progress pattern text ≤ pattern.length := by
  induction text using List.reverseRecOn with
  | nil => exact Nat.zero_le _
  | append_singleton text c ih =>
    rw [progress_concat]
    unfold advance
    split_ifs with hall hc
    · exact ih
    · exact (List.getElem?_eq_some_iff.mp hc).1
    · exact Nat.zero_le _

theorem progress_append_of_found {text : List α} (h : progress pattern text = pattern.length) (more : List α) :
    progress pattern (text ++ more) = pattern.length := by
  induction more using List.reverseRecOn with
  | nil => rwa [List.append_nil]
  | append_singleton more c ih => rw [← List.append_assoc, progress_concat, ih, advance, if_pos rfl]

/-- From the index 0 the pattern is followed. -/
theorem progress_append_take {text : List α} (h : progress pattern text = 0) {k : ℕ} (hk : k ≤ pattern.length) :
    progress pattern (text ++ pattern.take k) = k := by
  induction k with
  | zero => rwa [List.take_zero, List.append_nil]
  | succ k ih =>
    have hsymbol : pattern[k]? = some pattern[k] := List.getElem?_eq_getElem (Nat.lt_of_succ_le hk)
    rw [List.take_succ_eq_append_getElem (Nat.lt_of_succ_le hk), ← List.append_assoc, progress_concat,
      ih (Nat.le_of_succ_le hk), advance_match hsymbol]

/-- What the index stands for, as long as the pattern was not found before: the text ends with a front of the
pattern that began at the index 0. -/
theorem exists_of_progress {text : List α} {k : ℕ} (h : progress pattern text = k)
    (hbefore : ∀ t, t <+: text → t ≠ text → progress pattern t ≠ pattern.length) :
    ∃ pre, text = pre ++ pattern.take k ∧ progress pattern pre = 0 := by
  induction text using List.reverseRecOn generalizing k with
  | nil =>
    obtain rfl : 0 = k := h
    exact ⟨[], rfl, rfl⟩
  | append_singleton text c ih =>
    have hne : progress pattern text ≠ pattern.length :=
      hbefore text (List.prefix_append text [c]) (by simp)
    rw [progress_concat] at h
    by_cases hc : pattern[progress pattern text]? = some c
    · rw [advance_match hc] at h
      subst h
      obtain ⟨hlt, hget⟩ := List.getElem?_eq_some_iff.mp hc
      obtain ⟨pre, hpre, hzero⟩ := ih rfl fun t ht htne =>
        hbefore t (ht.trans (List.prefix_append text [c])) fun heq => by
          have hlen := ht.length_le
          rw [heq, List.length_append, List.length_singleton] at hlen
          omega
      refine ⟨pre, ?_, hzero⟩
      rw [List.take_succ_eq_append_getElem hlt, ← List.append_assoc, ← hpre, hget]
    · rw [advance_mismatch hne hc] at h
      subst h
      refine ⟨text ++ [c], by rw [List.take_zero, List.append_nil], ?_⟩
      rw [progress_concat, advance_mismatch hne hc]

/-- The pattern is found if and only if it occurs somewhere where the index is 0. -/
theorem progress_eq_length_iff (text : List α) : progress pattern text = pattern.length ↔
    ∃ pre post, text = pre ++ pattern ++ post ∧ progress pattern pre = 0 := by
  constructor
  · intro h
    induction text using List.reverseRecOn with
    | nil =>
      have hnil : pattern = [] := List.eq_nil_of_length_eq_zero (h.symm.trans rfl)
      exact ⟨[], [], by rw [hnil]; rfl, rfl⟩
    | append_singleton text c ih =>
      by_cases hfound : progress pattern text = pattern.length
      · obtain ⟨pre, post, htext, hzero⟩ := ih hfound
        exact ⟨pre, post ++ [c], by rw [htext, List.append_assoc], hzero⟩
      · obtain ⟨pre, htext, hzero⟩ := exists_of_progress h fun t ht htne heq => by
          have ht' : t <+: text := by
            obtain ⟨more, hmore⟩ := ht
            obtain rfl | ⟨more, d, rfl⟩ := List.eq_nil_or_concat more
            · exact absurd (by rw [← hmore, List.append_nil]) htne
            · rw [List.concat_eq_append, ← List.append_assoc] at hmore
              exact ⟨more, (List.append_inj' hmore rfl).1⟩
          obtain ⟨more, rfl⟩ := ht'
          exact hfound (progress_append_of_found heq more)
        rw [List.take_length] at htext
        exact ⟨pre, [], by rw [htext, List.append_nil], hzero⟩
  · rintro ⟨pre, post, rfl, hzero⟩
    have hall := progress_append_take hzero (le_refl pattern.length)
    rw [List.take_length] at hall
    exact progress_append_of_found hall post

/-! ## A pattern whose first symbol occurs once -/

section Once
variable {x : α} {xs : List α} {text : List α}

theorem progress_append_of_not_mem (h : progress (x :: xs) text = 0) {ys : List α} (hys : x ∉ ys) :
    progress (x :: xs) (text ++ ys) = 0 := by
  induction ys using List.reverseRecOn with
  | nil => rwa [List.append_nil]
  | append_singleton ys c ih =>
    rw [List.mem_append, not_or, List.mem_singleton] at hys
    have hc : (x :: xs)[0]? ≠ some c := fun heq => hys.2 (Option.some.inj heq)
    rw [← List.append_assoc, progress_concat, ih hys.1, advance_mismatch (Nat.succ_ne_zero _).symm hc]

/-- A front of the pattern is not followed when another one has just been seen: its first symbol is lost. -/
theorem progress_append_part (hx : x ∉ xs) (hpos : 0 < progress (x :: xs) text)
    (hne : progress (x :: xs) text ≠ (x :: xs).length) {b : List α} (hb : Partial (x :: xs) b) :
    progress (x :: xs) (text ++ b) = 0 := by
  obtain ⟨hlen, -, htake⟩ := hb.eq_take
  obtain ⟨n, hn⟩ : ∃ n, b.length = n + 1 := ⟨b.length - 1, by omega⟩
  obtain ⟨f, hf⟩ : ∃ f, progress (x :: xs) text = f + 1 := ⟨_, (Nat.sub_add_cancel hpos).symm⟩
  have hfirst : (x :: xs)[f + 1]? ≠ some x := fun heq => hx (List.mem_of_getElem? heq)
  rw [hn, List.take_succ_cons] at htake
  have hzero : progress (x :: xs) (text ++ [x]) = 0 := by
    rw [progress_concat, hf, advance_mismatch (hf ▸ hne) hfirst]
  have hsplit : text ++ b = text ++ [x] ++ xs.take n := by rw [htake, List.append_assoc]; rfl
  rw [hsplit]
  exact progress_append_of_not_mem hzero fun hmem => hx (List.mem_of_mem_take hmem)

/-- The index behind fronts of the pattern, by induction on their number. -/
theorem progress_fronts (hx : x ∉ xs) {rest : List α} {bs : List (List α)} (hbs : ∀ b ∈ bs, Partial (x :: xs) b)
    (hrest : ∀ b, Partial (x :: xs) b → ¬ b <:+ rest)
    (hne : progress (x :: xs) (rest ++ bs.flatten) ≠ (x :: xs).length) :
    progress (x :: xs) (rest ++ bs.flatten) = 0 ↔ Even bs.length := by
  induction bs using List.reverseRecOn with
  | nil =>
    rw [List.flatten_nil, List.append_nil] at hne ⊢
    refine iff_of_true ?_ Even.zero
    by_contra hpos
    have hbefore : ∀ t, t <+: rest → t ≠ rest → progress (x :: xs) t ≠ (x :: xs).length := by
      rintro t ⟨more, rfl⟩ - heq
      exact hne (progress_append_of_found heq more)
    obtain ⟨pre, hpre, -⟩ := exists_of_progress rfl hbefore
    have hlt := lt_of_le_of_ne (progress_le rest) hne
    exact hrest _ (partial_take (Nat.pos_of_ne_zero hpos) hlt) ⟨pre, hpre.symm⟩
  | append_singleton bs b ih =>
    have hb := hbs b (List.mem_append_right _ (List.mem_singleton.mpr rfl))
    have hbefore : progress (x :: xs) (rest ++ bs.flatten) ≠ (x :: xs).length := by
      intro hfound
      rw [List.flatten_append, List.flatten_singleton, ← List.append_assoc] at hne
      exact hne (progress_append_of_found hfound b)
    have hih := ih (fun b' hb' => hbs b' (List.mem_append_left _ hb')) hbefore
    rw [List.flatten_append, List.flatten_singleton, ← List.append_assoc, List.length_append, List.length_singleton,
      Nat.even_add_one, ← hih]
    by_cases hzero : progress (x :: xs) (rest ++ bs.flatten) = 0
    · obtain ⟨hlen, hlt, htake⟩ := hb.eq_take
      have hall := progress_append_take hzero hlt.le
      rw [← htake] at hall
      rw [hall]
      exact iff_of_false hlen.ne' (not_not.mpr hzero)
    · exact iff_of_true (progress_append_part hx (Nat.pos_of_ne_zero hzero) hbefore hb) hzero

theorem progress_eq_zero_iff (hx : x ∉ xs) (hne : progress (x :: xs) text ≠ (x :: xs).length) :
    progress (x :: xs) text = 0 ↔ EvenFronts (x :: xs) text := by
  constructor
  · intro hzero
    obtain ⟨rest, bs, rfl, hbs, hrest⟩ := exists_fronts (x :: xs) text
    exact ⟨rest, bs, rfl, hbs, hrest, (progress_fronts hx hbs hrest hne).mp hzero⟩
  · rintro ⟨rest, bs, rfl, hbs, hrest, heven⟩
    exact (progress_fronts hx hbs hrest hne).mpr heven

/-- The pattern is found if and only if it occurs somewhere behind an even number of its fronts. -/
theorem found_iff (hx : x ∉ xs) (text : List α) : progress (x :: xs) text = (x :: xs).length ↔
    ∃ pre post, text = pre ++ (x :: xs) ++ post ∧ EvenFronts (x :: xs) pre := by
  rw [progress_eq_length_iff]
  constructor
  · rintro ⟨pre, post, htext, hzero⟩
    exact ⟨pre, post, htext, (progress_eq_zero_iff hx (by rw [hzero]; exact (Nat.succ_ne_zero _).symm)).mp hzero⟩
  · rintro ⟨pre, post, rfl, heven⟩
    by_cases hfound : progress (x :: xs) pre = (x :: xs).length
    · obtain ⟨pre', post', hpre, hzero⟩ := (progress_eq_length_iff pre).mp hfound
      refine ⟨pre', post' ++ (x :: xs) ++ post, ?_, hzero⟩
      rw [hpre]
      simp only [List.append_assoc]
    · exact ⟨pre, post, rfl, (progress_eq_zero_iff hx hfound).mpr heven⟩

end Once

end Index

end GlipOsd.Matcher
