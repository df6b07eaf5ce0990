import Mathlib.Data.List.Basic
import GlipOsd.Foundations.Mirror

/-! # Blocks of memory

A block is the list of its cells. `memcpy` writes a segment and `slice` reads one; a copy that runs
past the end makes the block longer, so that a preserved length is memory safety.

`ringWrite` and `ringRead` are the two-segment copies of a ring buffer: up to the end of the block
first, then from its start. Both are described by one fact, `getElem?_ringWrite`, about the cell at
every offset from the position written to; `RingReads` says that the cells from a position on
hold a given list.
-/

namespace GlipOsd.Memory
set_option autoImplicit false

variable {α : Type*}

/-! ## Plain copies -/

/-- `memcpy(&dst[off], src, length of src)`. -/
def memcpy (dst : List α) (off : ℕ) (src : List α) : List α :=
  dst.take off ++ src ++ dst.drop (off + src.length)

/-- The `n` cells of `src` from `off` on. -/
def slice (src : List α) (off n : ℕ) : List α := (src.drop off).take n

theorem length_memcpy {dst src : List α} {off : ℕ} (h : off + src.length ≤ dst.length) :
    (memcpy dst off src).length = dst.length := by
  simp only [memcpy, List.length_append, List.length_take, List.length_drop]
  omega

theorem getElem?_memcpy {dst : List α} {off : ℕ} (src : List α) (h : off ≤ dst.length) (j : ℕ) :
    (memcpy dst off src)[j]? =
      if j < off then dst[j]? else if j < off + src.length then src[j - off]? else dst[j]? := by
  have hlen : (dst.take off).length = off := by rw [List.length_take]; omega
  unfold memcpy
  rw [List.append_assoc]
  split_ifs with h1 h2
  · rw [List.getElem?_append_left (by omega), List.getElem?_take_of_lt h1]
  · rw [List.getElem?_append_right (by omega), hlen, List.getElem?_append_left (by omega)]
  · rw [List.getElem?_append_right (by omega), hlen, List.getElem?_append_right (by omega),
      List.getElem?_drop]
    congr 1
    omega

theorem length_slice {src : List α} {off n : ℕ} (h : off + n ≤ src.length) :
    (slice src off n).length = n := by
  simp only [slice, List.length_take, List.length_drop]
  omega

theorem length_slice_le (src : List α) (off n : ℕ) :
    (slice src off n).length ≤ n ∧ (slice src off n).length ≤ src.length - off := by
  simp only [slice, List.length_take, List.length_drop]
  omega

theorem getElem?_slice (src : List α) (off n i : ℕ) :
    (slice src off n)[i]? = if i < n then src[off + i]? else none := by
  unfold slice
  split_ifs with h
  · rw [List.getElem?_take_of_lt h, List.getElem?_drop]
  · rw [List.getElem?_take_eq_none (by omega)]

theorem slice_add (src : List α) (off m n : ℕ) :
    slice src off (m + n) = slice src off m ++ slice src (off + m) n := by
  rw [slice, slice, slice, List.take_add, List.drop_drop]

theorem slice_succ_eq_cons {src cs : List α} {off n : ℕ} {c : α}
    (h : slice src off (n + 1) = c :: cs) : src[off]? = some c ∧ slice src (off + 1) n = cs := by
  have hcell (i : ℕ) (hi : i < n + 1) : src[off + i]? = (c :: cs)[i]? := by
    rw [← h, getElem?_slice, if_pos hi]
  have hlen : (c :: cs).length ≤ n + 1 := h ▸ (length_slice_le src off (n + 1)).1
  refine ⟨hcell 0 (by omega), ?_⟩
  apply List.ext_getElem?
  intro i
  rw [getElem?_slice]
  split_ifs with hi
  · rw [Nat.add_right_comm, Nat.add_assoc, hcell (i + 1) (by omega), List.getElem?_cons_succ]
  · rw [List.length_cons] at hlen
    rw [List.getElem?_eq_none (by omega)]

theorem slice_eq_append {src xs ys : List α} {off : ℕ}
    (h : slice src off (xs.length + ys.length) = xs ++ ys) :
    slice src off xs.length = xs ∧ slice src (off + xs.length) ys.length = ys := by
  have hlen : (slice src off xs.length).length = xs.length := by
    have hwhole : (slice src off (xs.length + ys.length)).length = xs.length + ys.length := by
      rw [h, List.length_append]
    simp only [slice, List.length_take, List.length_drop] at hwhole ⊢
    omega
  rw [slice_add] at h
  exact List.append_inj h hlen

theorem slice_append_left {xs ys : List α} {off n : ℕ} (h : off + n ≤ xs.length) :
    slice (xs ++ ys) off n = slice xs off n := by
  apply List.ext_getElem?
  intro i
  rw [getElem?_slice, getElem?_slice]
  split_ifs with hi
  · rw [List.getElem?_append_left (by omega)]
  · rfl

theorem slice_memcpy_before {src : List α} {off a n : ℕ} (dst : List α) (hoff : off ≤ dst.length)
    (h : a + n ≤ off) : slice (memcpy dst off src) a n = slice dst a n := by
  apply List.ext_getElem?
  intro i
  rw [getElem?_slice, getElem?_slice]
  split_ifs with hi
  · rw [getElem?_memcpy src hoff, if_pos (by omega)]
  · rfl

theorem slice_memcpy_drop {buf : List α} {k a n : ℕ} (h : k + a + n ≤ buf.length) :
    slice (memcpy buf 0 (buf.drop k)) a n = slice buf (k + a) n := by
  apply List.ext_getElem?
  intro i
  rw [getElem?_slice, getElem?_slice]
  split_ifs with hi
  · rw [getElem?_memcpy _ (Nat.zero_le _), if_neg (by omega),
      if_pos (by rw [List.length_drop]; omega), List.getElem?_drop]
    congr 1
    omega
  · rfl

theorem take_memcpy {dst : List α} {off : ℕ} (src : List α) (h : off ≤ dst.length) :
    (memcpy dst off src).take (off + src.length) = dst.take off ++ src := by
  have hlen : (dst.take off ++ src).length = off + src.length := by
    rw [List.length_append, List.length_take, min_eq_left h]
  rw [memcpy, ← hlen, List.take_left]

theorem drop_memcpy {dst : List α} {off : ℕ} (src : List α) (h : off ≤ dst.length) :
    (memcpy dst off src).drop (off + src.length) = dst.drop (off + src.length) := by
  have hlen : (dst.take off ++ src).length = off + src.length := by
    rw [List.length_append, List.length_take, min_eq_left h]
  rw [memcpy, ← hlen, List.drop_left]

/-- What was just copied in is what is read back. -/
theorem slice_memcpy (dst : List α) (off : ℕ) (src : List α) (h : off + src.length ≤ dst.length) :
    slice (memcpy dst off src) off src.length = src := by
  apply List.ext_getElem?
  intro i
  rw [getElem?_slice, getElem?_memcpy src (by omega)]
  split_ifs with h1 h2 h3
  · omega
  · congr 1; omega
  · omega
  · rw [List.getElem?_eq_none (by omega)]

theorem slice_memcpy_window {src : List α} {off : ℕ} (dst : List α) (a n : ℕ) (hn : a + n ≤ dst.length)
    (h : off + src.length ≤ n) :
    slice (memcpy dst (a + off) src) a n = memcpy (slice dst a n) off src := by
  apply List.ext_getElem?
  intro i
  rw [getElem?_slice, getElem?_memcpy src (by omega),
    getElem?_memcpy src (by rw [length_slice hn]; omega), getElem?_slice]
  split_ifs <;> first | rfl | omega | (congr 1; omega)

theorem memcpy_memcpy {dst : List α} {off : ℕ} (xs ys : List α) (h : off ≤ dst.length) :
    memcpy (memcpy dst off xs) (off + xs.length) ys = memcpy dst off (xs ++ ys) := by
  have hfront : (dst.take off ++ xs).length = off + xs.length := by
    rw [List.length_append, List.length_take]; omega
  simp only [memcpy]
  rw [List.take_append_of_le_length (by omega), List.take_of_length_le (by omega),
    List.drop_append, List.drop_eq_nil_of_le (by omega), List.nil_append, hfront, List.drop_drop,
    List.length_append]
  simp only [List.append_assoc]
  congr 4
  omega

/-! ## Ring copies -/

/-- The cells from `pos` on, modulo the length of the block, read `xs`. -/
def RingReads (data : List α) (pos : ℕ) (xs : List α) : Prop :=
  ∀ i < xs.length, data[(pos + i) % data.length]? = xs[i]?

/-- Copy `xs` to cell `c` and the following ones; what does not fit goes to the start. -/
def ringWrite (data : List α) (c : ℕ) (xs : List α) : List α :=
  if c + xs.length ≤ data.length then memcpy data c xs
  else memcpy (memcpy data c (xs.take (data.length - c))) 0 (xs.drop (data.length - c))

/-- The `n` cells from cell `c` on; what lies past the end is taken from the start. -/
def ringRead (data : List α) (c n : ℕ) : List α :=
  if c + n ≤ data.length then slice data c n
  else slice data c (data.length - c) ++ slice data 0 (n - (data.length - c))

theorem length_ringWrite {data xs : List α} {c : ℕ} (hc : c < data.length)
    (hx : xs.length ≤ data.length) : (ringWrite data c xs).length = data.length := by
  unfold ringWrite
  split_ifs with h
  · exact length_memcpy h
  · have h1 : (memcpy data c (xs.take (data.length - c))).length = data.length := by
      apply length_memcpy
      rw [List.length_take]; omega
    rw [length_memcpy, h1]
    rw [h1, List.length_drop]; omega

theorem getElem?_ringWrite {data xs : List α} {c : ℕ} (hc : c < data.length)
    (hx : xs.length ≤ data.length) {i : ℕ} (hi : i < data.length) :
    (ringWrite data c xs)[(c + i) % data.length]? =
      if i < xs.length then xs[i]? else data[(c + i) % data.length]? := by
  rw [Mirror.mod_of_lt_two_mul (by omega : c + i < 2 * data.length)]
  unfold ringWrite
  split_ifs with h h1 h2 h2 h1 h2 h2
  · rw [getElem?_memcpy xs hc.le, if_neg (by omega), if_pos (by omega)]
    congr 1; omega
  · rw [getElem?_memcpy xs hc.le, if_neg (by omega), if_neg (by omega)]
  · omega
  · rw [getElem?_memcpy xs hc.le, if_pos (by omega)]
  · rw [getElem?_memcpy _ (by omega), if_neg (by omega), if_neg (by rw [List.length_drop]; omega),
      getElem?_memcpy _ hc.le, if_neg (by omega), if_pos (by rw [List.length_take]; omega),
      List.getElem?_take_of_lt (by omega)]
    congr 1; omega
  · omega
  · rw [getElem?_memcpy _ (by omega), if_neg (by omega), if_pos (by rw [List.length_drop]; omega),
      List.getElem?_drop]
    congr 1; omega
  · rw [getElem?_memcpy _ (by omega), if_neg (by omega), if_neg (by rw [List.length_drop]; omega),
      getElem?_memcpy _ hc.le, if_pos (by omega)]

theorem ringReads_ringWrite {data xs : List α} {c : ℕ} (hc : c < data.length)
    (hx : xs.length ≤ data.length) : RingReads (ringWrite data c xs) c xs := by
  intro i hi
  rw [length_ringWrite hc hx, getElem?_ringWrite hc hx (by omega), if_pos hi]

/-- Frame: what lies before the cells written, within one turn of the ring, is not touched. -/
theorem RingReads.ringWrite {data xs ys : List α} {p c : ℕ} (gap : ℕ) (h : RingReads data p ys)
    (hc : c = (p + ys.length + gap) % data.length) (hn : 0 < data.length)
    (hx : ys.length + gap + xs.length ≤ data.length) : RingReads (ringWrite data c xs) p ys := by
  intro i hi
  have hcl : c < data.length := hc ▸ Nat.mod_lt _ hn
  rw [length_ringWrite hcl (by omega), ← h i hi]
  -- seen from `c`, the cell at offset `i` from `p` is reached by going once around the ring
  have hcell : (p + i) % data.length = (c + (data.length - ys.length - gap + i)) % data.length := by
    rw [hc, Nat.mod_add_mod]
    have e : p + ys.length + gap + (data.length - ys.length - gap + i) = p + i + data.length := by
      omega
    rw [e, Nat.add_mod_right]
  rw [hcell, getElem?_ringWrite hcl (by omega) (by omega), if_neg (by omega)]

theorem RingReads.append {data xs ys : List α} {p : ℕ} (hx : RingReads data p xs)
    (hy : RingReads data (p + xs.length) ys) : RingReads data p (xs ++ ys) := by
  intro i hi
  rw [List.length_append] at hi
  by_cases h : i < xs.length
  · rw [hx i h, List.getElem?_append_left h]
  · have := hy (i - xs.length) (by omega)
    rw [List.getElem?_append_right (by omega), ← this]
    congr 2; omega

theorem RingReads.drop {data xs : List α} {p : ℕ} (h : RingReads data p xs) (k : ℕ) :
    RingReads data (p + k) (xs.drop k) := by
  intro i hi
  rw [List.length_drop] at hi
  rw [List.getElem?_drop, Nat.add_assoc]
  exact h (k + i) (by omega)

theorem RingReads.take {data xs : List α} {p : ℕ} (h : RingReads data p xs) (k : ℕ) :
    RingReads data p (xs.take k) := by
  intro i hi
  rw [List.length_take] at hi
  rw [List.getElem?_take_of_lt (by omega)]
  exact h i (by omega)

theorem ringReads_mod {data xs : List α} {p q : ℕ} (hpq : p % data.length = q % data.length) :
    RingReads data p xs ↔ RingReads data q xs := by
  have hcell : ∀ i, (p + i) % data.length = (q + i) % data.length := fun i =>
    Nat.ModEq.add_right i hpq
  simp only [RingReads, hcell]

/-- A two-segment read returns the front of what the cells hold. -/
theorem RingReads.ringRead {data xs : List α} {p c m : ℕ} (h : RingReads data p xs)
    (hc : c = p % data.length) (hm : m ≤ xs.length) (hx : xs.length ≤ data.length) :
    ringRead data c m = xs.take m := by
  apply List.ext_getElem?
  intro i
  by_cases hi : i < m
  · have hcl : c < data.length := hc ▸ Nat.mod_lt _ (by omega)
    have hcell := h i (by omega)
    rw [← Nat.mod_add_mod, ← hc, Mirror.mod_of_lt_two_mul (by omega)] at hcell
    rw [List.getElem?_take_of_lt hi, ← hcell]
    unfold Memory.ringRead
    split_ifs with h1 h2 h2
    · rw [getElem?_slice, if_pos hi]
    · omega
    · rw [List.getElem?_append_left (by rw [length_slice (by omega)]; omega), getElem?_slice,
        if_pos (by omega)]
    · rw [List.getElem?_append_right (by rw [length_slice (by omega)]; omega),
        length_slice (by omega), getElem?_slice, if_pos (by omega)]
      congr 1; omega
  · rw [List.getElem?_take_eq_none (by omega)]
    apply List.getElem?_eq_none
    unfold Memory.ringRead
    split_ifs with h1
    · have := length_slice_le data c m
      omega
    · have h2 := length_slice_le data c (data.length - c)
      have h3 := length_slice_le data 0 (m - (data.length - c))
      rw [List.length_append]
      omega

end GlipOsd.Memory
