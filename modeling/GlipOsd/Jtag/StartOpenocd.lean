import GlipOsd.Foundations.Matcher
import GlipOsd.Foundations.Runs
import GlipOsd.Jtag.DrscanWrite

/-! # The start of OpenOCD

The loop of `start_openocd` that looks for `tap/device found` in the output of OpenOCD. Each round waits with
`pselect` and then reads what is there, byte by byte. A `char` is signed, so that a byte `0xff` is taken for
`EOF`: it ends the round and is not compared.
-/

namespace GlipOsd.Jtag.StartOpenocd
open Matcher Runs
set_option autoImplicit false

/-- `OPENOCD_STARTUP_TIMEOUT` -/
def openocdStartupTimeout : ℤ := 10000

def searchString : List UInt8 := ascii "tap/device found"

/-- The variables of the loop, whether it was left, the bytes that were read and those that OpenOCD has still to
write. -/
structure Scan where
  searchStringFound : Bool
  f : ℕ
  left : Bool
  read : List UInt8
  output : List UInt8
  deriving DecidableEq

def start (output : List UInt8) : Scan := ⟨false, 0, false, [], output⟩

/-- What happens in a round: the time spent, the result of `pselect`, and the number of bytes that `read` has. -/
structure Round where
  tspent : ℤ
  nfds : ℤ
  available : ℕ

/-- The loop over the bytes that are there: `search_string_found`, `f`, and how many bytes were read. -/
def readChars (f : ℕ) : List UInt8 → Bool × ℕ × ℕ
  | [] => (false, f, 0)
  | c :: cs =>
    if c = 0xff then (false, f, 1)
    else if searchString[f]? = some c then
      if f + 1 = searchString.length then (true, f + 1, 1)
      else
        let (found, f, n) := readChars (f + 1) cs
        (found, f, n + 1)
    else
      -- only a partial match: start from the beginning
      let (found, f, n) := readChars 0 cs
      (found, f, n + 1)

def round (s : Scan) (r : Round) : Option Scan :=
  if s.left then none
  else if r.tspent ≥ openocdStartupTimeout then some { s with left := true }
  else if r.nfds = 0 then some { s with left := true }
  else if r.nfds < 0 then some { s with left := true }
  else
    let (found, f, n) := readChars s.f (s.output.take r.available)
    some
      { searchStringFound := found
        f := f
        left := found
        read := s.read ++ s.output.take n
        output := s.output.drop n }

/-- The string was found if and only if it has been read. -/
def Right (s : Scan) : Prop := s.searchStringFound = true ↔ searchString <:+: s.read

instance (s : Scan) : Decidable (Right s) := inferInstanceAs (Decidable (_ ↔ _))

/-- The bytes that are compared. -/
def compared (bytes : List UInt8) : List UInt8 := bytes.filter (· ≠ 0xff)

/-- The string, behind an even number of fronts of it that follow one another directly. -/
def Noticeable (bytes : List UInt8) : Prop :=
  ∃ pre post, compared bytes = pre ++ searchString ++ post ∧ EvenFronts searchString pre

/-! ## The index -/

/-- The index is the one of the bytes compared. -/
structure Follows (s : Scan) : Prop where
  index : s.f = progress searchString (compared s.read)
  found : s.searchStringFound = true ↔ s.f = searchString.length
  left : s.searchStringFound = true → s.left = true

theorem follows_start (output : List UInt8) : Follows (start output) where
  index := rfl
  found := iff_of_false Bool.false_ne_true (by decide : 0 ≠ searchString.length)
  left h := by cases h

theorem readChars_spec {f : ℕ} (hf : f < searchString.length) (cs : List UInt8) :
    (readChars f cs).2.1 = (compared (cs.take (readChars f cs).2.2)).foldl (advance searchString) f ∧
      ((readChars f cs).1 = true ↔ (readChars f cs).2.1 = searchString.length) ∧
      (readChars f cs).2.2 ≤ cs.length := by
  induction cs generalizing f with
  | nil => exact ⟨rfl, iff_of_false Bool.false_ne_true hf.ne, le_rfl⟩
  | cons c cs ih =>
    rw [readChars]
    by_cases heof : c = 0xff
    · rw [if_pos heof, heof]
      exact ⟨rfl, iff_of_false Bool.false_ne_true hf.ne, Nat.succ_le_succ (Nat.zero_le _)⟩
    · have hfold (n g : ℕ) : (compared ((c :: cs).take (n + 1))).foldl (advance searchString) g =
          (compared (cs.take n)).foldl (advance searchString) (advance searchString g c) := by
        rw [List.take_succ_cons, compared, List.filter_cons_of_pos (by simpa using heof), List.foldl_cons]
        rfl
      rw [if_neg heof]
      by_cases hc : searchString[f]? = some c
      · have hnext : advance searchString f c = f + 1 := advance_match hc
        rw [if_pos hc]
        by_cases hall : f + 1 = searchString.length
        · rw [if_pos hall]
          refine ⟨?_, iff_of_true rfl hall, Nat.succ_le_succ (Nat.zero_le _)⟩
          rw [hfold 0, hnext]
          rfl
        · rw [if_neg hall]
          obtain ⟨hindex, hfound, hle⟩ := ih (lt_of_le_of_ne hf hall)
          exact ⟨by rw [hfold, hnext]; exact hindex, hfound, Nat.succ_le_succ hle⟩
      · have hnext : advance searchString f c = 0 := advance_mismatch hf.ne hc
        rw [if_neg hc]
        obtain ⟨hindex, hfound, hle⟩ := ih (by decide : 0 < searchString.length)
        exact ⟨by rw [hfold, hnext]; exact hindex, hfound, Nat.succ_le_succ hle⟩

theorem Follows.round {s s' : Scan} {r : Round} (h : Follows s) (hround : round s r = some s') : Follows s' := by
  unfold StartOpenocd.round at hround
  split_ifs at hround with hleft htime hzero hneg
  · obtain rfl := Option.some.inj hround
    exact ⟨h.index, h.found, fun _ => rfl⟩
  · obtain rfl := Option.some.inj hround
    exact ⟨h.index, h.found, fun _ => rfl⟩
  · obtain rfl := Option.some.inj hround
    exact ⟨h.index, h.found, fun _ => rfl⟩
  · obtain rfl := Option.some.inj hround
    have hnot : s.f ≠ searchString.length := fun heq => hleft (h.left (h.found.mpr heq))
    have hlt : s.f < searchString.length := lt_of_le_of_ne (h.index ▸ progress_le _) hnot
    obtain ⟨hindex, hfound, hle⟩ := readChars_spec hlt (s.output.take r.available)
    have htake : (s.output.take r.available).take (readChars s.f (s.output.take r.available)).2.2 =
        s.output.take (readChars s.f (s.output.take r.available)).2.2 := by
      rw [List.take_take, Nat.min_eq_left]
      rw [List.length_take] at hle
      omega
    refine ⟨?_, hfound, fun hf => hf⟩
    rw [htake] at hindex
    show (readChars s.f (s.output.take r.available)).2.1 = _
    rw [hindex, h.index, compared, compared, compared, List.filter_append, progress, progress, List.foldl_append]

theorem Follows.found_iff {s : Scan} (h : Follows s) : s.searchStringFound = true ↔ Noticeable s.read := by
  rw [h.found, h.index]
  exact Matcher.found_iff (by decide) (compared s.read)

/-- **Start-up detection.** For every output of OpenOCD and all rounds: that the string was found means that it was
read if and only if it is noticeable exactly when it was read. -/
theorem right_iff {output : List UInt8} {rounds : List Round} {s : Scan}
    (hrun : runFrom round (start output) rounds = some s) :
    Right s ↔ (Noticeable s.read ↔ searchString <:+: s.read) := by
  have hstable : Stable round Follows := fun _ _ _ h hround => h.round hround
  rw [Right, (hstable.run (follows_start output) hrun).found_iff]

theorem marker_right : ∃ s, runFrom round (start searchString) [⟨0, 1, 16⟩] = some s ∧ Right s := by
  refine ⟨⟨true, 16, true, searchString, []⟩, by decide, ?_⟩
  have hrun : runFrom round (start searchString) [⟨0, 1, 16⟩] = some ⟨true, 16, true, searchString, []⟩ := by decide
  refine (right_iff hrun).mpr (iff_of_true ⟨[], [], by decide, [], [], rfl, ?_, ?_, Even.zero⟩ (List.infix_refl _))
  · exact fun b hb => absurd hb List.not_mem_nil
  · exact fun b hb hsuffix => hb.1 (List.suffix_nil.mp hsuffix)

/-- Behind another `t` the string is not found. -/
theorem t_before_marker_not_right : ∃ s, runFrom round (start (ascii "t" ++ searchString)) [⟨0, 1, 17⟩] = some s ∧
    ¬ Right s := by
  refine ⟨⟨false, 0, false, ascii "t" ++ searchString, []⟩, by decide, fun h => ?_⟩
  have hfound : false = true := h.mpr ⟨ascii "t", [], by rw [List.append_nil]⟩
  cases hfound

end GlipOsd.Jtag.StartOpenocd
