import GlipOsd.Jtag.Chunking

/-! # Chunking that goes wrong

After an `EAGAIN`, or a chunk without a separator behind a separator, the cursors are stale for the
rest of the run. `f` is the start of the field in progress as an integer; `field_start` holds it
modulo `2 ^ 32`. Either `f` is negative, and the next separator reads outside of the buffer or fails
an assertion, or a character was lost, and the last byte of the output is never written.
-/

namespace GlipOsd.Jtag.DrscanRead
open Memory
set_option autoImplicit false

/-! ## Partial correctness of the control flow -/

/-- What holds if the loop goes on, and what holds of the output if the function returns. -/
def Outcome.Post (o : Outcome) (More : Locals → Prop) (Returned : List UInt8 → Prop) : Prop :=
  (∀ s, o = .more s → More s) ∧ ∀ rv resp, o = .returned rv resp → Returned resp

theorem Outcome.post_undefined {More : Locals → Prop} {Returned : List UInt8 → Prop} :
    Outcome.undefined.Post More Returned := by
  constructor
  · rintro s ⟨⟩
  · rintro rv resp ⟨⟩

theorem Outcome.post_excess {More : Locals → Prop} {Returned : List UInt8 → Prop} :
    Outcome.excess.Post More Returned := by
  constructor
  · rintro s ⟨⟩
  · rintro rv resp ⟨⟩

theorem Outcome.post_more {More : Locals → Prop} {Returned : List UInt8 → Prop} {s : Locals}
    (h : More s) : (Outcome.more s).Post More Returned := by
  constructor
  · rintro t ⟨⟩
    exact h
  · rintro rv resp ⟨⟩

theorem Outcome.post_returned {More : Locals → Prop} {Returned : List UInt8 → Prop} {rv : ℤ}
    {resp : List UInt8} (h : Returned resp) : (Outcome.returned rv resp).Post More Returned := by
  constructor
  · rintro t ⟨⟩
  · rintro rv' resp' ⟨⟩
    exact h

theorem Outcome.Post.andThen {o : Outcome} {f : Locals → Outcome} {P Q : Locals → Prop}
    {Returned : List UInt8 → Prop} (h : o.Post P Returned) (hf : ∀ s, P s → (f s).Post Q Returned) :
    (o.andThen f).Post Q Returned := by
  cases o with
  | more s => exact hf s (h.1 s rfl)
  | returned rv resp => exact Outcome.post_returned (h.2 rv resp rfl)
  | undefined => exact Outcome.post_undefined
  | excess => exact Outcome.post_excess

/-! ## Fields that are read from a wrong place -/

theorem hexPairs_eq_some {buf bytes : List UInt8} {start m : ℕ}
    (h : hexPairs buf start m = some bytes) :
    bytes.length = m ∧ (0 < m → start < buf.length) := by
  induction m generalizing bytes with
  | zero =>
    rw [hexPairs, Option.some.injEq] at h
    rw [← h]
    exact ⟨rfl, fun hpos => absurd hpos (Nat.lt_irrefl 0)⟩
  | succ m ih =>
    rw [hexPairs] at h
    split at h
    · next fst snd hfst hsnd =>
      obtain ⟨tail, htail, rfl⟩ := Option.map_eq_some_iff.mp h
      obtain ⟨hlt, -⟩ := List.getElem?_eq_some_iff.mp hfst
      exact ⟨by rw [List.length_cons, (ih htail).1], fun _ => by omega⟩
    · cases h

theorem hexstringToBinarrayLe_eq_some {buf bytes : List UInt8} {start n : ℕ} (hn : n < 2 ^ 31)
    (h : hexstringToBinarrayLe buf start n = some bytes) :
    n = 2 * bytes.length ∧ (0 < n → start < buf.length) := by
  unfold hexstringToBinarrayLe at h
  split_ifs at h with hodd
  obtain ⟨m, rfl⟩ : ∃ m, n = 2 * m := ⟨n / 2, by omega⟩
  obtain rfl | hpos := Nat.eq_zero_or_pos m
  · have hbytes := (hexPairs_eq_some (m := 0) h).1
    omega
  · have hback : (2 * m + (2 ^ 64 - 2)) % 2 ^ 64 = 2 * m - 2 := by omega
    have hcount : (((2 * m - 2 : ℕ) : ℤ) / 2 + 1).toNat = m := by omega
    rw [hback, Util.toInt_of_lt (by omega)] at h
    simp only at h
    rw [if_neg (by omega), hcount] at h
    obtain ⟨hlen, hstart⟩ := hexPairs_eq_some h
    exact ⟨by rw [hlen], fun _ => hstart hpos⟩

theorem copyField_of_start {size p : ℕ} {s s' : Locals} {f : ℤ} (hf : s.fieldStart = Util.toUint f)
    (hge : -1 ≤ p - f) (hlt : p - f < 2 ^ 30) (hp : p < 2 ^ 31)
    (h : copyField size s p = some s') :
    ∃ bytes : List UInt8, p - f = 2 * bytes.length ∧ (0 < p - f → s.fieldStart < s.buf.length) ∧
      s' = { s with
        resp := memcpy s.resp s.respPos bytes
        respPos := Util.toUint (s.respPos + bytes.length)
        fieldStart := p + 1
        fieldEnd := p } := by
  obtain ⟨bytes, -, hbytes, rfl⟩ := copyField_eq_some h
  have hchars := fieldSizeChars_eq hf (by omega : (-2 ^ 31 : ℤ) ≤ p - f) (by omega)
  rw [hchars] at hbytes ⊢
  -- a negative size is odd, and the assertion fails
  have hsize : Util.toSize (p - f) = (p - f).toNat := by
    by_cases hneg : p - f = -1
    · rw [hneg] at hbytes
      have hodd : hexstringToBinarrayLe s.buf s.fieldStart (Util.toSize (-1)) = none := if_pos (by decide)
      rw [hodd] at hbytes
      cases hbytes
    · unfold Util.toSize
      omega
  rw [hsize] at hbytes
  obtain ⟨hlen, hstart⟩ := hexstringToBinarrayLe_eq_some (by omega) hbytes
  have hfield : (p : ℤ) - f = 2 * bytes.length := by
    by_cases hneg : p - f = -1
    · rw [hneg] at hsize
      exact absurd hsize (by decide)
    · omega
  have hnext : Util.toUint (p + 1) = p + 1 := by
    rw [← Nat.cast_succ, Util.toUint_natCast (by omega)]
  have hhalf : (2 * (bytes.length : ℤ)).tdiv 2 = bytes.length :=
    Int.mul_tdiv_cancel_left _ (by decide)
  exact ⟨bytes, hfield, fun hpos => hstart (by omega), by rw [hfield, hhalf, hnext]⟩

/-! ## The scan with stale cursors -/

/-- The field in progress starts before the buffer, or so much was lost that the last byte of an
output of `size` bytes is not reached; its value is `last`. -/
def Spoiled (size : ℕ) (last : Option UInt8) (s : Locals) (p f : ℤ) (cs : List UInt8) : Prop :=
  f < 0 ∨ (s.resp.length = size ∧ s.resp[size - 1]? = last ∧
    2 * s.respPos + (p - f) + digitCount cs < 2 * size)

theorem Spoiled.shift {size : ℕ} {last : Option UInt8} {s : Locals} {p f : ℤ} {cs : List UInt8}
    (h : Spoiled size last s p f cs) (k : ℕ) : Spoiled size last s (p - k) (f - k) cs := by
  obtain hneg | ⟨hlen, hlast, hcount⟩ := h
  · exact Or.inl (by omega)
  · exact Or.inr ⟨hlen, hlast, by omega⟩

/-- In the loop over the characters, at position `p`, with stale cursors; `cs` is left of the chunk and
`rest` of the text. -/
structure Adrift (N size : ℕ) (last : Option UInt8) (s : Locals) (p : ℕ) (f : ℤ)
    (cs rest : List UInt8) : Prop where
  start : s.fieldStart = Util.toUint f
  low : -1 ≤ p - f
  left : p - f + (cs.length + rest.length) ≤ N
  fieldEnd : f ≤ s.fieldEnd + 1
  room : p + cs.length ≤ s.buf.length
  block : bufInitialSize ≤ s.buf.length ∧ s.buf.length ≤ N + 2 ^ 17
  spoiled : Spoiled size last s p f (cs ++ rest)

variable {N size : ℕ} {last : Option UInt8} {rest : List UInt8}

theorem digitCount_cons (c : UInt8) (cs : List UInt8) :
    digitCount (c :: cs) = digitCount cs + if isSeparator c then 0 else 1 := by
  rw [digitCount, List.countP_cons]
  cases isSeparator c <;> rfl

theorem Adrift.extractField {s : Locals} {p : ℕ} {f : ℤ} {c : UInt8} {cs : List UInt8}
    (h : Adrift N size last s p f (c :: cs) rest) (hN : N < 2 ^ 30) (hsize : size < 2 ^ 30) :
    (extractField size s p c).Post
      (fun s' => s'.buf = s.buf ∧ s'.bufPos = s.bufPos ∧ ∃ f', Adrift N size last s' (p + 1) f' cs rest)
      fun resp => resp[size - 1]? = last := by
  have hlow := h.low
  have hleft := h.left
  have hroom := h.room
  have hend := h.fieldEnd
  have hblock := h.block
  rw [List.length_cons] at hleft hroom
  have hspoiled := h.spoiled
  rw [Spoiled, List.cons_append, digitCount_cons] at hspoiled
  by_cases hsep : isSeparator c
  · rw [extractField_of_separator hsep]
    rw [if_pos hsep, Nat.add_zero] at hspoiled
    cases hcopy : copyField size s p with
    | none => exact Outcome.post_undefined
    | some t =>
      rw [Option.elim_some]
      obtain ⟨bytes, hfield, hstart, rfl⟩ :=
        copyField_of_start h.start hlow (by omega) (by omega) hcopy
      obtain hneg | ⟨hlen, hlast, hcount⟩ := hspoiled
      · -- the field starts before the buffer, which is read at `2 ^ 32 + f`
        have hread := hstart (by omega)
        have hwrapped := Util.cast_toUint f
        rw [← h.start] at hwrapped
        omega
      · have hout : Util.toUint (s.respPos + bytes.length) = s.respPos + bytes.length := by
          rw [← Nat.cast_add, Util.toUint_natCast (by omega)]
        have hkept : (memcpy s.resp s.respPos bytes)[size - 1]? = last := by
          rw [getElem?_memcpy _ (by omega), if_neg (by omega), if_neg (by omega)]
          exact hlast
        simp only [hout]
        split_ifs
        · exact Outcome.post_returned hkept
        · refine Outcome.post_more ⟨rfl, rfl, p + 1, ?_, by omega, by omega, ?_, ?_, hblock, ?_⟩
          · rw [← Nat.cast_succ, Util.toUint_natCast (by omega)]
          · simp only
            omega
          · simp only
            omega
          · right
            refine ⟨?_, hkept, ?_⟩
            · rw [length_memcpy (by omega)]
              exact hlen
            · push_cast
              omega
  · rw [extractField_of_not hsep]
    rw [if_neg hsep] at hspoiled
    refine Outcome.post_more ⟨rfl, rfl, f, h.start, by omega, by omega, hend, by omega, hblock, ?_⟩
    obtain hneg | ⟨hlen, hlast, hcount⟩ := hspoiled
    · exact Or.inl hneg
    · refine Or.inr ⟨hlen, hlast, ?_⟩
      push_cast at hcount ⊢
      omega

theorem Adrift.scan {s : Locals} {p : ℕ} {f : ℤ} {cs : List UInt8}
    (h : Adrift N size last s p f cs rest) (hN : N < 2 ^ 30) (hsize : size < 2 ^ 30) :
    (scan size s p cs).Post
      (fun s' => s'.buf = s.buf ∧ s'.bufPos = s.bufPos ∧
        ∃ f', Adrift N size last s' (p + cs.length) f' [] rest)
      fun resp => resp[size - 1]? = last := by
  induction cs generalizing s p f with
  | nil => exact Outcome.post_more ⟨rfl, rfl, f, h⟩
  | cons c cs ih =>
    refine (h.extractField hN hsize).andThen ?_
    rintro s' ⟨hbuf, hpos, f', hs'⟩
    have hrest := ih hs'
    rwa [hbuf, hpos, Nat.add_assoc, Nat.add_comm 1] at hrest

/-! ## Stale cursors between two reads -/

/-- Before a `read`: `buf_pos` wrapped, or points into the buffer. -/
def Stale (N size : ℕ) (last : Option UInt8) (s : Locals) (rest : List UInt8) : Prop :=
  (bufInitialSize ≤ s.buf.length ∧ s.buf.length ≤ N + 2 ^ 17) ∧
    (2 ^ 31 ≤ s.bufPos ∨ ∃ f, f ≤ 1 ∧ Adrift N size last s s.bufPos f [] rest)

/-- The compaction after a `read` that returned `n`, with the cursors at `q` and `f`. -/
theorem compact_stale {t : Locals} {n q f : ℤ} (hq : t.bufPos + n = q) (hlow : -1 ≤ q)
    (hroom : q ≤ t.buf.length) (hstart : t.fieldStart = Util.toUint f) (hend : f ≤ t.fieldEnd + 1)
    (hleft : q - f + rest.length ≤ N)
    (hblock : bufInitialSize ≤ t.buf.length ∧ t.buf.length ≤ N + 2 ^ 17)
    (hspoiled : Spoiled size last t (q - t.fieldEnd) (f - t.fieldEnd) rest) (hN : N < 2 ^ 30)
    {Returned : List UInt8 → Prop} :
    (compact t n).Post (Stale N size last · rest) Returned := by
  unfold compact
  split_ifs with hF
  · exact Outcome.post_undefined
  · have hlen : (memcpy t.buf 0 (t.buf.drop t.fieldEnd)).length = t.buf.length := by
      rw [length_memcpy (by rw [List.length_drop]; omega)]
    refine Outcome.post_more ⟨by simp only [hlen]; exact hblock, ?_⟩
    have hwrap := Util.cast_toUint (q - t.fieldEnd)
    simp only [hq]
    by_cases hneg : q - t.fieldEnd < 0
    · left
      omega
    · right
      refine ⟨f - t.fieldEnd, by omega, ?_, ?_, ?_, ?_, ?_, ?_, ?_⟩
      · simp only
        rw [hstart, Util.toUint_toUint_sub]
      · omega
      · simp only [List.length_nil]
        omega
      · simp only
        omega
      · simp only [List.length_nil, hlen]
        omega
      · simp only [hlen]
        exact hblock
      · obtain hf | ⟨hresp, hlast, hcount⟩ := hspoiled
        · exact Or.inl hf
        · refine Or.inr ⟨hresp, hlast, ?_⟩
          simp only [List.nil_append]
          omega

theorem Stale.read {s : Locals} {x : ReadResult} (h : Stale N size last s (x.chars ++ rest))
    (hx : x = .eagain ∨ ∃ c, c ≠ [] ∧ x = .data c) (hN : N < 2 ^ 30) (hsize : size < 2 ^ 30)
    (fresh : ℕ → UInt8) :
    (readStep fresh size s x).Post (Stale N size last · rest) fun resp => resp[size - 1]? = last := by
  obtain ⟨hblock, hs⟩ := h
  have hpositive : 0 < s.buf.length := by
    simp only [bufInitialSize] at hblock
    omega
  obtain ⟨hge, hlt, hle⟩ := grow_length fresh hpositive
  obtain ⟨added, hgrow⟩ := grow_frame fresh s
  have hgrownPos : (grow fresh s).bufPos = s.bufPos := by rw [hgrow]
  obtain hwrapped | ⟨f, hf, hs⟩ := hs
  · -- the call of `read` is given an address behind the buffer
    have hstep : readStep fresh size s x = .undefined := by
      unfold readStep
      simp only [hgrownPos]
      rw [if_pos (by omega)]
    rw [hstep]
    exact Outcome.post_undefined
  · have hlow := hs.low
    have hleft := hs.left
    have hroom := hs.room
    have hend := hs.fieldEnd
    have hspoiled := hs.spoiled
    rw [List.length_nil] at hleft hroom
    rw [List.nil_append] at hspoiled
    have hin := hlt (by omega)
    have hgrown : bufInitialSize ≤ (grow fresh s).buf.length ∧
        (grow fresh s).buf.length ≤ N + 2 ^ 17 := by
      omega
    obtain rfl | ⟨c, hne, rfl⟩ := hx
    · have hstep : readStep fresh size s .eagain = compact (grow fresh s) (-1) := by
        unfold readStep
        simp only [hgrownPos]
        rw [if_neg (by omega)]
      have hnone : ReadResult.eagain.chars ++ rest = rest := rfl
      rw [hnone] at hleft hspoiled
      rw [hstep]
      rw [hgrow] at hgrown hge ⊢
      refine compact_stale (t := { s with buf := s.buf ++ added }) (q := s.bufPos - 1) (f := f) rfl
        (by omega) ?_ hs.start hend (by omega) hgrown ?_ hN
      · simp only at hge ⊢
        omega
      · obtain hneg | ⟨hlen, hlast, hcount⟩ := hspoiled
        · exact Or.inl (by simp only; omega)
        · exact Or.inr ⟨hlen, hlast, by simp only; omega⟩
    · by_cases hexcess : c.length > (grow fresh s).buf.length - s.bufPos
      · have hstep : readStep fresh size s (.data c) = .excess := by
          unfold readStep
          simp only [hgrownPos]
          rw [if_neg (by omega), if_pos hexcess]
        rw [hstep]
        exact Outcome.post_excess
      · have hcopy : (memcpy (grow fresh s).buf s.bufPos c).length = (grow fresh s).buf.length :=
          length_memcpy (by omega)
        have hscan : Adrift N size last { s with buf := memcpy (grow fresh s).buf s.bufPos c }
            s.bufPos f c rest := by
          rw [ReadResult.chars, List.length_append] at hleft
          exact ⟨hs.start, hlow, by omega, hend, by simp only; omega, by simp only; omega, hspoiled⟩
        rw [readStep_data fresh _ hin (by omega) hne (by omega)]
        refine (hscan.scan hN hsize).andThen ?_
        rintro t ⟨htbuf, htpos, f', ht⟩
        simp only at htbuf htpos
        have htlow := ht.low
        have htleft := ht.left
        have htroom := ht.room
        have htspoiled := ht.spoiled.shift t.fieldEnd
        rw [List.nil_append] at htspoiled
        rw [List.length_nil] at htleft htroom
        refine compact_stale (q := (s.bufPos + c.length : ℕ)) (f := f') ?_ ?_ ?_ ht.start ht.fieldEnd
          ?_ ht.block htspoiled hN
        · rw [htpos, Nat.cast_add]
        · omega
        · omega
        · omega

theorem Stale.run {s : Locals} {reads : List ReadResult} (h : Stale N size last s rest)
    (hreads : Delivers reads rest) (hN : N < 2 ^ 30) (hsize : size < 2 ^ 30) (fresh : ℕ → UInt8) :
    (readLoop fresh size s reads).Post (fun _ => True) fun resp => resp[size - 1]? = last := by
  induction reads generalizing s rest with
  | nil => exact Outcome.post_more trivial
  | cons x reads ih =>
    obtain ⟨rest', rfl, hrest⟩ := hreads.tail
    rw [readLoop_cons]
    refine (h.read (hreads.ready x List.mem_cons_self) hN hsize fresh).andThen ?_
    intro s' hs'
    exact ih hs' hrest

/-! ## How the cursors become stale -/

variable {r : Response} {before part bytes : List UInt8}

/-- The last byte of the output is not written before the end. -/
theorem Scanning.last_kept {s : Locals} {p : ℕ} {cs : List UInt8}
    (h : Scanning r before s p cs rest part bytes) :
    s.resp[r.decoded.length - 1]? = before[r.decoded.length - 1]? := by
  have hpos := h.remains.bytes_pos
  have hrespPos := h.respPos
  have hindex : r.decoded.length - 1 = s.respPos + (r.decoded.length - 1 - s.respPos) := by omega
  rw [hindex, ← List.getElem?_drop, h.kept, List.getElem?_drop]

theorem Ready.eagain {seen : Bool} {s : Locals} (h : Ready r before seen s rest part bytes)
    (hr : r.text.length < 2 ^ 30) (fresh : ℕ → UInt8) (Returned : List UInt8 → Prop) :
    (readStep fresh r.decoded.length s .eagain).Post
      (Stale r.text.length r.decoded.length before[r.decoded.length - 1]? · rest) Returned := by
  have hs := h.scanning
  have hpos := hs.pos
  have hroom := hs.room
  have hleft := hs.left
  have hblock := hs.block
  have hrespPos := hs.respPos
  have hcount := hs.remains.digitCount
  have hlast := hs.last_kept
  rw [List.length_nil] at hroom hleft
  rw [List.nil_append] at hcount
  have hstart : s.fieldStart ≤ 1 ∧ s.fieldStart ≤ s.fieldEnd + 1 := by
    rcases h.cursors with ⟨-, h0, -⟩ | ⟨-, h1, -⟩ <;> omega
  have hpositive : 0 < s.buf.length := by
    simp only [bufInitialSize] at hblock
    omega
  obtain ⟨hge, hlt, hle⟩ := grow_length fresh hpositive
  obtain ⟨added, hgrow⟩ := grow_frame fresh s
  have hgrownPos : (grow fresh s).bufPos = s.bufPos := by rw [hgrow]
  have hin := hlt (by omega)
  have hgrown : bufInitialSize ≤ (grow fresh s).buf.length ∧
      (grow fresh s).buf.length ≤ r.text.length + 2 ^ 17 := by
    omega
  have hstep : readStep fresh r.decoded.length s .eagain = compact (grow fresh s) (-1) := by
    unfold readStep
    simp only [hgrownPos]
    rw [if_neg (by omega)]
  rw [hstep]
  have hcast : s.fieldStart = Util.toUint s.fieldStart := (Util.toUint_natCast (by omega)).symm
  rw [hgrow] at hgrown hge ⊢
  refine compact_stale (t := { s with buf := s.buf ++ added }) (q := s.bufPos - 1)
    (f := s.fieldStart) rfl (by omega) ?_ hcast ?_ (by omega) hgrown ?_ hr
  · simp only at hge ⊢
    omega
  · simp only
    omega
  · refine Or.inr ⟨hs.respLength, hlast, ?_⟩
    simp only
    omega

/-- A chunk without a separator, behind a separator, moves the start of the field before the buffer. -/
theorem Ready.no_separator {s : Locals} {c : List UInt8}
    (h : Ready r before true s (c ++ rest) part bytes) (hr : r.text.length < 2 ^ 30) (hne : c ≠ [])
    (hsep : c.any isSeparator = false) (fresh : ℕ → UInt8) (Returned : List UInt8 → Prop) :
    (readStep fresh r.decoded.length s (.data c)).Post
      (Stale r.text.length r.decoded.length before[r.decoded.length - 1]? · rest) Returned := by
  by_cases hfit : readStep fresh r.decoded.length s (.data c) = .excess
  · rw [hfit]
    exact Outcome.post_excess
  · obtain ⟨hmem, -⟩ | ⟨hmem, t, part', bytes', hstep, ht, hpos, hlen, hcur, -⟩ := h.read hr hne fresh hfit
    · have hany : c.any isSeparator = true := List.any_eq_true.mpr ⟨0x1a, hmem, by decide⟩
      rw [hsep] at hany
      cases hany
    · obtain ⟨hseen, -, -⟩ | ⟨-, hstart, hend⟩ := h.cursors
      · cases hseen
      · obtain ⟨-, htstart, htend⟩ | ⟨hany, -, -⟩ := hcur
        · have htpos := ht.pos
          have htroom := ht.room
          have htleft := ht.left
          rw [List.length_nil, Nat.add_zero] at htroom htleft
          have hcast : t.fieldStart = Util.toUint (1 : ℕ) := by
            rw [htstart, hstart, Util.toUint_natCast (by norm_num)]
          rw [hstep]
          refine compact_stale (q := (s.bufPos + c.length : ℕ)) (by rw [hpos, Nat.cast_add]) (by omega)
            (by omega) hcast (by omega) (by omega) ht.block (Or.inl ?_) hr
          omega
        · rw [hsep] at hany
          cases hany

/-- The first read that is not clean spoils the run. -/
theorem Ready.run_spoiled {seen : Bool} {s : Locals} {reads : List ReadResult}
    (h : Ready r before seen s rest part bytes) (hr : r.text.length < 2 ^ 30)
    (hreads : Delivers reads rest) (hclean : ¬ Clean seen reads) (fresh : ℕ → UInt8)
    (hfit : readLoop fresh r.decoded.length s reads ≠ .excess) :
    (readLoop fresh r.decoded.length s reads).Post (fun _ => True)
      fun resp => resp[r.decoded.length - 1]? = before[r.decoded.length - 1]? := by
  have hsize : r.decoded.length < 2 ^ 30 := by
    have hle := r.decoded_length_le
    omega
  induction reads generalizing seen s rest part bytes with
  | nil => exact absurd hreads.chars.symm h.scanning.remains.rest_ne_nil
  | cons x reads ih =>
    obtain ⟨rest', rfl, hrest⟩ := hreads.tail
    rw [readLoop_cons] at hfit ⊢
    obtain rfl | ⟨c, hne, rfl⟩ := hreads.ready x List.mem_cons_self
    · have hready : Ready r before seen s rest' part bytes := h
      exact (hready.eagain hr fresh _).andThen fun s' hs' => hs'.run hrest hr hsize fresh
    · have hready : Ready r before seen s (c ++ rest') part bytes := h
      have hfit1 : readStep fresh r.decoded.length s (.data c) ≠ .excess := by
        intro hstep
        rw [hstep] at hfit
        exact hfit rfl
      have hlast : 0x1a ∉ c := fun hmem => hclean (Or.inl hmem)
      by_cases hc : seen = false ∨ c.any isSeparator = true
      · obtain ⟨hmem, -⟩ | ⟨-, s', part', bytes', hmore, hs', -⟩ := hready.next hr hne hc fresh hfit1
        · exact absurd hmem hlast
        · rw [hmore] at hfit ⊢
          exact ih hs' hrest (fun htail => hclean (Or.inr ⟨hc, htail⟩)) hfit
      · rw [not_or, Bool.not_eq_false, Bool.not_eq_true] at hc
        obtain ⟨rfl, hsep⟩ := hc
        exact (hready.no_separator hr hne hsep fresh _).andThen fun s' hs' =>
          hs'.run hrest hr hsize fresh

/-! ## Short responses -/

/-- No chunk is larger than the room in `buf`. -/
def Fits (r : Response) (reads : List ReadResult) : Prop :=
  ∀ fresh resp, resp.length = r.decoded.length →
    jtagDrscanRead fresh resp r.decoded.length reads ≠ .excess

theorem Outcome.andThen_ne_excess {o : Outcome} {f : Locals → Outcome} (ho : o ≠ .excess)
    (hf : ∀ s, o = .more s → f s ≠ .excess) : o.andThen f ≠ .excess := by
  cases o with
  | more s => exact hf s rfl
  | returned rv resp => exact ho
  | undefined => exact ho
  | excess => exact ho

theorem extractField_ne_excess (size p : ℕ) (s : Locals) (c : UInt8) :
    extractField size s p c ≠ .excess := by
  by_cases hsep : isSeparator c
  · rw [extractField_of_separator hsep]
    cases copyField size s p with
    | none => exact Outcome.noConfusion
    | some t =>
      rw [Option.elim_some]
      split_ifs <;> exact Outcome.noConfusion
  · rw [extractField_of_not hsep]
    exact Outcome.noConfusion

theorem extractFields_ne_excess (size : ℕ) (s : Locals) (i m : ℕ) :
    extractFields size s i m ≠ .excess := by
  induction m generalizing s i with
  | zero =>
    rw [extractFields]
    exact Outcome.noConfusion
  | succ m ih =>
    rw [extractFields]
    cases s.buf[Util.toUint (s.bufPos + i)]? with
    | none => exact Outcome.noConfusion
    | some c => exact Outcome.andThen_ne_excess (extractField_ne_excess _ _ _ _) fun s' _ => ih s' (i + 1)

theorem readStep_ne_excess (fresh : ℕ → UInt8) (size : ℕ) {s : Locals} {x : ReadResult}
    (h : s.bufPos ≤ (grow fresh s).buf.length → s.bufPos + x.chars.length ≤ s.buf.length) :
    readStep fresh size s x ≠ .excess := by
  have hcompact (t : Locals) (n : ℤ) : compact t n ≠ .excess := by
    unfold compact
    split_ifs <;> exact Outcome.noConfusion
  obtain ⟨added, hgrow⟩ := grow_frame fresh s
  have hlen : s.buf.length ≤ (grow fresh s).buf.length := by
    rw [hgrow, List.length_append]
    omega
  have hpos : (grow fresh s).bufPos = s.bufPos := by rw [hgrow]
  unfold readStep
  simp only [hpos]
  split_ifs with hout
  · exact Outcome.noConfusion
  · cases x with
    | eagain => exact hcompact _ _
    | error => exact Outcome.noConfusion
    | data c =>
      rw [ReadResult.chars] at h
      simp only
      split_ifs with hexcess hnil
      · have hroom := h (by omega)
        omega
      · exact Outcome.noConfusion
      · exact Outcome.andThen_ne_excess (extractFields_ne_excess _ _ _ _) fun t _ => hcompact _ _

theorem Stale.read_ne_excess {s : Locals} {x : ReadResult}
    (h : Stale N size last s (x.chars ++ rest)) (hN : N < bufInitialSize) (fresh : ℕ → UInt8) :
    readStep fresh size s x ≠ .excess := by
  apply readStep_ne_excess
  intro hin
  obtain ⟨hblock, hs⟩ := h
  have hlen := grow_length fresh (s := s) (by omega)
  simp only [bufInitialSize] at hN hblock
  obtain hwrapped | ⟨f, hf, hs⟩ := hs
  · omega
  · have hleft := hs.left
    rw [List.length_append] at hleft
    omega

theorem Stale.run_ne_excess {s : Locals} {reads : List ReadResult} (h : Stale N size last s rest)
    (hreads : Delivers reads rest) (hN : N < bufInitialSize) (hsize : size < 2 ^ 30)
    (fresh : ℕ → UInt8) : readLoop fresh size s reads ≠ .excess := by
  induction reads generalizing s rest with
  | nil => exact Outcome.noConfusion
  | cons x reads ih =>
    obtain ⟨rest', rfl, hrest⟩ := hreads.tail
    have hlt : N < 2 ^ 30 := hN.trans (by decide)
    refine Outcome.andThen_ne_excess (h.read_ne_excess hN fresh) fun s' hs' => ih ?_ hrest
    exact (h.read (hreads.ready x List.mem_cons_self) hlt hsize fresh).1 s' hs'

theorem Ready.run_ne_excess {seen : Bool} {s : Locals} {reads : List ReadResult}
    (h : Ready r before seen s rest part bytes) (hreads : Delivers reads rest)
    (hr : r.text.length < bufInitialSize) (fresh : ℕ → UInt8) :
    readLoop fresh r.decoded.length s reads ≠ .excess := by
  have hlt : r.text.length < 2 ^ 30 := hr.trans (by decide)
  have hsize : r.decoded.length < 2 ^ 30 := by
    have hle := r.decoded_length_le
    omega
  induction reads generalizing seen s rest part bytes with
  | nil => exact Outcome.noConfusion
  | cons x reads ih =>
    obtain ⟨rest', rfl, hrest⟩ := hreads.tail
    have hfit : readStep fresh r.decoded.length s x ≠ .excess := by
      apply readStep_ne_excess
      intro hin
      have hpos := h.scanning.pos
      have hblock := h.scanning.block.1
      have hleft := h.scanning.left
      rw [List.length_append] at hleft
      rcases h.cursors with ⟨-, hstart, -⟩ | ⟨-, hstart, -⟩ <;> omega
    refine Outcome.andThen_ne_excess hfit fun s' hs' => ?_
    obtain rfl | ⟨c, hne, rfl⟩ := hreads.ready x List.mem_cons_self
    · have hready : Ready r before seen s rest' part bytes := h
      have hstale := (hready.eagain hlt fresh fun _ => True).1 s' hs'
      exact hstale.run_ne_excess hrest hr hsize fresh
    · have hready : Ready r before seen s (c ++ rest') part bytes := h
      by_cases hc : seen = false ∨ c.any isSeparator = true
      · obtain ⟨-, hret⟩ | ⟨-, t, part', bytes', hmore, ht, -⟩ := hready.next hlt hne hc fresh hfit
        · rw [hret] at hs'
          cases hs'
        · rw [hmore] at hs'
          cases hs'
          exact ih ht hrest
      · rw [not_or, Bool.not_eq_false, Bool.not_eq_true] at hc
        obtain ⟨rfl, hsep⟩ := hc
        have hstale := (hready.no_separator hlt hne hsep fresh fun _ => True).1 s' hs'
        exact hstale.run_ne_excess hrest hr hsize fresh

theorem fits_of_lt (r : Response) (hr : r.text.length < bufInitialSize) (reads : List ReadResult)
    (hreads : Delivers reads r.text) : Fits r reads := fun fresh _ hresp =>
  (ready_start r fresh hresp).run_ne_excess hreads hr fresh

/-! ## The exact condition -/

/-- The function returns 0 with the decoded fields in the output, whatever it and the heap held. -/
def Decodes (r : Response) (reads : List ReadResult) : Prop :=
  ∀ fresh resp, resp.length = r.decoded.length →
    jtagDrscanRead fresh resp r.decoded.length reads = .returned 0 r.decoded

/-- **When chunking does not matter.** A well-formed response that arrives in chunks, with `EAGAIN` results
in between, is decoded exactly when no `EAGAIN` comes before its end and every chunk after the first
separator contains a separator. -/
theorem decodes_iff_clean (r : Response) (hr : r.text.length < 2 ^ 30) (reads : List ReadResult)
    (hreads : Delivers reads r.text) (hfits : Fits r reads) :
    Decodes r reads ↔ Clean false reads := by
  constructor
  · intro hdec
    by_contra hclean
    -- an output that differs from the fields in every byte
    have hlen : (r.decoded.map (· + 1)).length = r.decoded.length := List.length_map _
    have hpos := r.remains.bytes_pos
    have hrun := ((ready_start r (fun _ => 0) hlen).run_spoiled hr hreads hclean _
      (hfits _ _ hlen)).2 0 r.decoded (hdec _ _ hlen)
    rw [List.getElem?_map, List.getElem?_eq_getElem (by omega), Option.map_some,
      Option.some.injEq] at hrun
    have hne (x : UInt8) : x ≠ x + 1 := by
      intro hx
      have hzero : x + 0 = x + 1 := by rw [UInt8.add_zero, ← hx]
      exact absurd ((UInt8.add_right_inj x).mp hzero) (by decide)
    exact hne _ hrun
  · intro hclean fresh resp hresp
    exact (ready_start r fresh hresp).run hr hreads hclean fresh (hfits fresh resp hresp)

set_option maxRecDepth 2000 in
def twoFields : Response where
  first := ⟨[0x31, 0x32], by decide, by decide, by decide⟩
  others := [⟨[0x33, 0x34], by decide, by decide, by decide⟩]

/-- The first field alone, then the second one with the separator in front. -/
theorem decodes_field_by_field :
    Decodes twoFields [.data [0x31, 0x32], .data [0x20, 0x33, 0x34, 0x1a]] :=
  (decodes_iff_clean twoFields (by decide) _
    ⟨rfl, by simp⟩ (fits_of_lt twoFields (by decide) _ ⟨rfl, by simp⟩)).mpr (by decide)

/-- The second field in two chunks: the size of the field is taken from a stale start. -/
theorem not_decodes_split_field :
    Delivers [.data [0x31, 0x32, 0x20, 0x33], .data [0x34], .data [0x1a]] twoFields.text ∧
      Fits twoFields [.data [0x31, 0x32, 0x20, 0x33], .data [0x34], .data [0x1a]] ∧
      ¬ Decodes twoFields [.data [0x31, 0x32, 0x20, 0x33], .data [0x34], .data [0x1a]] := by
  have hreads : Delivers [.data [0x31, 0x32, 0x20, 0x33], .data [0x34], .data [0x1a]] twoFields.text :=
    ⟨rfl, by simp⟩
  refine ⟨hreads, fits_of_lt twoFields (by decide) _ hreads, fun hdec => ?_⟩
  have hrun := hdec (fun _ => 0) [0, 0] rfl
  have hundefined : jtagDrscanRead (fun _ => 0) [0, 0] 2
      [.data [0x31, 0x32, 0x20, 0x33], .data [0x34], .data [0x1a]] = .undefined := by
    decide +kernel
  exact absurd (hundefined.symm.trans hrun) Outcome.noConfusion

end GlipOsd.Jtag.DrscanRead
