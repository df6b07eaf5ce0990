import GlipOsd.Jtag.DrscanRead

/-! # Chunks of a response

`jtag_drscan_read` on a well-formed response that arrives in pieces.
-/

namespace GlipOsd.Jtag.DrscanRead
open Memory
set_option autoImplicit false

/-! ## The scan of a chunk -/

/-- The scan of the characters `cs` that stand in the buffer from `pos` on. -/
def scan (size : ℕ) (s : Locals) (pos : ℕ) : List UInt8 → Outcome
  | [] => .more s
  | c :: cs => (extractField size s pos c).andThen fun s => scan size s (pos + 1) cs

theorem copyField_eq_some {size p : ℕ} {s s' : Locals} (h : copyField size s p = some s') :
    ∃ bytes, Util.toUint (s.respPos +
        (Util.toInt (Util.toUint (p - s.fieldStart))).tdiv 2) ≤ size ∧
      hexstringToBinarrayLe s.buf s.fieldStart
        (Util.toSize (Util.toInt (Util.toUint (p - s.fieldStart)))) = some bytes ∧
      s' = { s with
        resp := memcpy s.resp s.respPos bytes
        respPos := Util.toUint (s.respPos + (Util.toInt (Util.toUint (p - s.fieldStart))).tdiv 2)
        fieldStart := Util.toUint (p + 1)
        fieldEnd := p } := by
  unfold copyField at h
  simp only at h
  split_ifs at h with hsize
  obtain ⟨bytes, hbytes, rfl⟩ := Option.map_eq_some_iff.mp h
  exact ⟨bytes, not_lt.mp hsize, hbytes, rfl⟩

theorem extractField_of_not {size p : ℕ} {s : Locals} {c : UInt8} (hc : ¬ isSeparator c) :
    extractField size s p c = .more s := by
  rw [extractField, if_neg hc]

theorem extractField_of_separator {size p : ℕ} {s : Locals} {c : UInt8} (hc : isSeparator c) :
    extractField size s p c = (copyField size s p).elim .undefined fun s =>
      if c = 0x1a then .returned 0 s.resp else .more s := by
  rw [extractField, if_pos hc]

theorem extractField_eq_more {size p : ℕ} {s s' : Locals} {c : UInt8}
    (h : extractField size s p c = .more s') : s'.buf = s.buf ∧ s'.bufPos = s.bufPos := by
  by_cases hsep : isSeparator c
  · rw [extractField_of_separator hsep] at h
    cases hcopy : copyField size s p with
    | none =>
      rw [hcopy] at h
      cases h
    | some t =>
      obtain ⟨bytes, -, -, rfl⟩ := copyField_eq_some hcopy
      rw [hcopy, Option.elim_some] at h
      by_cases hend : c = 0x1a
      · rw [if_pos hend] at h
        cases h
      · rw [if_neg hend] at h
        cases h
        exact ⟨rfl, rfl⟩
  · rw [extractField_of_not hsep] at h
    cases h
    exact ⟨rfl, rfl⟩

theorem extractFields_eq (size : ℕ) (s : Locals) (i : ℕ) {cs : List UInt8}
    (h : slice s.buf (s.bufPos + i) cs.length = cs) (hlt : s.bufPos + i + cs.length < 2 ^ 32) :
    extractFields size s i cs.length = scan size s (s.bufPos + i) cs := by
  induction cs generalizing s i with
  | nil => rw [List.length_nil, extractFields, scan]
  | cons c cs ih =>
    rw [List.length_cons] at h hlt
    obtain ⟨hcell, hrest⟩ := slice_succ_eq_cons h
    have hpos : Util.toUint (s.bufPos + i) = s.bufPos + i := by
      rw [← Nat.cast_add, Util.toUint_natCast (by omega)]
    rw [List.length_cons, extractFields, scan]
    simp only [hpos, hcell]
    cases hmore : extractField size s (s.bufPos + i) c with
    | more s' =>
      obtain ⟨hbuf, hbufPos⟩ := extractField_eq_more hmore
      simp only [Outcome.andThen]
      rw [ih s' (i + 1) (by rw [hbuf, hbufPos, ← Nat.add_assoc]; exact hrest)
        (by rw [hbufPos]; omega), hbufPos,
        Nat.add_assoc]
    | returned rv resp => rfl
    | undefined => rfl
    | excess => rfl

/-! ## A response that is followed -/

/-- In the loop over the characters, at position `p`: `cs` are left of the chunk and `rest` of the text,
`part` was read of the field in progress, and `bytes` are still to be stored. `before` is what the
output held at first. -/
structure Scanning (r : Response) (before : List UInt8) (s : Locals) (p : ℕ)
    (cs rest part bytes : List UInt8) : Prop where
  remains : Remains part (cs ++ rest) bytes
  stored : s.resp.take s.respPos ++ bytes = r.decoded
  respPos : s.respPos + bytes.length = r.decoded.length
  respLength : s.resp.length = r.decoded.length
  kept : s.resp.drop s.respPos = before.drop s.respPos
  pos : p = s.fieldStart + part.length
  held : slice s.buf s.fieldStart (part.length + cs.length) = part ++ cs
  room : p + cs.length ≤ s.buf.length
  left : part.length + cs.length + rest.length ≤ r.text.length
  block : bufInitialSize ≤ s.buf.length ∧ s.buf.length ≤ r.text.length + 2 ^ 17

variable {r : Response} {before rest part bytes : List UInt8}

theorem fieldSizeChars_eq {p fieldStart : ℕ} {f : ℤ} (hf : fieldStart = Util.toUint f)
    (hge : -2 ^ 31 ≤ p - f) (hlt : p - f < 2 ^ 31) :
    Util.toInt (Util.toUint (p - fieldStart)) = p - f := by
  rw [hf, Util.toUint_sub_toUint, Util.toInt_toUint hge hlt]

/-- A field of even length that fits is stored, whatever its characters are. -/
theorem copyField_eq {size p : ℕ} {s : Locals} {part : List UInt8} (hpos : p = s.fieldStart + part.length)
    (hheld : slice s.buf s.fieldStart part.length = part) (hp : p < 2 ^ 31) (hresp : s.respPos < 2 ^ 30) :
    copyField size s p =
      if s.respPos + part.length / 2 ≤ size ∧ part.length % 2 = 0 then
        some { s with
          resp := memcpy s.resp s.respPos (rawField part)
          respPos := s.respPos + part.length / 2
          fieldStart := p + 1
          fieldEnd := p }
      else none := by
  have hstart : s.fieldStart = Util.toUint s.fieldStart := (Util.toUint_natCast (by omega)).symm
  have hdiff : (p : ℤ) - s.fieldStart = part.length := by omega
  have hchars : Util.toInt (Util.toUint (p - s.fieldStart)) = part.length := by
    rw [fieldSizeChars_eq hstart (by omega) (by omega), hdiff]
  have hcast : (s.respPos : ℤ) + (part.length : ℤ).tdiv 2 = (s.respPos + part.length / 2 : ℕ) := by
    rw [Int.tdiv_eq_ediv_of_nonneg (Int.natCast_nonneg _)]
    omega
  have hhalf : Util.toUint (s.respPos + (part.length : ℤ).tdiv 2) = s.respPos + part.length / 2 := by
    rw [hcast, Util.toUint_natCast (by omega)]
  have hnext : Util.toUint (p + 1) = p + 1 := by
    rw [← Nat.cast_succ, Util.toUint_natCast (by omega)]
  have hin : Util.toSize (part.length : ℤ) = part.length := Util.toSize_natCast (by omega)
  unfold DrscanRead.copyField
  simp only [hchars, hhalf, hin, hnext]
  by_cases hsize : s.respPos + part.length / 2 ≤ size
  · rw [if_neg (not_lt.mpr hsize)]
    by_cases heven : part.length % 2 = 0
    · rw [if_pos ⟨hsize, heven⟩, hexstringToBinarrayLe_eq heven (by omega) hheld, Option.map_some]
    · rw [if_neg (fun h => heven h.2), hexstringToBinarrayLe, if_pos heven, Option.map_none]
  · rw [if_pos (not_le.mp hsize), if_neg (fun h => hsize h.1)]

theorem Scanning.copyField {s : Locals} {p : ℕ} {cs : List UInt8}
    (h : Scanning r before s p cs rest part bytes) (hr : r.text.length < 2 ^ 30) {x : Field}
    (hx : x.digits = part) (hsize : s.respPos + x.bytes.length ≤ r.decoded.length) :
    copyField r.decoded.length s p = some { s with
      resp := memcpy s.resp s.respPos x.bytes
      respPos := s.respPos + x.bytes.length
      fieldStart := p + 1
      fieldEnd := p } := by
  have hroom := h.room
  have hblock := h.block.2
  have hdecoded := r.decoded_length_le
  have hbytes : x.bytes.length = part.length / 2 := by
    rw [← hx]
    exact length_decodeField x.digits
  have hraw : rawField part = x.bytes := by
    rw [Field.bytes, hx, rawField_eq h.remains.hex]
  rw [copyField_eq h.pos (slice_eq_append h.held).1 (by omega) (by omega),
    if_pos ⟨hbytes ▸ hsize, hx ▸ x.even⟩, hraw, ← hbytes]

theorem Scanning.digit {s : Locals} {p : ℕ} {c : UInt8} {cs : List UInt8}
    (h : Scanning r before s p (c :: cs) rest part bytes) (hr : Remains (part ++ [c]) (cs ++ rest) bytes) :
    Scanning r before s (p + 1) cs rest (part ++ [c]) bytes := by
  have hlen : (part ++ [c]).length = part.length + 1 := by rw [List.length_append, List.length_singleton]
  have hpos := h.pos
  have hroom := h.room
  have hleft := h.left
  have hheld := h.held
  rw [List.length_cons] at hroom hleft hheld
  refine ⟨hr, h.stored, h.respPos, h.respLength, h.kept, by omega, ?_, by omega, by omega, h.block⟩
  rw [hlen, List.append_assoc, Nat.add_assoc, Nat.add_comm 1]
  exact hheld

/-- What the scan of a chunk leaves behind: the last separator, if there was one. -/
def Cursors (s s' : Locals) (cs : List UInt8) : Prop :=
  s'.buf = s.buf ∧ s'.bufPos = s.bufPos ∧
    ((cs.any isSeparator = false ∧ s'.fieldStart = s.fieldStart ∧ s'.fieldEnd = s.fieldEnd) ∨
      (cs.any isSeparator = true ∧ s'.fieldStart = s'.fieldEnd + 1 ∧ 2 ≤ s'.fieldEnd))

/-- The scan of a chunk, by induction on its characters. -/
theorem Scanning.scan {s : Locals} {p : ℕ} {cs : List UInt8}
    (h : Scanning r before s p cs rest part bytes) (hr : r.text.length < 2 ^ 30) :
    (0x1a ∈ cs ∧ scan r.decoded.length s p cs = .returned 0 r.decoded) ∨
    (0x1a ∉ cs ∧ ∃ s' part' bytes', scan r.decoded.length s p cs = .more s' ∧
      Scanning r before s' (p + cs.length) [] rest part' bytes' ∧ Cursors s s' cs ∧ part' <:+ part ++ cs) := by
  induction cs generalizing s p part bytes with
  | nil =>
    refine Or.inr ⟨List.not_mem_nil, s, part, bytes, rfl, h, ⟨rfl, rfl, Or.inl ⟨rfl, rfl, rfl⟩⟩, ?_⟩
    rw [List.append_nil]
  | cons c cs ih =>
    rw [DrscanRead.scan]
    obtain ⟨hhex, hrem⟩ | ⟨x, hx, hend⟩ := h.remains.next
    · -- a digit: the loop goes on with the same locals
      have hsep := hhex.not_isSeparator
      have hne : (0x1a : UInt8) ≠ c := by
        rintro rfl
        exact absurd hsep (by decide)
      rw [extractField_of_not (by rw [hsep]; exact Bool.false_ne_true)]
      obtain ⟨hmem, hscan⟩ | ⟨hmem, s', part', bytes', hscan, hs', hcur, hsuffix⟩ := ih (h.digit hrem)
      · exact Or.inl ⟨List.mem_cons_of_mem _ hmem, hscan⟩
      · refine Or.inr ⟨?_, s', part', bytes', hscan, ?_, ?_, ?_⟩
        · exact List.not_mem_cons_of_ne_of_not_mem hne hmem
        · rwa [List.length_cons, Nat.add_comm cs.length, ← Nat.add_assoc]
        · simpa only [Cursors, List.any_cons, hsep, Bool.false_or] using hcur
        · rwa [List.append_assoc] at hsuffix
    · -- a separator: the field is stored
      have hpos := h.pos
      have hroom := h.room
      have hleft := h.left
      have hheld := h.held
      have htwo := x.two_le_length
      have hbytesPos := h.respPos
      rw [hx] at htwo
      rw [List.length_cons] at hroom hleft
      obtain ⟨-, hrest⟩ := slice_eq_append hheld
      rw [← hpos, List.length_cons] at hrest
      have hchunk := (slice_succ_eq_cons hrest).2
      obtain ⟨rfl, hnil, rfl⟩ | ⟨rfl, others, rfl, hrem⟩ := hend
      · left
        refine ⟨List.mem_cons_self, ?_⟩
        have hlast : memcpy s.resp s.respPos x.bytes = r.decoded := by
          have hall := h.respLength
          rw [memcpy, List.drop_eq_nil_of_le (by omega), List.append_nil, h.stored]
        rw [extractField_of_separator (by decide), h.copyField hr hx hbytesPos.le, Option.elim_some,
          if_pos rfl]
        simp only [Outcome.andThen, hlast]
      · have hsum : s.respPos + (x.bytes.length + others.length) = r.decoded.length := by
          rw [← List.length_append]
          exact hbytesPos
        rw [extractField_of_separator (by decide), h.copyField hr hx (by omega), Option.elim_some,
          if_neg (by decide)]
        simp only [Outcome.andThen]
        have hnext : Scanning r before { s with
            resp := memcpy s.resp s.respPos x.bytes
            respPos := s.respPos + x.bytes.length
            fieldStart := p + 1
            fieldEnd := p } (p + 1) cs rest [] others := by
          have hall := h.respLength
          refine ⟨hrem, ?_, by simp only; omega, ?_, ?_, rfl, ?_, by simp only; omega, ?_, h.block⟩
          · simp only
            rw [take_memcpy _ (by omega), List.append_assoc]
            exact h.stored
          · rw [length_memcpy (by omega)]
            exact hall
          · simp only
            rw [drop_memcpy _ (by omega), ← List.drop_drop, h.kept, List.drop_drop]
          · rw [List.length_nil, Nat.zero_add]
            exact hchunk
          · rw [List.length_nil]
            omega
        obtain ⟨hmem, hscan⟩ | ⟨hmem, s', part', bytes', hscan, hs', ⟨hbuf, hbufPos, hcur⟩, hsuffix⟩ := ih hnext
        · exact Or.inl ⟨List.mem_cons_of_mem _ hmem, hscan⟩
        · refine Or.inr ⟨?_, s', part', bytes', hscan, ?_, ⟨hbuf, hbufPos, Or.inr ⟨?_, ?_⟩⟩, ?_⟩
          · exact List.not_mem_cons_of_ne_of_not_mem (by decide) hmem
          · rwa [List.length_cons, Nat.add_comm cs.length, ← Nat.add_assoc]
          · rw [List.any_cons]
            rfl
          · obtain ⟨-, hstart, hfield⟩ | ⟨-, hstart⟩ := hcur
            · rw [hstart, hfield]
              exact ⟨rfl, by simp only; omega⟩
            · exact hstart
          · exact hsuffix.trans ((List.suffix_cons _ cs).trans (List.suffix_append part _))

/-! ## Between two reads -/

/-- Before a `read`; `seen` says whether a separator was seen. -/
structure Ready (r : Response) (before : List UInt8) (seen : Bool) (s : Locals)
    (rest part bytes : List UInt8) : Prop where
  scanning : Scanning r before s s.bufPos [] rest part bytes
  cursors : (seen = false ∧ s.fieldStart = 0 ∧ s.fieldEnd = 0) ∨
    (seen = true ∧ s.fieldStart = 1 ∧ 2 ≤ s.fieldEnd)
  fieldEnd : s.fieldEnd ≤ s.buf.length

theorem ready_start (r : Response) (fresh : ℕ → UInt8) {resp : List UInt8}
    (hresp : resp.length = r.decoded.length) :
    Ready r resp false (start fresh resp) r.text [] r.decoded := by
  have hbuf : (start fresh resp).buf.length = bufInitialSize := by
    simp only [start, List.length_map, List.length_range]
  refine ⟨⟨r.remains, rfl, ?_, hresp, rfl, rfl, rfl, ?_, ?_, ?_⟩, Or.inl ⟨rfl, rfl, rfl⟩, Nat.zero_le _⟩
  · exact Nat.zero_add _
  · exact Nat.zero_le _
  · rw [List.length_nil, Nat.zero_add]
  · rw [hbuf]
    exact ⟨le_rfl, by simp only [bufInitialSize]; omega⟩

theorem grow_length (fresh : ℕ → UInt8) {s : Locals} (hpos : 0 < s.buf.length) :
    s.buf.length ≤ (grow fresh s).buf.length ∧
      (s.bufPos ≤ s.buf.length → s.bufPos < (grow fresh s).buf.length) ∧
      ((grow fresh s).buf.length = s.buf.length ∨
        (s.buf.length ≤ s.bufPos ∧ (grow fresh s).buf.length ≤ s.buf.length + 2 ^ 16)) := by
  unfold grow
  split_ifs with h
  · have hlarger : s.buf.length < growBuf s.buf.length ∧
        growBuf s.buf.length ≤ s.buf.length + 2 ^ 16 := by
      unfold growBuf
      split_ifs <;> omega
    simp only [List.length_append, List.length_map, List.length_range']
    omega
  · omega

theorem grow_frame (fresh : ℕ → UInt8) (s : Locals) :
    ∃ added, grow fresh s = { s with buf := s.buf ++ added } := by
  unfold grow
  split_ifs
  · exact ⟨_, rfl⟩
  · exact ⟨[], by rw [List.append_nil]⟩

theorem readStep_data (fresh : ℕ → UInt8) (size : ℕ) {s : Locals} {c : List UInt8}
    (hin : s.bufPos < (grow fresh s).buf.length)
    (hfit : c.length ≤ (grow fresh s).buf.length - s.bufPos) (hne : c ≠ [])
    (hsmall : (grow fresh s).buf.length < 2 ^ 32) :
    readStep fresh size s (.data c) =
      (scan size { s with buf := memcpy (grow fresh s).buf s.bufPos c } s.bufPos c).andThen
        fun s => compact s c.length := by
  obtain ⟨added, hgrow⟩ := grow_frame fresh s
  have hpos : (grow fresh s).bufPos = s.bufPos := by rw [hgrow]
  have hwindow := slice_memcpy (grow fresh s).buf s.bufPos c (by omega)
  have hloop := extractFields_eq size
    { s with buf := memcpy (grow fresh s).buf s.bufPos c } 0 hwindow (by simp only; omega)
  have hsame : ({ grow fresh s with buf := memcpy (grow fresh s).buf s.bufPos c } : Locals) =
      { s with buf := memcpy (grow fresh s).buf s.bufPos c } := by
    rw [hgrow]
  unfold readStep
  simp only [hpos] at hsame ⊢
  rw [if_neg (by omega), if_neg (by omega), if_neg hne, hsame, hloop]
  rfl

theorem Ready.read {seen : Bool} {s : Locals} {c : List UInt8}
    (h : Ready r before seen s (c ++ rest) part bytes) (hr : r.text.length < 2 ^ 30) (hne : c ≠ [])
    (fresh : ℕ → UInt8) (hfit : readStep fresh r.decoded.length s (.data c) ≠ .excess) :
    (0x1a ∈ c ∧ readStep fresh r.decoded.length s (.data c) = .returned 0 r.decoded) ∨
    (0x1a ∉ c ∧ ∃ t part' bytes', readStep fresh r.decoded.length s (.data c) = compact t c.length ∧
      Scanning r before t (s.bufPos + c.length) [] rest part' bytes' ∧ t.bufPos = s.bufPos ∧
      s.fieldEnd ≤ t.buf.length ∧
      ((c.any isSeparator = false ∧ t.fieldStart = s.fieldStart ∧ t.fieldEnd = s.fieldEnd) ∨
        (c.any isSeparator = true ∧ t.fieldStart = t.fieldEnd + 1 ∧ 2 ≤ t.fieldEnd)) ∧
      part' <:+ part ++ c) := by
  have hs := h.scanning
  have hpos := hs.pos
  have hroom := hs.room
  have hblock := hs.block
  have hend := h.fieldEnd
  have hheld := hs.held
  have hleft := hs.left
  rw [List.length_nil, Nat.add_zero] at hroom hheld hleft
  rw [List.append_nil] at hheld
  rw [List.length_append] at hleft
  have hstart : s.fieldStart ≤ 1 := by
    rcases h.cursors with ⟨-, h0, -⟩ | ⟨-, h1, -⟩ <;> omega
  obtain ⟨hge, hlt, hle⟩ := grow_length fresh (s := s) (by simp only [bufInitialSize] at hblock; omega)
  obtain ⟨added, hgrow⟩ := grow_frame fresh s
  have hgrown : (grow fresh s).buf = s.buf ++ added := by rw [hgrow]
  have hgrownPos : (grow fresh s).bufPos = s.bufPos := by rw [hgrow]
  have hin := hlt hroom
  by_cases hexcess : c.length > (grow fresh s).buf.length - s.bufPos
  · refine absurd ?_ hfit
    unfold readStep
    simp only [hgrownPos]
    rw [if_neg (by omega), if_pos hexcess]
  · have hcopy : (memcpy (grow fresh s).buf s.bufPos c).length = (grow fresh s).buf.length :=
      length_memcpy (by omega)
    have hscan : Scanning r before { s with buf := memcpy (grow fresh s).buf s.bufPos c } s.bufPos c rest part
        bytes := by
      refine ⟨hs.remains, hs.stored, hs.respPos, hs.respLength, hs.kept, hs.pos, ?_, ?_, by omega, ?_⟩
      · simp only
        rw [slice_add, slice_memcpy_before _ (by omega) (by omega), ← hpos,
          slice_memcpy _ _ _ (by omega), hgrown, slice_append_left (by omega), hheld]
      · simp only
        omega
      · simp only
        omega
    rw [readStep_data fresh _ hin (by omega) hne (by omega)]
    obtain ⟨hmem, hret⟩ | ⟨hmem, t, part', bytes', hmore, ht, ⟨hbuf, htpos, hcur⟩, hsuffix⟩ := hscan.scan hr
    · left
      rw [hret]
      exact ⟨hmem, rfl⟩
    · right
      rw [hmore]
      refine ⟨hmem, t, part', bytes', rfl, ht, htpos, ?_, hcur, hsuffix⟩
      rw [hbuf]
      simp only
      omega

/-- The compaction when the last separator is the one in front of the field in progress. -/
theorem Scanning.compact {t : Locals} {p n : ℕ}
    (h : Scanning r before t p [] rest part bytes) (hr : r.text.length < 2 ^ 30) (hp : p = t.bufPos + n)
    (hend : t.fieldEnd ≤ t.fieldStart) :
    ∃ s', compact t n = .more s' ∧ Scanning r before s' s'.bufPos [] rest part bytes ∧
      s'.fieldStart = t.fieldStart - t.fieldEnd ∧ s'.fieldEnd = t.fieldEnd ∧
      s'.buf.length = t.buf.length := by
  have hpos := h.pos
  have hroom := h.room
  have hblock := h.block
  have hheld := h.held
  rw [List.length_nil, Nat.add_zero] at hroom hheld
  rw [List.append_nil] at hheld
  have hlen : (memcpy t.buf 0 (t.buf.drop t.fieldEnd)).length = t.buf.length := by
    rw [length_memcpy (by rw [List.length_drop]; omega)]
  have hbufPos : (t.bufPos : ℤ) + n - t.fieldEnd = (p - t.fieldEnd : ℕ) := by omega
  have hfieldStart : (t.fieldStart : ℤ) - t.fieldEnd = (t.fieldStart - t.fieldEnd : ℕ) := by omega
  have hsmall : p - t.fieldEnd < 2 ^ 32 ∧ t.fieldStart - t.fieldEnd < 2 ^ 32 := by omega
  refine ⟨{ t with
    buf := memcpy t.buf 0 (t.buf.drop t.fieldEnd)
    bufPos := p - t.fieldEnd
    fieldStart := t.fieldStart - t.fieldEnd }, ?_, ?_, rfl, rfl, hlen⟩
  · unfold DrscanRead.compact
    rw [if_neg (by omega), hbufPos, hfieldStart, Util.toUint_natCast hsmall.1,
      Util.toUint_natCast hsmall.2]
  · refine ⟨h.remains, h.stored, h.respPos, h.respLength, h.kept, ?_, ?_, ?_, h.left, ?_⟩
    · simp only
      omega
    · simp only [List.length_nil, Nat.add_zero, List.append_nil]
      rw [slice_memcpy_drop (by omega), Nat.add_sub_cancel' hend]
      exact hheld
    · simp only [List.length_nil, hlen]
      omega
    · simp only [hlen]
      exact hblock

/-! ## The exact condition -/

def ReadResult.chars : ReadResult → List UInt8
  | .data chunk => chunk
  | _ => []

/-- Before the first separator no `EAGAIN`, and after it a separator in every chunk: up to the chunk
with the end of the response. -/
def Clean : Bool → List ReadResult → Prop
  | _, [] => False
  | seen, .data c :: reads =>
    0x1a ∈ c ∨ ((seen = false ∨ c.any isSeparator = true) ∧ Clean (seen || c.any isSeparator) reads)
  | _, _ :: _ => False

instance decidableClean : ∀ (seen : Bool) (reads : List ReadResult), Decidable (Clean seen reads)
  | _, [] => inferInstanceAs (Decidable False)
  | seen, .data c :: reads =>
    have := decidableClean (seen || c.any isSeparator) reads
    inferInstanceAs (Decidable (0x1a ∈ c ∨ ((seen = false ∨ c.any isSeparator = true) ∧
      Clean (seen || c.any isSeparator) reads)))
  | _, .eagain :: _ => inferInstanceAs (Decidable False)
  | _, .error :: _ => inferInstanceAs (Decidable False)

/-- The chunks are not empty, make up the text, and there is no other failure. -/
structure Delivers (reads : List ReadResult) (text : List UInt8) : Prop where
  chars : reads.flatMap ReadResult.chars = text
  ready : ∀ x ∈ reads, x = .eagain ∨ ∃ c, c ≠ [] ∧ x = .data c

theorem Delivers.tail {x : ReadResult} {reads : List ReadResult} {text : List UInt8}
    (h : Delivers (x :: reads) text) :
    ∃ rest, text = x.chars ++ rest ∧ Delivers reads rest :=
  ⟨reads.flatMap ReadResult.chars, by rw [← h.chars, List.flatMap_cons],
    rfl, fun y hy => h.ready y (List.mem_cons_of_mem _ hy)⟩

theorem Ready.next {seen : Bool} {s : Locals} {c : List UInt8}
    (h : Ready r before seen s (c ++ rest) part bytes) (hr : r.text.length < 2 ^ 30) (hne : c ≠ [])
    (hc : seen = false ∨ c.any isSeparator = true) (fresh : ℕ → UInt8)
    (hfit : readStep fresh r.decoded.length s (.data c) ≠ .excess) :
    (0x1a ∈ c ∧ readStep fresh r.decoded.length s (.data c) = .returned 0 r.decoded) ∨
    (0x1a ∉ c ∧ ∃ s' part' bytes', readStep fresh r.decoded.length s (.data c) = .more s' ∧
      Ready r before (seen || c.any isSeparator) s' rest part' bytes' ∧ part' <:+ part ++ c) := by
  obtain hret | ⟨hmem, t, part', bytes', hstep, ht, hpos, hlen, hcur, hsuffix⟩ := h.read hr hne fresh hfit
  · exact Or.inl hret
  · right
    have hbefore : t.fieldEnd ≤ t.fieldStart := by
      obtain ⟨hsep, -, hend⟩ | ⟨-, hstart, -⟩ := hcur
      · obtain ⟨-, -, h0⟩ | ⟨hseen, -, -⟩ := h.cursors
        · omega
        · obtain hc | hc := hc
          · rw [hseen] at hc
            cases hc
          · rw [hsep] at hc
            cases hc
      · omega
    obtain ⟨s', hmore, hs', hstart', hend', hlen'⟩ := ht.compact hr (by rw [hpos]) hbefore
    refine ⟨hmem, s', part', bytes', hstep.trans hmore, ⟨hs', ?_, ?_⟩, hsuffix⟩
    · obtain ⟨hsep, hstart, hend⟩ | ⟨hsep, hstart, hend⟩ := hcur
      · obtain ⟨hseen, h0, h0'⟩ | ⟨hseen, -, -⟩ := h.cursors
        · exact Or.inl ⟨by rw [hseen, hsep]; rfl, by omega, by omega⟩
        · obtain hc | hc := hc
          · rw [hseen] at hc
            cases hc
          · rw [hsep] at hc
            cases hc
      · exact Or.inr ⟨by rw [hsep, Bool.or_true], by omega, by omega⟩
    · have hpos' := ht.pos
      have hroom' := ht.room
      rw [List.length_nil, Nat.add_zero] at hroom'
      omega

theorem readLoop_cons (fresh : ℕ → UInt8) (size : ℕ) (s : Locals) (x : ReadResult)
    (reads : List ReadResult) : readLoop fresh size s (x :: reads) =
      (readStep fresh size s x).andThen fun s => readLoop fresh size s reads := rfl

/-- In a clean run the whole response is stored. -/
theorem Ready.run {seen : Bool} {s : Locals} {reads : List ReadResult}
    (h : Ready r before seen s rest part bytes)
    (hr : r.text.length < 2 ^ 30) (hreads : Delivers reads rest) (hclean : Clean seen reads)
    (fresh : ℕ → UInt8) (hfit : readLoop fresh r.decoded.length s reads ≠ .excess) :
    readLoop fresh r.decoded.length s reads = .returned 0 r.decoded := by
  induction reads generalizing seen s rest part bytes with
  | nil => exact hclean.elim
  | cons x reads ih =>
    obtain ⟨rest', rfl, hrest⟩ := hreads.tail
    rw [readLoop_cons] at hfit ⊢
    obtain rfl | ⟨c, hne, rfl⟩ := hreads.ready x List.mem_cons_self
    · exact hclean.elim
    · have hfit1 : readStep fresh r.decoded.length s (.data c) ≠ .excess := by
        intro hstep
        rw [hstep] at hfit
        exact hfit rfl
      have hfinal : 0x1a ∈ c → c.any isSeparator = true := fun hmem =>
        List.any_eq_true.mpr ⟨0x1a, hmem, by decide⟩
      have hc : seen = false ∨ c.any isSeparator = true := by
        obtain hmem | ⟨hc, -⟩ := hclean
        · exact Or.inr (hfinal hmem)
        · exact hc
      have hready : Ready r before seen s (c ++ rest') part bytes := h
      obtain ⟨-, hret⟩ | ⟨hmem, s', part', bytes', hmore, hs', -⟩ := hready.next hr hne hc fresh hfit1
      · rw [hret]
        rfl
      · rw [hmore] at hfit ⊢
        obtain hmem' | ⟨-, hclean⟩ := hclean
        · exact absurd hmem' hmem
        · exact ih hs' hrest hclean hfit

end GlipOsd.Jtag.DrscanRead
