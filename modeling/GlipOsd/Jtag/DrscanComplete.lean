import GlipOsd.Jtag.Chunking

/-! # Incomplete responses

`jtag_drscan_read` on any text that arrives in one chunk. At the end of a field two assertions are checked, that
there is room for it and that its length is even. At the end of the response nothing is checked: a short
one and one with other characters than digits are accepted.
-/

namespace GlipOsd.Jtag.DrscanRead
open Memory
set_option autoImplicit false

/-- The fields that are complete in a text, up to the first `0x1a`; `part` was read before. -/
def fields (part : List UInt8) : List UInt8 → List (List UInt8)
  | [] => []
  | c :: cs =>
    if c = 0x1a then [part]
    else if c = 0x20 then part :: fields [] cs
    else fields (part ++ [c]) cs

/-- How a text ends: with `0x1a`, with the end of the file or with an error. -/
inductive Ending
  | eot
  | eof
  | error
  deriving DecidableEq

section Streams
variable (text : List UInt8)

def received : Ending → List UInt8
  | .eot => text ++ [0x1a]
  | .eof => text
  | .error => text

/-- The results of `read` for a text in one chunk. -/
def readsOf : Ending → List ReadResult
  | .eot => [.data (text ++ [0x1a])]
  | .eof => if text = [] then [.data []] else [.data text, .data []]
  | .error => if text = [] then [.error] else [.data text, .error]

end Streams

/-- The response has ended, and its fields are the digits of `size` bytes. -/
structure Complete (size : ℕ) (text : List UInt8) : Prop where
  ended : 0x1a ∈ text
  hex : ∀ f ∈ fields [] text, f.length % 2 = 0 ∧ ∀ c ∈ f, IsHex c
  length : ((fields [] text).flatMap decodeField).length = size

/-- The fields pass both assertions when `n` bytes are stored already. -/
def Passable (size n : ℕ) (fs : List (List UInt8)) : Prop :=
  n + (fs.map fun f => f.length / 2).sum ≤ size ∧ ∀ f ∈ fs, f.length % 2 = 0

/-- The function returns, stays within `resp`, and returns 0 only with all bytes of a complete response. -/
def Honest (fresh : ℕ → UInt8) (resp : List UInt8) (text : List UInt8) (e : Ending) : Prop :=
  ∃ rv resp', jtagDrscanRead fresh resp resp.length (readsOf text e) = .returned rv resp' ∧
    resp'.length = resp.length ∧
      (rv = 0 → Complete resp.length (received text e) ∧ resp' = (fields [] (received text e)).flatMap decodeField)

instance (size : ℕ) (text : List UInt8) : Decidable (Complete size text) :=
  have (f : List UInt8) : Decidable (∀ c ∈ f, IsHex c) := List.decidableBAll IsHex f
  decidable_of_iff (0x1a ∈ text ∧ (∀ f ∈ fields [] text, f.length % 2 = 0 ∧ ∀ c ∈ f, IsHex c) ∧
      ((fields [] text).flatMap decodeField).length = size)
    ⟨fun h => ⟨h.1, h.2.1, h.2.2⟩, fun h => ⟨h.ended, h.hex, h.length⟩⟩

instance (size n : ℕ) (fs : List (List UInt8)) : Decidable (Passable size n fs) :=
  inferInstanceAs (Decidable (_ ∧ _))

/-! ## The fields -/

theorem passable_cons {size n : ℕ} {f : List UInt8} {fs : List (List UInt8)} :
    Passable size n (f :: fs) ↔ f.length % 2 = 0 ∧ Passable size (n + f.length / 2) fs := by
  rw [Passable, Passable, List.map_cons, List.sum_cons, List.forall_mem_cons, Nat.add_assoc]
  tauto

theorem length_flatMap_rawField (fs : List (List UInt8)) :
    (fs.flatMap rawField).length = (fs.map fun f => f.length / 2).sum := by
  rw [List.length_flatMap]
  congr 1
  exact List.map_congr_left fun f _ => length_rawField f

theorem flatMap_rawField_eq {fs : List (List UInt8)} (h : ∀ f ∈ fs, ∀ c ∈ f, IsHex c) :
    fs.flatMap rawField = fs.flatMap decodeField :=
  List.flatMap_congr fun f hf => rawField_eq (h f hf)

theorem Complete.passable {size : ℕ} {text : List UInt8} (h : Complete size text) :
    Passable size 0 (fields [] text) := by
  refine ⟨?_, fun f hf => (h.hex f hf).1⟩
  rw [Nat.zero_add, ← length_flatMap_rawField, flatMap_rawField_eq fun f hf => (h.hex f hf).2, h.length]

/-! ## The scan of a text -/

/-- In the loop over the characters at position `p`: `part` was read of a field, and `cs` are left. -/
structure Inside (s : Locals) (p : ℕ) (part cs : List UInt8) : Prop where
  pos : p = s.fieldStart + part.length
  held : slice s.buf s.fieldStart (part.length + cs.length) = part ++ cs
  room : p + cs.length ≤ bufInitialSize
  stored : s.respPos ≤ s.fieldStart
  fieldEnd : s.fieldEnd ≤ p
  inResp : s.respPos ≤ s.resp.length

section Scan
variable {s : Locals} {p : ℕ} {part cs : List UInt8} {c : UInt8}

theorem Inside.digit (h : Inside s p part (c :: cs)) : Inside s (p + 1) (part ++ [c]) cs := by
  have hlen : (part ++ [c]).length = part.length + 1 := by rw [List.length_append, List.length_singleton]
  have hpos := h.pos
  have hroom := h.room
  have hheld := h.held
  rw [List.length_cons] at hroom hheld
  refine ⟨by omega, ?_, by omega, h.stored, h.fieldEnd.trans (Nat.le_succ p), h.inResp⟩
  rw [hlen, List.append_assoc, Nat.add_assoc, Nat.add_comm 1]
  exact hheld

/-- Behind a field that was stored. -/
def afterField (s : Locals) (p : ℕ) (part : List UInt8) : Locals :=
  { s with
    resp := memcpy s.resp s.respPos (rawField part)
    respPos := s.respPos + part.length / 2
    fieldStart := p + 1
    fieldEnd := p }

theorem Inside.copyField (h : Inside s p part cs) (size : ℕ) : copyField size s p =
    if s.respPos + part.length / 2 ≤ size ∧ part.length % 2 = 0 then some (afterField s p part) else none := by
  have hpos := h.pos
  have hroom := h.room
  have hstored := h.stored
  rw [bufInitialSize] at hroom
  exact copyField_eq h.pos (slice_eq_append h.held).1 (by omega) (by omega)

theorem Inside.afterField (h : Inside s p part (c :: cs)) (hfit : s.respPos + part.length / 2 ≤ s.resp.length) :
    Inside (afterField s p part) (p + 1) [] cs ∧ (afterField s p part).resp.length = s.resp.length := by
  have hpos := h.pos
  have hroom := h.room
  have hstored := h.stored
  have hlen := length_rawField part
  have hresp : (memcpy s.resp s.respPos (rawField part)).length = s.resp.length := length_memcpy (by omega)
  obtain ⟨-, hrest⟩ := slice_eq_append h.held
  rw [← hpos, List.length_cons] at hrest
  rw [List.length_cons] at hroom
  refine ⟨⟨rfl, ?_, by omega, ?_, Nat.le_succ p, ?_⟩, hresp⟩
  · rw [List.length_nil, Nat.zero_add]
    exact (slice_succ_eq_cons hrest).2
  · show s.respPos + part.length / 2 ≤ p + 1
    omega
  · show s.respPos + part.length / 2 ≤ (memcpy s.resp s.respPos (rawField part)).length
    omega

/-- The scan of a text: it stops at a field that does not pass, or stores all fields. -/
theorem Inside.scan (h : Inside s p part cs) :
    (¬ Passable s.resp.length s.respPos (fields part cs) ∧ scan s.resp.length s p cs = .undefined) ∨
    (Passable s.resp.length s.respPos (fields part cs) ∧
      ((0x1a ∈ cs ∧ scan s.resp.length s p cs =
          .returned 0 (memcpy s.resp s.respPos ((fields part cs).flatMap rawField))) ∨
        (0x1a ∉ cs ∧ ∃ s', scan s.resp.length s p cs = .more s' ∧ s'.buf = s.buf ∧ s'.bufPos = s.bufPos ∧
          s'.fieldEnd ≤ p + cs.length ∧ s'.resp.length = s.resp.length))) := by
  induction cs generalizing s p part with
  | nil =>
    refine .inr ⟨⟨?_, fun f hf => absurd hf List.not_mem_nil⟩, .inr ⟨List.not_mem_nil, s, rfl, rfl, rfl, h.fieldEnd, rfl⟩⟩
    exact h.inResp
  | cons c cs ih =>
    rw [DrscanRead.scan]
    by_cases hsep : isSeparator c
    · rw [extractField_of_separator hsep, h.copyField]
      by_cases hfit : s.respPos + part.length / 2 ≤ s.resp.length ∧ part.length % 2 = 0
      · obtain ⟨hnext, hlen⟩ := h.afterField hfit.1
        rw [if_pos hfit, Option.elim_some]
        by_cases hend : c = 0x1a
        · subst hend
          have hfields : fields part (0x1a :: cs) = [part] := by rw [fields, if_pos rfl]
          rw [hfields, if_pos rfl, List.flatMap_singleton]
          refine .inr ⟨⟨?_, ?_⟩, .inl ⟨List.mem_cons_self, rfl⟩⟩
          · simpa using hfit.1
          · simpa using hfit.2
        · have hspace : c = 0x20 := by
            simp only [isSeparator, Bool.or_eq_true, beq_iff_eq] at hsep
            exact hsep.resolve_right hend
          have hfields : fields part (c :: cs) = part :: fields [] cs := by
            rw [fields, if_neg hend, if_pos hspace]
          have hne : (0x1a : UInt8) ≠ c := fun heq => hend heq.symm
          have hmem : (0x1a ∈ c :: cs) ↔ 0x1a ∈ cs := by
            rw [List.mem_cons]
            exact or_iff_right hne
          have hstored : (memcpy (DrscanRead.afterField s p part).resp (DrscanRead.afterField s p part).respPos
              ((fields [] cs).flatMap rawField)) =
              memcpy s.resp s.respPos ((fields part (c :: cs)).flatMap rawField) := by
            have htwo := memcpy_memcpy (rawField part) ((fields [] cs).flatMap rawField) h.inResp
            rw [length_rawField] at htwo
            rw [hfields, List.flatMap_cons]
            exact htwo
          have hpass : Passable s.resp.length s.respPos (fields part (c :: cs)) ↔
              Passable s.resp.length (DrscanRead.afterField s p part).respPos (fields [] cs) := by
            rw [hfields, passable_cons]
            exact and_iff_right hfit.2
          have hrest := ih hnext
          rw [hlen, hstored, ← hpass] at hrest
          rw [if_neg hend, hmem, List.length_cons, Nat.add_comm cs.length, ← Nat.add_assoc]
          exact hrest
      · have hfields : ∃ fs, fields part (c :: cs) = part :: fs := by
          rw [fields]
          split_ifs with hend hspace
          · exact ⟨_, rfl⟩
          · exact ⟨_, rfl⟩
          · simp only [isSeparator, Bool.or_eq_true, beq_iff_eq] at hsep
            exact absurd hsep (not_or.mpr ⟨hspace, hend⟩)
        obtain ⟨fs, hfs⟩ := hfields
        left
        rw [if_neg hfit, hfs]
        refine ⟨fun hpass => hfit ⟨?_, hpass.2 part List.mem_cons_self⟩, rfl⟩
        have hsum := hpass.1
        rw [List.map_cons, List.sum_cons] at hsum
        omega
    · have hend : c ≠ 0x1a := by
        rintro rfl
        exact hsep rfl
      have hspace : c ≠ 0x20 := by
        rintro rfl
        exact hsep rfl
      have hfields : fields part (c :: cs) = fields (part ++ [c]) cs := by
        rw [fields, if_neg hend, if_neg hspace]
      have hmem : (0x1a ∈ c :: cs) ↔ 0x1a ∈ cs := by
        rw [List.mem_cons]
        exact or_iff_right fun heq => hend heq.symm
      have hrest := ih h.digit
      rw [extractField_of_not hsep, hfields, hmem, List.length_cons, Nat.add_comm cs.length, ← Nat.add_assoc]
      exact hrest

end Scan

/-! ## The whole function -/

section Read
variable {fresh : ℕ → UInt8} {resp text : List UInt8}

theorem readStep_start (fresh : ℕ → UInt8) (resp : List UInt8) {c : List UInt8} (hne : c ≠ [])
    (hlen : c.length ≤ bufInitialSize) : ∃ s : Locals, Inside s 0 [] c ∧ s.resp = resp ∧ s.respPos = 0 ∧ s.bufPos = 0 ∧
      s.buf.length = bufInitialSize ∧ readStep fresh resp.length (start fresh resp) (.data c) =
        (scan resp.length s 0 c).andThen fun s => compact s c.length := by
  have hbuf : (start fresh resp).buf.length = bufInitialSize := by
    simp only [start, List.length_map, List.length_range]
  have hgrow : grow fresh (start fresh resp) = start fresh resp := by
    rw [grow, hbuf, if_neg]
    exact (by decide : ¬ 0 ≥ bufInitialSize)
  have hpos : 0 < bufInitialSize := by decide
  have hsmall : bufInitialSize < 2 ^ 32 := by decide
  have hcopy : (memcpy (start fresh resp).buf 0 c).length = bufInitialSize := by
    rw [length_memcpy (by rw [Nat.zero_add, hbuf]; exact hlen), hbuf]
  refine ⟨{ start fresh resp with buf := memcpy (start fresh resp).buf 0 c }, ⟨rfl, ?_, ?_, le_rfl, le_rfl, ?_⟩,
    rfl, rfl, rfl, hcopy, ?_⟩
  · show slice (memcpy (start fresh resp).buf 0 c) 0 (0 + c.length) = c
    rw [Nat.zero_add]
    exact slice_memcpy _ 0 c (by rw [Nat.zero_add, hbuf]; exact hlen)
  · rw [Nat.zero_add]
    exact hlen
  · exact Nat.zero_le _
  · have hstep := readStep_data fresh resp.length (s := start fresh resp) (c := c)
      (by rw [hgrow, hbuf]; exact hpos) (by rw [hgrow, hbuf]; exact hlen) hne (by rw [hgrow, hbuf]; exact hsmall)
    rw [hgrow] at hstep
    exact hstep

theorem readStep_fails (fresh : ℕ → UInt8) (size : ℕ) {s : Locals} (hs : s.bufPos ≤ s.buf.length) {x : ReadResult}
    (hx : x = .data [] ∨ x = .error) : readStep fresh size s x = .returned (-1) s.resp := by
  obtain ⟨added, hgrow⟩ := grow_frame fresh s
  have hle : ¬ s.bufPos > (s.buf ++ added).length := by
    rw [List.length_append]
    omega
  unfold readStep
  obtain rfl | rfl := hx
  · simp only [hgrow, if_neg hle, List.length_nil, if_true]
    rw [if_neg (Nat.not_lt_zero _)]
  · simp only [hgrow, if_neg hle]

/-- The compaction behind a chunk that was scanned to its end. -/
theorem compact_more {s : Locals} {n : ℕ} (hbufPos : s.bufPos = 0) (hend : s.fieldEnd ≤ n) (hn : n ≤ s.buf.length)
    (hsmall : n < 2 ^ 32) : ∃ t, compact s n = .more t ∧ t.bufPos ≤ t.buf.length ∧ t.resp = s.resp := by
  refine ⟨{ s with
    buf := memcpy s.buf 0 (s.buf.drop s.fieldEnd)
    bufPos := Util.toUint (s.bufPos + n - s.fieldEnd)
    fieldStart := Util.toUint (s.fieldStart - s.fieldEnd) }, by rw [compact, if_neg (by omega)], ?_, rfl⟩
  have hpos : (s.bufPos : ℤ) + n - s.fieldEnd = (n - s.fieldEnd : ℕ) := by omega
  simp only [hpos]
  rw [Util.toUint_natCast (by omega), length_memcpy (by rw [List.length_drop]; omega)]
  omega

/-- A text with `0x1a`: it is accepted if its fields pass. -/
theorem jtagDrscanRead_ended (fresh : ℕ → UInt8) (resp : List UInt8) (hmem : 0x1a ∈ text)
    (hlen : text.length ≤ bufInitialSize) (rs : List ReadResult) :
    (¬ Passable resp.length 0 (fields [] text) ∧ jtagDrscanRead fresh resp resp.length (.data text :: rs) = .undefined) ∨
    (Passable resp.length 0 (fields [] text) ∧ jtagDrscanRead fresh resp resp.length (.data text :: rs) =
      .returned 0 (memcpy resp 0 ((fields [] text).flatMap rawField))) := by
  obtain ⟨s, hs, rfl, hrespPos, -, -, hstep⟩ := readStep_start fresh resp (List.ne_nil_of_mem hmem) hlen
  obtain ⟨hno, hscan⟩ | ⟨hpass, ⟨-, hscan⟩ | ⟨hnot, -⟩⟩ := hs.scan
  · rw [hrespPos] at hno
    refine .inl ⟨hno, ?_⟩
    rw [jtagDrscanRead, readLoop_cons, hstep, hscan]
    rfl
  · rw [hrespPos] at hpass hscan
    refine .inr ⟨hpass, ?_⟩
    rw [jtagDrscanRead, readLoop_cons, hstep, hscan]
    rfl
  · exact absurd hmem hnot

/-- A text without `0x1a`: the function fails behind it, if its fields pass. -/
theorem jtagDrscanRead_cut (fresh : ℕ → UInt8) (resp : List UInt8) (hmem : 0x1a ∉ text) (hne : text ≠ [])
    (hlen : text.length ≤ bufInitialSize) {x : ReadResult} (hx : x = .data [] ∨ x = .error) :
    (¬ Passable resp.length 0 (fields [] text) ∧ jtagDrscanRead fresh resp resp.length [.data text, x] = .undefined) ∨
    (Passable resp.length 0 (fields [] text) ∧ ∃ resp', resp'.length = resp.length ∧
      jtagDrscanRead fresh resp resp.length [.data text, x] = .returned (-1) resp') := by
  obtain ⟨s, hs, rfl, hrespPos, hbufPos, hbuf, hstep⟩ := readStep_start fresh resp hne hlen
  obtain ⟨hno, hscan⟩ | ⟨hpass, ⟨hin, -⟩ | ⟨-, s', hscan, hbuf', hbufPos', hend, hresp⟩⟩ := hs.scan
  · rw [hrespPos] at hno
    refine .inl ⟨hno, ?_⟩
    rw [jtagDrscanRead, readLoop_cons, hstep, hscan]
    rfl
  · exact absurd hin hmem
  · rw [hrespPos] at hpass
    rw [Nat.zero_add] at hend
    have hsmall : bufInitialSize < 2 ^ 32 := by decide
    obtain ⟨t, hcompact, hroom, htresp⟩ := compact_more (hbufPos'.trans hbufPos) hend
      (by rw [hbuf', hbuf]; exact hlen) (hlen.trans_lt hsmall)
    refine .inr ⟨hpass, t.resp, by rw [htresp, hresp], ?_⟩
    rw [jtagDrscanRead, readLoop_cons, hstep, hscan]
    simp only [Outcome.andThen, hcompact]
    rw [readLoop_cons, readStep_fails fresh _ hroom hx]
    rfl

theorem honest_iff_ended (hmem : 0x1a ∈ text) (hlen : text.length ≤ bufInitialSize) (rs : List ReadResult) :
    (∃ rv resp', jtagDrscanRead fresh resp resp.length (.data text :: rs) = .returned rv resp' ∧
      resp'.length = resp.length ∧
        (rv = 0 → Complete resp.length text ∧ resp' = (fields [] text).flatMap decodeField)) ↔
      Complete resp.length text := by
  have hrun := jtagDrscanRead_ended fresh resp hmem hlen rs
  constructor
  · rintro ⟨rv, resp', heq, -, hzero⟩
    obtain ⟨-, hundef⟩ | ⟨-, hret⟩ := hrun
    · rw [hundef] at heq
      cases heq
    · rw [hret] at heq
      obtain ⟨rfl, -⟩ := Outcome.returned.inj heq
      exact (hzero rfl).1
  · intro h
    obtain ⟨hno, -⟩ | ⟨-, hret⟩ := hrun
    · exact absurd h.passable hno
    · have hraw : (fields [] text).flatMap rawField = (fields [] text).flatMap decodeField :=
        flatMap_rawField_eq fun f hf => (h.hex f hf).2
      have hall : memcpy resp 0 ((fields [] text).flatMap rawField) = (fields [] text).flatMap decodeField := by
        rw [hraw, memcpy, List.take_zero, List.nil_append, Nat.zero_add, h.length, List.drop_length, List.append_nil]
      refine ⟨0, _, hret, ?_, fun _ => ⟨h, hall⟩⟩
      rw [hall, h.length]

theorem honest_iff_cut (hmem : 0x1a ∉ text) (hne : text ≠ []) (hlen : text.length ≤ bufInitialSize) {x : ReadResult}
    (hx : x = .data [] ∨ x = .error) (P : List UInt8 → Prop) :
    (∃ rv resp', jtagDrscanRead fresh resp resp.length [.data text, x] = .returned rv resp' ∧
      resp'.length = resp.length ∧ (rv = 0 → P resp')) ↔ Passable resp.length 0 (fields [] text) := by
  have hrun := jtagDrscanRead_cut fresh resp hmem hne hlen hx
  constructor
  · rintro ⟨rv, resp', heq, -⟩
    obtain ⟨-, hundef⟩ | ⟨hpass, -⟩ := hrun
    · rw [hundef] at heq
      cases heq
    · exact hpass
  · intro h
    obtain ⟨hno, -⟩ | ⟨-, resp', hlen', hret⟩ := hrun
    · exact absurd h hno
    · exact ⟨-1, resp', hret, hlen', fun hzero => absurd hzero (by decide)⟩

theorem honest_iff_failed (hlen : text.length ≤ bufInitialSize) {x : ReadResult} (hx : x = .data [] ∨ x = .error) :
    (∃ rv resp', jtagDrscanRead fresh resp resp.length (if text = [] then [x] else [.data text, x]) =
        .returned rv resp' ∧ resp'.length = resp.length ∧
        (rv = 0 → Complete resp.length text ∧ resp' = (fields [] text).flatMap decodeField)) ↔
      if 0x1a ∈ text then Complete resp.length text else Passable resp.length 0 (fields [] text) := by
  by_cases hnil : text = []
  · subst hnil
    have hstep := readStep_fails fresh resp.length (s := start fresh resp) (Nat.zero_le _) hx
    have hpass : Passable resp.length 0 (fields [] []) := ⟨Nat.zero_le _, fun f hf => absurd hf List.not_mem_nil⟩
    rw [if_pos rfl, if_neg List.not_mem_nil]
    refine ⟨fun _ => hpass, fun _ => ⟨-1, resp, ?_, rfl, fun hzero => absurd hzero (by decide)⟩⟩
    rw [jtagDrscanRead, readLoop_cons, hstep]
    rfl
  · rw [if_neg hnil]
    by_cases hmem : 0x1a ∈ text
    · rw [if_pos hmem]
      exact honest_iff_ended hmem hlen [x]
    · rw [if_neg hmem]
      exact honest_iff_cut hmem hnil hlen hx _

/-- **Complete responses.** For every text in one chunk and each of its endings: the function is honest if and
only if the response is complete or, where it has not ended, its fields pass the assertions. -/
theorem honest_iff (fresh : ℕ → UInt8) (resp text : List UInt8) (e : Ending)
    (hlen : (received text e).length ≤ bufInitialSize) :
    Honest fresh resp text e ↔
      if 0x1a ∈ received text e then Complete resp.length (received text e)
      else Passable resp.length 0 (fields [] (received text e)) := by
  cases e with
  | eot =>
    have hmem : 0x1a ∈ received text .eot := List.mem_append_right _ (List.mem_singleton.mpr rfl)
    rw [if_pos hmem]
    exact honest_iff_ended hmem hlen []
  | eof => exact honest_iff_failed hlen (.inl rfl)
  | error => exact honest_iff_failed hlen (.inr rfl)

theorem one_field_honest : (received [0x61, 0x62] .eot).length ≤ bufInitialSize ∧
    Honest (fun _ => 0) [0] [0x61, 0x62] .eot :=
  ⟨by decide, (honest_iff (fun _ => 0) [0] [0x61, 0x62] .eot (by decide)).mpr (by decide)⟩

/-- `ab` for two bytes: 0 is returned, and the second byte is an old one. -/
theorem short_response_not_honest : ¬ Honest (fun _ => 0) [0, 7] [0x61, 0x62] .eot := by
  intro h
  have hcomplete := (honest_iff_ended (by decide) (by decide) []).mp h
  exact absurd hcomplete.length (by decide)

end Read

end GlipOsd.Jtag.DrscanRead
