import GlipOsd.Jtag.ChunkingExact
import GlipOsd.Jtag.DrscanWrite

/-! # A request and its echo

The digits that `jtag_drscan_write` writes for a request, sent back as they are, are read by
`jtag_drscan_read` as the request.
-/

namespace GlipOsd.Jtag.DrscanRoundTrip
open Bytes DrscanRead
set_option autoImplicit false

/-! ## The echo -/

/-- The digits of the fields, separated by spaces and ended by `0x1a`. -/
def echo : List ScanField → List UInt8
  | [] => [0x1a]
  | [f] => f.digits ++ [0x1a]
  | f :: fs => f.digits ++ 0x20 :: echo fs

/-- All of `text` is there: each of at most `n` calls of `read` returns as much of it as `buf` has room for. -/
def readAll (fresh : ℕ → UInt8) (size : ℕ) : ℕ → Locals → List UInt8 → Outcome
  | 0, s, _ => .more s
  | n + 1, s, text =>
    let room := (grow fresh s).buf.length - (grow fresh s).bufPos
    (readStep fresh size s (.data (text.take room))).andThen fun s => readAll fresh size n s (text.drop room)

/-- What is written for `req`, and what is read when its fields come back. -/
structure Inverse (req : List UInt8) : Prop where
  written : jtagDrscanWrite req =
    some (0, ascii "drscan or1k.fifo " ++ (scanFields req).flatMap ScanField.text ++ [0x1a])
  numBits : ((scanFields req).map ScanField.numBits).sum = 8 * req.length
  field : ∀ f ∈ scanFields req, f.numBits ≤ 32 ∧ f.digits.length = f.numBits / 4 ∧ ∀ c ∈ f.digits, IsHex c
  value : ∃ parts : List (List UInt8), parts.flatten = req ∧
    List.Forall₂ (fun f bytes => f.numBits = 8 * bytes.length ∧ f.value = leValue bytes) (scanFields req) parts
  read : ∀ fresh resp, resp.length = req.length → ∀ n, (echo (scanFields req)).length ≤ n →
    readAll fresh req.length n (start fresh resp) (echo (scanFields req)) = .returned 0 req
  /-- Where one `read` has room for all of it. -/
  read_once : (echo (scanFields req)).length ≤ bufInitialSize → ∀ fresh resp, resp.length = req.length →
    jtagDrscanRead fresh resp req.length [.data (echo (scanFields req))] = .returned 0 req

/-! ## Stretches without a separator -/

/-- No stretch of more than `k` characters is without a separator. -/
def Dense (k : ℕ) (text : List UInt8) : Prop :=
  ∀ w, w <:+: text → w.any isSeparator = false → w.length ≤ k

theorem infix_or_infix {α : Type*} {w a b : List α} {c : α} (h : w <:+: a ++ c :: b) (hc : c ∉ w) :
    w <:+: a ∨ w <:+: b := by
  have hfront {a : List α} (h : w <+: a ++ c :: b) : w <+: a := by
    obtain hle | ⟨t, rfl⟩ := List.prefix_or_prefix_of_prefix h (List.prefix_append a (c :: b))
    · exact hle
    · have htail := (List.prefix_append_right_inj a).mp h
      cases t with
      | nil => rw [List.append_nil]
      | cons d t =>
        obtain ⟨rfl, -⟩ := List.cons_prefix_cons.mp htail
        exact absurd (List.mem_append_right a List.mem_cons_self) hc
  induction a with
  | nil =>
    obtain h | h := List.infix_cons_iff.mp h
    · exact Or.inl (hfront (a := []) h).isInfix
    · exact Or.inr h
  | cons x a ih =>
    obtain h | h := List.infix_cons_iff.mp h
    · exact Or.inl (hfront (a := x :: a) h).isInfix
    · exact (ih h).imp_left fun hw => hw.trans (List.suffix_cons x a).isInfix

theorem dense_append {k : ℕ} {part text : List UInt8} {c : UInt8} (hc : isSeparator c = true)
    (hpart : part.length ≤ k) (htext : Dense k text) : Dense k (part ++ c :: text) := by
  intro w hw hsep
  have hmem : c ∉ w := by
    intro hmem
    have hany : w.any isSeparator = true := List.any_eq_true.mpr ⟨c, hmem, hc⟩
    rw [hsep] at hany
    cases hany
  obtain hw | hw := infix_or_infix hw hmem
  · exact hw.length_le.trans hpart
  · exact htext w hw hsep

theorem dense_nil (k : ℕ) : Dense k [] := by
  intro w hw _
  have hle := hw.length_le
  rw [List.length_nil] at hle
  omega

theorem dense_fields {k : ℕ} {x : Field} {xs : List Field} (hx : x.digits.length ≤ k)
    (hxs : ∀ y ∈ xs, y.digits.length ≤ k) : Dense k (x.digits ++ Response.textAfter xs) := by
  induction xs generalizing x with
  | nil => exact dense_append (by decide) hx (dense_nil k)
  | cons y ys ih =>
    have hrest := ih (hxs y List.mem_cons_self) fun z hz => hxs z (List.mem_cons_of_mem y hz)
    exact dense_append (by decide) hx hrest

/-! ## All of a response at once -/

section Response
variable {r : Response} {before rest part bytes : List UInt8} {seen : Bool} {s : Locals}

theorem mem_textAfter (xs : List Field) : 0x1a ∈ Response.textAfter xs := by
  induction xs with
  | nil => exact List.mem_cons_self
  | cons x xs ih => exact List.mem_cons_of_mem _ (List.mem_append_right _ ih)

theorem mem_rest (h : Remains part rest bytes) : 0x1a ∈ rest := by
  obtain ⟨x, xs, tail, -, rfl, -⟩ := h
  exact List.mem_append_right _ (mem_textAfter xs)

theorem grow_of_lt (fresh : ℕ → UInt8) (h : s.bufPos < s.buf.length) : grow fresh s = s := by
  rw [grow, if_neg (by omega)]

/-- The field in progress is short, so there is room for a long chunk. -/
theorem bufPos_le (h : Ready r before seen s rest part bytes) {k : ℕ} (hdense : Dense k r.text)
    (hpart : part <:+: r.text) : s.bufPos ≤ k + 1 := by
  have hpos := h.scanning.pos
  have hstart : s.fieldStart ≤ 1 := by
    obtain ⟨-, h0, -⟩ | ⟨-, h1, -⟩ := h.cursors <;> omega
  have hsep : part.any isSeparator = false := by
    rw [List.any_eq_false]
    intro c hc
    rw [(h.scanning.remains.hex c hc).not_isSeparator]
    exact Bool.false_ne_true
  have hlen := hdense part hpart hsep
  omega

/-- The chunk that a `read` returns contains a separator. -/
theorem any_take {room k : ℕ} {consumed : List UInt8} (h : Remains part rest bytes)
    (htext : consumed ++ rest = r.text) (hdense : Dense k r.text) (hroom : k < room) :
    (rest.take room).any isSeparator = true := by
  by_contra hsep
  rw [Bool.not_eq_true] at hsep
  have hinfix : rest.take room <:+: r.text :=
    htext ▸ (List.take_prefix room rest).isInfix.trans (List.suffix_append consumed rest).isInfix
  have hle := hdense _ hinfix hsep
  rw [List.length_take] at hle
  have hall : rest.take room = rest := List.take_of_length_le (by omega)
  have hany : rest.any isSeparator = true := List.any_eq_true.mpr ⟨0x1a, mem_rest h, by decide⟩
  rw [hall, hany] at hsep
  cases hsep

/-- By induction on the calls of `read`; each leaves less of the text. -/
theorem readAll_eq (h : Ready r before seen s rest part bytes) {k : ℕ} (hk : k + 1 + k < bufInitialSize)
    (hr : r.text.length < 2 ^ 30) (hdense : Dense k r.text) {consumed : List UInt8}
    (htext : consumed ++ rest = r.text) (hpart : part <:+ consumed) (fresh : ℕ → UInt8) {n : ℕ}
    (hn : rest.length ≤ n) : readAll fresh r.decoded.length n s rest = .returned 0 r.decoded := by
  induction n generalizing seen s rest part bytes consumed with
  | zero => exact absurd (List.eq_nil_of_length_eq_zero (Nat.le_zero.mp hn)) h.scanning.remains.rest_ne_nil
  | succ n ih =>
    have hinfix : part <:+: r.text := htext ▸ (hpart.isInfix.trans (List.prefix_append consumed rest).isInfix)
    have hpos := bufPos_le h hdense hinfix
    have hblock := h.scanning.block.1
    have hne := h.scanning.remains.rest_ne_nil
    have hgrow : grow fresh s = s := grow_of_lt fresh (by omega)
    obtain ⟨room, hroom⟩ : ∃ room, s.buf.length - s.bufPos = room := ⟨_, rfl⟩
    have hchunk : rest.take room ++ rest.drop room = rest := List.take_append_drop room rest
    have hlong : 0 < rest.length := List.length_pos_of_ne_nil hne
    have hfit : readStep fresh r.decoded.length s (.data (rest.take room)) ≠ .excess := by
      apply readStep_ne_excess
      intro _
      rw [ReadResult.chars, List.length_take]
      omega
    have hready : Ready r before seen s (rest.take room ++ rest.drop room) part bytes := hchunk.symm ▸ h
    have hnonempty : rest.take room ≠ [] := by
      apply List.ne_nil_of_length_pos
      rw [List.length_take]
      omega
    have hany : (rest.take room).any isSeparator = true :=
      any_take h.scanning.remains htext hdense (by omega)
    rw [readAll]
    simp only [hgrow, hroom]
    obtain ⟨-, hret⟩ | ⟨-, s', part', bytes', hmore, hs', hsuffix⟩ :=
      hready.next hr hnonempty (Or.inr hany) fresh hfit
    · rw [hret]
      rfl
    · rw [hmore]
      have htext' : (consumed ++ rest.take room) ++ rest.drop room = r.text := by
        rw [List.append_assoc, hchunk, htext]
      have hpart' : part' <:+ consumed ++ rest.take room := by
        obtain ⟨t, rfl⟩ := hpart
        rw [List.append_assoc]
        exact hsuffix.trans (List.suffix_append t _)
      refine ih hs' htext' hpart' ?_
      rw [List.length_drop]
      omega

theorem read_once_eq (hr : r.text.length < 2 ^ 30) (hfit : r.text.length ≤ bufInitialSize) (fresh : ℕ → UInt8)
    {resp : List UInt8} (hresp : resp.length = r.decoded.length) :
    jtagDrscanRead fresh resp r.decoded.length [.data r.text] = .returned 0 r.decoded := by
  have hready := ready_start r fresh hresp
  have hlen : (start fresh resp).buf.length = bufInitialSize := by
    simp only [start, List.length_map, List.length_range]
  have hstep : readStep fresh r.decoded.length (start fresh resp) (.data r.text) ≠ .excess := by
    apply readStep_ne_excess
    intro _
    rw [ReadResult.chars, hlen]
    exact (Nat.zero_add _).le.trans hfit
  have hall : Ready r resp false (start fresh resp) (r.text ++ []) [] r.decoded := by
    rw [List.append_nil]
    exact hready
  obtain ⟨-, hret⟩ | ⟨hmem, -⟩ := hall.next hr r.remains.rest_ne_nil (Or.inl rfl) fresh hstep
  · rw [jtagDrscanRead, readLoop_cons, hret]
    rfl
  · exact absurd (mem_rest r.remains) hmem

end Response

/-! ## The fields of a request -/

theorem exists_fields (req : List UInt8) : ∃ xs : List Field,
    xs.map Field.digits = (scanFields req).map ScanField.digits ∧ xs.flatMap Field.bytes = req ∧
      ∀ x ∈ xs, x.digits.length ≤ 8 := by
  induction req using scanFields.induct with
  | case1 => exact ⟨[], by rw [scanFields_nil]; rfl, rfl, fun x hx => absurd hx List.not_mem_nil⟩
  | case2 req hne ih =>
    obtain ⟨xs, hdigits, hbytes, hlen⟩ := ih
    have htake : req.take oocdMaxFieldSize ≠ [] := by
      simpa [oocdMaxFieldSize] using hne
    obtain ⟨x, hx, hxbytes⟩ := exists_field htake
    refine ⟨x :: xs, ?_, ?_, ?_⟩
    · rw [scanFields_cons hne, List.map_cons, List.map_cons, hx, hdigits]
    · rw [List.flatMap_cons, hxbytes, hbytes, List.take_append_drop]
    · intro y hy
      obtain rfl | hy := List.mem_cons.mp hy
      · have hfour := List.length_take_le oocdMaxFieldSize req
        rw [oocdMaxFieldSize] at hfour
        rw [hx, length_scanField_digits, oocdMaxFieldSize]
        omega
      · exact hlen y hy

theorem echo_eq {f : ScanField} {fs : List ScanField} {x : Field} {xs : List Field} (hx : x.digits = f.digits)
    (hxs : xs.map Field.digits = fs.map ScanField.digits) :
    echo (f :: fs) = x.digits ++ Response.textAfter xs := by
  induction fs generalizing f x xs with
  | nil =>
    obtain rfl := List.map_eq_nil_iff.mp hxs
    rw [echo, hx, Response.textAfter]
  | cons g gs ih =>
    cases xs with
    | nil => cases hxs
    | cons y ys =>
      obtain ⟨hy, hys⟩ := List.cons.inj hxs
      rw [echo, ih hy hys, hx, Response.textAfter]
      exact List.cons_ne_nil g gs

theorem exists_response {req : List UInt8} (h : req ≠ []) :
    ∃ r : Response, r.text = echo (scanFields req) ∧ r.decoded = req ∧ Dense 8 r.text := by
  obtain ⟨fields, hdigits, hbytes, hlen⟩ := exists_fields req
  rw [scanFields_cons h] at hdigits ⊢
  cases fields with
  | nil => cases hdigits
  | cons x xs =>
    obtain ⟨hx, hxs⟩ := List.cons.inj hdigits
    refine ⟨⟨x, xs⟩, (echo_eq hx hxs).symm, ?_, ?_⟩
    · rw [← hbytes, List.flatMap_cons, Response.decoded]
    · exact dense_fields (hlen x List.mem_cons_self) fun y hy => hlen y (List.mem_cons_of_mem x hy)

theorem sum_numBits (req : List UInt8) : ((scanFields req).map ScanField.numBits).sum = 8 * req.length := by
  induction req using scanFields.induct with
  | case1 => rw [scanFields_nil]; rfl
  | case2 req hne ih =>
    have hfirst : (scanField (req.take oocdMaxFieldSize)).numBits = (req.take oocdMaxFieldSize).length * 8 := rfl
    have hlen : (req.take oocdMaxFieldSize).length + (req.drop oocdMaxFieldSize).length = req.length := by
      rw [← List.length_append, List.take_append_drop]
    rw [scanFields_cons hne, List.map_cons, List.sum_cons, ih, hfirst]
    omega

theorem exists_parts (req : List UInt8) : ∃ parts : List (List UInt8), parts.flatten = req ∧
    List.Forall₂ (fun f bytes => f.numBits = 8 * bytes.length ∧ f.value = leValue bytes) (scanFields req) parts := by
  induction req using scanFields.induct with
  | case1 => exact ⟨[], rfl, by rw [scanFields_nil]; exact .nil⟩
  | case2 req hne ih =>
    obtain ⟨parts, hparts, hall⟩ := ih
    refine ⟨req.take oocdMaxFieldSize :: parts, ?_, ?_⟩
    · rw [List.flatten_cons, hparts, List.take_append_drop]
    · rw [scanFields_cons hne]
      exact .cons ⟨Nat.mul_comm _ _, value_scanField _⟩ hall

theorem length_echo_le (fs : List ScanField) : (echo fs).length ≤ (fs.flatMap ScanField.text).length + 1 := by
  have htext (f : ScanField) : f.digits.length + 1 ≤ f.text.length := by
    have hspace : (ascii " ").length = 1 := rfl
    rw [ScanField.text, List.length_append, List.length_append, hspace]
    omega
  induction fs using echo.induct with
  | case1 => exact le_rfl
  | case2 f =>
    have hf := htext f
    rw [echo, List.length_append, List.length_singleton, List.flatMap_singleton]
    omega
  | case3 f fs hfs ih =>
    have hf := htext f
    rw [echo, List.length_append, List.length_cons, List.flatMap_cons, List.length_append]
    · omega
    · exact hfs

/-- **Round trip.** A request that fits the buffer of the command is written in fields of at most 32 bits,
and their digits are read as the request. -/
theorem drscan_inverse (req : List UInt8) (hpos : 1 ≤ req.length)
    (hcmd : (command (scanFields req)).length ≤ oocdCmdMaxlen) : Inverse req := by
  obtain ⟨r, htext, hdecoded, hdense⟩ := exists_response (List.ne_nil_of_length_pos hpos)
  have hlen := length_echo_le (scanFields req)
  have hr : r.text.length < 2 ^ 30 := by
    rw [command, List.length_append, List.length_append, oocdCmdMaxlen] at hcmd
    rw [htext]
    omega
  refine ⟨jtagDrscanWrite_of_le hcmd, sum_numBits req, ?_, exists_parts req, ?_, ?_⟩
  · intro f hf
    obtain ⟨bytes, hne, hfour, rfl⟩ := mem_scanFields hf
    obtain ⟨⟨-, hbits⟩, ⟨-, hhex⟩, -⟩ := scanField_valid hne hfour
    refine ⟨hbits, ?_, hhex⟩
    rw [length_scanField_digits]
    show 2 * bytes.length = bytes.length * 8 / 4
    omega
  · intro fresh resp hresp n hn
    have hready := ready_start r fresh (hresp.trans (congrArg List.length hdecoded.symm))
    have hread := readAll_eq hready (by decide) hr hdense (List.nil_append r.text) List.suffix_rfl fresh
      (htext.symm ▸ hn)
    rwa [hdecoded, htext] at hread
  · intro hfit fresh resp hresp
    have hread := read_once_eq hr (htext.symm ▸ hfit) fresh (hresp.trans (congrArg List.length hdecoded.symm))
    rwa [hdecoded, htext] at hread

theorem five_bytes_inverse : Inverse [1, 2, 3, 4, 5] :=
  drscan_inverse [1, 2, 3, 4, 5] (by decide) ((length_command_le _).trans (by decide))

end GlipOsd.Jtag.DrscanRoundTrip
