import GlipOsd.CircularBuffer.Model
import GlipOsd.Foundations.Refinement

/-! # The circular buffer is a bounded queue

`Queue` is what the buffer is for: a queue of at most `cap` bytes, and the block handed out by the
last reservation. `Rep k buf q` says that `buf`, of size `2 ^ k`, stores the bytes `q`: the two
pointers are `q.length` apart modulo twice the size and the cells from the read pointer on read
`q`. Every operation has one specification lemma in these terms; callers use these and never
unfold the operations.
-/

namespace GlipOsd.CircularBuffer
open Memory Mirror
set_option autoImplicit false

/-! ## Representation -/

/-- `buf` has `2 ^ k` cells and stores the bytes `q`. -/
structure Rep (k : ℕ) (buf : Cbuf) (q : List UInt8) : Prop where
  size_eq : buf.size = 2 ^ k
  length_data : buf.data.length = buf.size
  rd_lt : buf.rdPtr < 2 * buf.size
  wr_eq : buf.wrPtr = (buf.rdPtr + q.length) % (2 * buf.size)
  fits : q.length ≤ buf.size
  reads : RingReads buf.data buf.rdPtr q

theorem rep_cbufInit (k : ℕ) : Rep k (cbufInit (2 ^ k)) [] where
  size_eq := rfl
  length_data := List.length_replicate
  rd_lt := by simp [cbufInit]
  wr_eq := by simp [cbufInit]
  fits := Nat.zero_le _
  reads := by intro i hi; simp at hi

namespace Rep
variable {k : ℕ} {buf : Cbuf} {q : List UInt8}

theorem size_pos (h : Rep k buf q) : 0 < buf.size := h.size_eq ▸ Nat.two_pow_pos k

theorem size_le (h : Rep k buf q) {n : ℕ} (hk : k ≤ n) : buf.size ≤ 2 ^ n :=
  h.size_eq ▸ Nat.pow_le_pow_right (by norm_num) hk

theorem wr_lt (h : Rep k buf q) : buf.wrPtr < 2 * buf.size := by
  rw [h.wr_eq]
  exact Nat.mod_lt _ (by have := h.size_pos; omega)

theorem rd_cell (h : Rep k buf q) : buf.rdPtr &&& (buf.size - 1) = buf.rdPtr % buf.data.length := by
  rw [h.length_data, mask_cell h.size_eq]

/-- The cell of the write pointer follows the stored bytes. -/
theorem wr_cell (h : Rep k buf q) :
    buf.wrPtr &&& (buf.size - 1) = (buf.rdPtr + q.length) % buf.data.length := by
  rw [h.length_data, mask_cell h.size_eq, h.wr_eq, mod_mod_mirror]

theorem wr_cell_lt (h : Rep k buf q) : buf.wrPtr &&& (buf.size - 1) < buf.size := by
  rw [h.wr_cell, h.length_data]
  exact Nat.mod_lt _ h.size_pos

theorem rd_cell_lt (h : Rep k buf q) : buf.rdPtr &&& (buf.size - 1) < buf.size := by
  rw [h.rd_cell, h.length_data]
  exact Nat.mod_lt _ h.size_pos

/-! ## Levels -/

theorem isEmpty_iff (h : Rep k buf q) : cbufIsEmpty buf = true ↔ q.length = 0 := by
  rw [cbufIsEmpty, beq_iff_eq, h.wr_eq, ← pointer_eq_iff h.size_pos h.fits (a := buf.rdPtr),
    Nat.mod_eq_of_lt h.rd_lt]

theorem isFull_iff (h : Rep k buf q) : cbufIsFull buf = true ↔ q.length = buf.size := by
  rw [cbufIsFull, beq_iff_eq, xor_mirror h.size_eq h.rd_lt, h.wr_eq,
    pointer_eq_mirror_iff h.size_pos h.fits]

theorem fillLevel_eq (h : Rep k buf q) : cbufFillLevel buf = q.length := by
  unfold cbufFillLevel
  by_cases hfull : cbufIsFull buf = true
  · rw [if_pos hfull, h.isFull_iff.mp hfull]
  · rw [if_neg hfull]
    have hlt : q.length < buf.size :=
      lt_of_le_of_ne h.fits fun e => hfull (h.isFull_iff.mpr e)
    have hdist := cell_distance (a := buf.rdPtr) hlt
    rw [mask_cell h.size_eq, mask_cell h.size_eq, h.wr_eq, mod_mod_mirror]
    rcases hdist with hd | hd <;> rw [hd] <;> simp only
    · rw [if_neg (by omega), Int.toNat_natCast]
    · rw [if_pos (by omega)]
      omega

theorem freeLevel_eq (h : Rep k buf q) : cbufFreeLevel buf = buf.size - q.length := by
  rw [cbufFreeLevel, h.fillLevel_eq]

theorem unique (h : Rep k buf q) {k' : ℕ} {q' : List UInt8} (h' : Rep k' buf q') : q = q' := by
  have hlen : q.length = q'.length := h.fillLevel_eq.symm.trans h'.fillLevel_eq
  apply List.ext_getElem?
  intro i
  by_cases hi : i < q.length
  · rw [← h.reads i hi, ← h'.reads i (hlen ▸ hi)]
  · rw [List.getElem?_eq_none (by omega), List.getElem?_eq_none (by omega)]

/-! ## Moving the pointers -/

theorem advanceWrPtr (h : Rep k buf q) (xs : List UInt8) (hfit : q.length + xs.length ≤ buf.size)
    (hxs : RingReads buf.data (buf.rdPtr + q.length) xs) :
    Rep k (advanceWrPtr buf xs.length) (q ++ xs) where
  size_eq := h.size_eq
  length_data := h.length_data
  rd_lt := h.rd_lt
  wr_eq := by
    simp only [CircularBuffer.advanceWrPtr, cbufPtrAdd]
    rw [mask_pointer h.size_eq, h.wr_eq, mod_pointer_add, List.length_append, Nat.add_assoc]
  fits := by rw [List.length_append]; exact hfit
  reads := h.reads.append hxs

theorem advanceRdPtr (h : Rep k buf q) {n : ℕ} (hn : n ≤ q.length) :
    Rep k (advanceRdPtr buf n) (q.drop n) where
  size_eq := h.size_eq
  length_data := h.length_data
  rd_lt := by
    simp only [CircularBuffer.advanceRdPtr, cbufPtrAdd]
    rw [mask_pointer h.size_eq]
    exact Nat.mod_lt _ (by have := h.size_pos; omega)
  wr_eq := by
    simp only [CircularBuffer.advanceRdPtr, cbufPtrAdd]
    rw [mask_pointer h.size_eq, mod_pointer_add, h.wr_eq, List.length_drop]
    congr 1
    omega
  fits := by
    have := h.fits
    rw [List.length_drop]
    exact (Nat.sub_le _ _).trans this
  reads := by
    have hcell : cbufPtrAdd buf buf.rdPtr n % buf.data.length =
        (buf.rdPtr + n) % buf.data.length := by
      rw [cbufPtrAdd, mask_pointer h.size_eq, h.length_data, mod_mod_mirror]
    exact (ringReads_mod hcell).mpr (h.reads.drop n)

/-- Copying into the free cells leaves the stored bytes alone. -/
theorem ringWrite (h : Rep k buf q) {xs : List UInt8} (hfit : q.length + xs.length ≤ buf.size) :
    Rep k { buf with data := Memory.ringWrite buf.data (buf.wrPtr &&& (buf.size - 1)) xs } q where
  size_eq := h.size_eq
  length_data := by
    rw [length_ringWrite (by rw [h.length_data]; exact h.wr_cell_lt)
      (by have := h.length_data; omega)]
    exact h.length_data
  rd_lt := h.rd_lt
  wr_eq := h.wr_eq
  fits := h.fits
  reads := h.reads.ringWrite 0 h.wr_cell (by have := h.size_pos; have := h.length_data; omega)
    (by have := h.length_data; omega)

/-- Copying `xs` into the free cells makes them readable after the stored bytes. -/
theorem reads_ringWrite (h : Rep k buf q) {xs : List UInt8}
    (hfit : q.length + xs.length ≤ buf.size) :
    RingReads (Memory.ringWrite buf.data (buf.wrPtr &&& (buf.size - 1)) xs)
      (buf.rdPtr + q.length) xs := by
  have hlen := h.length_data
  have hc : buf.wrPtr &&& (buf.size - 1) < buf.data.length := hlen ▸ h.wr_cell_lt
  have hx : xs.length ≤ buf.data.length := by omega
  refine (ringReads_mod ?_).mpr (ringReads_ringWrite hc hx)
  rw [length_ringWrite hc hx, h.wr_cell, Nat.mod_mod]

end Rep

/-! ## The operations -/

section Operations
variable {k : ℕ} {buf : Cbuf} {q : List UInt8}

theorem cbufWrite_refused (h : Rep k buf q) {data : List UInt8}
    (hfit : buf.size < q.length + data.length) : cbufWrite buf data = (.error .EINVAL, buf) := by
  have := h.fits
  simp only [cbufWrite, h.freeLevel_eq]
  rw [if_pos (by omega)]

theorem cbufWrite_ok (h : Rep k buf q) (data : List UInt8)
    (hfit : q.length + data.length ≤ buf.size) :
    (cbufWrite buf data).1 = .ok () ∧ Rep k (cbufWrite buf data).2 (q ++ data) := by
  have hcells : (cbufWrite buf data) = (.ok (), advanceWrPtr
      { buf with data := ringWrite buf.data (buf.wrPtr &&& (buf.size - 1)) data } data.length) := by
    simp only [cbufWrite, h.freeLevel_eq, ringWrite, h.length_data]
    rw [if_neg (by omega)]
  rw [hcells]
  exact ⟨rfl, (h.ringWrite hfit).advanceWrPtr data hfit (h.reads_ringWrite hfit)⟩

theorem cbufRead_refused (h : Rep k buf q) {size : ℕ} (hsize : q.length < size) :
    cbufRead buf size = (.error .EINVAL, buf) := by
  simp only [cbufRead, h.fillLevel_eq]
  rw [if_neg (by omega), if_pos hsize]

theorem intToSize_of_lt {x : ℕ} (h : x < 2 ^ 31) : intToSize x = x := by
  unfold intToSize
  rw [Nat.mod_eq_of_lt (by omega), if_pos h]

theorem cbufRead_ok (h : Rep k buf q) (hk : k ≤ 31) {size : ℕ} (hsize : size ≤ q.length) :
    (cbufRead buf size).1 = .ok (q.take size) ∧ Rep k (cbufRead buf size).2 (q.drop size) := by
  by_cases h0 : size = 0
  · subst h0
    simpa [cbufRead] using h
  · have hread : cbufRead buf size =
        (.ok (ringRead buf.data (buf.rdPtr &&& (buf.size - 1)) size), advanceRdPtr buf size) := by
      have hfits := h.fits
      have hsmall := h.size_le hk
      simp only [cbufRead, h.fillLevel_eq, ringRead, h.length_data]
      rw [if_neg h0, if_neg (by omega)]
      split_ifs with hwrap
      · rfl
      · rw [intToSize_of_lt (by omega)]
    rw [hread, h.reads.ringRead h.rd_cell hsize (by have := h.fits; have := h.length_data; omega)]
    exact ⟨rfl, h.advanceRdPtr hsize⟩

/-- A read takes bytes from the front, or fails and takes none. -/
theorem cbufRead_takes (h : Rep k buf q) (hk : k ≤ 31) (size : ℕ) :
    ∃ n, (cbufRead buf size).1.toOption.getD [] = q.take n ∧
      Rep k (cbufRead buf size).2 (q.drop n) := by
  by_cases hsize : size ≤ q.length
  · obtain ⟨hrv, hrep⟩ := cbufRead_ok h hk hsize
    refine ⟨size, ?_, hrep⟩
    rw [hrv]
    rfl
  · rw [cbufRead_refused h (Nat.lt_of_not_le hsize)]
    exact ⟨0, rfl, h⟩

theorem cbufDiscard_refused (h : Rep k buf q) {size : ℕ} (hsize : q.length < size) :
    cbufDiscard buf size = (.error .EINVAL, buf) := by
  simp only [cbufDiscard, h.fillLevel_eq]
  rw [if_pos hsize]

theorem cbufDiscard_ok (h : Rep k buf q) {size : ℕ} (hsize : size ≤ q.length) :
    (cbufDiscard buf size).1 = .ok () ∧ Rep k (cbufDiscard buf size).2 (q.drop size) := by
  simp only [cbufDiscard, h.fillLevel_eq]
  rw [if_neg (by omega)]
  exact ⟨rfl, h.advanceRdPtr hsize⟩

end Operations

/-! ## Temporary blocks -/

theorem lt_two_pow_log2 (n : ℕ) : n < 2 ^ (Nat.log2 n + 1) := Nat.lt_log2_self

/-- The shift is for an `int`: up to `2 ^ 31` bytes the computed size is large enough. -/
theorem le_cbufCalcBufsize {size sizeMax : ℕ} (hint : size < 2 ^ 31) (hsize : size ≤ sizeMax) :
    size ≤ cbufCalcBufsize size sizeMax := by
  have hlog : Nat.log2 size + 1 ≤ 31 := by
    by_contra hge
    have h0 : size ≠ 0 := by
      rintro rfl
      simp at hge
    have := Nat.log2_self_le h0
    have hpow : 2 ^ 31 ≤ 2 ^ Nat.log2 size := Nat.pow_le_pow_right (by omega) (by omega)
    omega
  have hlt := lt_two_pow_log2 size
  simp only [cbufCalcBufsize, Nat.one_shiftLeft]
  split_ifs with h
  · exact hsize
  · have hpow : 2 ^ (Nat.log2 size + 1) ≤ 2 ^ 31 := Nat.pow_le_pow_right (by omega) hlog
    unfold intToSize
    rw [Nat.mod_eq_of_lt (by omega)]
    split_ifs <;> omega

/-- The recorded sizes of the temporary blocks are what is allocated. -/
structure TmpRep (buf : Cbuf) : Prop where
  small : buf.size ≤ 2 ^ 30
  read : buf.readDataTmpSize = (buf.readDataTmp.getD []).length
  write : buf.writeDataTmpSize = (buf.writeDataTmp.getD []).length

/-- A reservation of `size` bytes needs no temporary block, or one whose size is computed right. -/
def ReserveFits (buf : Cbuf) (size : ℕ) : Prop :=
  (buf.wrPtr &&& (buf.size - 1)) + size ≤ buf.size ∨ size ≤ buf.writeDataTmpSize ∨
    size ≤ buf.hintMaxWriteSize ∨ size < 2 ^ 31

/-- A peek of `size` bytes needs no temporary block, or one whose size is computed right, and the bytes up to
the end of the block can be counted in an `int`. -/
def PeekFits (buf : Cbuf) (size : ℕ) : Prop :=
  (buf.rdPtr &&& (buf.size - 1)) + size ≤ buf.size ∨ buf.size - (buf.rdPtr &&& (buf.size - 1)) < 2 ^ 31 ∧
    (size ≤ buf.readDataTmpSize ∨ size ≤ buf.hintMaxReadSize ∨ size < 2 ^ 31)

theorem TmpRep.reserveFits {buf : Cbuf} (ht : TmpRep buf) {size : ℕ} (h : size ≤ buf.size) : ReserveFits buf size := by
  have hsmall := ht.small
  exact .inr (.inr (.inr (by omega)))

theorem TmpRep.peekFits {buf : Cbuf} (ht : TmpRep buf) {size : ℕ} (h : size ≤ buf.size) : PeekFits buf size := by
  have hsmall := ht.small
  exact .inr ⟨by omega, .inr (.inr (by omega))⟩

theorem tmpRep_cbufInit {n : ℕ} (h : n ≤ 2 ^ 30) : TmpRep (cbufInit n) := ⟨h, rfl, rfl⟩

/-- With allocations that succeed, a temporary block grown on demand is large enough and its
recorded size is right. -/
theorem growTmp_ok {hint tmpSize sizeMax size : ℕ} {tmp : Option (List UInt8)}
    (fresh : ℕ → UInt8) (htmp : tmpSize = (tmp.getD []).length)
    (hfits : size ≤ tmpSize ∨ size ≤ hint ∨ size < 2 ^ 31) (hpos : 0 < size) (hsize : size ≤ sizeMax) :
    ∃ block, growTmp hint tmpSize tmp sizeMax (some fresh) size = (block.length, some block) ∧
      size ≤ block.length := by
  unfold growTmp
  by_cases hgrow : tmpSize < size
  · rw [if_pos hgrow]
    have hlen : size ≤ if size ≤ hint then hint else cbufCalcBufsize size sizeMax := by
      split_ifs with h
      · exact h
      · exact le_cbufCalcBufsize (by omega) hsize
    simp only [realloc]
    generalize (if size ≤ hint then hint else cbufCalcBufsize size sizeMax) = n at hlen
    exact ⟨(List.range n).map fun i => ((tmp.getD [])[i]?).getD (fresh i), by simp, by simpa using hlen⟩
  · rw [if_neg hgrow]
    cases tmp with
    | none => simp at htmp; omega
    | some block => exact ⟨block, by simpa using htmp, by simp at htmp; omega⟩

/-! ## Peeking -/

section Peek
variable {k : ℕ} {buf : Cbuf} {q : List UInt8}

theorem cbufPeek_refused (h : Rep k buf q) {size : ℕ} (alloc : Alloc) (hsize : q.length < size) :
    cbufPeek buf alloc size = (.error .EINVAL, buf) := by
  simp only [cbufPeek, h.fillLevel_eq]
  rw [if_neg (by omega), if_pos hsize]

/-- A successful peek changes nothing but the temporary block of the read side, and its pointer
designates the next `size` bytes. -/
theorem cbufPeek_ok (h : Rep k buf q) (htmp : buf.readDataTmpSize = (buf.readDataTmp.getD []).length) {size : ℕ}
    (hfit : PeekFits buf size) (fresh : ℕ → UInt8) (hpos : size ≠ 0) (hsize : size ≤ q.length) :
    ∃ p n tmp, cbufPeek buf (some fresh) size =
        (.ok (some p), { buf with readDataTmpSize := n, readDataTmp := tmp }) ∧
      n = (tmp.getD []).length ∧
      cbufLoad { buf with readDataTmpSize := n, readDataTmp := tmp } p size = q.take size := by
  have hread := h.reads.ringRead h.rd_cell hsize (by have := h.fits; have := h.length_data; omega)
  set pos := buf.rdPtr &&& (buf.size - 1) with hposdef
  have hcell : pos < buf.size := h.rd_cell_lt
  have hfits := h.fits
  by_cases hwrap : pos + size ≤ buf.size
  · refine ⟨.data pos, buf.readDataTmpSize, buf.readDataTmp, ?_, htmp, ?_⟩
    · simp only [cbufPeek, h.fillLevel_eq, ← hposdef]
      rw [if_neg hpos, if_neg (by omega), if_pos hwrap]
    · rw [← hread, ringRead, if_pos (by rw [h.length_data]; exact hwrap)]
      rfl
  · obtain ⟨hend, hcalc⟩ := hfit.resolve_left hwrap
    rw [← hposdef] at hend
    obtain ⟨block, hblock, hlen⟩ := growTmp_ok fresh htmp hcalc (by omega : 0 < size)
      (hsize.trans hfits)
    have hl1 : (slice buf.data pos (buf.size - pos)).length = buf.size - pos :=
      length_slice (by have := h.length_data; omega)
    have hl2 : (slice buf.data 0 (size - (buf.size - pos))).length = size - (buf.size - pos) :=
      length_slice (by have := h.length_data; omega)
    have hjoin := memcpy_memcpy (slice buf.data pos (buf.size - pos))
      (slice buf.data 0 (size - (buf.size - pos))) (Nat.zero_le block.length)
    rw [Nat.zero_add, hl1] at hjoin
    have hl : (slice buf.data pos (buf.size - pos) ++
        slice buf.data 0 (size - (buf.size - pos))).length = size := by
      rw [List.length_append, hl1, hl2]; omega
    refine ⟨.readDataTmp, block.length, some (memcpy block 0 (slice buf.data pos (buf.size - pos) ++
      slice buf.data 0 (size - (buf.size - pos)))), ?_, ?_, ?_⟩
    · simp only [cbufPeek, h.fillLevel_eq, ← hposdef, hblock, reduceCtorEq, and_false,
        Option.map_some, intToSize_of_lt hend, hjoin]
      rw [if_neg hpos, if_neg (by omega), if_neg hwrap, if_neg not_false]
    · rw [Option.getD_some, length_memcpy (by rw [hl]; omega)]
    · have hback := slice_memcpy block 0 (slice buf.data pos (buf.size - pos) ++
        slice buf.data 0 (size - (buf.size - pos))) (by rw [hl]; omega)
      rw [hl] at hback
      rw [← hread, ringRead, if_neg (by rw [h.length_data]; exact hwrap), h.length_data]
      exact hback

end Peek

/-! ## Reserving and committing -/

/-- `p` designates `n` free bytes of `buf` after the stored bytes `q`: cells of the block, or a
temporary block when those cells wrap. -/
structure Reserved (buf : Cbuf) (q : List UInt8) (p : Ptr) (n : ℕ) : Prop where
  fits : q.length + n ≤ buf.size
  block : (p = .data (buf.wrPtr &&& (buf.size - 1)) ∧
      (buf.wrPtr &&& (buf.size - 1)) + n ≤ buf.size) ∨
    (p = .writeDataTmp ∧ buf.size < (buf.wrPtr &&& (buf.size - 1)) + n ∧
      n ≤ (buf.writeDataTmp.getD []).length)

section Reserve
variable {k : ℕ} {buf : Cbuf} {q : List UInt8} {p : Ptr} {n : ℕ}

theorem cbufReserve_refused (h : Rep k buf q) {size : ℕ} (alloc : Alloc)
    (hsize : buf.size < q.length + size) : cbufReserve buf alloc size = (.error .EINVAL, buf) := by
  have := h.fits
  simp only [cbufReserve, h.freeLevel_eq]
  rw [if_pos (by omega)]

/-- A successful reservation changes nothing but the temporary block of the write side. -/
theorem cbufReserve_ok (h : Rep k buf q) (htmp : buf.writeDataTmpSize = (buf.writeDataTmp.getD []).length) {size : ℕ}
    (hfit : ReserveFits buf size) (fresh : ℕ → UInt8) (hsize : q.length + size ≤ buf.size) :
    ∃ p n tmp, cbufReserve buf (some fresh) size =
        (.ok p, { buf with writeDataTmpSize := n, writeDataTmp := tmp }) ∧
      n = (tmp.getD []).length ∧
      Reserved { buf with writeDataTmpSize := n, writeDataTmp := tmp } q p size := by
  have hcell : buf.wrPtr &&& (buf.size - 1) < buf.size := h.wr_cell_lt
  by_cases hwrap : (buf.wrPtr &&& (buf.size - 1)) + size ≤ buf.size
  · refine ⟨.data (buf.wrPtr &&& (buf.size - 1)), buf.writeDataTmpSize, buf.writeDataTmp, ?_,
      htmp, hsize, .inl ⟨rfl, hwrap⟩⟩
    simp only [cbufReserve, h.freeLevel_eq]
    rw [if_neg (by omega), if_pos hwrap]
  · obtain ⟨block, hblock, hlen⟩ := growTmp_ok fresh htmp (hfit.resolve_left hwrap)
      (by omega : 0 < size) (by omega : size ≤ buf.size)
    refine ⟨.writeDataTmp, block.length, some block, ?_, rfl, hsize,
      .inr ⟨rfl, not_le.mp hwrap, hlen⟩⟩
    simp only [cbufReserve, h.freeLevel_eq, hblock, reduceCtorEq, and_false]
    rw [if_neg (by omega), if_neg hwrap, if_neg not_false]

theorem Reserved.length_load (hr : Reserved buf q p n) (h : Rep k buf q) :
    (cbufLoad buf p n).length = n := by
  have hlen := h.length_data
  obtain ⟨rfl, hb⟩ | ⟨rfl, -, hb⟩ := hr.block
  · exact length_slice (by simp only [Cbuf.block, Ptr.offset]; omega)
  · exact length_slice (by simpa [Cbuf.block, Ptr.offset] using hb)

/-- Storing through the pointer changes the reserved bytes and no stored byte. -/
theorem Reserved.store (hr : Reserved buf q p n) (h : Rep k buf q) {off : ℕ} {bytes : List UInt8}
    (hoff : off + bytes.length ≤ n) :
    Rep k (cbufStore buf p off bytes) q ∧ Reserved (cbufStore buf p off bytes) q p n ∧
      cbufLoad (cbufStore buf p off bytes) p n = memcpy (cbufLoad buf p n) off bytes := by
  have hlen := h.length_data
  have hfits := hr.fits
  have hcell := h.wr_cell_lt
  have hw := h.wr_cell
  set pos := buf.wrPtr &&& (buf.size - 1) with hpos
  obtain ⟨rfl, hb⟩ | ⟨rfl, hb, htmp⟩ := hr.block
  · -- the reserved cells lie `off` bytes after the stored ones and do not wrap
    have hring : memcpy buf.data (pos + off) bytes = ringWrite buf.data (pos + off) bytes := by
      rw [ringWrite, if_pos (by omega)]
    have hlen' : (memcpy buf.data (pos + off) bytes).length = buf.data.length :=
      length_memcpy (by omega)
    refine ⟨⟨h.size_eq, ?_, h.rd_lt, h.wr_eq, h.fits, ?_⟩, ⟨hfits, .inl ⟨rfl, hb⟩⟩, ?_⟩
    · exact hlen'.trans hlen
    · simp only [cbufStore, Cbuf.block, Ptr.offset]
      rw [hring]
      by_cases hempty : bytes = []
      · subst hempty
        have hid : ringWrite buf.data (pos + off) [] = buf.data := by
          rw [← hring]; simp [memcpy]
        rw [hid]
        exact h.reads
      · have hbytes := List.length_pos_iff.mpr hempty
        refine h.reads.ringWrite off ?_ (by omega) (by omega)
        rw [← Nat.mod_add_mod, ← hw, Nat.mod_eq_of_lt (by omega)]
    · exact slice_memcpy_window buf.data pos n (by omega) hoff
  · refine ⟨⟨h.size_eq, hlen, h.rd_lt, h.wr_eq, h.fits, h.reads⟩,
      ⟨hfits, .inr ⟨rfl, hb, ?_⟩⟩, ?_⟩
    · simp only [cbufStore, Cbuf.block, Ptr.offset, Option.getD_some]
      rw [length_memcpy (by omega)]
      exact htmp
    · exact slice_memcpy_window _ 0 n (by simpa [Cbuf.block, Ptr.offset] using htmp) hoff

theorem Reserved.store_tmp (hr : Reserved buf q p n) {off : ℕ} {bytes : List UInt8} (hoff : off + bytes.length ≤ n) :
    ∃ cells tmp, cbufStore buf p off bytes = { buf with data := cells, writeDataTmp := tmp } ∧
      (tmp.getD []).length = (buf.writeDataTmp.getD []).length := by
  obtain ⟨rfl, -⟩ | ⟨rfl, -, hb⟩ := hr.block
  · exact ⟨_, buf.writeDataTmp, rfl, rfl⟩
  · refine ⟨buf.data, _, rfl, ?_⟩
    simp only [Cbuf.block, Ptr.offset, Option.getD_some]
    rw [length_memcpy (by omega)]

/-- Committing appends the first `m` reserved bytes, whichever block they are in. -/
theorem Reserved.commit (hr : Reserved buf q p n) (h : Rep k buf q) {m : ℕ} (hm : m ≤ n) :
    Rep k (cbufCommit buf p m) (q ++ (cbufLoad buf p n).take m) := by
  have hlen := h.length_data
  have hfits := hr.fits
  have hcell := h.wr_cell_lt
  have hw := h.wr_cell
  by_cases h0 : m = 0
  · subst h0
    simpa [cbufCommit] using h
  have hload := hr.length_load h
  have htake : ((cbufLoad buf p n).take m).length = m := by rw [List.length_take]; omega
  obtain ⟨rfl, hb⟩ | ⟨rfl, hb, htmp⟩ := hr.block
  · have hcommit : cbufCommit buf (.data (buf.wrPtr &&& (buf.size - 1))) m = advanceWrPtr buf m := by
      simp [cbufCommit, h0]
    have hreads : RingReads buf.data (buf.rdPtr + q.length)
        (cbufLoad buf (.data (buf.wrPtr &&& (buf.size - 1))) n) := by
      intro i hi
      rw [hload] at hi
      rw [← Nat.mod_add_mod, ← hw, Nat.mod_eq_of_lt (by omega)]
      simp [cbufLoad, Cbuf.block, Ptr.offset, getElem?_slice, hi]
    have := h.advanceWrPtr ((cbufLoad buf (.data (buf.wrPtr &&& (buf.size - 1))) n).take m)
      (by omega) (hreads.take m)
    rw [htake] at this
    rw [hcommit]
    exact this
  · -- all of the end of the block is copied, so at least `buf.size - pos` bytes are
    set pos := buf.wrPtr &&& (buf.size - 1) with hpos
    set tmp := buf.writeDataTmp.getD [] with htmpdef
    set len := max m (buf.size - pos) with hlendef
    have hlenle : len ≤ n := by omega
    have hxs : (tmp.take len).length = len := by rw [List.length_take]; omega
    have hload' : cbufLoad buf .writeDataTmp n = tmp.take n := by
      simp [cbufLoad, Cbuf.block, Ptr.offset, slice, htmpdef]
    have hcopy : cbufCommit buf .writeDataTmp m =
        advanceWrPtr { buf with data := ringWrite buf.data pos (tmp.take len) } m := by
      simp only [cbufCommit, if_neg h0, if_true, ringWrite, hxs, hlen, ← hpos, ← htmpdef]
      congr 2
      by_cases hmore : m > buf.size - pos
      · have hmax : len = m := by omega
        rw [hmax, if_pos hmore, if_neg (by omega)]
        congr 1
        · rw [List.take_take, Nat.min_eq_left (by omega)]; rfl
        · rw [slice, List.drop_take]
      · have hmax : len = buf.size - pos := by omega
        rw [hmax, if_neg hmore, if_pos (by omega)]
        rfl
    rw [hcopy, hload', List.take_take, Nat.min_eq_left hm]
    have hfit : q.length + (tmp.take len).length ≤ buf.size := by omega
    have hreads := (h.reads_ringWrite hfit).take m
    rw [List.take_take, Nat.min_eq_left (by omega)] at hreads
    have hm' : (tmp.take m).length = m := by rw [List.length_take]; omega
    have := (h.ringWrite hfit).advanceWrPtr (tmp.take m) (by simp only; omega) hreads
    rw [hm'] at this
    exact this

end Reserve

/-! ## The abstract queue -/

/-- A bounded byte queue and the block handed out by the last reservation. -/
structure Queue where
  bytes : List UInt8
  reserved : Option (List UInt8)

/-- The calls of a client. `fill` is the client storing through the pointer of its reservation;
`fresh` are the indeterminate bytes of a block that the call may allocate. -/
inductive Op
  | write (data : List UInt8)
  | reserve (fresh : ℕ → UInt8) (size : ℕ)
  | fill (off : ℕ) (data : List UInt8)
  | commit (size : ℕ)
  | read (size : ℕ)
  | peek (fresh : ℕ → UInt8) (size : ℕ)
  | discard (size : ℕ)

/-- What a call returns; `bytes` for the calls that give data to the client. -/
inductive Answer
  | failed (e : Errno)
  | ok
  | bytes (data : List UInt8)
  deriving DecidableEq

/-- The queue of capacity `cap`. What a reserved block holds at first is left open. -/
inductive QueueStep (cap : ℕ) : Queue → Op → Answer → Queue → Prop
  | write {q r data} : q.length + data.length ≤ cap →
      QueueStep cap ⟨q, r⟩ (.write data) .ok ⟨q ++ data, none⟩
  | writeRefused {q r data} : cap < q.length + data.length →
      QueueStep cap ⟨q, r⟩ (.write data) (.failed .EINVAL) ⟨q, none⟩
  | reserve {q r fresh size block} : q.length + size ≤ cap → block.length = size →
      QueueStep cap ⟨q, r⟩ (.reserve fresh size) .ok ⟨q, some block⟩
  | reserveRefused {q r fresh size} : cap < q.length + size →
      QueueStep cap ⟨q, r⟩ (.reserve fresh size) (.failed .EINVAL) ⟨q, none⟩
  | fill {q block off data} : off + data.length ≤ block.length →
      QueueStep cap ⟨q, some block⟩ (.fill off data) .ok ⟨q, some (memcpy block off data)⟩
  | commit {q block size} : size ≤ block.length →
      QueueStep cap ⟨q, some block⟩ (.commit size) .ok ⟨q ++ block.take size, none⟩
  | read {q r size} : size ≤ q.length →
      QueueStep cap ⟨q, r⟩ (.read size) (.bytes (q.take size)) ⟨q.drop size, r⟩
  | readRefused {q r size} : q.length < size →
      QueueStep cap ⟨q, r⟩ (.read size) (.failed .EINVAL) ⟨q, r⟩
  | peek {q r fresh size} : size ≤ q.length →
      QueueStep cap ⟨q, r⟩ (.peek fresh size) (.bytes (q.take size)) ⟨q, r⟩
  | peekRefused {q r fresh size} : q.length < size →
      QueueStep cap ⟨q, r⟩ (.peek fresh size) (.failed .EINVAL) ⟨q, r⟩
  | discard {q r size} : size ≤ q.length →
      QueueStep cap ⟨q, r⟩ (.discard size) .ok ⟨q.drop size, r⟩
  | discardRefused {q r size} : q.length < size →
      QueueStep cap ⟨q, r⟩ (.discard size) (.failed .EINVAL) ⟨q, r⟩

/-! ## The buffer with its client -/

/-- The buffer, and the pointer and size of the client's last successful reservation. -/
structure Client where
  buf : Cbuf
  reserved : Option (Ptr × ℕ)
  deriving DecidableEq

def Answer.ofUnit : Except Errno Unit → Answer
  | .ok _ => .ok
  | .error e => .failed e

def Answer.ofBytes : Except Errno (List UInt8) → Answer
  | .ok data => .bytes data
  | .error e => .failed e

/-- One call. `none` is a call the API does not allow: storing or committing without a
reservation, or beyond it; every other call of the write side ends the reservation. -/
def clientStep (c : Client) : Op → Option (Answer × Client)
  | .write data =>
    let r := cbufWrite c.buf data
    some (.ofUnit r.1, ⟨r.2, none⟩)
  | .reserve fresh size =>
    match cbufReserve c.buf (some fresh) size with
    | (.ok p, buf) => some (.ok, ⟨buf, some (p, size)⟩)
    | (.error e, buf) => some (.failed e, ⟨buf, none⟩)
  | .fill off data =>
    match c.reserved with
    | some (p, n) =>
      if off + data.length ≤ n then some (.ok, ⟨cbufStore c.buf p off data, some (p, n)⟩) else none
    | none => none
  | .commit size =>
    match c.reserved with
    | some (p, n) => if size ≤ n then some (.ok, ⟨cbufCommit c.buf p size, none⟩) else none
    | none => none
  | .read size =>
    let r := cbufRead c.buf size
    some (.ofBytes r.1, ⟨r.2, c.reserved⟩)
  | .peek fresh size =>
    match cbufPeek c.buf (some fresh) size with
    | (.ok (some p), buf) => some (.bytes (cbufLoad buf p size), ⟨buf, c.reserved⟩)
    | (.ok none, buf) => some (.bytes [], ⟨buf, c.reserved⟩)
    | (.error e, buf) => some (.failed e, ⟨buf, c.reserved⟩)
  | .discard size =>
    let r := cbufDiscard c.buf size
    some (.ofUnit r.1, ⟨r.2, c.reserved⟩)

/-! ## Frames: what the operations leave alone -/

theorem cbufWrite_frame (buf : Cbuf) (data : List UInt8) :
    ∃ cells wr, (cbufWrite buf data).2 = { buf with data := cells, wrPtr := wr } := by
  simp only [cbufWrite]
  split_ifs
  exacts [⟨_, _, rfl⟩, ⟨_, _, rfl⟩, ⟨_, _, rfl⟩]

theorem cbufCommit_frame (buf : Cbuf) (p : Ptr) (size : ℕ) :
    ∃ cells wr, cbufCommit buf p size = { buf with data := cells, wrPtr := wr } := by
  simp only [cbufCommit]
  split_ifs
  exacts [⟨_, _, rfl⟩, ⟨_, _, rfl⟩, ⟨_, _, rfl⟩, ⟨_, _, rfl⟩]

theorem cbufRead_frame (buf : Cbuf) (size : ℕ) :
    ∃ rd, (cbufRead buf size).2 = { buf with rdPtr := rd } := by
  simp only [cbufRead]
  split_ifs
  exacts [⟨_, rfl⟩, ⟨_, rfl⟩, ⟨_, rfl⟩, ⟨_, rfl⟩]

theorem cbufDiscard_frame (buf : Cbuf) (size : ℕ) :
    ∃ rd, (cbufDiscard buf size).2 = { buf with rdPtr := rd } := by
  simp only [cbufDiscard]
  split_ifs
  exacts [⟨_, rfl⟩, ⟨_, rfl⟩]

theorem cbufWrite_rdPtr (buf : Cbuf) (data : List UInt8) : (cbufWrite buf data).2.rdPtr = buf.rdPtr := by
  obtain ⟨cells, wr, hframe⟩ := cbufWrite_frame buf data
  rw [hframe]

theorem cbufRead_wrPtr (buf : Cbuf) (size : ℕ) : (cbufRead buf size).2.wrPtr = buf.wrPtr := by
  obtain ⟨rd, hframe⟩ := cbufRead_frame buf size
  rw [hframe]

/-- What is written into an empty buffer and read again leaves it empty, and moves its read pointer. -/
theorem Rep.moved {k : ℕ} {buf : Cbuf} (h : Rep k buf []) (hk : k ≤ 31) {data : List UInt8} {n : ℕ}
    (hn : data.length = n) (hfits : n ≤ buf.size) :
    Rep k (cbufRead (cbufWrite buf data).2 n).2 [] ∧
      (cbufRead (cbufWrite buf data).2 n).2.rdPtr = (buf.rdPtr + n) % (2 * buf.size) := by
  subst hn
  have hfilled : Rep k (cbufWrite buf data).2 data := (cbufWrite_ok h data (by simpa using hfits)).2
  have hempty : Rep k (cbufRead (cbufWrite buf data).2 data.length).2 [] := by
    have hread := (cbufRead_ok hfilled hk le_rfl).2
    rwa [List.drop_length] at hread
  have hrd := hempty.wr_eq
  rw [List.length_nil, Nat.add_zero, Nat.mod_eq_of_lt hempty.rd_lt, cbufRead_wrPtr] at hrd
  refine ⟨hempty, hrd.symm.trans ?_⟩
  rw [hfilled.wr_eq, cbufWrite_rdPtr, hfilled.size_eq, h.size_eq]

/-! ## Refinement -/

/-- The client's reservation and the block of the abstract queue. -/
inductive ReservedSim (buf : Cbuf) (q : List UInt8) : Option (Ptr × ℕ) → Option (List UInt8) → Prop
  | none : ReservedSim buf q none none
  | some {p n} : Reserved buf q p n → ReservedSim buf q (some (p, n)) (some (cbufLoad buf p n))

/-- A reservation survives what the read side does: the stored bytes only get fewer. -/
theorem ReservedSim.read_side {buf buf' : Cbuf} {q q' : List UInt8} {r : Option (Ptr × ℕ)}
    {block : Option (List UInt8)} (h : ReservedSim buf q r block) (hq : q'.length ≤ q.length)
    (hsize : buf'.size = buf.size) (hwr : buf'.wrPtr = buf.wrPtr) (hdata : buf'.data = buf.data)
    (htmp : buf'.writeDataTmp = buf.writeDataTmp) : ReservedSim buf' q' r block := by
  cases h with
  | none => exact .none
  | @some p n hr =>
    have hload : cbufLoad buf p n = cbufLoad buf' p n := by
      rcases hr.block with ⟨rfl, -⟩ | ⟨rfl, -, -⟩ <;>
        simp [cbufLoad, Cbuf.block, hdata, htmp]
    rw [hload]
    refine .some ⟨?_, ?_⟩
    · have := hr.fits
      omega
    · rw [hsize, hwr, htmp]
      exact hr.block

/-- The buffer and its client implement the queue. -/
structure Sim (k : ℕ) (c : Client) (t : Queue) : Prop where
  rep : Rep k c.buf t.bytes
  tmp : TmpRep c.buf
  reserved : ReservedSim c.buf t.bytes c.reserved t.reserved

theorem Sim.small {k : ℕ} {c : Client} {t : Queue} (h : Sim k c t) : k ≤ 31 := by
  have hle := h.tmp.small
  rw [h.rep.size_eq, Nat.pow_le_pow_iff_right (by norm_num)] at hle
  omega

theorem Sim.cap {k : ℕ} {c : Client} {t : Queue} (h : Sim k c t) : c.buf.size = 2 ^ k :=
  h.rep.size_eq

theorem sim_cbufInit {k : ℕ} (hk : k ≤ 30) : Sim k ⟨cbufInit (2 ^ k), none⟩ ⟨[], none⟩ :=
  ⟨rep_cbufInit k, tmpRep_cbufInit (Nat.pow_le_pow_right (by omega) hk), .none⟩

section Calls
variable {k : ℕ} {c c' : Client} {t : Queue} {a : Answer}

theorem Sim.write (h : Sim k c t) {data : List UInt8}
    (hstep : clientStep c (.write data) = some (a, c')) :
    ∃ t', QueueStep (2 ^ k) t (.write data) a t' ∧ Sim k c' t' := by
  simp only [clientStep, Option.some.injEq, Prod.mk.injEq] at hstep
  obtain ⟨rfl, rfl⟩ := hstep
  by_cases hfit : t.bytes.length + data.length ≤ c.buf.size
  · obtain ⟨hrv, hrep⟩ := cbufWrite_ok h.rep _ hfit
    obtain ⟨cells, wr, hframe⟩ := cbufWrite_frame c.buf data
    rw [hrv]
    refine ⟨⟨t.bytes ++ data, none⟩, .write (h.cap ▸ hfit), hrep, ?_, .none⟩
    rw [hframe]
    exact ⟨h.tmp.small, h.tmp.read, h.tmp.write⟩
  · rw [cbufWrite_refused h.rep (by omega)]
    exact ⟨⟨t.bytes, none⟩, .writeRefused (by rw [← h.cap]; omega), h.rep, h.tmp, .none⟩

theorem Sim.reserve (h : Sim k c t) {fresh : ℕ → UInt8} {size : ℕ}
    (hstep : clientStep c (.reserve fresh size) = some (a, c')) :
    ∃ t', QueueStep (2 ^ k) t (.reserve fresh size) a t' ∧ Sim k c' t' := by
  simp only [clientStep] at hstep
  by_cases hfit : t.bytes.length + size ≤ c.buf.size
  · obtain ⟨p, n, tmp, heq, hn, hr⟩ := cbufReserve_ok h.rep h.tmp.write (h.tmp.reserveFits (by omega)) fresh hfit
    have hrep : Rep k { c.buf with writeDataTmpSize := n, writeDataTmp := tmp } t.bytes :=
      ⟨h.rep.size_eq, h.rep.length_data, h.rep.rd_lt, h.rep.wr_eq, h.rep.fits, h.rep.reads⟩
    simp only [heq, Option.some.injEq, Prod.mk.injEq] at hstep
    obtain ⟨rfl, rfl⟩ := hstep
    exact ⟨⟨t.bytes, some _⟩, .reserve (h.cap ▸ hfit) (hr.length_load hrep), hrep,
      ⟨h.tmp.small, h.tmp.read, hn⟩, .some hr⟩
  · rw [cbufReserve_refused h.rep _ (by omega)] at hstep
    simp only [Option.some.injEq, Prod.mk.injEq] at hstep
    obtain ⟨rfl, rfl⟩ := hstep
    exact ⟨⟨t.bytes, none⟩, .reserveRefused (by rw [← h.cap]; omega), h.rep, h.tmp, .none⟩

theorem Sim.fill (h : Sim k c t) {off : ℕ} {data : List UInt8}
    (hstep : clientStep c (.fill off data) = some (a, c')) :
    ∃ t', QueueStep (2 ^ k) t (.fill off data) a t' ∧ Sim k c' t' := by
  obtain ⟨buf, reserved⟩ := c
  obtain ⟨q, r⟩ := t
  obtain ⟨hrep, htmp, hres⟩ := h
  simp only at hrep htmp hres
  cases hres with
  | none => simp [clientStep] at hstep
  | @some p n hr =>
    simp only [clientStep] at hstep
    split_ifs at hstep with hoff
    simp only [Option.some.injEq, Prod.mk.injEq] at hstep
    obtain ⟨rfl, rfl⟩ := hstep
    obtain ⟨hrep', hr', hload⟩ := hr.store hrep hoff
    refine ⟨⟨q, some (memcpy (cbufLoad buf p n) off data)⟩,
      .fill (by rw [hr.length_load hrep]; exact hoff), hrep', ?_, hload ▸ .some hr'⟩
    obtain ⟨cells, tmp, hstore, hlen⟩ := hr.store_tmp hoff
    rw [hstore]
    exact ⟨htmp.small, htmp.read, htmp.write.trans hlen.symm⟩

theorem Sim.commit (h : Sim k c t) {size : ℕ}
    (hstep : clientStep c (.commit size) = some (a, c')) :
    ∃ t', QueueStep (2 ^ k) t (.commit size) a t' ∧ Sim k c' t' := by
  obtain ⟨buf, reserved⟩ := c
  obtain ⟨q, r⟩ := t
  obtain ⟨hrep, htmp, hres⟩ := h
  simp only at hrep htmp hres
  cases hres with
  | none => simp [clientStep] at hstep
  | @some p n hr =>
    simp only [clientStep] at hstep
    split_ifs at hstep with hle
    simp only [Option.some.injEq, Prod.mk.injEq] at hstep
    obtain ⟨rfl, rfl⟩ := hstep
    obtain ⟨cells, wr, hframe⟩ := cbufCommit_frame buf p size
    refine ⟨⟨q ++ (cbufLoad buf p n).take size, none⟩,
      .commit (by rw [hr.length_load hrep]; exact hle), hr.commit hrep hle, ?_, .none⟩
    simp only [hframe]
    exact ⟨htmp.small, htmp.read, htmp.write⟩

theorem Sim.read (h : Sim k c t) {size : ℕ} (hstep : clientStep c (.read size) = some (a, c')) :
    ∃ t', QueueStep (2 ^ k) t (.read size) a t' ∧ Sim k c' t' := by
  simp only [clientStep, Option.some.injEq, Prod.mk.injEq] at hstep
  obtain ⟨rfl, rfl⟩ := hstep
  by_cases hsize : size ≤ t.bytes.length
  · obtain ⟨hrv, hrep⟩ := cbufRead_ok h.rep h.small hsize
    obtain ⟨rd, hframe⟩ := cbufRead_frame c.buf size
    rw [hrv]
    refine ⟨⟨t.bytes.drop size, t.reserved⟩, .read hsize, hrep, ?_, ?_⟩
    · rw [hframe]
      exact ⟨h.tmp.small, h.tmp.read, h.tmp.write⟩
    · rw [hframe]
      exact h.reserved.read_side (by simp) rfl rfl rfl rfl
  · rw [cbufRead_refused h.rep (by omega)]
    exact ⟨t, .readRefused (by omega), h.rep, h.tmp, h.reserved⟩

theorem Sim.peek (h : Sim k c t) {fresh : ℕ → UInt8} {size : ℕ}
    (hstep : clientStep c (.peek fresh size) = some (a, c')) :
    ∃ t', QueueStep (2 ^ k) t (.peek fresh size) a t' ∧ Sim k c' t' := by
  simp only [clientStep] at hstep
  by_cases h0 : size = 0
  · subst h0
    simp only [cbufPeek, if_true, Option.some.injEq, Prod.mk.injEq] at hstep
    obtain ⟨rfl, rfl⟩ := hstep
    exact ⟨t, .peek (Nat.zero_le _), h⟩
  by_cases hsize : size ≤ t.bytes.length
  · obtain ⟨p, n, tmp, heq, hn, hload⟩ := cbufPeek_ok h.rep h.tmp.read (h.tmp.peekFits (hsize.trans h.rep.fits)) fresh h0 hsize
    simp only [heq, Option.some.injEq, Prod.mk.injEq] at hstep
    obtain ⟨rfl, rfl⟩ := hstep
    rw [hload]
    exact ⟨t, .peek hsize,
      ⟨h.rep.size_eq, h.rep.length_data, h.rep.rd_lt, h.rep.wr_eq, h.rep.fits, h.rep.reads⟩,
      ⟨h.tmp.small, hn, h.tmp.write⟩, h.reserved.read_side le_rfl rfl rfl rfl rfl⟩
  · rw [cbufPeek_refused h.rep _ (by omega)] at hstep
    simp only [Option.some.injEq, Prod.mk.injEq] at hstep
    obtain ⟨rfl, rfl⟩ := hstep
    exact ⟨t, .peekRefused (by omega), h⟩

theorem Sim.discard (h : Sim k c t) {size : ℕ}
    (hstep : clientStep c (.discard size) = some (a, c')) :
    ∃ t', QueueStep (2 ^ k) t (.discard size) a t' ∧ Sim k c' t' := by
  simp only [clientStep, Option.some.injEq, Prod.mk.injEq] at hstep
  obtain ⟨rfl, rfl⟩ := hstep
  by_cases hsize : size ≤ t.bytes.length
  · obtain ⟨hrv, hrep⟩ := cbufDiscard_ok h.rep hsize
    obtain ⟨rd, hframe⟩ := cbufDiscard_frame c.buf size
    rw [hrv]
    refine ⟨⟨t.bytes.drop size, t.reserved⟩, .discard hsize, hrep, ?_, ?_⟩
    · rw [hframe]
      exact ⟨h.tmp.small, h.tmp.read, h.tmp.write⟩
    · rw [hframe]
      exact h.reserved.read_side (by simp) rfl rfl rfl rfl
  · rw [cbufDiscard_refused h.rep (by omega)]
    exact ⟨t, .discardRefused (by omega), h.rep, h.tmp, h.reserved⟩

theorem Sim.step {op : Op} (h : Sim k c t) (hstep : clientStep c op = some (a, c')) :
    ∃ t', QueueStep (2 ^ k) t op a t' ∧ Sim k c' t' := by
  cases op with
  | write data => exact h.write hstep
  | reserve fresh size => exact h.reserve hstep
  | fill off data => exact h.fill hstep
  | commit size => exact h.commit hstep
  | read size => exact h.read hstep
  | peek fresh size => exact h.peek hstep
  | discard size => exact h.discard hstep

end Calls

/-- **The circular buffer is a bounded FIFO.** Along every sequence of calls from `cbuf_init` with
size `2 ^ k`, the answers are those of the queue of capacity `2 ^ k`, and the levels, the
predicates and the two pointers agree with the queue's length. -/
theorem cbuf_refines_queue (k : ℕ) (hk : k ≤ 30) (ops : List Op) (as : List Answer) (c : Client)
    (hrun : Refinement.answers clientStep ⟨cbufInit (2 ^ k), none⟩ ops = some (as, c)) :
    ∃ t, Refinement.SpecRun (QueueStep (2 ^ k)) ⟨[], none⟩ ops as t ∧
      cbufFillLevel c.buf = t.bytes.length ∧
      cbufFillLevel c.buf + cbufFreeLevel c.buf = 2 ^ k ∧
      (cbufIsEmpty c.buf = true ↔ t.bytes.length = 0) ∧
      (cbufIsFull c.buf = true ↔ t.bytes.length = 2 ^ k) ∧
      c.buf.wrPtr < 2 * 2 ^ k ∧ c.buf.rdPtr < 2 * 2 ^ k := by
  have hstep : ∀ (c : Client) (t : Queue) (op : Op) (a : Answer) (c' : Client), Sim k c t →
      clientStep c op = some (a, c') → ∃ t', QueueStep (2 ^ k) t op a t' ∧ Sim k c' t' :=
    fun _ _ _ _ _ hsim h => hsim.step h
  obtain ⟨t, hspec, h⟩ := Refinement.simulation hstep (sim_cbufInit hk) hrun
  have hcap := h.cap
  refine ⟨t, hspec, h.rep.fillLevel_eq, ?_, h.rep.isEmpty_iff, ?_, ?_, ?_⟩
  · have := h.rep.fits
    rw [h.rep.fillLevel_eq, h.rep.freeLevel_eq, ← hcap]
    omega
  · rw [← hcap]
    exact h.rep.isFull_iff
  · rw [← hcap]
    exact h.rep.wr_lt
  · rw [← hcap]
    exact h.rep.rd_lt

/-- A run over a wrap of the block: a reservation through a temporary block, committed in part. -/
theorem cbuf_refines_queue_wrapped :
    ∃ t, Refinement.SpecRun (QueueStep (2 ^ 2)) ⟨[], none⟩
        [.write [1, 2, 3], .read 2, .reserve (fun _ => 0) 3, .fill 0 [4, 5, 6], .discard 1,
          .commit 2, .peek (fun _ => 0) 2, .write [7, 8, 9]]
        [.ok, .bytes [1, 2], .ok, .ok, .ok, .ok, .bytes [4, 5], .failed .EINVAL] t ∧
      t.bytes.length = 2 := by
  obtain ⟨t, hspec, hfill, -⟩ := cbuf_refines_queue 2 (by omega)
    [.write [1, 2, 3], .read 2, .reserve (fun _ => 0) 3, .fill 0 [4, 5, 6], .discard 1,
      .commit 2, .peek (fun _ => 0) 2, .write [7, 8, 9]] _ _ rfl
  exact ⟨t, hspec, hfill.symm⟩

end GlipOsd.CircularBuffer
