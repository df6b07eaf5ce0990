import GlipOsd.CircularBuffer.Queue
import GlipOsd.CircularBuffer.ThreadSafety

/-! # Calls that interleave at their level checks

For callers that share a buffer, the loads of the level check of a call are steps of their own and what is behind
the check is one step; `ThreadSafety` takes this step apart. Positions count from the start of the run: `R` bytes
have been taken out of the buffer, `P` have been put in.
-/

namespace GlipOsd.CircularBuffer
open Memory Mirror
set_option autoImplicit false

/-! ## Behind the level check -/

def writeChecked (buf : Cbuf) (data : List UInt8) : Cbuf :=
  let pos := buf.wrPtr &&& (buf.size - 1)
  let cells :=
    if pos + data.length ≤ buf.size then memcpy buf.data pos data
    else
      let sizeAtEnd := buf.size - pos
      memcpy (memcpy buf.data pos (data.take sizeAtEnd)) 0 (data.drop sizeAtEnd)
  advanceWrPtr { buf with data := cells } data.length

def reserveChecked (buf : Cbuf) (alloc : Alloc) (size : ℕ) : Except Errno Ptr × Cbuf :=
  let pos := buf.wrPtr &&& (buf.size - 1)
  if pos + size ≤ buf.size then (.ok (.data pos), buf)
  else
    let tmp := growTmp buf.hintMaxWriteSize buf.writeDataTmpSize buf.writeDataTmp buf.size alloc size
    let buf' := { buf with writeDataTmpSize := tmp.1, writeDataTmp := tmp.2 }
    if buf.writeDataTmpSize < size ∧ tmp.2 = none then (.error .ENOMEM, buf') else (.ok .writeDataTmp, buf')

def readChecked (buf : Cbuf) (size : ℕ) : List UInt8 × Cbuf :=
  let pos := buf.rdPtr &&& (buf.size - 1)
  let data :=
    if pos + size ≤ buf.size then slice buf.data pos size
    else
      let sizeToEnd := intToSize (buf.size - pos)
      slice buf.data pos sizeToEnd ++ slice buf.data 0 (size - sizeToEnd)
  (data, advanceRdPtr buf size)

def peekChecked (buf : Cbuf) (alloc : Alloc) (size : ℕ) : Except Errno Ptr × Cbuf :=
  let pos := buf.rdPtr &&& (buf.size - 1)
  if pos + size ≤ buf.size then (.ok (.data pos), buf)
  else
    let tmp := growTmp buf.hintMaxReadSize buf.readDataTmpSize buf.readDataTmp buf.size alloc size
    let buf' := { buf with readDataTmpSize := tmp.1, readDataTmp := tmp.2 }
    if buf.readDataTmpSize < size ∧ tmp.2 = none then (.error .ENOMEM, buf')
    else
      let sizeToEnd := intToSize (buf.size - pos)
      let gather := fun block => memcpy (memcpy block 0 (slice buf.data pos sizeToEnd)) sizeToEnd
        (slice buf.data 0 (size - sizeToEnd))
      (.ok .readDataTmp, { buf' with readDataTmp := tmp.2.map gather })

theorem cbufWrite_eq (buf : Cbuf) (data : List UInt8) : cbufWrite buf data =
    if data.length > cbufFreeLevel buf then (.error .EINVAL, buf) else (.ok (), writeChecked buf data) := rfl

theorem cbufReserve_eq (buf : Cbuf) (alloc : Alloc) (size : ℕ) : cbufReserve buf alloc size =
    if size > cbufFreeLevel buf then (.error .EINVAL, buf) else reserveChecked buf alloc size := rfl

theorem cbufRead_eq (buf : Cbuf) (size : ℕ) : cbufRead buf size =
    if size = 0 then (.ok [], buf)
    else if cbufFillLevel buf < size then (.error .EINVAL, buf)
    else (.ok (readChecked buf size).1, (readChecked buf size).2) := rfl

theorem cbufPeek_eq (buf : Cbuf) (alloc : Alloc) (size : ℕ) : cbufPeek buf alloc size =
    if size = 0 then (.ok none, buf)
    else if cbufFillLevel buf < size then (.error .EINVAL, buf)
    else ((peekChecked buf alloc size).1.map some, (peekChecked buf alloc size).2) := by
  simp only [cbufPeek, peekChecked]
  split_ifs <;> rfl

/-- All that is stored. -/
def contents (buf : Cbuf) : List UInt8 := (readChecked buf (cbufFillLevel buf)).1

/-! ## Positions -/

/-- `buf` stores the bytes `q`, which are behind the first `R` of its stream. -/
structure Stored (k : ℕ) (buf : Cbuf) (R : ℕ) (q : List UInt8) : Prop where
  rep : Rep k buf q
  tmp : TmpRep buf
  rd : buf.rdPtr = R % (2 * buf.size)

/-- `p` designates the first `n` stored bytes: in the block, or gathered in the temporary block. -/
structure Peeked (buf : Cbuf) (q : List UInt8) (p : Ptr) (n : ℕ) : Prop where
  fits : n ≤ q.length
  block : (p = .data (buf.rdPtr &&& (buf.size - 1)) ∧ (buf.rdPtr &&& (buf.size - 1)) + n ≤ buf.size) ∨
    (p = .readDataTmp ∧ slice (buf.readDataTmp.getD []) 0 n = q.take n)

/-- A temporary block of the read side is large enough, or the allocation succeeds. -/
def PeekServed (buf : Cbuf) (alloc : Alloc) (size : ℕ) : Prop :=
  (buf.rdPtr &&& (buf.size - 1)) + size ≤ buf.size ∨ size ≤ buf.readDataTmpSize ∨ alloc.isSome

def ReserveServed (buf : Cbuf) (alloc : Alloc) (size : ℕ) : Prop :=
  (buf.wrPtr &&& (buf.size - 1)) + size ≤ buf.size ∨ size ≤ buf.writeDataTmpSize ∨ alloc.isSome

instance (buf : Cbuf) (alloc : Alloc) (size : ℕ) : Decidable (PeekServed buf alloc size) :=
  inferInstanceAs (Decidable (_ ∨ _))

instance (buf : Cbuf) (alloc : Alloc) (size : ℕ) : Decidable (ReserveServed buf alloc size) :=
  inferInstanceAs (Decidable (_ ∨ _))

theorem growTmp_served {tmpSize size : ℕ} {alloc : Alloc} (hint : ℕ) (tmp : Option (List UInt8)) (sizeMax : ℕ)
    (h : size ≤ tmpSize ∨ alloc.isSome) :
    ∃ fresh, growTmp hint tmpSize tmp sizeMax alloc size = growTmp hint tmpSize tmp sizeMax (some fresh) size := by
  cases alloc with
  | some fresh => exact ⟨fresh, rfl⟩
  | none =>
    have hle : size ≤ tmpSize := by simpa using h
    refine ⟨fun _ => 0, ?_⟩
    rw [growTmp, growTmp, if_neg (by omega), if_neg (by omega)]

theorem reserveChecked_served {buf : Cbuf} {alloc : Alloc} {size : ℕ} (h : ReserveServed buf alloc size) :
    ∃ fresh, reserveChecked buf alloc size = reserveChecked buf (some fresh) size := by
  obtain hwrap | hserved := h
  · exact ⟨fun _ => 0, by simp only [reserveChecked, if_pos hwrap]⟩
  · obtain ⟨fresh, hgrow⟩ := growTmp_served buf.hintMaxWriteSize buf.writeDataTmp buf.size hserved
    exact ⟨fresh, by simp only [reserveChecked, hgrow]⟩

theorem peekChecked_served {buf : Cbuf} {alloc : Alloc} {size : ℕ} (h : PeekServed buf alloc size) :
    ∃ fresh, peekChecked buf alloc size = peekChecked buf (some fresh) size := by
  obtain hwrap | hserved := h
  · exact ⟨fun _ => 0, by simp only [peekChecked, if_pos hwrap]⟩
  · obtain ⟨fresh, hgrow⟩ := growTmp_served buf.hintMaxReadSize buf.readDataTmp buf.size hserved
    exact ⟨fresh, by simp only [peekChecked, hgrow]⟩

theorem growTmp_failed {tmpSize size : ℕ} {alloc : Alloc} (hint : ℕ) (tmp : Option (List UInt8)) (sizeMax : ℕ)
    (hsize : tmpSize < size) (h : alloc = none) : (growTmp hint tmpSize tmp sizeMax alloc size).2 = none := by
  rw [growTmp, if_pos hsize, h]
  rfl

theorem peekChecked_failed {buf : Cbuf} {alloc : Alloc} {size : ℕ} (h : ¬ PeekServed buf alloc size) :
    (peekChecked buf alloc size).1 = .error .ENOMEM := by
  simp only [PeekServed, not_or, Option.not_isSome_iff_eq_none, not_le] at h
  obtain ⟨hwrap, hsize, halloc⟩ := h
  have hgrow := growTmp_failed buf.hintMaxReadSize buf.readDataTmp buf.size hsize halloc
  simp only [peekChecked]
  rw [if_neg (by omega), if_pos ⟨hsize, hgrow⟩]

theorem reserveChecked_failed {buf : Cbuf} {alloc : Alloc} {size : ℕ} (h : ¬ ReserveServed buf alloc size) :
    (reserveChecked buf alloc size).1 = .error .ENOMEM := by
  simp only [ReserveServed, not_or, Option.not_isSome_iff_eq_none, not_le] at h
  obtain ⟨hwrap, hsize, halloc⟩ := h
  have hgrow := growTmp_failed buf.hintMaxWriteSize buf.writeDataTmp buf.size hsize halloc
  simp only [reserveChecked]
  rw [if_neg (by omega), if_pos ⟨hsize, hgrow⟩]

theorem take_cbufLoad (buf : Cbuf) (p : Ptr) {m n : ℕ} (hm : m ≤ n) : (cbufLoad buf p n).take m = cbufLoad buf p m := by
  rw [cbufLoad, cbufLoad, slice, slice, List.take_take, Nat.min_eq_left hm]

namespace Stored
variable {k R : ℕ} {buf : Cbuf} {q : List UInt8}

theorem wr (h : Stored k buf R q) : buf.wrPtr = (R + q.length) % (2 * buf.size) := by
  rw [h.rep.wr_eq, h.rd, mod_pointer_add]

theorem write (h : Stored k buf R q) {data : List UInt8} (hfit : q.length + data.length ≤ buf.size) :
    Stored k (writeChecked buf data) R (q ++ data) := by
  have hok := (cbufWrite_ok h.rep data hfit).2
  have hlevel := h.rep.freeLevel_eq
  rw [cbufWrite_eq, if_neg (by omega)] at hok
  exact ⟨hok, ⟨h.tmp.small, h.tmp.read, h.tmp.write⟩, h.rd⟩

theorem discard (h : Stored k buf R q) {n : ℕ} (hn : n ≤ q.length) :
    Stored k (advanceRdPtr buf n) (R + n) (q.drop n) := by
  refine ⟨h.rep.advanceRdPtr hn, ⟨h.tmp.small, h.tmp.read, h.tmp.write⟩, ?_⟩
  simp only [advanceRdPtr, cbufPtrAdd]
  rw [mask_pointer h.rep.size_eq, h.rd, mod_pointer_add]

theorem readChecked_eq (h : Stored k buf R q) {n : ℕ} (hn : n ≤ q.length) :
    readChecked buf n = (q.take n, advanceRdPtr buf n) := by
  have hread := h.rep.reads.ringRead h.rep.rd_cell hn (by have := h.rep.fits; have := h.rep.length_data; omega)
  have hsmall := h.tmp.small
  rw [← hread, ringRead, h.rep.length_data, readChecked, intToSize_of_lt (by omega)]

theorem contents_eq (h : Stored k buf R q) : contents buf = q := by
  rw [contents, h.rep.fillLevel_eq, h.readChecked_eq le_rfl, List.take_length]

theorem peek (h : Stored k buf R q) {alloc : Alloc} {size : ℕ} (hpos : size ≠ 0) (hsize : size ≤ q.length)
    (hserved : PeekServed buf alloc size) :
    ∃ p n tmp, peekChecked buf alloc size = (.ok p, { buf with readDataTmpSize := n, readDataTmp := tmp }) ∧
      Stored k { buf with readDataTmpSize := n, readDataTmp := tmp } R q ∧
      Peeked { buf with readDataTmpSize := n, readDataTmp := tmp } q p size := by
  by_cases hwrap : (buf.rdPtr &&& (buf.size - 1)) + size ≤ buf.size
  · refine ⟨.data (buf.rdPtr &&& (buf.size - 1)), buf.readDataTmpSize, buf.readDataTmp, ?_, h, hsize, .inl ⟨rfl, hwrap⟩⟩
    simp only [peekChecked]
    rw [if_pos hwrap]
  · obtain ⟨fresh, halloc⟩ := peekChecked_served hserved
    obtain ⟨p, n, tmp, heq, hn, hload⟩ := cbufPeek_ok h.rep h.tmp.read (h.tmp.peekFits (hsize.trans h.rep.fits)) fresh hpos hsize
    rw [cbufPeek_eq, if_neg hpos, h.rep.fillLevel_eq, if_neg (by omega)] at heq
    have hrep : Stored k { buf with readDataTmpSize := n, readDataTmp := tmp } R q :=
      ⟨⟨h.rep.size_eq, h.rep.length_data, h.rep.rd_lt, h.rep.wr_eq, h.rep.fits, h.rep.reads⟩,
        ⟨h.tmp.small, hn, h.tmp.write⟩, h.rd⟩
    have hp : peekChecked buf alloc size = (.ok .readDataTmp, { buf with readDataTmpSize := n, readDataTmp := tmp }) ∧
        p = .readDataTmp := by
      rw [halloc]
      simp only [peekChecked, if_neg hwrap] at heq ⊢
      split_ifs at heq ⊢
      · simp [Except.map] at heq
      · simp only [Except.map, Prod.mk.injEq, Except.ok.injEq, Option.some.injEq] at heq
        exact ⟨Prod.ext rfl heq.2, heq.1.symm⟩
    obtain ⟨hpeek, rfl⟩ := hp
    exact ⟨.readDataTmp, n, tmp, hpeek, hrep, hsize, .inr ⟨rfl, hload⟩⟩

theorem reserve (h : Stored k buf R q) {alloc : Alloc} {size : ℕ} (hsize : q.length + size ≤ buf.size)
    (hserved : ReserveServed buf alloc size) :
    ∃ p n tmp, reserveChecked buf alloc size = (.ok p, { buf with writeDataTmpSize := n, writeDataTmp := tmp }) ∧
      Stored k { buf with writeDataTmpSize := n, writeDataTmp := tmp } R q ∧
      Reserved { buf with writeDataTmpSize := n, writeDataTmp := tmp } q p size := by
  have hlevel := h.rep.freeLevel_eq
  obtain ⟨fresh, halloc⟩ := reserveChecked_served hserved
  obtain ⟨p, n, tmp, heq, hn, hr⟩ := cbufReserve_ok h.rep h.tmp.write (h.tmp.reserveFits (by omega)) fresh hsize
  rw [cbufReserve_eq, if_neg (by omega), ← halloc] at heq
  exact ⟨p, n, tmp, heq, ⟨⟨h.rep.size_eq, h.rep.length_data, h.rep.rd_lt, h.rep.wr_eq, h.rep.fits, h.rep.reads⟩,
    ⟨h.tmp.small, h.tmp.read, hn⟩, h.rd⟩, hr⟩

theorem store (h : Stored k buf R q) {p : Ptr} {n : ℕ} (hr : Reserved buf q p n) {off : ℕ} {bytes : List UInt8}
    (hoff : off + bytes.length ≤ n) : Stored k (cbufStore buf p off bytes) R q := by
  have hrep := (hr.store h.rep hoff).1
  obtain ⟨cells, tmp, hstore, hlen⟩ := hr.store_tmp hoff
  rw [hstore] at hrep ⊢
  exact ⟨hrep, ⟨h.tmp.small, h.tmp.read, h.tmp.write.trans hlen.symm⟩, h.rd⟩

theorem commit (h : Stored k buf R q) {p : Ptr} {m n : ℕ} (hr : Reserved buf q p n) (hm : m ≤ n) :
    Stored k (cbufCommit buf p m) R (q ++ cbufLoad buf p m) := by
  have hrep := hr.commit h.rep hm
  rw [take_cbufLoad buf p hm] at hrep
  obtain ⟨cells, wr, hframe⟩ := cbufCommit_frame buf p m
  rw [hframe] at hrep ⊢
  exact ⟨hrep, ⟨h.tmp.small, h.tmp.read, h.tmp.write⟩, h.rd⟩

end Stored

theorem Reserved.load_store {k : ℕ} {buf : Cbuf} {q : List UInt8} {p : Ptr} {n : ℕ} (hr : Reserved buf q p n)
    (h : Rep k buf q) {bytes : List UInt8} (hlen : bytes.length ≤ n) :
    cbufLoad (cbufStore buf p 0 bytes) p bytes.length = bytes := by
  obtain ⟨-, -, hload⟩ := hr.store h (by omega : 0 + bytes.length ≤ n)
  have htake := take_memcpy bytes (Nat.zero_le (cbufLoad buf p n).length)
  rw [Nat.zero_add, List.take_zero, List.nil_append] at htake
  rw [← take_cbufLoad _ p hlen, hload, htake]

theorem Reserved.discard {buf : Cbuf} {q : List UInt8} {p : Ptr} {m : ℕ} (h : Reserved buf q p m) (n : ℕ) :
    Reserved (advanceRdPtr buf n) (q.drop n) p m := by
  refine ⟨?_, h.block⟩
  have hfits := h.fits
  rw [List.length_drop]
  exact (Nat.add_le_add_right (Nat.sub_le _ _) m).trans hfits

theorem cbufLoad_advanceRdPtr (buf : Cbuf) (p : Ptr) (m n : ℕ) :
    cbufLoad (advanceRdPtr buf n) p m = cbufLoad buf p m := by cases p <;> rfl

theorem Peeked.write {buf buf' : Cbuf} {q : List UInt8} {p : Ptr} {n : ℕ} (h : Peeked buf q p n) (data : List UInt8)
    (hrd : buf'.rdPtr = buf.rdPtr) (hsize : buf'.size = buf.size) (htmp : buf'.readDataTmp = buf.readDataTmp) :
    Peeked buf' (q ++ data) p n := by
  refine ⟨by have := h.fits; rw [List.length_append]; omega, ?_⟩
  rw [hrd, hsize, htmp, List.take_append_of_le_length h.fits]
  exact h.block

theorem Peeked.load {k R : ℕ} {buf : Cbuf} {q : List UInt8} {p : Ptr} {n : ℕ} (h : Peeked buf q p n)
    (hstored : Stored k buf R q) {m : ℕ} (hm : m ≤ n) : cbufLoad buf p m = q.take m := by
  have hfits := h.fits
  obtain ⟨rfl, hwrap⟩ | ⟨rfl, htmp⟩ := h.block
  · have hread := congrArg Prod.fst (hstored.readChecked_eq (hm.trans hfits))
    simp only [readChecked] at hread
    rw [if_pos (by omega)] at hread
    exact hread
  · have htake := congrArg (List.take m) htmp
    rw [slice, List.take_take, List.take_take, Nat.min_eq_left hm] at htake
    exact htake

/-! ## What a thread knows about the level -/

namespace Threads

/-- The pointers loaded for the subtraction are those of a full buffer, although it was not full just before. -/
def LevelPc.filled (size : ℕ) : LevelPc → Bool
  | .subtract (some wr) (some rd) => wr == rd ^^^ size
  | _ => false

/-- The reader has loaded `wr_ptr` at publications between `R + n` and `P`. -/
def Enough (size R P n : ℕ) : LevelPc → Prop
  | .isFull wr rd | .subtract wr rd =>
    (∀ w ∈ wr, ∃ d, n ≤ d ∧ R + d ≤ P ∧ w = (R + d) % (2 * size)) ∧ ∀ r ∈ rd, r = R % (2 * size)
  | .done fillLevel => n ≤ fillLevel ∧ R + fillLevel ≤ P

/-- The writer has loaded `rd_ptr` at releases of at most `R`, with room for `n` bytes. -/
def Room (size R P n : ℕ) : LevelPc → Prop
  | .isFull wr rd =>
    (∀ w ∈ wr, w = P % (2 * size)) ∧ ∀ r ∈ rd, ∃ R' ≤ R, R' ≤ P ∧ P + n ≤ R' + size ∧ r = R' % (2 * size)
  | .subtract wr rd =>
    P < R + size ∧ (∀ w ∈ wr, w = P % (2 * size)) ∧
      ∀ r ∈ rd, ∃ R' ≤ R, R' ≤ P ∧ P < R' + size ∧ P + n ≤ R' + size ∧ r = R' % (2 * size)
  | .done fillLevel => P ≤ R + fillLevel ∧ fillLevel + n ≤ size

section Levels
variable {size k R P n : ℕ} {pc pc' : LevelPc} {buf : Cbuf} {p : Shared}

theorem enough_none : Enough size R P n (.isFull none none) := ⟨nofun, nofun⟩

theorem room_none : Room size R P n (.isFull none none) := ⟨nofun, nofun⟩

theorem Enough.mono (h : Enough size R P n pc) {P' : ℕ} (hP : P ≤ P') : Enough size R P' n pc := by
  cases pc with
  | done fillLevel => exact ⟨h.1, h.2.trans hP⟩
  | isFull wr rd | subtract wr rd =>
    refine ⟨fun w hw => ?_, h.2⟩
    obtain ⟨d, hn, hd, rfl⟩ := h.1 w hw
    exact ⟨d, hn, hd.trans hP, rfl⟩

theorem Room.mono (h : Room size R P n pc) {R' : ℕ} (hR : R ≤ R') : Room size R' P n pc := by
  cases pc with
  | done fillLevel => exact ⟨h.1.trans (Nat.add_le_add_right hR _), h.2⟩
  | isFull wr rd =>
    refine ⟨h.1, fun r hr => ?_⟩
    obtain ⟨R₁, hR₁, hrest⟩ := h.2 r hr
    exact ⟨R₁, hR₁.trans hR, hrest⟩
  | subtract wr rd =>
    refine ⟨by have := h.1; omega, h.2.1, fun r hr => ?_⟩
    obtain ⟨R₁, hR₁, hrest⟩ := h.2.2 r hr
    exact ⟨R₁, hR₁.trans hR, hrest⟩

theorem Enough.load (h : Enough size R P n pc) (hwr : buf.wrPtr = P % (2 * size)) (hrd : buf.rdPtr = R % (2 * size))
    (hn : R + n ≤ P) (hload : pc.load buf p = some pc') : Enough size R P n pc' := by
  have hnow : ∃ d, n ≤ d ∧ R + d ≤ P ∧ buf.wrPtr = (R + d) % (2 * size) :=
    ⟨P - R, by omega, by omega, by rw [hwr]; congr 1; omega⟩
  unfold LevelPc.load at hload
  split at hload
  case h_1 | h_3 =>
    obtain rfl := Option.some.inj hload
    exact ⟨by rintro w ⟨⟩; exact hnow, h.2⟩
  case h_2 | h_4 =>
    obtain rfl := Option.some.inj hload
    exact ⟨h.1, by rintro r ⟨⟩; exact hrd⟩
  case h_5 => cases hload

/-- Only the subtraction for a buffer that has been filled since gives too little. -/
theorem Enough.next (hsize : size = 2 ^ k) (h : Enough size R P n pc) (hP : P ≤ R + size)
    (hfilled : n = 0 ∨ pc.filled size = false) : Enough size R P n (pc.next size) := by
  unfold LevelPc.next
  split
  · obtain ⟨d, hn, hd, hw⟩ := h.1 _ rfl
    rw [hw, h.2 _ rfl]
    split_ifs with hfull
    · rw [isFull_at hsize R d (by omega)] at hfull
      simp only [Enough]
      omega
    · simp [Enough]
  · obtain ⟨d, hn, hd, hw⟩ := h.1 _ rfl
    rw [hw, h.2 _ rfl, LevelPc.filled, ← Bool.not_eq_true, isFull_at hsize R d (by omega)] at hfilled
    rw [hw, h.2 _ rfl, fillLevelOf_at hsize R d (by omega)]
    simp only [Enough]
    split_ifs <;> omega
  · exact h

theorem next_of_filled (hsize : size = 2 ^ k) (h : Enough size R P n pc) (hP : P ≤ R + size)
    (hfilled : pc.filled size = true) : pc.next size = .done 0 := by
  unfold LevelPc.filled at hfilled
  split at hfilled
  · obtain ⟨d, hn, hd, hw⟩ := h.1 _ rfl
    rw [hw, h.2 _ rfl, isFull_at hsize R d (by omega)] at hfilled
    rw [LevelPc.next, hw, h.2 _ rfl, fillLevelOf_at hsize R d (by omega), if_pos hfilled]
  · cases hfilled

theorem Room.load (h : Room size R P n pc) (hwr : buf.wrPtr = P % (2 * size)) (hrd : buf.rdPtr = R % (2 * size))
    (hRP : R ≤ P) (hP : P + n ≤ R + size) (hload : pc.load buf p = some pc') : Room size R P n pc' := by
  unfold LevelPc.load at hload
  split at hload
  case h_1 =>
    obtain rfl := Option.some.inj hload
    exact ⟨by rintro w ⟨⟩; exact hwr, h.2⟩
  case h_2 =>
    obtain rfl := Option.some.inj hload
    exact ⟨h.1, by rintro r ⟨⟩; exact ⟨R, le_rfl, hRP, hP, hrd⟩⟩
  case h_3 =>
    obtain rfl := Option.some.inj hload
    exact ⟨h.1, by rintro w ⟨⟩; exact hwr, h.2.2⟩
  case h_4 =>
    obtain rfl := Option.some.inj hload
    exact ⟨h.1, h.2.1, by rintro r ⟨⟩; exact ⟨R, le_rfl, hRP, h.1, hP, hrd⟩⟩
  case h_5 => cases hload

theorem Room.next (hsize : size = 2 ^ k) (h : Room size R P n pc) : Room size R P n (pc.next size) := by
  unfold LevelPc.next
  split
  · obtain ⟨R', hR', hRP', hP', hr⟩ := h.2 _ rfl
    obtain ⟨d, rfl⟩ := Nat.exists_eq_add_of_le hRP'
    rw [h.1 _ rfl, hr]
    split_ifs with hfull
    · rw [isFull_at hsize R' d (by omega)] at hfull
      simp only [Room]
      omega
    · rw [isFull_at hsize R' d (by omega)] at hfull
      exact ⟨by omega, nofun, nofun⟩
  · obtain ⟨R', hR', hRP', hlt, hP', hr⟩ := h.2.2 _ rfl
    obtain ⟨d, rfl⟩ := Nat.exists_eq_add_of_le hRP'
    rw [h.2.1 _ rfl, hr, fillLevelOf_at hsize R' d (by omega), if_neg (by omega)]
    simp only [Room]
    omega
  · exact h

end Levels

end Threads

end GlipOsd.CircularBuffer
