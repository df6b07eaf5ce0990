import GlipOsd.CircularBuffer.Interleaved
import GlipOsd.Foundations.Runs

/-! # The temporary blocks when allocations fail

A request that wraps around the end of the buffer is served through a temporary block, which is grown when its
recorded size is too small. The size is recorded before `realloc` is called; when that fails, the block is gone and
the size stays. Histories are of any calls by which a client may use a buffer, and each `realloc` may fail.
-/

namespace GlipOsd.CircularBuffer.TemporaryBlocks
open Memory Runs
set_option autoImplicit false

/-! ## Histories -/

inductive Call
  | write (data : List UInt8)
  | reserve (alloc : Alloc) (size : ℕ)
  | fill (off : ℕ) (data : List UInt8)
  | commit (size : ℕ)
  | read (size : ℕ)
  | peek (alloc : Alloc) (size : ℕ)
  | discard (size : ℕ)
  | setHintMaxReadSize (hint : ℕ)
  | setHintMaxWriteSize (hint : ℕ)

/-- `none` is a call that the client must not make: a store or a commit beyond what is reserved. -/
def step (c : Client) : Call → Option Client
  | .write data => some ⟨(cbufWrite c.buf data).2, none⟩
  | .reserve alloc size =>
    some ⟨(cbufReserve c.buf alloc size).2, (cbufReserve c.buf alloc size).1.toOption.map (·, size)⟩
  | .fill off data =>
    match c.reserved with
    | some (p, n) => if off + data.length ≤ n then some ⟨cbufStore c.buf p off data, some (p, n)⟩ else none
    | none => none
  | .commit size =>
    match c.reserved with
    | some (p, n) => if size ≤ n then some ⟨cbufCommit c.buf p size, none⟩ else none
    | none => none
  | .read size => some ⟨(cbufRead c.buf size).2, c.reserved⟩
  | .peek alloc size => some ⟨(cbufPeek c.buf alloc size).2, c.reserved⟩
  | .discard size => some ⟨(cbufDiscard c.buf size).2, c.reserved⟩
  | .setHintMaxReadSize hint => some ⟨cbufSetHintMaxReadSize c.buf hint, c.reserved⟩
  | .setHintMaxWriteSize hint => some ⟨cbufSetHintMaxWriteSize c.buf hint, c.reserved⟩

def start (k : ℕ) : Client := ⟨cbufInit (2 ^ k), none⟩

/-! ## What the requests are for -/

/-- `p` is not null and designates `n` bytes: cells up to the end of the block, or bytes of a temporary block. -/
def Designates (buf : Cbuf) (n : ℕ) : Ptr → Prop
  | .data off => off + n ≤ buf.data.length
  | .readDataTmp => ∃ block ∈ buf.readDataTmp, n ≤ block.length
  | .writeDataTmp => ∃ block ∈ buf.writeDataTmp, n ≤ block.length

/-- No recorded size is larger than what is allocated. -/
structure Recorded (buf : Cbuf) : Prop where
  read : buf.readDataTmpSize ≤ (buf.readDataTmp.getD []).length
  write : buf.writeDataTmpSize ≤ (buf.writeDataTmp.getD []).length

/-- A pointer that is handed out designates as many bytes as were asked for, behind a peek the oldest ones; a failed
allocation is reported, and the recorded sizes are right afterwards. -/
def Honest (c : Client) : Call → Prop
  | .reserve alloc size =>
    (∀ p, (cbufReserve c.buf alloc size).1 = .ok p → Designates (cbufReserve c.buf alloc size).2 size p) ∧
      (size ≤ cbufFreeLevel c.buf → ¬ ReserveServed c.buf alloc size →
        (cbufReserve c.buf alloc size).1 = .error .ENOMEM) ∧
      Recorded (cbufReserve c.buf alloc size).2
  | .peek alloc size =>
    (0 < size → ∀ p, (cbufPeek c.buf alloc size).1 = .ok p →
      ∃ ptr ∈ p, Designates (cbufPeek c.buf alloc size).2 size ptr ∧
        ∀ k q, Rep k c.buf q → cbufLoad (cbufPeek c.buf alloc size).2 ptr size = q.take size) ∧
      (0 < size → size ≤ cbufFillLevel c.buf → ¬ PeekServed c.buf alloc size →
        (cbufPeek c.buf alloc size).1 = .error .ENOMEM) ∧
      Recorded (cbufPeek c.buf alloc size).2
  | _ => True

/-- A read of `size` bytes does not wrap, or the bytes up to the end of the block can be counted in an `int`. -/
def ReadFits (buf : Cbuf) (size : ℕ) : Prop :=
  (buf.rdPtr &&& (buf.size - 1)) + size ≤ buf.size ∨ buf.size - (buf.rdPtr &&& (buf.size - 1)) < 2 ^ 31

/-- A request that needs a larger temporary block gets one, of a size that the code can compute; a read counts its
bytes in an `int`. -/
def Served (c : Client) : Call → Prop
  | .reserve alloc size =>
    size ≤ cbufFreeLevel c.buf → ReserveServed c.buf alloc size ∧ ReserveFits c.buf size
  | .peek alloc size => size ≤ cbufFillLevel c.buf → PeekServed c.buf alloc size ∧ PeekFits c.buf size
  | .read size => size ≤ cbufFillLevel c.buf → ReadFits c.buf size
  | _ => True

instance (buf : Cbuf) (size : ℕ) : Decidable (ReserveFits buf size) := inferInstanceAs (Decidable (_ ∨ _))

instance (buf : Cbuf) (size : ℕ) : Decidable (PeekFits buf size) := inferInstanceAs (Decidable (_ ∨ _))

instance (buf : Cbuf) (size : ℕ) : Decidable (ReadFits buf size) := inferInstanceAs (Decidable (_ ∨ _))

instance (c : Client) : ∀ call, Decidable (Served c call)
  | .reserve _ _ | .peek _ _ | .read _ => inferInstanceAs (Decidable (_ → _))
  | .write _ | .fill _ _ | .commit _ | .discard _ | .setHintMaxReadSize _ | .setHintMaxWriteSize _ =>
    inferInstanceAs (Decidable True)

/-! ## One call -/

/-- `c` is a client of a buffer that stores `q`, whose recorded sizes are those of the blocks. -/
structure Kept (k : ℕ) (q : List UInt8) (c : Client) : Prop where
  rep : Rep k c.buf q
  read : c.buf.readDataTmpSize = (c.buf.readDataTmp.getD []).length
  write : c.buf.writeDataTmpSize = (c.buf.writeDataTmp.getD []).length
  reserved : ∀ r ∈ c.reserved, Reserved c.buf q r.1 r.2

theorem kept_start (k : ℕ) : Kept k [] (start k) := ⟨rep_cbufInit k, rfl, rfl, nofun⟩

section Requests
variable {k : ℕ} {q : List UInt8} {c : Client} {alloc : Alloc} {size : ℕ}

theorem Kept.recorded (h : Kept k q c) : Recorded c.buf := ⟨h.read.le, h.write.le⟩

/-- A reservation that is served, or refused for want of room. -/
theorem Kept.reserve (h : Kept k q c) (hserved : Served c (.reserve alloc size)) :
    cbufReserve c.buf alloc size = (.error .EINVAL, c.buf) ∨
      ∃ p n tmp, cbufReserve c.buf alloc size = (.ok p, { c.buf with writeDataTmpSize := n, writeDataTmp := tmp }) ∧
        n = (tmp.getD []).length ∧ Reserved { c.buf with writeDataTmpSize := n, writeDataTmp := tmp } q p size := by
  have hfits := h.rep.fits
  have hlevel := h.rep.freeLevel_eq
  by_cases hroom : q.length + size ≤ c.buf.size
  · obtain ⟨hblock, hfit⟩ := hserved (by omega)
    obtain ⟨fresh, halloc⟩ := reserveChecked_served hblock
    have heq : cbufReserve c.buf alloc size = cbufReserve c.buf (some fresh) size := by
      rw [cbufReserve_eq, cbufReserve_eq, halloc]
    rw [heq]
    exact .inr (cbufReserve_ok h.rep h.write hfit fresh hroom)
  · exact .inl (cbufReserve_refused h.rep alloc (by omega))

/-- A peek that is served, or refused, or of nothing. -/
theorem Kept.peek (h : Kept k q c) (hserved : Served c (.peek alloc size)) :
    cbufPeek c.buf alloc size = (.error .EINVAL, c.buf) ∨
      size = 0 ∧ cbufPeek c.buf alloc size = (.ok none, c.buf) ∨
      ∃ p n tmp, cbufPeek c.buf alloc size = (.ok (some p), { c.buf with readDataTmpSize := n, readDataTmp := tmp }) ∧
        n = (tmp.getD []).length ∧
        cbufLoad { c.buf with readDataTmpSize := n, readDataTmp := tmp } p size = q.take size := by
  have hlevel := h.rep.fillLevel_eq
  by_cases hzero : size = 0
  · exact .inr (.inl ⟨hzero, if_pos hzero⟩)
  by_cases hsize : size ≤ q.length
  · obtain ⟨hblock, hfit⟩ := hserved (by omega)
    obtain ⟨fresh, halloc⟩ := peekChecked_served hblock
    have heq : cbufPeek c.buf alloc size = cbufPeek c.buf (some fresh) size := by
      rw [cbufPeek_eq, cbufPeek_eq, halloc]
    rw [heq]
    exact .inr (.inr (cbufPeek_ok h.rep h.read hfit fresh hzero hsize))
  · exact .inl (cbufPeek_refused h.rep alloc (by omega))

theorem exists_block {tmp : Option (List UInt8)} (hpos : 0 < size) (h : size ≤ (tmp.getD []).length) :
    ∃ block ∈ tmp, size ≤ block.length := by
  cases tmp with
  | none =>
    have hzero : size ≤ 0 := h
    omega
  | some block => exact ⟨block, rfl, h⟩

theorem designates_of_load {buf : Cbuf} {p : Ptr} (hpos : 0 < size) (h : (cbufLoad buf p size).length = size) :
    Designates buf size p := by
  rw [cbufLoad, slice, List.length_take, List.length_drop] at h
  cases p with
  | data off =>
    simp only [Cbuf.block, Ptr.offset] at h
    show off + size ≤ buf.data.length
    omega
  | readDataTmp =>
    simp only [Cbuf.block, Ptr.offset] at h
    exact exists_block hpos (by omega)
  | writeDataTmp =>
    simp only [Cbuf.block, Ptr.offset] at h
    exact exists_block hpos (by omega)

theorem designates_of_reserved {buf : Cbuf} {p : Ptr} (h : Rep k buf q) (hr : Reserved buf q p size) :
    Designates buf size p := by
  have hcell := h.wr_cell_lt
  obtain ⟨rfl, hfits⟩ | ⟨rfl, hwrap, hblock⟩ := hr.block
  · show (buf.wrPtr &&& (buf.size - 1)) + size ≤ buf.data.length
    rw [h.length_data]
    exact hfits
  · exact exists_block (by omega) hblock

theorem Kept.reserve_honest (h : Kept k q c) (hserved : Served c (.reserve alloc size)) :
    Honest c (.reserve alloc size) := by
  refine ⟨?_, fun hroom hno => absurd (hserved hroom).1 hno, ?_⟩
  · intro p hp
    obtain heq | ⟨p', n, tmp, heq, hn, hr⟩ := h.reserve hserved
    · rw [heq] at hp
      cases hp
    · rw [heq] at hp ⊢
      cases hp
      exact designates_of_reserved ⟨h.rep.size_eq, h.rep.length_data, h.rep.rd_lt, h.rep.wr_eq, h.rep.fits, h.rep.reads⟩ hr
  · obtain heq | ⟨p', n, tmp, heq, hn, -⟩ := h.reserve hserved
    · rw [heq]
      exact h.recorded
    · rw [heq]
      exact ⟨h.read.le, hn.le⟩

theorem Kept.peek_honest (h : Kept k q c) (hserved : Served c (.peek alloc size)) : Honest c (.peek alloc size) := by
  refine ⟨?_, fun _ hsize hno => absurd (hserved hsize).1 hno, ?_⟩
  · intro hpos p hp
    obtain heq | ⟨hzero, -⟩ | ⟨p', n, tmp, heq, hn, hload⟩ := h.peek hserved
    · rw [heq] at hp
      cases hp
    · omega
    · -- the level check has passed
      have hsize : size ≤ q.length := by
        by_contra hlt
        rw [cbufPeek_refused h.rep alloc (Nat.lt_of_not_le hlt)] at heq
        cases heq
      rw [heq] at hp ⊢
      cases hp
      refine ⟨p', rfl, designates_of_load hpos ?_, fun k' q' hrep => ?_⟩
      · rw [hload, List.length_take_of_le hsize]
      · rw [hload, h.rep.unique hrep]
  · obtain heq | ⟨-, heq⟩ | ⟨p', n, tmp, heq, hn, -⟩ := h.peek hserved
    · rw [heq]
      exact h.recorded
    · rw [heq]
      exact h.recorded
    · rw [heq]
      exact ⟨hn.le, h.write.le⟩

end Requests

/-! ## Histories -/

section Steps
variable {k : ℕ} {q : List UInt8} {c c' : Client} {call : Call}

theorem Kept.honest (h : Kept k q c) (hserved : Served c call) : Honest c call := by
  cases call with
  | reserve alloc size => exact h.reserve_honest hserved
  | peek alloc size => exact h.peek_honest hserved
  | write data => trivial
  | fill off data => trivial
  | commit size => trivial
  | read size => trivial
  | discard size => trivial
  | setHintMaxReadSize hint => trivial
  | setHintMaxWriteSize hint => trivial

theorem cbufRead_state {buf : Cbuf} (h : Rep k buf q) (size : ℕ) :
    ∃ n rd, (cbufRead buf size).2 = { buf with rdPtr := rd } ∧ Rep k (cbufRead buf size).2 (q.drop n) := by
  obtain ⟨rd, hframe⟩ := cbufRead_frame buf size
  by_cases hzero : size = 0
  · exact ⟨0, rd, hframe, by rwa [cbufRead, if_pos hzero]⟩
  by_cases hsize : size ≤ q.length
  · refine ⟨size, rd, hframe, ?_⟩
    rw [cbufRead_eq, if_neg hzero, h.fillLevel_eq, if_neg (by omega)]
    exact h.advanceRdPtr hsize
  · refine ⟨0, rd, hframe, ?_⟩
    rwa [cbufRead_refused h (Nat.lt_of_not_le hsize)]

theorem Kept.takes (h : Kept k q c) {buf : Cbuf} {rd n : ℕ} (hbuf : buf = { c.buf with rdPtr := rd })
    (hrep : Rep k buf (q.drop n)) : Kept k (q.drop n) ⟨buf, c.reserved⟩ := by
  subst hbuf
  refine ⟨hrep, h.read, h.write, fun r hr => ⟨?_, (h.reserved r hr).block⟩⟩
  have hfits := (h.reserved r hr).fits
  rw [List.length_drop]
  show q.length - n + r.2 ≤ c.buf.size
  omega

theorem Kept.step (h : Kept k q c) (hserved : Served c call) (hstep : step c call = some c') : ∃ q', Kept k q' c' := by
  cases call with
  | write data =>
    obtain rfl := Option.some.inj hstep
    obtain ⟨cells, wr, hframe⟩ := cbufWrite_frame c.buf data
    by_cases hroom : q.length + data.length ≤ c.buf.size
    · have hrep := (cbufWrite_ok h.rep data hroom).2
      refine ⟨q ++ data, hrep, ?_, ?_, nofun⟩
      · rw [hframe]
        exact h.read
      · rw [hframe]
        exact h.write
    · rw [cbufWrite_refused h.rep (by omega)]
      exact ⟨q, h.rep, h.read, h.write, nofun⟩
  | reserve alloc size =>
    obtain rfl := Option.some.inj hstep
    obtain heq | ⟨p, n, tmp, heq, hn, hr⟩ := h.reserve hserved
    · rw [heq]
      exact ⟨q, h.rep, h.read, h.write, nofun⟩
    · rw [heq]
      refine ⟨q, ⟨h.rep.size_eq, h.rep.length_data, h.rep.rd_lt, h.rep.wr_eq, h.rep.fits, h.rep.reads⟩, h.read, hn, ?_⟩
      rintro r hreserved
      cases hreserved
      exact hr
  | fill off data =>
    obtain ⟨buf, reserved⟩ := c
    cases reserved with
    | none => cases hstep
    | some r =>
      have hr := h.reserved r rfl
      simp only [step] at hstep
      split_ifs at hstep with hoff
      obtain rfl := Option.some.inj hstep
      obtain ⟨hrep, hr', -⟩ := hr.store h.rep hoff
      obtain ⟨cells, tmp, hstore, hlen⟩ := hr.store_tmp hoff
      rw [hstore] at hrep hr' ⊢
      refine ⟨q, hrep, h.read, h.write.trans hlen.symm, ?_⟩
      rintro r' hreserved
      cases hreserved
      exact hr'
  | commit size =>
    obtain ⟨buf, reserved⟩ := c
    cases reserved with
    | none => cases hstep
    | some r =>
      have hr := h.reserved r rfl
      simp only [step] at hstep
      split_ifs at hstep with hle
      obtain rfl := Option.some.inj hstep
      have hrep := hr.commit h.rep hle
      obtain ⟨cells, wr, hframe⟩ := cbufCommit_frame buf r.1 size
      rw [hframe] at hrep ⊢
      exact ⟨_, hrep, h.read, h.write, nofun⟩
  | read size =>
    obtain rfl := Option.some.inj hstep
    obtain ⟨n, rd, hframe, hrep⟩ := cbufRead_state h.rep size
    exact ⟨q.drop n, h.takes hframe hrep⟩
  | peek alloc size =>
    obtain rfl := Option.some.inj hstep
    obtain heq | ⟨-, heq⟩ | ⟨p, n, tmp, heq, hn, -⟩ := h.peek hserved
    · rw [heq]
      exact ⟨q, h⟩
    · rw [heq]
      exact ⟨q, h⟩
    · rw [heq]
      exact ⟨q, ⟨h.rep.size_eq, h.rep.length_data, h.rep.rd_lt, h.rep.wr_eq, h.rep.fits, h.rep.reads⟩, hn, h.write,
        fun r hr => ⟨(h.reserved r hr).fits, (h.reserved r hr).block⟩⟩
  | discard size =>
    obtain rfl := Option.some.inj hstep
    obtain ⟨rd, hframe⟩ := cbufDiscard_frame c.buf size
    by_cases hsize : size ≤ q.length
    · exact ⟨q.drop size, h.takes hframe (cbufDiscard_ok h.rep hsize).2⟩
    · rw [cbufDiscard_refused h.rep (by omega)]
      exact ⟨q, h⟩
  | setHintMaxReadSize hint =>
    obtain rfl := Option.some.inj hstep
    exact ⟨q, ⟨h.rep.size_eq, h.rep.length_data, h.rep.rd_lt, h.rep.wr_eq, h.rep.fits, h.rep.reads⟩, h.read, h.write,
      fun r hr => ⟨(h.reserved r hr).fits, (h.reserved r hr).block⟩⟩
  | setHintMaxWriteSize hint =>
    obtain rfl := Option.some.inj hstep
    exact ⟨q, ⟨h.rep.size_eq, h.rep.length_data, h.rep.rd_lt, h.rep.wr_eq, h.rep.fits, h.rep.reads⟩, h.read, h.write,
      fun r hr => ⟨(h.reserved r hr).fits, (h.reserved r hr).block⟩⟩

/-- When the allocation fails, the size that is recorded is at least what was asked for, and nothing is allocated. -/
theorem growTmp_none (hint : ℕ) {tmpSize sizeMax size : ℕ} (tmp : Option (List UInt8)) (hgrow : tmpSize < size)
    (hmax : sizeMax ≤ 2 ^ 30) (hsize : size ≤ sizeMax) :
    size ≤ (growTmp hint tmpSize tmp sizeMax none size).1 ∧ (growTmp hint tmpSize tmp sizeMax none size).2 = none := by
  rw [growTmp, if_pos hgrow]
  refine ⟨?_, rfl⟩
  simp only
  split_ifs with hhint
  · exact hhint
  · exact le_cbufCalcBufsize (by omega) hsize

/-- In buffers of up to `2 ^ 30` bytes a request is honest only if it is served. -/
theorem Kept.served (hk : k ≤ 30) (h : Kept k q c) (hhonest : Honest c call) : Served c call := by
  have hsmall := h.rep.size_le hk
  have hfits := h.rep.fits
  cases call with
  | reserve alloc size =>
    intro hroom
    have hlevel := h.rep.freeLevel_eq
    refine ⟨?_, .inr (.inr (.inr (by omega)))⟩
    by_contra hno
    obtain ⟨-, -, hrecorded⟩ := hhonest
    simp only [ReserveServed, not_or, not_le, Option.not_isSome_iff_eq_none] at hno
    obtain ⟨hwrap, hgrow, rfl⟩ := hno
    obtain ⟨hn, htmp⟩ := growTmp_none c.buf.hintMaxWriteSize c.buf.writeDataTmp hgrow hsmall
      (by omega)
    rw [cbufReserve_eq, if_neg (by omega), reserveChecked, if_neg (by omega)] at hrecorded
    simp only [htmp, hgrow, and_self, if_true] at hrecorded
    have hwrite := hrecorded.write
    simp only [Option.getD_none, List.length_nil] at hwrite
    omega
  | peek alloc size =>
    intro hsize
    have hlevel := h.rep.fillLevel_eq
    refine ⟨?_, .inr ⟨by omega, .inr (.inr (by omega))⟩⟩
    by_contra hno
    obtain ⟨-, -, hrecorded⟩ := hhonest
    simp only [PeekServed, not_or, not_le, Option.not_isSome_iff_eq_none] at hno
    obtain ⟨hwrap, hgrow, rfl⟩ := hno
    obtain ⟨hn, htmp⟩ := growTmp_none c.buf.hintMaxReadSize c.buf.readDataTmp hgrow hsmall
      (by omega)
    rw [cbufPeek_eq, if_neg (by omega), if_neg (by omega), peekChecked, if_neg (by omega)] at hrecorded
    simp only [htmp, hgrow, and_self, if_true] at hrecorded
    have hread := hrecorded.read
    simp only [Option.getD_none, List.length_nil] at hread
    omega
  | read size => exact fun _ => .inr (by omega)
  | write data => trivial
  | fill off data => trivial
  | commit size => trivial
  | discard size => trivial
  | setHintMaxReadSize hint => trivial
  | setHintMaxWriteSize hint => trivial

end Steps

/-- **The temporary blocks are large enough** as long as every request that needs a larger block gets one of a size
that the code can compute: then no recorded size exceeds what is allocated, and every pointer handed out designates
as many bytes as were asked for. In buffers of up to `2 ^ 30` bytes this is so only then. -/
theorem blocks_large_enough (k : ℕ) (calls : List Call) :
    (Takes step Served (start k) calls →
      Passes step (fun c => Recorded c.buf) (start k) calls ∧ Takes step Honest (start k) calls) ∧
      (k ≤ 30 → Takes step Honest (start k) calls → Takes step Served (start k) calls) := by
  have hstart : ∃ q, Kept k q (start k) := ⟨[], kept_start k⟩
  have hstep (c : Client) (call : Call) (c' : Client) (h : ∃ q, Kept k q c) (hserved : Served c call)
      (hc : step c call = some c') : ∃ q, Kept k q c' := by
    obtain ⟨q, hq⟩ := h
    exact hq.step hserved hc
  constructor
  · intro hserved
    refine ⟨(hserved.passes hstep hstart).mono ?_, hserved.mono hstep ?_ hstart⟩
    · rintro c ⟨q, hq⟩
      exact hq.recorded
    · rintro c call ⟨q, hq⟩ hs
      exact hq.honest hs
  · intro hk hhonest
    refine hhonest.mono (fun c call c' h hh => hstep c call c' h ?_) ?_ hstart
    · obtain ⟨q, hq⟩ := h
      exact hq.served hk hh
    · rintro c call ⟨q, hq⟩ hh
      exact hq.served hk hh

/-- In a buffer of four bytes: a reservation of three and a peek of four, both over the end of the block. -/
def wrappedCalls : List Call :=
  [.write [1, 2, 3], .read 2, .reserve (some fun _ => 0) 3, .fill 0 [4, 5, 6], .commit 3, .peek (some fun _ => 0) 4]

/-- Each is served through a temporary block, of which the reservation uses all but one byte. -/
theorem wrapped_calls_large_enough : ∃ c, runFrom step (start 2) wrappedCalls = some c ∧
    c.buf.writeDataTmp = some [4, 5, 6, 0] ∧ c.buf.readDataTmp = some [3, 4, 5, 6] ∧
    Passes step (fun c => Recorded c.buf) (start 2) wrappedCalls ∧ Takes step Honest (start 2) wrappedCalls := by
  have hserved : Takes step Served (start 2) wrappedCalls := by decide
  exact ⟨_, rfl, rfl, rfl, (blocks_large_enough 2 wrappedCalls).1 hserved⟩

/-- In a buffer of four bytes a reservation of three wraps and its allocation fails. The next one of three bytes takes
the recorded size for that of a block, and hands out the null pointer. -/
theorem null_handed_out : ∃ c, runFrom step (start 2) [.write [1, 2, 3], .read 2, .reserve none 3] = some c ∧
    c.buf.writeDataTmpSize = 4 ∧ c.buf.writeDataTmp = none ∧ ¬ Recorded c.buf ∧
    (cbufReserve c.buf none 3).1 = .ok .writeDataTmp ∧ (cbufReserve c.buf none 3).2.writeDataTmp = none ∧
    ¬ Honest c (.reserve none 3) := by
  refine ⟨_, rfl, rfl, rfl, fun h => ?_, rfl, rfl, fun h => ?_⟩
  · exact absurd h.write (by decide)
  · obtain ⟨block, hblock, -⟩ := h.1 .writeDataTmp rfl
    cases hblock

end GlipOsd.CircularBuffer.TemporaryBlocks
