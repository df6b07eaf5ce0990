import GlipOsd.CypressFx2.Threads

/-! # The streams of the cypressfx2 backend

Each thread knows what it has loaded for a level: the user as the writer of `write_buf` and `usb_read_thread` as that of
`read_buf` never see too much room, and the room they have seen stays. `usb_write_thread` never sees too many bytes, but
it sees none at all when the user fills the buffer between `cbuf_is_full` and the subtraction; then `cbuf_peek` or
`cbuf_discard` fails, although the bytes are there.
-/

namespace GlipOsd.CypressFx2
open CircularBuffer Threads Runs
set_option autoImplicit false

/-! ## Lengths -/

theorem usbBufSize_eq : usbBufSize = 2 ^ 16 := rfl

theorem transferLen_eq (level : ℕ) :
    transferLen level = if 512 ≤ level then min (level / 512) 64 * 512 else level - level % 2 := by
  show (if level ≥ 512 then (if level / 512 > 64 then 64 else level / 512) * 512 else level - level % 2) = _
  rw [Nat.min_def]
  split_ifs <;> omega

theorem transferLen_even (level : ℕ) : transferLen level % 2 = 0 := by
  rw [transferLen_eq]
  split_ifs <;> omega

theorem transferLen_le (level : ℕ) : transferLen level ≤ level := by
  rw [transferLen_eq]
  split_ifs <;> omega

theorem transferLen_le_max (level : ℕ) : transferLen level ≤ 64 * 512 := by
  rw [transferLen_eq]
  split_ifs <;> omega

theorem transferLen_pos {level : ℕ} (h : 2 ≤ level) : transferLen level ≠ 0 := by
  rw [transferLen_eq]
  split_ifs <;> omega

theorem bufSize_le (freeLevel : ℕ) : bufSize freeLevel ≤ freeLevel := by
  show (if freeLevel / 512 > 64 then 64 else freeLevel / 512) * 512 ≤ freeLevel
  split_ifs <;> omega

/-! ## The invariant -/

/-- The level that `usb_write_thread` takes a length from is the fill level at its last load of `wr_ptr`, or 0. -/
def Saw (R level : ℕ) : LevelPc → Prop
  | .isFull wr _ | .subtract wr _ => ∀ w ∈ wr, level ≤ usbBufSize ∧ w = (R + level) % (2 * usbBufSize)
  | .done fillLevel => fillLevel = level ∨ fillLevel = 0

def Chosen (q : List UInt8) (level len : ℕ) : Prop := level ≤ q.length ∧ len = transferLen level

/-- `buf` stores `q`, from the position `R` on. -/
def WriteInv (buf : Cbuf) (R : ℕ) (q : List UInt8) (level : ℕ) : WriteThread → Prop
  | .wait => True
  | .level pc => Enough usbBufSize R (R + q.length) 0 pc ∧ Saw R level pc
  | .peekLevel len pc => Chosen q level len ∧ len ≠ 0 ∧ Enough usbBufSize R (R + q.length) len pc
  | .peek len => Chosen q level len ∧ len ≠ 0
  | .transfer data len => Chosen q level len ∧ (data = none ∧ len = 0 ∨ ∃ p, data = some p ∧ Peeked buf q p len)
  | .discardLevel n pc => n ≤ q.length ∧ Enough usbBufSize R (R + q.length) n pc
  | .discard n => n ≤ q.length

def ReadInv (buf : Cbuf) (R : ℕ) (q : List UInt8) (ptr : Option Ptr) : ReadThread → Prop
  | .wait => True
  | .level pc => Room usbBufSize R (R + q.length) 0 pc
  | .reserveLevel n pc => q.length + n ≤ usbBufSize ∧ Room usbBufSize R (R + q.length) n pc
  | .reserve n => q.length + n ≤ usbBufSize
  | .transfer n => ∃ p, ptr = some p ∧ Reserved buf q p n
  | .commit m => ∃ p n, ptr = some p ∧ m ≤ n ∧ Reserved buf q p n

/-- The user writes behind the position `R + n` of one buffer and reads from the position `R'` on, where `n'` bytes
are stored. -/
def UserInv (R n R' n' : ℕ) : User → Prop
  | .idle | .writeNotify _ | .readNotify _ => True
  | .writeFree _ pc => Room usbBufSize R (R + n) 0 pc
  | .writeLevel data pc => n + data.length ≤ usbBufSize ∧ Room usbBufSize R (R + n) data.length pc
  | .write data => n + data.length ≤ usbBufSize
  | .readFill _ pc | .readLevel _ pc => Enough usbBufSize R' (R' + n') 0 pc
  | .read size => size ≤ n'

structure Inv (s : System) (R : ℕ) (q : List UInt8) (R' : ℕ) (q' : List UInt8) : Prop where
  writeBuf : Stored 16 s.writeBuf R q
  readBuf : Stored 16 s.readBuf R' q'
  outgoing : s.moved ++ q.drop s.writeThread.pending = s.accepted
  incoming : s.read ++ (q' ++ s.uncommitted) = s.received
  lengths : ∀ t ∈ s.transfers, t.Ok
  calls : s.failed = false
  writer : WriteInv s.writeBuf R q s.level s.writeThread
  reader : ReadInv s.readBuf R' q' s.buf s.readThread
  user : UserInv R q.length R' q'.length s.user

theorem inv_start : Inv start 0 [] 0 [] where
  writeBuf :=
    have h := rep_cbufInit 16
    ⟨⟨h.size_eq, h.length_data, h.rd_lt, h.wr_eq, h.fits, h.reads⟩, ⟨by decide, rfl, rfl⟩, rfl⟩
  readBuf := ⟨rep_cbufInit 16, ⟨by decide, rfl, rfl⟩, rfl⟩
  outgoing := rfl
  incoming := rfl
  lengths := nofun
  calls := rfl
  writer := trivial
  reader := trivial
  user := trivial

theorem Inv.conserved {s : System} {R R' : ℕ} {q q' : List UInt8} (h : Inv s R q R' q') : Conserved s where
  outgoing := by rw [h.writeBuf.contents_eq]; exact h.outgoing
  incoming := by rw [h.readBuf.contents_eq]; exact h.incoming
  lengths := h.lengths
  calls := h.calls

/-! ## Levels -/

theorem levelStep_cases {buf : Cbuf} {pc : LevelPc} {p : Shared} {busy : LevelPc → System} {known : ℕ → System}
    {s' : System} (h : levelStep buf pc p busy known = some s') :
    ∃ pc', pc.load buf p = some pc' ∧ ((∃ level, pc'.next buf.size = .done level ∧ s' = known level) ∨
      s' = busy (pc'.next buf.size)) := by
  obtain ⟨pc', hload, rfl⟩ := Option.map_eq_some_iff.mp h
  refine ⟨pc', hload, ?_⟩
  split
  · exact .inl ⟨_, ‹_›, rfl⟩
  · exact .inr rfl

section Levels
variable {buf : Cbuf} {R n level : ℕ} {q : List UInt8} {pc pc' : LevelPc} {p : Shared}

theorem size_eq (h : Stored 16 buf R q) : buf.size = usbBufSize := h.rep.size_eq

theorem length_le (h : Stored 16 buf R q) : q.length ≤ usbBufSize := size_eq h ▸ h.rep.fits

theorem wr_eq (h : Stored 16 buf R q) : buf.wrPtr = (R + q.length) % (2 * usbBufSize) := size_eq h ▸ h.wr

theorem rd_eq (h : Stored 16 buf R q) : buf.rdPtr = R % (2 * usbBufSize) := size_eq h ▸ h.rd

theorem room_step (h : Stored 16 buf R q) (hroom : Room usbBufSize R (R + q.length) n pc)
    (hn : q.length + n ≤ usbBufSize) (hload : pc.load buf p = some pc') :
    Room usbBufSize R (R + q.length) n (pc'.next buf.size) := by
  rw [size_eq h]
  exact (hroom.load (wr_eq h) (rd_eq h) (by omega) (by omega) hload).next usbBufSize_eq

theorem enough_step (h : Stored 16 buf R q) (henough : Enough usbBufSize R (R + q.length) n pc) (hn : n ≤ q.length)
    (hload : pc.load buf p = some pc') (hfilled : n = 0 ∨ pc'.filled buf.size = false) :
    Enough usbBufSize R (R + q.length) n (pc'.next buf.size) := by
  have hlen := length_le h
  rw [size_eq h] at hfilled ⊢
  exact (henough.load (wr_eq h) (rd_eq h) (by omega) hload).next usbBufSize_eq (by omega) hfilled

theorem level_of_filled (h : Stored 16 buf R q) (henough : Enough usbBufSize R (R + q.length) n pc) (hn : n ≤ q.length)
    (hload : pc.load buf p = some pc') (hfilled : pc'.filled buf.size = true) : pc'.next buf.size = .done 0 := by
  have hlen := length_le h
  rw [size_eq h] at hfilled ⊢
  exact next_of_filled usbBufSize_eq (henough.load (wr_eq h) (rd_eq h) (by omega) hload) (by omega) hfilled

theorem Saw.load (hsaw : Saw R level pc) (h : Stored 16 buf R q) (hload : pc.load buf p = some pc') :
    Saw R (if p = .wrPtr then cbufFillLevel buf else level) pc' := by
  have hnow : q.length ≤ usbBufSize ∧ buf.wrPtr = (R + q.length) % (2 * usbBufSize) := ⟨length_le h, wr_eq h⟩
  unfold LevelPc.load at hload
  split at hload
  case h_1 | h_3 =>
    obtain rfl := Option.some.inj hload
    rw [if_pos rfl, h.rep.fillLevel_eq]
    rintro w ⟨⟩
    exact hnow
  case h_2 | h_4 =>
    obtain rfl := Option.some.inj hload
    exact hsaw
  case h_5 => cases hload

theorem Saw.next (hsaw : Saw R level pc) {P : ℕ} (henough : Enough usbBufSize R P n pc) :
    Saw R level (pc.next usbBufSize) := by
  unfold LevelPc.next
  split
  · obtain ⟨hle, hw⟩ := hsaw _ rfl
    rw [hw, henough.2 _ rfl]
    split_ifs with hfull
    · rw [isFull_at usbBufSize_eq R level hle] at hfull
      exact .inl hfull.symm
    · exact nofun
  · obtain ⟨hle, hw⟩ := hsaw _ rfl
    rw [hw, henough.2 _ rfl, fillLevelOf_at usbBufSize_eq R level hle]
    split_ifs
    · exact .inr rfl
    · exact .inl rfl
  · exact hsaw

end Levels

/-! ## What the steps of the others leave alone -/

theorem WriteInv.pending_le {buf : Cbuf} {R level : ℕ} {q : List UInt8} {t : WriteThread} (h : WriteInv buf R q level t) :
    t.pending ≤ q.length := by
  cases t with
  | discardLevel n pc => exact h.1
  | discard n => exact h
  | _ => exact Nat.zero_le _

theorem WriteInv.write {buf : Cbuf} {R level : ℕ} {q : List UInt8} {t : WriteThread} (h : WriteInv buf R q level t)
    (data : List UInt8) : WriteInv (writeChecked buf data) R (q ++ data) level t := by
  have hlen : q.length ≤ (q ++ data).length := by rw [List.length_append]; omega
  have hP : R + q.length ≤ R + (q ++ data).length := by omega
  cases t with
  | wait => trivial
  | level pc => exact ⟨h.1.mono hP, h.2⟩
  | peekLevel len pc => exact ⟨⟨h.1.1.trans hlen, h.1.2⟩, h.2.1, h.2.2.mono hP⟩
  | peek len => exact ⟨⟨h.1.1.trans hlen, h.1.2⟩, h.2⟩
  | transfer ptr len =>
    refine ⟨⟨h.1.1.trans hlen, h.1.2⟩, h.2.imp_right fun ⟨p, hp, hpeek⟩ => ⟨p, hp, ?_⟩⟩
    exact hpeek.write data rfl rfl rfl
  | discardLevel n pc => exact ⟨h.1.trans hlen, h.2.mono hP⟩
  | discard n => exact h.trans hlen

theorem ReadInv.read {buf : Cbuf} {R : ℕ} {q : List UInt8} {ptr : Option Ptr} {t : ReadThread} (h : ReadInv buf R q ptr t)
    {n : ℕ} (hn : n ≤ q.length) : ReadInv (advanceRdPtr buf n) (R + n) (q.drop n) ptr t := by
  have hP : R + n + (q.drop n).length = R + q.length := by rw [List.length_drop]; omega
  have hlen : (q.drop n).length ≤ q.length := by rw [List.length_drop]; omega
  cases t with
  | wait => trivial
  | level pc =>
    simp only [ReadInv, hP] at h ⊢
    exact h.mono (by omega)
  | reserveLevel m pc =>
    simp only [ReadInv, hP] at h ⊢
    exact ⟨by have := h.1; omega, h.2.mono (by omega)⟩
  | reserve m =>
    simp only [ReadInv] at h ⊢
    omega
  | transfer m =>
    obtain ⟨p, hp, hr⟩ := h
    exact ⟨p, hp, hr.discard n⟩
  | commit m =>
    obtain ⟨p, size, hp, hm, hr⟩ := h
    exact ⟨p, size, hp, hm, hr.discard n⟩

/-- One of the threads takes bytes out of `write_buf`, or puts some into `read_buf`. -/
theorem UserInv.mono {R R₁ n n₁ R' n' n₁' : ℕ} {u : User} (h : UserInv R n R' n' u) (hR : R ≤ R₁) (hP : R₁ + n₁ = R + n)
    (hn : n' ≤ n₁') : UserInv R₁ n₁ R' n₁' u := by
  cases u with
  | idle | writeNotify pc | readNotify pc => trivial
  | writeFree data pc =>
    simp only [UserInv, hP] at h ⊢
    exact h.mono hR
  | writeLevel data pc =>
    simp only [UserInv, hP] at h ⊢
    exact ⟨by omega, h.2.mono hR⟩
  | write data =>
    simp only [UserInv] at h ⊢
    omega
  | readFill size pc | readLevel size pc => exact Enough.mono h (by omega)
  | read size => exact h.trans hn

theorem uncommitted_read (s : System) {s' : System} {n : ℕ} (hbuf : s'.readBuf = advanceRdPtr s.readBuf n)
    (hthread : s'.readThread = s.readThread) (hptr : s'.buf = s.buf) : s'.uncommitted = s.uncommitted := by
  simp only [System.uncommitted, hbuf, hthread, hptr, cbufLoad_advanceRdPtr]

/-! ## Steps -/

section Steps
variable {s s' : System} {R R' : ℕ} {q q' : List UInt8}

theorem inv_user (h : Inv s R q R' q') {p : Shared} (hstep : userStep s p = some s') :
    ∃ q₁ R₁' q₁', Inv s' R q₁ R₁' q₁' := by
  have hsize := size_eq h.writeBuf
  have huser := h.user
  unfold userStep at hstep
  cases hu : s.user with
  | idle => simp [hu] at hstep
  | writeFree data pc =>
    simp only [hu] at hstep huser
    obtain ⟨pc', hload, ⟨level, hdone, rfl⟩ | rfl⟩ := levelStep_cases hstep
    · have hroom := room_step h.writeBuf huser (length_le h.writeBuf) hload
      rw [hdone] at hroom
      refine ⟨q, R', q', { h with user := ⟨?_, room_none⟩ }⟩
      have hfree := hroom.1
      have hle := hroom.2
      rw [List.length_take, hsize]
      split_ifs <;> omega
    · exact ⟨q, R', q', { h with user := room_step h.writeBuf huser (length_le h.writeBuf) hload }⟩
  | writeLevel data pc =>
    simp only [hu] at hstep huser
    obtain ⟨hfit, huser⟩ := huser
    obtain ⟨pc', hload, ⟨level, hdone, rfl⟩ | rfl⟩ := levelStep_cases hstep
    · have hroom := room_step h.writeBuf huser hfit hload
      rw [hdone] at hroom
      have hfree := hroom.2
      rw [if_neg (by omega)]
      exact ⟨q, R', q', { h with user := hfit }⟩
    · exact ⟨q, R', q', { h with user := ⟨hfit, room_step h.writeBuf huser hfit hload⟩ }⟩
  | write data =>
    simp only [hu] at hstep huser
    cases hstep
    refine ⟨q ++ data, R', q', { h with
      writeBuf := h.writeBuf.write (hsize ▸ huser), outgoing := ?_, writer := h.writer.write data, user := trivial }⟩
    rw [List.drop_append_of_le_length h.writer.pending_le, ← List.append_assoc, h.outgoing]
  | writeNotify pc =>
    simp only [hu] at hstep
    obtain ⟨pc', hload, ⟨level, hdone, rfl⟩ | rfl⟩ := levelStep_cases hstep
    · exact ⟨q, R', q', { h with user := trivial }⟩
    · exact ⟨q, R', q', { h with user := trivial }⟩
  | readFill size pc =>
    simp only [hu] at hstep huser
    obtain ⟨pc', hload, ⟨level, hdone, rfl⟩ | rfl⟩ := levelStep_cases hstep
    · by_cases hreq : (if size > level then level else size) = 0
      · simp only [hreq, if_true]
        exact ⟨q, R', q', { h with user := trivial }⟩
      · simp only [hreq, if_false]
        exact ⟨q, R', q', { h with user := enough_none }⟩
    · exact ⟨q, R', q', { h with user := enough_step h.readBuf huser (Nat.zero_le _) hload (.inl rfl) }⟩
  | readLevel size pc =>
    simp only [hu] at hstep huser
    obtain ⟨pc', hload, ⟨level, hdone, rfl⟩ | rfl⟩ := levelStep_cases hstep
    · have henough := enough_step h.readBuf huser (Nat.zero_le _) hload (.inl rfl)
      rw [hdone] at henough
      by_cases hlt : level < size
      · rw [if_pos hlt]
        exact ⟨q, R', q', { h with user := trivial }⟩
      · rw [if_neg hlt]
        exact ⟨q, R', q', { h with user := by have := henough.2; show size ≤ q'.length; omega }⟩
    · exact ⟨q, R', q', { h with user := enough_step h.readBuf huser (Nat.zero_le _) hload (.inl rfl) }⟩
  | read size =>
    simp only [hu] at hstep huser
    cases hstep
    rw [h.readBuf.readChecked_eq huser]
    refine ⟨q, R' + size, q'.drop size, { h with
      readBuf := h.readBuf.discard huser, incoming := ?_, reader := h.reader.read huser, user := trivial }⟩
    rw [uncommitted_read s, List.append_assoc, ← List.append_assoc (q'.take size), List.take_append_drop]
    exacts [h.incoming, rfl, rfl, rfl]
  | readNotify pc =>
    simp only [hu] at hstep
    obtain ⟨pc', hload, ⟨level, hdone, rfl⟩ | rfl⟩ := levelStep_cases hstep
    · exact ⟨q, R', q', { h with user := trivial }⟩
    · exact ⟨q, R', q', { h with user := trivial }⟩

theorem inv_callWrite (h : Inv s R q R' q') {channel : ℕ} {data : List UInt8}
    (hstep : callWrite s channel data = some s') : Inv s' R q R' q' := by
  unfold callWrite at hstep
  cases hu : s.user <;> simp only [hu, reduceCtorEq] at hstep
  split_ifs at hstep
  · cases hstep
    exact h
  · cases hstep
    exact { h with user := room_none }

theorem inv_callRead (h : Inv s R q R' q') {channel size : ℕ} (hstep : callRead s channel size = some s') :
    Inv s' R q R' q' := by
  unfold callRead at hstep
  cases hu : s.user <;> simp only [hu, reduceCtorEq] at hstep
  split_ifs at hstep
  · cases hstep
    exact h
  · cases hstep
    exact { h with user := enough_none }

theorem inv_sized (h : Inv s R q R' q') (hidle : s.writeThread.pending = 0) {fillLevel level : ℕ}
    (hlevel : fillLevel ≤ q.length) (hsaw : fillLevel = level ∨ fillLevel = 0) :
    Inv (sized { s with level } fillLevel) R q R' q' := by
  have houtgoing := h.outgoing
  rw [hidle] at houtgoing
  unfold sized
  by_cases h0 : fillLevel = 0
  · rw [if_pos h0]
    exact { h with outgoing := houtgoing, writer := trivial }
  · rw [if_neg h0]
    obtain rfl := hsaw.resolve_right h0
    have heven : ¬ transferLen fillLevel % getFifoWidth ≠ 0 := not_not.mpr (transferLen_even fillLevel)
    simp only [heven, if_false]
    by_cases hlen : transferLen fillLevel = 0
    · rw [if_pos hlen]
      exact { h with outgoing := houtgoing, writer := ⟨⟨hlevel, hlen.symm⟩, .inl ⟨rfl, rfl⟩⟩ }
    · rw [if_neg hlen]
      exact { h with outgoing := houtgoing, writer := ⟨⟨hlevel, rfl⟩, hlen, enough_none⟩ }

/-- The condition for a load in `cbuf_peek` or `cbuf_discard`. -/
theorem filled_of_inTime {n : ℕ} {pc pc' : LevelPc} {p : Shared}
    (hin : n ≠ 0 → ∀ pc', pc.load s.writeBuf p = some pc' → pc'.filled s.writeBuf.size = false)
    (hload : pc.load s.writeBuf p = some pc') : n = 0 ∨ pc'.filled s.writeBuf.size = false := by
  by_cases hn : n = 0
  · exact .inl hn
  · exact .inr (hin hn pc' hload)

theorem inv_writeThread (h : Inv s R q R' q') {p : Shared} (hin : InTime s (.writeThread p))
    (hstep : writeThreadStep s p = some s') : ∃ R₁ q₁, Inv s' R₁ q₁ R' q' := by
  have hwriter := h.writer
  have houtgoing := h.outgoing
  unfold writeThreadStep at hstep
  cases hw : s.writeThread with
  | peek len | transfer data len => simp [hw] at hstep
  | wait =>
    simp only [hw] at hstep houtgoing
    cases hstep
    exact ⟨R, q, { h with outgoing := houtgoing, writer := ⟨enough_none, nofun⟩ }⟩
  | level pc =>
    simp only [hw] at hstep hwriter houtgoing
    obtain ⟨henough, hsaw⟩ := hwriter
    obtain ⟨pc', hload, hnext⟩ := levelStep_cases hstep
    have henough' := enough_step h.writeBuf henough (Nat.zero_le _) hload (.inl rfl)
    have hsaw' := (hsaw.load h.writeBuf hload).next (henough.load (wr_eq h.writeBuf) (rd_eq h.writeBuf) (by omega) hload)
    rw [← size_eq h.writeBuf] at hsaw'
    obtain ⟨level, hdone, rfl⟩ | rfl := hnext
    · rw [hdone] at henough' hsaw'
      have hle := henough'.2
      rw [← hw]
      exact ⟨R, q, inv_sized h (by rw [hw]; rfl) (by omega) hsaw'⟩
    · exact ⟨R, q, { h with outgoing := houtgoing, writer := ⟨henough', hsaw'⟩ }⟩
  | peekLevel len pc =>
    simp only [InTime, hw] at hin
    simp only [hw] at hstep hwriter houtgoing
    obtain ⟨hchosen, hlen, henough⟩ := hwriter
    have hle : len ≤ q.length := hchosen.2 ▸ (transferLen_le _).trans hchosen.1
    obtain ⟨pc', hload, hnext⟩ := levelStep_cases hstep
    have henough' := enough_step h.writeBuf henough hle hload (filled_of_inTime hin hload)
    obtain ⟨level, hdone, rfl⟩ | rfl := hnext
    · rw [hdone] at henough'
      rw [if_neg (not_lt.mpr henough'.1)]
      exact ⟨R, q, { h with outgoing := houtgoing, writer := ⟨hchosen, hlen⟩ }⟩
    · exact ⟨R, q, { h with outgoing := houtgoing, writer := ⟨hchosen, hlen, henough'⟩ }⟩
  | discardLevel n pc =>
    simp only [InTime, hw] at hin
    simp only [hw] at hstep hwriter houtgoing
    obtain ⟨hle, henough⟩ := hwriter
    obtain ⟨pc', hload, hnext⟩ := levelStep_cases hstep
    have henough' := enough_step h.writeBuf henough hle hload (filled_of_inTime hin hload)
    obtain ⟨level, hdone, rfl⟩ | rfl := hnext
    · rw [hdone] at henough'
      rw [if_neg (not_lt.mpr henough'.1)]
      exact ⟨R, q, { h with outgoing := houtgoing, writer := hle }⟩
    · exact ⟨R, q, { h with outgoing := houtgoing, writer := ⟨hle, henough'⟩ }⟩
  | discard n =>
    simp only [hw] at hstep hwriter houtgoing
    cases hstep
    refine ⟨R + n, q.drop n, { h with
      writeBuf := h.writeBuf.discard hwriter, outgoing := houtgoing, writer := trivial
      user := h.user.mono (Nat.le_add_right R n) ?_ le_rfl }⟩
    have hle : n ≤ q.length := hwriter
    rw [List.length_drop]
    omega

/-- Otherwise the level is 0, and `cbuf_peek` or `cbuf_discard` fails. -/
theorem failed_writeThread (h : Inv s R q R' q') {p : Shared} (hin : ¬ InTime s (.writeThread p))
    (hstep : writeThreadStep s p = some s') : s'.failed = true := by
  have hwriter := h.writer
  unfold writeThreadStep at hstep
  cases hw : s.writeThread <;> simp only [InTime, hw, not_true_eq_false, not_forall, Bool.not_eq_false] at hin
  case peekLevel len pc =>
    simp only [hw] at hstep hwriter
    obtain ⟨hlen, pc', hload, hfilled⟩ := hin
    have hle : len ≤ q.length := hwriter.1.2 ▸ (transferLen_le _).trans hwriter.1.1
    have hdone := level_of_filled h.writeBuf hwriter.2.2 hle hload hfilled
    simp only [levelStep, hload, hdone, Option.map_some, Option.some.injEq] at hstep
    rw [if_pos (by omega)] at hstep
    exact hstep ▸ rfl
  case discardLevel n pc =>
    simp only [hw] at hstep hwriter
    obtain ⟨hn, pc', hload, hfilled⟩ := hin
    have hdone := level_of_filled h.writeBuf hwriter.2 hwriter.1 hload hfilled
    simp only [levelStep, hload, hdone, Option.map_some, Option.some.injEq] at hstep
    rw [if_pos (by omega)] at hstep
    exact hstep ▸ rfl

theorem inv_writePeek (h : Inv s R q R' q') {alloc : Alloc} (hin : InTime s (.writePeek alloc))
    (hstep : writePeek s alloc = some s') : Inv s' R q R' q' := by
  have hwriter := h.writer
  have houtgoing := h.outgoing
  unfold writePeek at hstep
  cases hw : s.writeThread <;> simp only [hw, reduceCtorEq] at hstep
  case peek len =>
    simp only [hw] at hwriter houtgoing
    obtain ⟨hchosen, hlen⟩ := hwriter
    have hle : len ≤ q.length := hchosen.2 ▸ (transferLen_le _).trans hchosen.1
    obtain ⟨p, n, tmp, heq, hstored, hpeek⟩ := h.writeBuf.peek hlen hle (hin len hw)
    simp only [heq, Option.some.injEq] at hstep
    subst hstep
    exact { h with writeBuf := hstored, outgoing := houtgoing, writer := ⟨hchosen, .inr ⟨p, rfl, hpeek⟩⟩ }

theorem failed_writePeek {alloc : Alloc} (hin : ¬ InTime s (.writePeek alloc)) (hstep : writePeek s alloc = some s') :
    s'.failed = true := by
  simp only [InTime, not_forall] at hin
  obtain ⟨len, hw, hserved⟩ := hin
  have hfail := peekChecked_failed hserved
  simp only [writePeek, hw] at hstep
  split at hstep
  case h_1 heq => simp [heq] at hfail
  case h_2 =>
    cases hstep
    rfl

theorem inv_writeTransfer (h : Inv s R q R' q') {rv : UsbResult} {sent : ℕ} (hstep : writeTransfer s rv sent = some s') :
    Inv s' R q R' q' := by
  have hwriter := h.writer
  have houtgoing := h.outgoing
  unfold writeTransfer at hstep
  cases hw : s.writeThread <;> simp only [hw, reduceCtorEq] at hstep
  case transfer data len =>
    simp only [hw] at hwriter houtgoing
    obtain ⟨hchosen, hdata⟩ := hwriter
    have hle : len ≤ q.length := hchosen.2 ▸ (transferLen_le _).trans hchosen.1
    have hok : Transfer.Ok ⟨s.level, cbufFillLevel s.writeBuf, len⟩ := by
      rw [h.writeBuf.rep.fillLevel_eq]
      obtain ⟨hlevel, rfl⟩ := hchosen
      exact ⟨transferLen_even _, transferLen_le _, hle, transferLen_le_max _, transferLen_pos⟩
    have hlengths : ∀ t ∈ s.transfers ++ [Transfer.mk s.level (cbufFillLevel s.writeBuf) len], t.Ok := by
      intro t ht
      rcases List.mem_append.mp ht with ht | ht
      · exact h.lengths t ht
      · exact List.mem_singleton.mp ht ▸ hok
    by_cases hmoves : sent ≤ len ∧ sent % 2 = 0 ∧ (rv = .error → sent = 0)
    · have hmoved : (data.map fun p => cbufLoad s.writeBuf p sent).getD [] = q.take sent := by
        obtain ⟨rfl, rfl⟩ | ⟨p, rfl, hpeek⟩ := hdata
        · obtain rfl : sent = 0 := by omega
          rfl
        · exact hpeek.load h.writeBuf hmoves.1
      rw [if_pos hmoves, hmoved] at hstep
      by_cases herror : rv = .error
      · obtain rfl := hmoves.2.2 herror
        simp only [herror, if_true, ne_eq, not_true_eq_false, if_false, Option.some.injEq] at hstep
        subst hstep
        refine { h with outgoing := ?_, lengths := hlengths, writer := trivial }
        rw [List.take_zero, List.append_nil]
        exact houtgoing
      · simp only [herror, if_false, Option.some.injEq] at hstep
        subst hstep
        refine { h with outgoing := ?_, lengths := hlengths, writer := ⟨hmoves.1.trans hle, enough_none⟩ }
        rw [List.append_assoc]
        exact (List.take_append_drop sent q).symm ▸ houtgoing
    · rw [if_neg hmoves] at hstep
      cases hstep

/-! ### `usb_read_thread` -/

theorem uncommitted_eq_nil (hthread : ∀ n, s.readThread ≠ .commit n) : s.uncommitted = [] := by
  unfold System.uncommitted
  split
  · exact absurd ‹_› (hthread _)
  · rfl

theorem inv_readThread (h : Inv s R q R' q') {p : Shared} (hstep : readThreadStep s p = some s') :
    ∃ q₁', Inv s' R q R' q₁' := by
  have hsize := size_eq h.readBuf
  have hreader := h.reader
  have hincoming := h.incoming
  unfold readThreadStep at hstep
  cases ht : s.readThread with
  | reserve n | transfer n => simp [ht] at hstep
  | wait =>
    rw [uncommitted_eq_nil (by simp [ht])] at hincoming
    simp only [ht] at hstep
    cases hstep
    exact ⟨q', { h with incoming := hincoming, reader := room_none }⟩
  | level pc =>
    rw [uncommitted_eq_nil (by simp [ht])] at hincoming
    simp only [ht] at hstep hreader
    obtain ⟨pc', hload, hnext⟩ := levelStep_cases hstep
    have hroom := room_step h.readBuf hreader (length_le h.readBuf) hload
    obtain ⟨level, hdone, rfl⟩ | rfl := hnext
    · rw [hdone] at hroom
      have hfree := hroom.1
      have hle := bufSize_le (s.readBuf.size - level)
      have hlen := length_le h.readBuf
      by_cases h0 : bufSize (s.readBuf.size - level) = 0
      · rw [if_pos h0]
        exact ⟨q', { h with incoming := hincoming, reader := trivial }⟩
      · rw [if_neg h0]
        refine ⟨q', { h with incoming := hincoming, reader := ⟨?_, room_none⟩ }⟩
        rw [hsize] at hle ⊢
        omega
    · exact ⟨q', { h with incoming := hincoming, reader := hroom }⟩
  | reserveLevel n pc =>
    rw [uncommitted_eq_nil (by simp [ht])] at hincoming
    simp only [ht] at hstep hreader
    obtain ⟨hfit, hreader⟩ := hreader
    obtain ⟨pc', hload, hnext⟩ := levelStep_cases hstep
    have hroom := room_step h.readBuf hreader hfit hload
    obtain ⟨level, hdone, rfl⟩ | rfl := hnext
    · rw [hdone] at hroom
      have hfree := hroom.2
      rw [if_neg (by omega)]
      exact ⟨q', { h with incoming := hincoming, reader := hfit }⟩
    · exact ⟨q', { h with incoming := hincoming, reader := ⟨hfit, hroom⟩ }⟩
  | commit m =>
    simp only [ht] at hstep hreader
    obtain ⟨p, n, hp, hm, hr⟩ := hreader
    have huncommitted : s.uncommitted = cbufLoad s.readBuf p m := by simp only [System.uncommitted, ht, hp]
    rw [hp, Option.map_some] at hstep
    cases hstep
    refine ⟨q' ++ cbufLoad s.readBuf p m, { h with
      readBuf := h.readBuf.commit hr hm, incoming := ?_, reader := trivial
      user := h.user.mono le_rfl rfl (by rw [List.length_append]; omega) }⟩
    show s.read ++ (q' ++ cbufLoad s.readBuf p m ++ []) = s.received
    rw [List.append_nil, ← huncommitted]
    exact h.incoming

theorem inv_readReserve (h : Inv s R q R' q') {alloc : Alloc} (hin : InTime s (.readReserve alloc))
    (hstep : readReserve s alloc = some s') : Inv s' R q R' q' := by
  have hreader := h.reader
  have hincoming := h.incoming
  unfold readReserve at hstep
  cases ht : s.readThread <;> simp only [ht, reduceCtorEq] at hstep
  case reserve n =>
    rw [uncommitted_eq_nil (by simp [ht])] at hincoming
    simp only [ht] at hreader
    have hfit : q'.length + n ≤ s.readBuf.size := size_eq h.readBuf ▸ hreader
    obtain ⟨p, size, tmp, heq, hstored, hr⟩ := h.readBuf.reserve hfit (hin n ht)
    simp only [heq, Option.some.injEq] at hstep
    subst hstep
    exact { h with readBuf := hstored, incoming := hincoming, reader := ⟨p, rfl, hr⟩ }

theorem failed_readReserve {alloc : Alloc} (hin : ¬ InTime s (.readReserve alloc))
    (hstep : readReserve s alloc = some s') : s'.failed = true := by
  simp only [InTime, not_forall] at hin
  obtain ⟨n, ht, hserved⟩ := hin
  have hfail := reserveChecked_failed hserved
  simp only [readReserve, ht] at hstep
  split at hstep
  case h_1 heq => simp [heq] at hfail
  case h_2 =>
    cases hstep
    rfl

theorem inv_readTransfer (h : Inv s R q R' q') {rv : UsbResult} {bytes : List UInt8}
    (hstep : readTransfer s rv bytes = some s') : Inv s' R q R' q' := by
  have hreader := h.reader
  have hincoming := h.incoming
  unfold readTransfer at hstep
  cases ht : s.readThread <;> simp only [ht, reduceCtorEq] at hstep
  case transfer n =>
    rw [uncommitted_eq_nil (by simp [ht]), List.append_nil] at hincoming
    simp only [ht] at hreader
    obtain ⟨p, hp, hr⟩ := hreader
    simp only [hp] at hstep
    by_cases hgives : bytes.length ≤ n ∧ bytes.length % 2 = 0 ∧ (rv = .error → bytes = [])
    · rw [if_pos hgives] at hstep
      cases hstep
      obtain ⟨hlen, heven, herror⟩ := hgives
      have hoff : 0 + bytes.length ≤ n := by omega
      have hstored := h.readBuf.store hr hoff
      by_cases hrv : rv = .error
      · obtain rfl := herror hrv
        simp only [hrv, if_true]
        refine { h with readBuf := hstored, incoming := ?_, reader := trivial }
        show s.read ++ (q' ++ []) = s.received ++ []
        rw [List.append_nil, List.append_nil]
        exact hincoming
      · simp only [hrv, if_false]
        refine { h with readBuf := hstored, incoming := ?_, reader := ⟨p, n, rfl, hlen, (hr.store h.readBuf.rep hoff).2.1⟩ }
        show s.read ++ (q' ++ cbufLoad (cbufStore s.readBuf p 0 bytes) p bytes.length) = s.received ++ bytes
        rw [hr.load_store h.readBuf.rep hlen, ← List.append_assoc, hincoming]
    · rw [if_neg hgives] at hstep
      cases hstep

/-! ## Runs -/

theorem inv_step (h : Inv s R q R' q') {l : Label} (hin : InTime s l) (hstep : step s l = some s') :
    ∃ R q R' q', Inv s' R q R' q' := by
  unfold step at hstep
  split_ifs at hstep
  cases l with
  | writeThread p =>
    obtain ⟨R₁, q₁, hinv⟩ := inv_writeThread h hin hstep
    exact ⟨R₁, q₁, R', q', hinv⟩
  | writePeek alloc => exact ⟨R, q, R', q', inv_writePeek h hin hstep⟩
  | writeTransfer rv sent => exact ⟨R, q, R', q', inv_writeTransfer h hstep⟩
  | readThread p =>
    obtain ⟨q₁', hinv⟩ := inv_readThread h hstep
    exact ⟨R, q, R', q₁', hinv⟩
  | readReserve alloc => exact ⟨R, q, R', q', inv_readReserve h hin hstep⟩
  | readTransfer rv bytes => exact ⟨R, q, R', q', inv_readTransfer h hstep⟩
  | callWrite channel data => exact ⟨R, q, R', q', inv_callWrite h hstep⟩
  | callRead channel size => exact ⟨R, q, R', q', inv_callRead h hstep⟩
  | user p =>
    obtain ⟨q₁, R₁', q₁', hinv⟩ := inv_user h hstep
    exact ⟨R, q₁, R₁', q₁', hinv⟩

theorem failed_step (h : Inv s R q R' q') {l : Label} (hin : ¬ InTime s l) (hstep : step s l = some s') :
    s'.failed = true := by
  unfold step at hstep
  split_ifs at hstep
  cases l with
  | writeThread p => exact failed_writeThread h hin hstep
  | writePeek alloc => exact failed_writePeek hin hstep
  | readReserve alloc => exact failed_readReserve hin hstep
  | _ => exact absurd trivial hin

theorem conserved_step (h : Inv s R q R' q') {l : Label} (hstep : step s l = some s') : Conserved s' ↔ InTime s l := by
  constructor
  · intro hconserved
    by_contra hin
    have hfailed := failed_step h hin hstep
    rw [hconserved.calls] at hfailed
    cases hfailed
  · intro hin
    obtain ⟨R₁, q₁, R₁', q₁', hinv⟩ := inv_step h hin hstep
    exact hinv.conserved

end Steps

theorem subtract_run {buf : Cbuf} (busy : LevelPc → System) {known : ℕ → System} (l : Shared → Label)
    (hstep : ∀ pc p, step (busy pc) (l p) = levelStep buf pc p busy known) :
    runFrom step (busy (.subtract none none)) [l .wrPtr, l .rdPtr] =
      some (known (fillLevelOf buf.size buf.wrPtr buf.rdPtr)) := by
  simp only [runFrom_cons, runFrom_nil, hstep, levelStep, LevelPc.load, LevelPc.next, Option.map_some, Option.bind_some]

/-- The loads of a level. -/
def loads (l : Shared → Label) : List Label := [l .wrPtr, l .rdPtr] ++ [l .wrPtr, l .rdPtr]

theorem loads_run {buf : Cbuf} (busy : LevelPc → System) {known : ℕ → System} (l : Shared → Label)
    (hfull : cbufIsFull buf = false) (hstep : ∀ pc p, step (busy pc) (l p) = levelStep buf pc p busy known) :
    runFrom step (busy (.isFull none none)) (loads l) = some (known (fillLevelOf buf.size buf.wrPtr buf.rdPtr)) := by
  have hnot : ¬ (buf.wrPtr == buf.rdPtr ^^^ buf.size) = true := by
    rw [← cbufIsFull, hfull]
    exact Bool.false_ne_true
  have hcheck : runFrom step (busy (.isFull none none)) [l .wrPtr, l .rdPtr] = some (busy (.subtract none none)) := by
    simp only [runFrom_cons, runFrom_nil, hstep, levelStep, LevelPc.load, LevelPc.next, Option.map_some, Option.bind_some,
      if_neg hnot]
  rw [loads, runFrom_append, hcheck, Option.bind_some, subtract_run busy l hstep]

/-- A call of `gb_cypressfx2_write` that nobody disturbs, up to its last level. -/
def writeCall (data : List UInt8) : List Label :=
  .callWrite 0 data :: (loads .user ++ (loads .user ++ [.user .wrPtr]))

theorem writeCall_run {s : System} {data : List UInt8} (hrunning : s.aborted = false) (hidle : s.user = .idle)
    (hfull : cbufIsFull s.writeBuf = false)
    (hfit : data.length ≤ s.writeBuf.size - fillLevelOf s.writeBuf.size s.writeBuf.wrPtr s.writeBuf.rdPtr) :
    runFrom step s (writeCall data) = some { s with
      writeBuf := writeChecked s.writeBuf data
      accepted := s.accepted ++ data
      user := .writeNotify (.isFull none none) } := by
  have hcall : step s (.callWrite 0 data) = some { s with user := .writeFree data (.isFull none none) } := by
    simp only [step, callWrite, hrunning, hidle, Bool.false_eq_true, if_false, ne_eq, not_true_eq_false]
  have hstep (u : User) (p : Shared) : step { s with user := u } (.user p) = userStep { s with user := u } p := by
    simp only [step, hrunning, Bool.false_eq_true, if_false]
  have hfree := loads_run (fun pc => { s with user := .writeFree data pc }) .user hfull
    (by intro pc p; simp only [hstep, userStep]; rfl)
  have hlevel := loads_run (fun pc => { s with user := .writeLevel data pc }) .user hfull
    (by intro pc p; simp only [hstep, userStep]; rfl)
  simp only [gt_iff_lt, if_neg (not_lt.mpr hfit), List.take_length] at hfree hlevel
  rw [writeCall, runFrom_cons, hcall, Option.bind_some, runFrom_append, hfree, Option.bind_some, runFrom_append, hlevel,
    Option.bind_some, runFrom_cons, hstep]
  rfl

theorem peek_aborts {s : System} {len : ℕ} (hrunning : s.aborted = false)
    (hpeek : s.writeThread = .peekLevel len (.subtract none none))
    (hlevel : fillLevelOf s.writeBuf.size s.writeBuf.wrPtr s.writeBuf.rdPtr < len) :
    ∃ s', runFrom step s [.writeThread .wrPtr, .writeThread .rdPtr] = some s' ∧ s'.aborted = true ∧ s'.failed = true := by
  have hload : step s (.writeThread .wrPtr) =
      some { s with writeThread := .peekLevel len (.subtract (some s.writeBuf.wrPtr) none) } := by
    simp only [step, hrunning, Bool.false_eq_true, if_false, writeThreadStep, hpeek]
    rfl
  refine ⟨{ s with
    writeThread := .peekLevel len (.subtract (some s.writeBuf.wrPtr) none), aborted := true, failed := true }, ?_, rfl, rfl⟩
  rw [runFrom_cons, hload, Option.bind_some, runFrom_cons]
  simp only [step, hrunning, Bool.false_eq_true, if_false, writeThreadStep, levelStep, LevelPc.load, LevelPc.next,
    Option.map_some, if_pos hlevel]
  rfl

/-- `usb_write_thread` from a wait on to the middle of the level check of `cbuf_peek`. -/
def peekHalf : List Label := .writeThread .wrPtr :: (loads .writeThread ++ [.writeThread .wrPtr, .writeThread .rdPtr])

/-- Two bytes are buffered; the user writes `data` while `cbuf_peek` computes the level. -/
def fillRun (data : List UInt8) : List Label :=
  writeCall [1, 2] ++ (loads .user ++ peekHalf) ++ (writeCall data ++ [.writeThread .wrPtr, .writeThread .rdPtr])

/-- Before the user writes `data`. -/
def halfPeeked : System :=
  { start with
    writeBuf := writeChecked start.writeBuf [1, 2]
    writeThread := .peekLevel 2 (.subtract none none)
    level := 2
    accepted := [1, 2] }

theorem halfPeeked_run : runFrom step start (writeCall [1, 2] ++ (loads .user ++ peekHalf)) = some halfPeeked := by
  rfl

/-- The streams are conserved, the lengths are right and no assertion and no call fails exactly in the runs in which
the user never fills `write_buf` in the middle of the level check of `cbuf_peek` or `cbuf_discard`, and every temporary
block that is needed can be allocated. -/
theorem conserved_iff_inTime (ls : List Label) (s : System) (hrun : runFrom step start ls = some s) :
    Passes step Conserved start ls ↔ Takes step InTime start ls := by
  refine passes_iff_takes (fun s => ∃ R q R' q', Inv s R q R' q') ?_ ?_ ⟨_, _, _, _, inv_start⟩ inv_start.conserved hrun
  · rintro s l s' ⟨R, q, R', q', hinv⟩ - hstep hconserved
    exact inv_step hinv ((conserved_step hinv hstep).mp hconserved) hstep
  · rintro s l s' ⟨R, q, R', q', hinv⟩ - hstep
    exact conserved_step hinv hstep

/-- `cbuf_peek` goes on, the word is moved, and it is discarded. -/
def moveWord : List Label :=
  [.writeThread .wrPtr, .writeThread .rdPtr, .writePeek none, .writeTransfer .success 2] ++
    (loads .writeThread ++ [.writeThread .rdPtr])

theorem word_conserved :
    ∃ s, runFrom step start (writeCall [1, 2] ++ (loads .user ++ peekHalf) ++ moveWord) = some s ∧ s.moved = [1, 2] ∧
      cbufFillLevel s.writeBuf = 0 ∧
      Passes step Conserved start (writeCall [1, 2] ++ (loads .user ++ peekHalf) ++ moveWord) := by
  obtain ⟨s, hrun, hmoved, hfill⟩ : ∃ s ∈ runFrom step start (writeCall [1, 2] ++ (loads .user ++ peekHalf) ++ moveWord),
      s.moved = [1, 2] ∧ cbufFillLevel s.writeBuf = 0 := by
    decide +kernel
  have htakes : Takes step InTime start (writeCall [1, 2] ++ (loads .user ++ peekHalf) ++ moveWord) := by
    decide +kernel
  exact ⟨s, hrun, hmoved, hfill, (conserved_iff_inTime _ s hrun).mpr htakes⟩

theorem fillRun_fails {data : List UInt8} (hlen : data.length = 65534) :
    ∃ s, runFrom step start (fillRun data) = some s ∧ s.aborted = true ∧ s.failed = true := by
  have hwrite : runFrom step halfPeeked (writeCall data) = _ := writeCall_run rfl rfl (by decide) (by rw [hlen]; decide)
  have hptr : (writeChecked halfPeeked.writeBuf data).wrPtr = 65536 := by
    show (2 + data.length) &&& (2 * usbBufSize - 1) = 65536
    rw [hlen]
    rfl
  rw [fillRun, runFrom_append, halfPeeked_run, Option.bind_some, runFrom_append, hwrite, Option.bind_some]
  refine peek_aborts rfl rfl ?_
  rw [hptr]
  show fillLevelOf usbBufSize 65536 0 < 2
  decide

/-- Two bytes are buffered; the user fills the buffer in the middle of the level check of `cbuf_peek`, whose result is
then an error. -/
theorem fill_in_peek_aborts :
    ∃ s, runFrom step start (fillRun (List.replicate 65534 0)) = some s ∧ s.aborted = true ∧ ¬ Conserved s := by
  obtain ⟨s, hrun, haborted, hfailed⟩ := fillRun_fails List.length_replicate
  refine ⟨s, hrun, haborted, fun hconserved => ?_⟩
  rw [hconserved.calls] at hfailed
  cases hfailed

end GlipOsd.CypressFx2
