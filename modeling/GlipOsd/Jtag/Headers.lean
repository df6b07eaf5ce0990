import GlipOsd.Jtag.Poll

/-! # The header words of a request

How many words `poll_thread` wants to transfer, and the two numbers at the front of the request that
tells the target so. The number wanted is adapted to the last answer and clamped in `int`s; in the
first iteration it is the size of the target's buffer.
-/

namespace GlipOsd.Jtag.Headers
open CircularBuffer Memory Bytes
set_option autoImplicit false

/-- `wanted_words` after an answer. The factors are exact in double precision, up to the conversion back. -/
def nextWanted (undef : ℕ → ℤ) (ww minWantedWords wantedWords wrWords rdWords ackedWords readWords : ℕ) : ℕ :=
  let wantedWords :=
    if 10 * ackedWords > 9 * wrWords ∨ 10 * readWords ≥ 9 * rdWords then wantedWords * 3 / 2
    else if 2 * ackedWords ≤ wrWords ∧ 2 * readWords ≤ rdWords then wantedWords * 3 / 10
    else wantedWords
  let wantedWords := Util.toUint (Util.min wantedWords (Util.toUint (Util.shiftOne undef (ww * 8) - 2)))
  let wantedWords := Util.toUint (Util.max minWantedWords wantedWords)
  Util.toUint (Util.min wantedWords Poll.maxPayloadWords)

/-- The levels that an iteration of the loop has found, and the answer it has got. -/
structure Iteration where
  availWr : ℕ
  availRd : ℕ
  ackedWords : ℕ
  readWords : ℕ

/-- `wanted_words` behind the iterations `its`, with a target buffer of `2 ^ k` words. -/
def wantedAfter (undef : ℕ → ℤ) (ww k : ℕ) (its : List Iteration) : ℕ :=
  its.foldl (fun wantedWords it =>
    let words := calcPayloadLen wantedWords it.availWr it.availRd
    nextWanted undef ww (2 ^ k) wantedWords words.1 words.2 it.ackedWords it.readWords) (2 ^ k)

/-- The request that is built in an iteration. -/
def request (ctx : Ctx) (wantedWords : ℕ) (fresh : ℕ → UInt8) (reqSize : ℕ) : ℤ × List UInt8 × Ctx :=
  let words := calcPayloadLen wantedWords (availWr ctx) (availRd ctx)
  buildJtagReq ctx (some fresh) words.1 words.2 reqSize

/-- The header of the request says how many words are meant, and is not the one of another message. -/
def HeaderOk (ctx : Ctx) (wantedWords : ℕ) (fresh : ℕ → UInt8) (reqSize : ℕ) : Prop :=
  let ww := ctx.targetWordWidth
  let words := calcPayloadLen wantedWords (availWr ctx) (availRd ctx)
  let req := (request ctx wantedWords fresh reqSize).2.1
  leValue (slice req 0 ww) = words.1 ∧ leValue (slice req ww ww) = words.2 ∧
    slice req 0 ww ≠ List.replicate ww 255

/-- Words of two to four bytes; of one byte, if the target buffer has less than 256 words or no more
than that can be transferred anyway; longer ones only without any data. -/
def Representable (ctx : Ctx) (k : ℕ) : Prop :=
  let ww := ctx.targetWordWidth
  let fill := cbufFillLevel ctx.writeBuf
  let free := cbufFreeLevel ctx.readBuf
  2 ≤ ww ∧ ww ≤ 4 ∨ ww = 1 ∧ (k ≤ 7 ∨ fill < 255 ∧ free < 256) ∨ 5 ≤ ww ∧ fill < ww ∧ free < ww

/-! ## The words wanted -/

theorem min_toUint {x : ℕ} (hx : x < 2 ^ 31) (y : ℤ) : Util.min x (Util.toUint y) ≤ x ∧
    -2 ^ 31 ≤ Util.min x (Util.toUint y) := by
  have hy : -2 ^ 31 ≤ Util.toInt (Util.toUint y) := by
    have hbound := Int.le_bmod (x := (Util.toUint y : ℤ)) (m := 2 ^ 32) (by norm_num)
    unfold Util.toInt
    norm_num at hbound ⊢
    omega
  unfold Util.min
  rw [Util.toInt_of_lt hx]
  split_ifs with hlt
  · exact ⟨hlt.le, hy⟩
  · exact ⟨le_rfl, by omega⟩

/-- The clamping, when the bound from the width of a word is `y`. -/
theorem clamp_bounds {m x : ℕ} (hm : m ≤ 2 ^ 30) (hx : x < 2 ^ 31) (y : ℤ) :
    ∃ n, Util.toUint (Util.min (Util.toUint (Util.max m (Util.toUint (Util.min x (Util.toUint y)))))
        Poll.maxPayloadWords) = min n Poll.maxPayloadWords ∧ m ≤ n ∧ (n : ℤ) ≤ max (m : ℤ) (Util.min x (Util.toUint y)) := by
  obtain ⟨hle, hge⟩ := min_toUint hx y
  generalize Util.min x (Util.toUint y) = low at hle hge
  have hlow : Util.toInt (Util.toUint low) = low := Util.toInt_toUint hge (by omega)
  have hmax : Util.max m (Util.toUint low) = max (m : ℤ) low := by
    unfold Util.max
    rw [Util.toInt_of_lt (by omega), hlow, max_def]
    split_ifs <;> omega
  have hpos : (0 : ℤ) ≤ max (m : ℤ) low := le_max_of_le_left (Int.natCast_nonneg m)
  have hlt : max (m : ℤ) low < 2 ^ 31 := max_lt (by omega) (by omega)
  obtain ⟨n, hn⟩ := Int.eq_ofNat_of_zero_le hpos
  have hn31 : n < 2 ^ 31 := by omega
  have hmin : min n Poll.maxPayloadWords < 2 ^ 32 := (Nat.min_le_left _ _).trans_lt (by omega)
  refine ⟨n, ?_, ?_, hn ▸ le_rfl⟩
  · rw [hmax, hn, Util.toUint_natCast (by omega), Util.min_eq hn31 (by norm_num [Poll.maxPayloadWords]),
      Util.toUint_natCast hmin]
  · have hm' := le_max_left (m : ℤ) low
    omega

/-- The last bound is the maximal payload, and the last but one the size of the target's buffer. -/
theorem nextWanted_bounds (undef : ℕ → ℤ) (ww : ℕ) {m wanted : ℕ} (wr rd acked read : ℕ) (hm : m ≤ 2 ^ 30)
    (hwanted : wanted ≤ 2 ^ 30) :
    min m Poll.maxPayloadWords ≤ nextWanted undef ww m wanted wr rd acked read ∧
      nextWanted undef ww m wanted wr rd acked read ≤ Poll.maxPayloadWords ∧
        (ww = 1 → nextWanted undef ww m wanted wr rd acked read ≤ max m 254) := by
  unfold nextWanted
  set x := if 10 * acked > 9 * wr ∨ 10 * read ≥ 9 * rd then wanted * 3 / 2
    else if 2 * acked ≤ wr ∧ 2 * read ≤ rd then wanted * 3 / 10
    else wanted
  have hx : x < 2 ^ 31 := by
    simp only [x]
    split_ifs <;> omega
  obtain ⟨n, heq, hmn, hn⟩ := clamp_bounds hm hx (Util.shiftOne undef (ww * 8) - 2)
  simp only [heq]
  refine ⟨min_le_min_right _ hmn, Nat.min_le_right _ _, fun hww => (Nat.min_le_left _ _).trans ?_⟩
  have hshift : Util.shiftOne undef (1 * 8) - 2 = (254 : ℕ) := by
    rw [Util.shiftOne, if_pos (by norm_num)]
    norm_num
  rw [hww, hshift, Util.toUint_natCast (by norm_num), Util.min_eq hx (by norm_num)] at hn
  have hx254 : min x 254 ≤ 254 := Nat.min_le_right _ _
  omega

/-- Another iteration adapts the number that was wanted in it. -/
theorem wantedAfter_concat (undef : ℕ → ℤ) (ww k : ℕ) (its : List Iteration) (it : Iteration) :
    ∃ wr rd, wantedAfter undef ww k (its ++ [it]) =
      nextWanted undef ww (2 ^ k) (wantedAfter undef ww k its) wr rd it.ackedWords it.readWords := by
  unfold wantedAfter
  rw [List.foldl_append, List.foldl_cons, List.foldl_nil]
  exact ⟨_, _, rfl⟩

theorem wantedAfter_bounds (undef : ℕ → ℤ) (ww : ℕ) {k : ℕ} (hk : k ≤ 30) (its : List Iteration) :
    min (2 ^ k) Poll.maxPayloadWords ≤ wantedAfter undef ww k its ∧ wantedAfter undef ww k its ≤ 2 ^ 30 ∧
      (ww = 1 → wantedAfter undef ww k its ≤ max (2 ^ k) 254) := by
  have hm : 2 ^ k ≤ 2 ^ 30 := Nat.pow_le_pow_right (by norm_num) hk
  induction its using List.reverseRecOn with
  | nil => exact ⟨Nat.min_le_left _ _, hm, fun _ => Nat.le_max_left _ _⟩
  | append_singleton its it ih =>
    obtain ⟨wr, rd, heq⟩ := wantedAfter_concat undef ww k its it
    obtain ⟨hge, hle, hbyte⟩ :=
      nextWanted_bounds undef ww wr rd it.ackedWords it.readWords hm ih.2.1
    rw [heq]
    exact ⟨hge, hle.trans (by norm_num [Poll.maxPayloadWords]), hbyte⟩

/-! ## The words of the header -/

theorem leValue_replicate_zero (n : ℕ) : leValue (List.replicate n 0) = 0 := by
  induction n with
  | zero => rfl
  | succ n ih => rw [List.replicate_succ, leValue, ih]; rfl

theorem leValue_set (n i : ℕ) (b : UInt8) (hi : i < n) :
    leValue ((List.replicate n 0).set i b) = b.toNat * 256 ^ i := by
  induction n generalizing i with
  | zero => omega
  | succ n ih =>
    rw [List.replicate_succ]
    cases i with
    | zero => rw [List.set_cons_zero, leValue, leValue_replicate_zero, pow_zero, mul_one, mul_zero, add_zero]
    | succ i =>
      rw [List.set_cons_succ, leValue, ih i (by omega), pow_succ]
      show 0 + 256 * (b.toNat * 256 ^ i) = b.toNat * (256 ^ i * 256)
      ring

/-- Which numbers a word can stand for, as `copy_to_word` writes them. -/
theorem leValue_copyToWord {ctx : Ctx} (hww : 1 ≤ ctx.targetWordWidth) (value : ℕ) :
    leValue (copyToWord ctx value) = value ↔
      if ctx.targetWordWidth ≤ 4 then value < 256 ^ ctx.targetWordWidth else value = 0 := by
  split_ifs with hnarrow
  · rw [copyToWord_eq ⟨hww, hnarrow⟩, leValue_leBytes]
    exact ⟨fun h => h ▸ Nat.mod_lt _ (Nat.pow_pos (by norm_num)), Nat.mod_eq_of_lt⟩
  · -- the only byte that is written is not the lowest
    rw [copyToWord, if_neg (by omega), leValue_set _ _ _ (by omega)]
    obtain ⟨i, hi⟩ : ∃ i, ctx.targetWordWidth - 4 = i + 1 := ⟨ctx.targetWordWidth - 5, by omega⟩
    rw [hi, pow_succ, UInt8.toNat_ofNat']
    constructor
    · intro heq
      have hdvd : value % 256 = 0 := by
        rw [← heq, ← mul_assoc]
        exact Nat.mul_mod_left _ _
      rw [← heq, hdvd, Nat.zero_mul]
    · rintro rfl
      rw [Nat.zero_mod, Nat.zero_mul]

theorem leValue_replicate_ones (n : ℕ) : leValue (List.replicate n 255) = 256 ^ n - 1 := by
  induction n with
  | zero => rfl
  | succ n ih =>
    have hpos : 1 ≤ 256 ^ n := Nat.one_le_pow _ _ (by norm_num)
    have htop : (255 : UInt8).toNat = 255 := rfl
    rw [List.replicate_succ, leValue, ih, htop, pow_succ]
    omega

/-- The two words of the header, when `wr` and `rd` words are meant. -/
def WordsOk (ctx : Ctx) (wr rd : ℕ) : Prop :=
  leValue (copyToWord ctx wr) = wr ∧ leValue (copyToWord ctx rd) = rd ∧
    copyToWord ctx wr ≠ List.replicate ctx.targetWordWidth 255

theorem headerOk_iff {ctx : Ctx} {w r : List UInt8} {wanted : ℕ}
    (hww : 1 ≤ ctx.targetWordWidth ∧ ctx.targetWordWidth < 2 ^ 13) (hw : Rep 16 ctx.writeBuf w)
    (htmp : TmpRep ctx.writeBuf) (hr : Rep 16 ctx.readBuf r) (hwanted : wanted < 2 ^ 31)
    (fresh : ℕ → UInt8) {reqSize : ℕ} (hbuilt : (request ctx wanted fresh reqSize).1 ≠ enomem) :
    HeaderOk ctx wanted fresh reqSize ↔
      WordsOk ctx (min (w.length / ctx.targetWordWidth) wanted)
        (min ((2 ^ 16 - r.length) / ctx.targetWordWidth) wanted) := by
  have hwLe : w.length ≤ 2 ^ 16 := hw.size_eq ▸ hw.fits
  have hwrLe : w.length / ctx.targetWordWidth ≤ w.length := Nat.div_le_self _ _
  have hrdLe : (2 ^ 16 - r.length) / ctx.targetWordWidth ≤ 2 ^ 16 - r.length := Nat.div_le_self _ _
  have hwords := calcPayloadLen_avail hw hr hwanted
  rw [request, hwords] at hbuilt
  have hwrBytes : min (w.length / ctx.targetWordWidth) wanted * ctx.targetWordWidth ≤ w.length :=
    (Nat.mul_le_mul_right _ (Nat.min_le_left _ _)).trans (Nat.div_mul_le_self _ _)
  have hrdBytes : min ((2 ^ 16 - r.length) / ctx.targetWordWidth) wanted * ctx.targetWordWidth ≤
      2 ^ 16 - r.length :=
    (Nat.mul_le_mul_right _ (Nat.min_le_left _ _)).trans (Nat.div_mul_le_self _ _)
  obtain hfull | ⟨req, buf, heq, -, -, hreq⟩ := buildJtagReq_request
    (min (w.length / ctx.targetWordWidth) wanted) (min ((2 ^ 16 - r.length) / ctx.targetWordWidth) wanted)
    ⟨hww.1, by omega⟩ hw htmp hwrBytes (by omega) fresh reqSize
  · rw [hfull] at hbuilt
    exact absurd rfl hbuilt
  · simp only [HeaderOk, WordsOk, request, hwords, heq, hreq.wrSize, hreq.rdSize]

/-! ## By the width of a word -/

section Widths
variable {ctx : Ctx} {wr rd : ℕ}

theorem copyToWord_ne_ones {value : ℕ} (hvalue : leValue (copyToWord ctx value) = value)
    (hlt : value + 1 < 256 ^ ctx.targetWordWidth) :
    copyToWord ctx value ≠ List.replicate ctx.targetWordWidth 255 := by
  intro hones
  rw [hones, leValue_replicate_ones] at hvalue
  omega

theorem wordsOk_narrow (hww : 2 ≤ ctx.targetWordWidth ∧ ctx.targetWordWidth ≤ 4) (hwr : wr ≤ 2 ^ 15)
    (hrd : rd ≤ 2 ^ 15) : WordsOk ctx wr rd := by
  have hpow : 256 ^ 2 ≤ 256 ^ ctx.targetWordWidth := Nat.pow_le_pow_right (by norm_num) hww.1
  have hvalue : ∀ value ≤ 2 ^ 15, leValue (copyToWord ctx value) = value := by
    intro value hle
    rw [leValue_copyToWord (by omega), if_pos hww.2]
    omega
  exact ⟨hvalue wr hwr, hvalue rd hrd, copyToWord_ne_ones (hvalue wr hwr) (by omega)⟩

theorem wordsOk_byte (hww : ctx.targetWordWidth = 1) : WordsOk ctx wr rd ↔ wr < 255 ∧ rd < 256 := by
  have hvalue (value : ℕ) : leValue (copyToWord ctx value) = value ↔ value < 256 := by
    rw [leValue_copyToWord hww.ge, if_pos (by omega), hww, pow_one]
  constructor
  · rintro ⟨hwr, hrd, hones⟩
    rw [hvalue] at hwr hrd
    refine ⟨lt_of_le_of_ne (by omega) ?_, hrd⟩
    rintro rfl
    rw [copyToWord_eq (by omega), hww] at hones
    exact hones rfl
  · rintro ⟨hwr, hrd⟩
    have hfits := (hvalue wr).mpr (by omega)
    exact ⟨hfits, (hvalue rd).mpr hrd, copyToWord_ne_ones hfits (by rw [hww]; omega)⟩

theorem wordsOk_wide (hww : 5 ≤ ctx.targetWordWidth) : WordsOk ctx wr rd ↔ wr = 0 ∧ rd = 0 := by
  have hvalue (value : ℕ) : leValue (copyToWord ctx value) = value ↔ value = 0 := by
    rw [leValue_copyToWord (by omega), if_neg (by omega)]
  constructor
  · rintro ⟨hwr, hrd, -⟩
    exact ⟨(hvalue wr).mp hwr, (hvalue rd).mp hrd⟩
  · rintro ⟨rfl, rfl⟩
    have hpow : 256 ^ 1 ≤ 256 ^ ctx.targetWordWidth := Nat.pow_le_pow_right (by norm_num) (by omega)
    exact ⟨(hvalue 0).mpr rfl, (hvalue 0).mpr rfl, copyToWord_ne_ones ((hvalue 0).mpr rfl) (by omega)⟩

end Widths

/-! ## Requests for which there is room -/

theorem request_ne_enomem {ctx : Ctx} {w r : List UInt8} {wanted reqSize : ℕ} (wr rd : ℕ)
    (hw : Rep 16 ctx.writeBuf w) (hr : Rep 16 ctx.readBuf r) (hwanted : wanted < 2 ^ 31)
    (hwr : min (w.length / ctx.targetWordWidth) wanted = wr)
    (hrd : min ((2 ^ 16 - r.length) / ctx.targetWordWidth) wanted = rd) (hwidth : 1 ≤ ctx.targetWordWidth)
    (hroom : (max wr rd + 4) * ctx.targetWordWidth ≤ reqSize) (hsize : reqSize < 2 ^ 31) (fresh : ℕ → UInt8) :
    (request ctx wanted fresh reqSize).1 ≠ enomem := by
  have hwords := calcPayloadLen_avail hw hr hwanted
  have hmax : max wr rd + 4 ≤ (max wr rd + 4) * ctx.targetWordWidth := Nat.le_mul_of_pos_right _ hwidth
  have hsmall : (max wr rd + 4) % 2 ^ 32 = max wr rd + 4 := Nat.mod_eq_of_lt (by omega)
  rw [hwr, hrd] at hwords
  rw [request, hwords]
  refine buildJtagReq_ne_enomem (n := (max wr rd + 4) * ctx.targetWordWidth) ?_ (by omega) hroom
  rw [Util.max_eq (by omega) (by omega), Util.toUint_natCast (by omega), hsmall, toBytes, Nat.mod_eq_of_lt (by omega)]

theorem rep_gbJtagNew (ww : ℕ) :
    Rep 16 (gbJtagNew ww).writeBuf [] ∧ Rep 16 (gbJtagNew ww).readBuf [] ∧ TmpRep (gbJtagNew ww).writeBuf :=
  ⟨rep_cbufInit 16, rep_cbufInit 16, tmpRep_cbufInit (by norm_num [bufferSize])⟩

/-- Words of two bytes, of which three are to be written, and one has been read. -/
def storedCtx : Ctx where
  targetWordWidth := 2
  writeBuf := (cbufWrite (cbufInit bufferSize) [1, 2, 3, 4, 5, 6]).2
  readBuf := (cbufWrite (cbufInit bufferSize) [7, 8]).2

theorem rep_storedCtx :
    Rep 16 storedCtx.writeBuf [1, 2, 3, 4, 5, 6] ∧ Rep 16 storedCtx.readBuf [7, 8] ∧ TmpRep storedCtx.writeBuf := by
  obtain ⟨cells, wr, hframe⟩ := cbufWrite_frame (cbufInit bufferSize) [1, 2, 3, 4, 5, 6]
  refine ⟨(cbufWrite_ok (rep_cbufInit 16) _ (by decide)).2, (cbufWrite_ok (rep_cbufInit 16) _ (by decide)).2, ?_⟩
  rw [storedCtx, hframe]
  exact ⟨by norm_num [cbufInit, bufferSize], rfl, rfl⟩

/-! ## Every iteration -/

theorem min_div_eq_zero {n ww wanted : ℕ} (hww : 0 < ww) (hwanted : 1 ≤ wanted) :
    min (n / ww) wanted = 0 ↔ n < ww := by
  rw [← Nat.div_eq_zero_iff_lt hww]
  omega

/-- The header is as it should be in every iteration exactly if the numbers can be represented. -/
theorem headerOk_iff_representable (undef : ℕ → ℤ) {k : ℕ} (hk : k ≤ 30) (its : List Iteration) {ctx : Ctx}
    {w r : List UInt8} (hww : 1 ≤ ctx.targetWordWidth ∧ ctx.targetWordWidth < 2 ^ 13)
    (hw : Rep 16 ctx.writeBuf w) (htmp : TmpRep ctx.writeBuf) (hr : Rep 16 ctx.readBuf r)
    (fresh : ℕ → UInt8) {reqSize : ℕ}
    (hbuilt : (request ctx (wantedAfter undef ctx.targetWordWidth k its) fresh reqSize).1 ≠ enomem) :
    HeaderOk ctx (wantedAfter undef ctx.targetWordWidth k its) fresh reqSize ↔ Representable ctx k := by
  obtain ⟨hge, hle, hbyte⟩ := wantedAfter_bounds undef ctx.targetWordWidth hk its
  have hwLe : w.length ≤ 2 ^ 16 := hw.size_eq ▸ hw.fits
  have hpos : 1 ≤ min (2 ^ k) Poll.maxPayloadWords :=
    le_min Nat.one_le_two_pow (by norm_num [Poll.maxPayloadWords])
  rw [headerOk_iff hww hw htmp hr (by omega) fresh hbuilt]
  simp only [Representable, hw.fillLevel_eq, hr.freeLevel_eq, hr.size_eq]
  generalize wantedAfter undef ctx.targetWordWidth k its = wanted at hge hle hbyte
  obtain hwide | hone | hnarrow : 5 ≤ ctx.targetWordWidth ∨ ctx.targetWordWidth = 1 ∨
      2 ≤ ctx.targetWordWidth ∧ ctx.targetWordWidth ≤ 4 := by omega
  · rw [wordsOk_wide hwide, min_div_eq_zero (by omega) (by omega), min_div_eq_zero (by omega) (by omega)]
    omega
  · -- the buffer of the target is a lower bound for what is wanted
    have hbound : 8 ≤ k → 256 ≤ wanted := by
      intro hk8
      have hpow : 2 ^ 8 ≤ 2 ^ k := Nat.pow_le_pow_right (by norm_num) hk8
      have hmin : 256 ≤ min (2 ^ k) Poll.maxPayloadWords := le_min hpow (by norm_num [Poll.maxPayloadWords])
      omega
    have hsmall : k ≤ 7 → wanted ≤ 254 := by
      intro hk7
      have hpow : 2 ^ k ≤ 2 ^ 7 := Nat.pow_le_pow_right (by norm_num) hk7
      have hmax := hbyte hone
      omega
    rw [wordsOk_byte hone, hone, Nat.div_one, Nat.div_one]
    omega
  · have hhalf (n : ℕ) (hn : n ≤ 2 ^ 16) : min (n / ctx.targetWordWidth) wanted ≤ 2 ^ 15 := by
      have hdiv : n / ctx.targetWordWidth ≤ n / 2 := Nat.div_le_div_left hnarrow.1 (by norm_num)
      omega
    exact iff_of_true (wordsOk_narrow hnarrow (hhalf _ hwLe) (hhalf _ (Nat.sub_le _ _))) (.inl hnarrow)

/-- The first iteration has found five words to write and room for all of a target buffer of 256 words, and the target
has taken the five: behind it half as many words more are wanted. -/
theorem header_second_iteration :
    calcPayloadLen (wantedAfter (fun _ => 0) 2 8 [⟨5, 32768, 5, 0⟩]) (availWr storedCtx) (availRd storedCtx) = (3, 384) ∧
      HeaderOk storedCtx (wantedAfter (fun _ => 0) 2 8 [⟨5, 32768, 5, 0⟩]) (fun _ => 0) 30008 := by
  obtain ⟨hw, hr, htmp⟩ := rep_storedCtx
  have hwanted : wantedAfter (fun _ => 0) 2 8 [⟨5, 32768, 5, 0⟩] = 384 := by decide
  have hbuilt : (request storedCtx (wantedAfter (fun _ => 0) 2 8 [⟨5, 32768, 5, 0⟩]) (fun _ => 0) 30008).1 ≠ enomem :=
    request_ne_enomem 3 384 hw hr (by rw [hwanted]; norm_num) (by rw [hwanted]; rfl)
      (by rw [hwanted]; rfl) (by decide) (by decide) (by norm_num) _
  refine ⟨?_, (headerOk_iff_representable (fun _ => 0) (by norm_num) [⟨5, 32768, 5, 0⟩] (by decide) hw htmp hr
    (fun _ => 0) hbuilt).mpr (.inl ⟨by decide, by decide⟩)⟩
  rw [calcPayloadLen_avail hw hr (by rw [hwanted]; norm_num), hwanted]
  rfl

/-- 256 words do not fit into a header word of one byte. -/
theorem header_one_byte :
    (request (gbJtagNew 1) (wantedAfter (fun _ => 0) 1 8 []) (fun _ => 0) 30008).1 ≠ enomem ∧
      ¬ HeaderOk (gbJtagNew 1) (wantedAfter (fun _ => 0) 1 8 []) (fun _ => 0) 30008 := by
  obtain ⟨hw, hr, htmp⟩ := rep_gbJtagNew 1
  have hbuilt : (request (gbJtagNew 1) (wantedAfter (fun _ => 0) 1 8 []) (fun _ => 0) 30008).1 ≠ enomem :=
    request_ne_enomem 0 256 hw hr (by norm_num [wantedAfter]) rfl rfl (by decide) (by decide)
      (by norm_num) _
  refine ⟨hbuilt, fun hok => ?_⟩
  have hwords := (headerOk_iff (by decide) hw htmp hr (by norm_num [wantedAfter]) (fun _ => 0) hbuilt).mp hok
  have hrd := ((wordsOk_byte rfl).mp hwords).2
  norm_num [gbJtagNew, wantedAfter] at hrd

end GlipOsd.Jtag.Headers
