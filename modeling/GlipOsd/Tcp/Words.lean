import GlipOsd.Tcp.Cycle

/-! # The words of the TCP interface

The words that the logic takes are the incoming bytes in groups, and the bytes that are sent are those of the
words that the logic has offered; the first byte of a word is the most significant one. For incoming words
this needs a width of at most 32 bits: a byte is an `int` when it is shifted.
-/

namespace GlipOsd.Tcp
open Runs Bytes
set_option autoImplicit false

/-- Both streams are the words of the logic, byte for byte. -/
structure WordsMatch (n : ℕ) (s : Sim) : Prop where
  incoming : ∃ pending, s.received = (s.acked.flatMap fun w => beBytes n w.toNat) ++ pending ++ s.tcp.dataIn ∧
    pending.length = s.tcp.readItem.part
  outgoing : ∃ pending, (s.written.flatMap fun w => beBytes n w.toNat) = s.sent ++ s.tcp.dataOut ++ pending ∧
    pending.length = if s.tcp.writeItem.valid then n - s.tcp.writeItem.part else 0

/-! ## One byte more -/

theorem mod_signExtend (x : BitVec 32) {m : ℕ} (h : m ≤ 32) : (x.signExtend 64).toNat % 2 ^ m = x.toNat % 2 ^ m := by
  apply Nat.eq_of_testBit_eq
  intro i
  rw [Nat.testBit_mod_two_pow, Nat.testBit_mod_two_pow]
  by_cases hi : i < m
  · have h64 : i < 64 := by omega
    have h32 : i < 32 := by omega
    rw [BitVec.testBit_toNat, BitVec.testBit_toNat, BitVec.getLsbD_signExtend]
    simp [hi, h64, h32]
  · simp [hi]

/-- The low bytes of the value are those that have been inserted. -/
def Digits (n : ℕ) (item : TempStorage) (pending : List UInt8) : Prop :=
  item.part = pending.length ∧ item.value.toNat % 256 ^ n = beValue pending * 256 ^ (n - item.part)

section Insert
variable {undef : UInt8 → ℕ → BitVec 32} {n : ℕ} {item : TempStorage} {pending : List UInt8}

theorem toNat_shl (data : UInt8) {k : ℕ} (h : k < 4) : (shl undef data (k * 8)).toNat = data.toNat * 256 ^ k := by
  have hdata : data.toNat < 256 := data.toNat_lt
  have hpow : 2 ^ (k * 8) = 256 ^ k := by rw [Nat.mul_comm, two_pow_eight_mul]
  have hle : 256 ^ k ≤ 256 ^ 3 := Nat.pow_le_pow_right (by norm_num) (by omega)
  have hprod : data.toNat * 256 ^ k < 2 ^ 32 := by
    calc data.toNat * 256 ^ k ≤ 255 * 256 ^ 3 := Nat.mul_le_mul (by omega) hle
      _ < 2 ^ 32 := by norm_num
  rw [shl, if_pos (by omega), BitVec.toNat_shiftLeft, BitVec.toNat_setWidth, UInt8.toNat_toBitVec,
    Nat.mod_eq_of_lt (by omega : data.toNat < 2 ^ 32), Nat.shiftLeft_eq, hpow, Nat.mod_eq_of_lt hprod]

theorem Digits.insert (hn : n ≤ 4) (h : Digits n item pending) (hlt : item.part < n) (data : UInt8) :
    Digits n (item.insert undef data ((n - item.part - 1) * 8)) (pending ++ [data]) := by
  obtain ⟨hpart, hvalue⟩ := h
  have hdata : data.toNat < 256 := data.toNat_lt
  refine ⟨?_, ?_⟩
  · rw [List.length_append, ← hpart]
    rfl
  · obtain ⟨m, hm⟩ := Nat.exists_eq_succ_of_ne_zero (by omega : n - item.part ≠ 0)
    have hshift : n - item.part - 1 = m := by omega
    have hnext : n - (item.part + 1) = m := by omega
    have hpow : 256 ^ n = 2 ^ (8 * n) := (two_pow_eight_mul n).symm
    have hlow : data.toNat * 256 ^ m < 256 ^ (m + 1) := by
      rw [pow_succ']
      exact Nat.mul_lt_mul_of_pos_right hdata (by positivity)
    have hbyte : ((shl undef data (m * 8)).signExtend 64).toNat % 256 ^ n = data.toNat * 256 ^ m := by
      have hle : 256 ^ (m + 1) ≤ 256 ^ n := Nat.pow_le_pow_right (by norm_num) (by omega)
      rw [hpow, mod_signExtend _ (by omega), toNat_shl data (by omega), ← hpow, Nat.mod_eq_of_lt (hlow.trans_le hle)]
    show (item.value ||| (shl undef data ((n - item.part - 1) * 8)).signExtend 64).toNat % 256 ^ n =
      beValue (pending ++ [data]) * 256 ^ (n - (item.part + 1))
    rw [hm] at hvalue
    rw [hshift, hnext, BitVec.toNat_or, hpow, Nat.or_mod_two_pow, ← hpow, hvalue, hbyte, beValue_concat]
    -- the byte fits below the lowest byte that has been inserted
    rw [← two_pow_eight_mul (m + 1)] at hlow
    have hor := Nat.shiftLeft_add_eq_or_of_lt hlow (beValue pending)
    rw [Nat.shiftLeft_eq, two_pow_eight_mul] at hor
    rw [Nat.succ_eq_add_one, ← hor, pow_succ']
    ring

theorem digits_empty : Digits n .empty [] := by
  refine ⟨rfl, ?_⟩
  rw [beValue_nil, Nat.zero_mul]
  exact Nat.zero_mod _

theorem Digits.beBytes (h : Digits n item pending) (hpart : item.part = n) : beBytes n item.value.toNat = pending := by
  obtain ⟨hlen, hvalue⟩ := h
  rw [hpart, Nat.sub_self, pow_zero, Nat.mul_one] at hvalue
  rw [← beBytes_mod, hvalue, ← hpart, hlen, beBytes_beValue]

end Insert

/-! ## Incoming words -/

section Incoming
variable {undef : UInt8 → ℕ → BitVec 32} {n : ℕ} {s s' : Sim} {i : Cycle} {pending : List UInt8}

variable (undef pending) in
/-- What inserting a byte keeps holds of the item after `next_cycle`. -/
theorem nextRead_spec {t : GlipTcp} (P : TempStorage → List UInt8 → Prop)
    (hvalid : ∀ item pending, P item pending → P { item with valid := true } pending)
    (hinsert : ∀ item pending data, P item pending → item.part < t.numBytes →
      P (item.insert undef data ((t.numBytes - item.part - 1) * 8)) (pending ++ [data]))
    (h : P t.readItem pending) (hle : t.readItem.part ≤ t.numBytes)
    (hfull : t.readItem.valid = true → t.readItem.part = t.numBytes) :
    ∃ xs, t.dataIn = xs ++ (nextRead undef t).2.2 ∧ P (nextRead undef t).2.1 (pending ++ xs) ∧
      (nextRead undef t).2.1.part ≤ t.numBytes ∧
      ((nextRead undef t).2.1.valid = true → (nextRead undef t).2.1.part = t.numBytes) ∧
      ((nextRead undef t).1 = true ∨ (nextRead undef t).2.2 = [] ∧ (nextRead undef t).2.1.part < t.numBytes) := by
  unfold nextRead
  by_cases hv : t.readItem.valid = true
  · rw [if_pos hv]
    exact ⟨[], rfl, by rwa [List.append_nil], hle, hfull, .inl rfl⟩
  · rw [if_neg hv]
    obtain ⟨xs, hmoved, hP⟩ := assemble_spec undef P hinsert h hle t.dataIn
    simp only
    split_ifs with hpart
    · exact ⟨xs, hmoved.queue_eq, hvalid _ _ hP, hmoved.part_le, fun _ => hpart, .inl rfl⟩
    · refine ⟨xs, hmoved.queue_eq, hP, hmoved.part_le, fun hvalid' => ?_,
        .inr ⟨hmoved.complete.resolve_left hpart, lt_of_le_of_ne hmoved.part_le hpart⟩⟩
      rw [hmoved.valid_eq] at hvalid'
      exact absurd hvalid' hv

/-- The bytes that have arrived are those of the words taken, those in the item and those in the queue. -/
def ReadInv (n : ℕ) (s : Sim) : Prop :=
  s.tcp.readItem.part ≤ n ∧ (s.tcp.readItem.valid = true → s.tcp.readItem.part = n) ∧
    ∃ pending, s.received = (s.acked.flatMap fun w => beBytes n w.toNat) ++ pending ++ s.tcp.dataIn ∧
      Digits n s.tcp.readItem pending

theorem readInv_start (w : ℕ) : ReadInv n (start w) :=
  ⟨Nat.zero_le n, fun h => absurd h Bool.false_ne_true, [], rfl, digits_empty⟩

theorem ReadInv.step (hn : n ≤ 4) (h : ReadInv n s) (hnum : s.tcp.numBytes = n) (hstep : Stepped undef s i s') :
    ReadInv n s' := by
  obtain ⟨hle, hfull, pending, hreceived, hdigits⟩ := h
  subst hnum
  obtain ⟨xs, hqueue, hdigits', hle', hfull', -⟩ := nextRead_spec undef pending (t := (serve s i).tcp)
    (Digits s.tcp.numBytes) (fun _ _ h => h) (fun _ _ data h hlt => h.insert hn hlt data) hdigits hle hfull
  have hdata : s.tcp.dataIn ++ i.data = xs ++ s'.tcp.dataIn := by
    rw [hstep.dataIn]
    exact hqueue
  by_cases hack : (nextRead undef (serve s i).tcp).1 = true ∧ i.ready = true
  · obtain ⟨hacked, hitem⟩ := hstep.acked hack.1 hack.2
    have hpart := hfull' (nextRead_valid hack.1)
    rw [ReadInv, hitem]
    refine ⟨Nat.zero_le _, fun h => absurd h Bool.false_ne_true, [], ?_, digits_empty⟩
    rw [hstep.received, hreceived, hacked, List.flatMap_append, List.flatMap_singleton, hdigits'.beBytes hpart,
      List.append_nil, List.append_assoc, hdata]
    simp only [List.append_assoc]
  · have hno : (nextRead undef (serve s i).tcp).1 = false ∨ i.ready = false := by
      rw [← Bool.not_eq_true, ← Bool.not_eq_true]
      exact not_and_or.mp hack
    obtain ⟨hacked, hitem⟩ := hstep.notAcked hno
    rw [ReadInv, hitem]
    refine ⟨hle', hfull', pending ++ xs, ?_, hdigits'⟩
    rw [hstep.received, hreceived, hacked, List.append_assoc, hdata]
    simp only [List.append_assoc]

end Incoming

/-! ## Outgoing words -/

section Outgoing
variable {undef : UInt8 → ℕ → BitVec 32} {n : ℕ} {s s' : Sim} {i : Cycle}

theorem byte_eq (item : TempStorage) (k : ℕ) : item.byte (k * 8) = UInt8.ofNat (item.value.toNat / 256 ^ k) := by
  apply UInt8.toNat_inj.mp
  rw [TempStorage.byte, UInt8.toNat_ofBitVec, BitVec.toNat_setWidth, BitVec.toNat_ushiftRight, Nat.shiftRight_eq_div_pow,
    Nat.mul_comm, two_pow_eight_mul, UInt8.toNat_ofNat']

theorem emit_spec (n k : ℕ) (item : TempStorage) (queue : List UInt8) (hk : item.part + k = n) :
    ∃ xs, (emit n k item queue).2 = queue ++ xs ∧ (emit n k item queue).1.valid = item.valid ∧
      (emit n k item queue).1.value = item.value ∧ (emit n k item queue).1.part ≤ n ∧
      (beBytes n item.value.toNat).drop item.part = xs ++ (beBytes n item.value.toNat).drop (emit n k item queue).1.part := by
  induction k generalizing item queue with
  | zero =>
    rw [emit]
    exact ⟨[], (List.append_nil _).symm, rfl, rfl, hk.le, rfl⟩
  | succ k ih =>
    rw [emit]
    split_ifs with hroom
    · obtain ⟨xs, hqueue, hvalid, hvalue, hpart, hdrop⟩ := ih { item with part := item.part + 1 }
        (queue ++ [item.byte ((n - item.part - 1) * 8)]) (by show item.part + 1 + k = n; omega)
      refine ⟨item.byte ((n - item.part - 1) * 8) :: xs, ?_, hvalid, hvalue, hpart, ?_⟩
      · exact hqueue.trans (List.append_assoc _ _ _)
      · rw [drop_beBytes item.value.toNat (by omega : item.part < n), ← byte_eq, List.cons_append, ← hdrop]
    · exact ⟨[], (List.append_nil _).symm, rfl, rfl, (Nat.le_add_right _ _).trans hk.le, rfl⟩

/-- The bytes of an item that have not been pushed. -/
def left (n : ℕ) (item : TempStorage) : List UInt8 :=
  if item.valid then (beBytes n item.value.toNat).drop item.part else []

/-- The bytes of the words offered are those sent, those in the queue and those left of the item. -/
def WriteInv (n : ℕ) (s : Sim) : Prop :=
  s.tcp.writeItem.part ≤ n ∧
    (s.written.flatMap fun w => beBytes n w.toNat) = s.sent ++ s.tcp.dataOut ++ left n s.tcp.writeItem

theorem writeInv_start (w : ℕ) : WriteInv n (start w) := ⟨Nat.zero_le n, rfl⟩

theorem nextWrite_spec {t : GlipTcp} (hle : t.writeItem.part ≤ t.numBytes) :
    (nextWrite t).2.1.part ≤ t.numBytes ∧
      t.dataOut ++ left t.numBytes t.writeItem = (nextWrite t).2.2 ++ left t.numBytes (nextWrite t).2.1 := by
  unfold nextWrite
  cases hv : t.writeItem.valid with
  | false => exact ⟨hle, rfl⟩
  | true =>
    obtain ⟨xs, hqueue, hvalid, hvalue, hpart, hdrop⟩ := emit_spec t.numBytes (t.numBytes - t.writeItem.part)
      t.writeItem t.dataOut (Nat.add_sub_of_le hle)
    have hleft : left t.numBytes t.writeItem = (beBytes t.numBytes t.writeItem.value.toNat).drop t.writeItem.part :=
      if_pos hv
    rw [if_neg (by simp), hleft]
    simp only
    split_ifs with hdone
    · have hnone : (beBytes t.numBytes t.writeItem.value.toNat).drop t.numBytes = [] :=
        List.drop_eq_nil_of_le (length_beBytes _ _).le
      rw [hdone, hnone, List.append_nil] at hdrop
      refine ⟨hpart, ?_⟩
      rw [hqueue, hdrop, left, if_neg (by simp), List.append_nil]
    · refine ⟨hpart, ?_⟩
      rw [hqueue, hdrop, left, hvalid, hv, if_pos rfl, hvalue, List.append_assoc]

theorem WriteInv.step (h : WriteInv n s) (hnum : s.tcp.numBytes = n) (hstep : Stepped undef s i s') : WriteInv n s' := by
  obtain ⟨hle, hwritten⟩ := h
  subst hnum
  obtain ⟨hle', hmove⟩ := nextWrite_spec (t := (serve s i).tcp) hle
  have hsent : s.sent ++ s.tcp.dataOut = s'.sent ++ (serve s i).tcp.dataOut := by
    rw [hstep.sent, List.append_assoc]
    exact congrArg (s.sent ++ ·) (List.take_append_drop _ _).symm
  have hitem : (serve s i).tcp.writeItem = s.tcp.writeItem := rfl
  have hnum : (serve s i).tcp.numBytes = s.tcp.numBytes := rfl
  rw [hitem, hnum, ← hstep.dataOut] at hmove
  rw [hsent, List.append_assoc, hmove] at hwritten
  by_cases hnew : (nextWrite (serve s i).tcp).1 = true ∧ i.item ≠ none
  · obtain ⟨data, hdata⟩ := Option.ne_none_iff_exists'.mp hnew.2
    obtain ⟨hwritten', hitem'⟩ := hstep.written hnew.1 data hdata
    rw [left, nextWrite_valid hnew.1, if_neg Bool.false_ne_true, List.append_nil] at hwritten
    rw [WriteInv, hitem', hwritten']
    refine ⟨Nat.zero_le _, ?_⟩
    rw [List.flatMap_append, List.flatMap_singleton, hwritten, left, if_pos rfl, List.drop_zero]
  · have hno : (nextWrite (serve s i).tcp).1 = false ∨ i.item = none := by
      rw [← Bool.not_eq_true]
      exact (not_and_or.mp hnew).imp_right not_not.mp
    obtain ⟨hwritten', hitem'⟩ := hstep.notWritten hno
    rw [WriteInv, hitem', hwritten', List.append_assoc]
    exact ⟨hle', hwritten⟩

end Outgoing

/-! ## All cycles -/

section Run
variable {undef : UInt8 → ℕ → BitVec 32} {n w : ℕ} {s s' : Sim} {i : Cycle}

/-- A client is connected, and no message is left between two cycles. -/
def Running (s : Sim) : Prop := s.tcp.connected = true ∧ s.tcp.controlItem.valid = false

theorem assemble_valid (n : ℕ) (item : TempStorage) (queue : List UInt8) :
    (assemble undef n item queue).1.valid = item.valid := by
  induction queue generalizing item with
  | nil => rw [assemble]
  | cons data queue ih =>
    rw [assemble]
    split_ifs
    · exact ih _
    · rfl

theorem nextControl_valid {t : GlipTcp} (h : t.controlItem.valid = false) (hno : (nextControl undef t).1 = false) :
    (nextControl undef t).2.1.valid = false := by
  unfold nextControl at hno ⊢
  simp only at hno ⊢
  split_ifs at hno ⊢
  exact (assemble_valid _ _ _).trans h

theorem Running.step (h : Running s) (hstep : Stepped undef s i s') : Running s' := by
  refine ⟨hstep.connected, ?_⟩
  cases hmsg : (nextControl undef (serve s i).tcp).1 with
  | true => rw [(hstep.message hmsg).2]
  | false =>
    rw [(hstep.noMessage hmsg).2]
    exact nextControl_valid h.2 hmsg

variable (undef) in
theorem Running.cycle (h : Running s) (i : Cycle) : ∃ s', cycle undef s i = some s' ∧ Stepped undef s i s' :=
  cycle_spec s i h.1 h.2

/-- The invariant of the cycles. Incoming words are right if their bytes fit into an `int`. -/
structure Inv (n : ℕ) (s : Sim) : Prop where
  running : Running s
  numBytes : s.tcp.numBytes = n
  write : WriteInv n s
  read : n ≤ 4 → ReadInv n s

theorem inv_start (w : ℕ) : Inv (w >>> 3) (start w) :=
  ⟨⟨rfl, rfl⟩, rfl, writeInv_start w, fun _ => readInv_start w⟩

theorem stable_inv : Stable (cycle undef) (Inv n) := by
  intro s i s' h hcycle
  obtain ⟨u, hu, hstep⟩ := h.running.cycle undef i
  obtain rfl := Option.some.inj (hcycle.symm.trans hu)
  exact ⟨h.running.step hstep, hstep.numBytes.trans h.numBytes, h.write.step h.numBytes hstep,
    fun hn => (h.read hn).step hn h.numBytes hstep⟩

theorem run_start (undef : UInt8 → ℕ → BitVec 32) (w : ℕ) (cs : List Cycle) :
    ∃ s, runFrom (cycle undef) (start w) cs = some s ∧ Inv (w >>> 3) s := by
  have htotal (s : Sim) (i : Cycle) (h : Inv (w >>> 3) s) : (cycle undef s i).isSome := by
    obtain ⟨s', hs', -⟩ := h.running.cycle undef i
    exact Option.isSome_iff_exists.mpr ⟨s', hs'⟩
  obtain ⟨s, hrun⟩ := stable_inv.run_total htotal (start w) cs (inv_start w)
  exact ⟨s, hrun, stable_inv.run (inv_start w) hrun⟩

theorem Inv.wordsMatch (h : Inv n s) (hn : n ≤ 4) : WordsMatch n s := by
  obtain ⟨-, -, pending, hreceived, hpart, -⟩ := h.read hn
  refine ⟨⟨pending, hreceived, hpart.symm⟩, left n s.tcp.writeItem, h.write.2, ?_⟩
  rw [left]
  split_ifs
  · rw [List.length_drop, length_beBytes]
  · rfl

/-! ### Wider words -/

/-- The upper half of the value is all ones or all zeros. -/
def Extended (item : TempStorage) : Prop := ∀ i j, 32 ≤ i → i < 64 → 32 ≤ j → j < 64 →
  item.value.getLsbD i = item.value.getLsbD j

theorem extended_empty : Extended .empty := by
  intro i j _ _ _ _
  show (0#64).getLsbD i = (0#64).getLsbD j
  rw [BitVec.getLsbD_zero, BitVec.getLsbD_zero]

theorem Extended.insert {item : TempStorage} (h : Extended item) (data : UInt8) (k : ℕ) :
    Extended (item.insert undef data k) := by
  intro i j hi hi' hj hj'
  show (item.value ||| (shl undef data k).signExtend 64).getLsbD i = (item.value ||| (shl undef data k).signExtend 64).getLsbD j
  rw [BitVec.getLsbD_or, BitVec.getLsbD_or, h i j hi hi' hj hj', BitVec.getLsbD_signExtend, BitVec.getLsbD_signExtend,
    if_neg (by omega), if_neg (by omega)]
  simp [hi', hj']

/-- The word of which the first byte is one. -/
def one (n : ℕ) : List UInt8 := 1 :: List.replicate (n - 1) 0

theorem beValue_zeros (k : ℕ) : beValue (1 :: List.replicate k 0) = 256 ^ k := by
  induction k with
  | zero => rfl
  | succ k ih =>
    rw [List.replicate_succ', ← List.cons_append, beValue_concat, ih, pow_succ']
    rfl

theorem Extended.beBytes_ne {item : TempStorage} (h : Extended item) (hn : 4 < n) (hle : n ≤ 8) :
    beBytes n item.value.toNat ≠ one n := by
  intro heq
  have hlen : (one n).length = n := by
    rw [one, List.length_cons, List.length_replicate]
    omega
  have hvalue : item.value.toNat % 256 ^ n = 256 ^ (n - 1) := by
    rw [← beValue_beBytes, heq, one, beValue_zeros]
  have hbit (i : ℕ) (hi : i < 8 * n) : item.value.getLsbD i = decide (8 * (n - 1) = i) := by
    have htest := congrArg (·.testBit i) hvalue
    simp only [← two_pow_eight_mul, Nat.testBit_mod_two_pow, Nat.testBit_two_pow] at htest
    rw [← BitVec.testBit_toNat]
    simpa [hi] using htest
  have hequal := h (8 * (n - 1)) (8 * (n - 1) + 1) (by omega) (by omega) (by omega) (by omega)
  rw [hbit _ (by omega), hbit _ (by omega)] at hequal
  simp at hequal

/-- The cycle in which this word arrives and the logic takes it. -/
def oneCycle (n : ℕ) : Cycle := ⟨one n, [], 0, true, none⟩

theorem length_one (h : 0 < n) : (one n).length = n := by
  rw [one, List.length_cons, List.length_replicate]
  omega

theorem not_wordsMatch_one (hn : 4 < n) (hle : n ≤ 8) (hw : w >>> 3 = n)
    (hrun : runFrom (cycle undef) (start w) [oneCycle n] = some s) : ¬ WordsMatch n s := by
  rintro ⟨⟨pending, hreceived, -⟩, -⟩
  have hlen : (one n).length = n := length_one (by omega)
  obtain ⟨u, hcycle, hstep⟩ := (inv_start w).running.cycle undef (oneCycle n)
  obtain rfl : u = s := by
    rw [runFrom_cons, hcycle] at hrun
    exact Option.some.inj hrun
  let t := (serve (start w) (oneCycle n)).tcp
  have hnum : t.numBytes = n := hw
  obtain ⟨xs, hqueue, ⟨hpart, hext⟩, -, -, hdone⟩ := nextRead_spec undef [] (t := t)
    (fun item pending => item.part = pending.length ∧ Extended item) (fun _ _ h => h)
    (fun item pending data h _ => by
      refine ⟨?_, h.2.insert data _⟩
      rw [List.length_append, ← h.1]
      rfl)
    ⟨rfl, extended_empty⟩ (Nat.zero_le _) (fun h => absurd h Bool.false_ne_true)
  have hav : (nextRead undef t).1 = true := by
    refine hdone.resolve_right ?_
    rintro ⟨hempty, hlt⟩
    rw [hempty, List.append_nil] at hqueue
    rw [hpart, List.nil_append, ← hqueue, hnum] at hlt
    exact absurd hlt (not_lt_of_ge hlen.ge)
  have hacked := (hstep.acked hav rfl).1
  have hin : u.received = one n := hstep.received
  rw [hin, hacked, show (start w).acked = [] from rfl, List.nil_append, List.flatMap_singleton, List.append_assoc] at hreceived
  have hword : beBytes n (nextRead undef t).2.1.value.toNat = one n := by
    have htake := congrArg (List.take n) hreceived
    rwa [List.take_of_length_le hlen.le, List.take_append_of_le_length (length_beBytes _ _).ge,
      List.take_of_length_le (length_beBytes _ _).le, eq_comm] at htake
  exact hext.beBytes_ne hn hle hword

end Run

/-- For a width of up to 32 bits both streams match in every run. For every greater width a single word does not. -/
theorem words_match_iff (undef : UInt8 → ℕ → BitVec 32) (w : ℕ) (hdvd : 8 ∣ w) (hle : w ≤ 64) :
    (∀ cs, ∃ s, runFrom (cycle undef) (start w) cs = some s ∧ WordsMatch (w / 8) s) ↔ w ≤ 32 := by
  have hnum : w >>> 3 = w / 8 := Nat.shiftRight_eq_div_pow w 3
  constructor
  · intro h
    by_contra hlt
    obtain ⟨s, hrun, hmatch⟩ := h [oneCycle (w / 8)]
    exact not_wordsMatch_one (by omega) (by omega) hnum hrun hmatch
  · intro h cs
    obtain ⟨s, hrun, hinv⟩ := run_start undef w cs
    rw [hnum] at hinv
    exact ⟨s, hrun, hinv.wordsMatch (by omega)⟩

/-- On a target that takes the low five bits of a shift. -/
def shiftLow (data : UInt8) (n : ℕ) : BitVec 32 := data.toBitVec.setWidth 32 <<< (n % 32)

/-- The bytes 1, 2, 3 and 4 at 32 bits, in two cycles, while the logic offers a word. -/
theorem four_bytes_match : ∃ s, runFrom (cycle shiftLow) (start 32)
    [⟨[1, 2, 3], [], 0, true, some 5⟩, ⟨[4], [], 16, true, none⟩] = some s ∧ WordsMatch (32 / 8) s :=
  (words_match_iff shiftLow 32 (by decide) (by decide)).mpr le_rfl _

/-- The first byte of a word of 64 bits is lost, whatever the shift by 56 places gives. -/
theorem eight_bytes_differ : ¬ ∃ undef s, runFrom (cycle undef) (start 64)
    [⟨[1, 0, 0, 0, 0, 0, 0, 0], [], 0, true, none⟩] = some s ∧ WordsMatch (64 / 8) s := by
  rintro ⟨undef, s, hrun, hmatch⟩
  exact not_wordsMatch_one (n := 8) (by norm_num) le_rfl rfl hrun hmatch


end GlipOsd.Tcp
