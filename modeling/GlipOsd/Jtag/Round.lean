import GlipOsd.Jtag.WordStream

/-! # A round of the polling thread

From a state in which nothing is stored a word can be written and one can be read: the user writes its two
bytes, the thread transfers it with one word to be read, and the user reads the bytes of that word.
-/

namespace GlipOsd.Jtag.WordStream
open Bytes Memory CircularBuffer OutputFsm Clocked
set_option autoImplicit false

/-! ## The host -/

/-- The thread is at `pc`, and the two buffers hold `w` and `r`. -/
structure At (s : Poll.State) (pc : Poll.Pc) (w r : List UInt8) : Prop where
  inv : Poll.Inv 2 s w r
  pc : s.pc = pc
  bufSize : 10 ≤ s.bufSize

/-- The user has neither written nor read. -/
def SameUser (s s' : Poll.State) : Prop := s'.accepted = s.accepted ∧ s'.read = s.read

section Host
variable {s s' : Poll.State} {pc : Poll.Pc} {w r w' r' : List UInt8}

theorem stored_eq (h : Poll.Inv 2 s w r) (h' : Poll.Inv 2 s' w' r') (huser : SameUser s s')
    (hacknowledged : s'.acknowledged = s.acknowledged) (hreturned : s'.returned = s.returned) :
    w' = w ∧ r' = r := by
  have haccepted := h'.accepted
  have hread := h'.returned
  rw [huser.1, h.accepted, hacknowledged, List.append_cancel_left_eq] at haccepted
  rw [huser.2, hreturned, h.returned, List.append_cancel_left_eq] at hread
  exact ⟨haccepted.symm, hread.symm⟩

theorem At.write (h : At s .top [] []) (x y : UInt8) :
    ∃ s', Poll.step s (.userWrite 0 [x, y]) = some s' ∧ At s' .top [x, y] [] ∧
      s'.accepted = s.accepted ++ [x, y] ∧ s'.read = s.read := by
  have hfree : cbufFreeLevel s.ctx.writeBuf = 2 ^ 16 := by
    rw [h.inv.writeRep.freeLevel_eq, h.inv.writeRep.size_eq]
    rfl
  have hwritten : (gbJtagWrite s.ctx 0 [x, y]).1 = some 2 := by
    simp [gbJtagWrite, hfree]
  have hstep : Poll.step s (.userWrite 0 [x, y]) = some { s with
      ctx := (gbJtagWrite s.ctx 0 [x, y]).2
      accepted := s.accepted ++ [x, y].take ((gbJtagWrite s.ctx 0 [x, y]).1.getD 0) } := rfl
  rw [hwritten] at hstep
  obtain ⟨w', r', hinv⟩ := h.inv.userWrite hstep
  have haccepted : s.accepted ++ [x, y] = s.acknowledged ++ w' := hinv.accepted
  have hreturned : s.returned = s.read ++ r' := hinv.returned
  rw [h.inv.accepted, List.append_nil, List.append_cancel_left_eq] at haccepted
  rw [h.inv.returned, List.append_cancel_left_eq] at hreturned
  subst haccepted hreturned
  exact ⟨_, hstep, ⟨hinv, h.pc, h.bufSize⟩, rfl, rfl⟩

theorem At.look (h : At s .top w r) (hw : w.length = 2) :
    ∃ s', Poll.step s .look = some s' ∧ At s' (.looked 1) w r ∧ SameUser s s' := by
  have havail : availWr s.ctx = 1 := by rw [availWr_eq h.inv.writeRep, h.inv.width, hw]
  have hstep : Poll.step s .look = some { s with pc := .looked 1 } := by
    simp only [Poll.step, h.pc, havail]
  obtain ⟨w', r', hinv⟩ := h.inv.look hstep
  obtain ⟨rfl, rfl⟩ := stored_eq h.inv hinv ⟨rfl, rfl⟩ rfl rfl
  exact ⟨_, hstep, ⟨hinv, rfl, h.bufSize⟩, rfl, rfl⟩

theorem At.calcLen (h : At s (.looked 1) w []) :
    ∃ s', Poll.step s (.calcLen 1) = some s' ∧ At s' (.ready 1 1) w [] ∧ SameUser s s' := by
  have havail : availRd s.ctx = 2 ^ 15 := by
    rw [availRd_eq h.inv.readRep, h.inv.width]
    rfl
  have hwords : calcPayloadLen 1 1 (availRd s.ctx) = (1, 1) := by
    rw [havail, calcPayloadLen_eq (by norm_num) (by norm_num) (by norm_num)]
    rfl
  have hstep : Poll.step s (.calcLen 1) = some { s with pc := .ready 1 1 } := by
    simp only [Poll.step, h.pc, hwords]
  obtain ⟨w', r', hinv⟩ := h.inv.calcLen (by omega) (by norm_num) hstep
  obtain ⟨rfl, rfl⟩ := stored_eq h.inv hinv ⟨rfl, rfl⟩ rfl rfl
  exact ⟨_, hstep, ⟨hinv, rfl, h.bufSize⟩, rfl, rfl⟩

theorem At.build (h : At s (.ready 1 1) w r) (fresh : ℕ → UInt8) :
    ∃ s' req, Poll.step s (.build fresh) = some s' ∧ At s' (.sent req) w r ∧ Poll.Sent 2 w r req 1 1 ∧
      SameUser s s' := by
  obtain ⟨hwr, hrd⟩ : 1 * 2 ≤ w.length ∧ 1 * 2 + r.length ≤ bufferSize := by
    have hinv := h.inv.pc
    rwa [h.pc] at hinv
  have hwidth := h.inv.width
  have hsize := bufferSize_eq
  have hlen : toBytes s.ctx ((Util.toUint (Util.max 1 1) + 4) % 2 ^ 32) = 10 := by
    show 5 * s.ctx.targetWordWidth % 2 ^ 32 = 10
    rw [hwidth]
    norm_num
  have hne : (buildJtagReq s.ctx (some fresh) 1 1 s.bufSize).1 ≠ enomem :=
    buildJtagReq_ne_enomem hlen (by norm_num) h.bufSize
  obtain hfull | ⟨req, buf, hreq, -, -, hok⟩ := buildJtagReq_ok 1 1 (by rw [hwidth]; omega) h.inv.writeRep
    h.inv.writeTmp (by rw [hwidth]; exact hwr) (by rw [hwidth]; omega) fresh s.bufSize
  · rw [hfull] at hne
    exact absurd rfl hne
  · have hstep : Poll.step s (.build fresh) = some { s with
        ctx := { s.ctx with writeBuf := buf }, pc := .sent req } := by
      simp only [Poll.step, h.pc, Poll.build, hreq]
      rw [hreq] at hne
      rw [if_neg hne, if_neg (by omega)]
    obtain ⟨w', r', hinv⟩ := h.inv.build (by omega) hstep
    obtain ⟨rfl, rfl⟩ := stored_eq h.inv hinv ⟨rfl, rfl⟩ rfl rfl
    rw [hwidth] at hok
    exact ⟨_, req, hstep, ⟨hinv, rfl, h.bufSize⟩, ⟨hok, hwr, hrd⟩, rfl, rfl⟩

theorem At.answer {req resp : List UInt8} (h : At s (.sent req) w r) (hanswers : Poll.Answers 2 req resp) :
    ∃ s', Poll.step s (.answer resp) = some s' ∧ At s' (.answered req resp) w r ∧ SameUser s s' := by
  have hstep : Poll.step s (.answer resp) = some { s with pc := .answered req resp } := by
    simp only [Poll.step, h.pc, h.inv.width, if_pos hanswers]
  obtain ⟨w', r', hinv⟩ := h.inv.answer hstep
  obtain ⟨rfl, rfl⟩ := stored_eq h.inv hinv ⟨rfl, rfl⟩ rfl rfl
  exact ⟨_, hstep, ⟨hinv, rfl, h.bufSize⟩, rfl, rfl⟩

theorem At.parseAcked {req resp : List UInt8} (h : At s (.answered req resp) w r) (hw : w.length = 2)
    (hack : Poll.wrRespSize 2 resp = 1) :
    ∃ s' n, Poll.step s .parseAcked = some s' ∧ At s' (.acked resp n) [] r ∧ SameUser s s' := by
  obtain ⟨⟨wrWords, rdWords, hsent⟩, hanswers⟩ :
      (∃ wrWords rdWords, Poll.Sent 2 w r req wrWords rdWords) ∧ Poll.Answers 2 req resp := by
    have hinv := h.inv.pc
    rwa [h.pc] at hinv
  obtain ⟨s', hstep⟩ : ∃ s', Poll.step s .parseAcked = some s' := by
    simp only [Poll.step, h.pc]
    exact ⟨_, rfl⟩
  obtain ⟨w', r', hinv⟩ := h.inv.parseAcked (by omega) hstep
  have hstate := hstep
  simp only [Poll.step, h.pc, h.inv.width, hack, Option.some.injEq] at hstate
  have hacknowledged : s'.acknowledged = s.acknowledged ++ Poll.payload 2 req 1 := by rw [← hstate]
  have hdata : (Poll.payload 2 req 1).length = 2 := by
    have hlen := hsent.req.length
    apply length_slice
    omega
  -- both bytes are acknowledged
  have haccepted : s'.accepted = s'.acknowledged ++ w' := hinv.accepted
  have huser : SameUser s s' := by
    rw [← hstate]
    exact ⟨rfl, rfl⟩
  have hnone : w' = [] := by
    rw [huser.1, h.inv.accepted, hacknowledged, List.append_assoc, List.append_cancel_left_eq] at haccepted
    have hlength := congrArg List.length haccepted
    rw [List.length_append, hw, hdata] at hlength
    exact List.eq_nil_of_length_eq_zero (by omega)
  have hsame : r' = r := by
    have hreturned := hinv.returned
    have hold : s'.returned = s.returned := by rw [← hstate]
    rw [hold, huser.2, h.inv.returned, List.append_cancel_left_eq] at hreturned
    exact hreturned.symm
  subst hnone hsame
  refine ⟨s', _, hstep, ⟨hinv, by rw [← hstate], ?_⟩, huser⟩
  rw [← hstate]
  exact h.bufSize

theorem At.parseRead {resp : List UInt8} {n : ℕ} (h : At s (.acked resp n) w []) :
    ∃ s', Poll.step s .parseRead = some s' ∧ At s' .top w (Poll.payload 2 resp (Poll.rdRespSize 2 resp)) ∧
      SameUser s s' := by
  obtain ⟨s', hstep⟩ : ∃ s', Poll.step s .parseRead = some s' := by
    simp only [Poll.step, h.pc]
    exact ⟨_, rfl⟩
  obtain ⟨w', r', hinv⟩ := h.inv.parseRead hstep
  have hstate := hstep
  simp only [Poll.step, h.pc, h.inv.width, Option.some.injEq] at hstate
  have huser : SameUser s s' := by
    rw [← hstate]
    exact ⟨rfl, rfl⟩
  have hsame : w' = w := by
    have haccepted := hinv.accepted
    have hold : s'.acknowledged = s.acknowledged := by rw [← hstate]
    rw [hold, huser.1, h.inv.accepted, List.append_cancel_left_eq] at haccepted
    exact haccepted.symm
  have hdata : r' = Poll.payload 2 resp (Poll.rdRespSize 2 resp) := by
    have hreturned := hinv.returned
    have hnew : s'.returned = s.returned ++ Poll.payload 2 resp (Poll.rdRespSize 2 resp) := by rw [← hstate]
    rw [hnew, huser.2, h.inv.returned, List.append_nil, List.append_cancel_left_eq] at hreturned
    exact hreturned.symm
  subst hsame hdata
  refine ⟨s', hstep, ⟨hinv, by rw [← hstate], ?_⟩, huser⟩
  rw [← hstate]
  exact h.bufSize

theorem At.read (h : At s .top w r) (hr : r.length = 2) :
    ∃ s', Poll.step s (.userRead 0 2) = some s' ∧ At s' .top w [] ∧ s'.accepted = s.accepted ∧
      s'.read = s.read ++ r := by
  have hdata := gbJtagRead_eq h.inv.readRep hr.ge
  rw [List.take_of_length_le hr.le] at hdata
  have hstep : Poll.step s (.userRead 0 2) = some { s with
      ctx := { s.ctx with readBuf := (cbufRead s.ctx.readBuf 2).2 }, read := s.read ++ r } := by
    simp only [Poll.step, hdata, Option.getD_some]
  obtain ⟨w', r', hinv⟩ := h.inv.userRead hstep
  have haccepted : s.accepted = s.acknowledged ++ w' := hinv.accepted
  have hreturned : s.returned = s.read ++ r ++ r' := hinv.returned
  rw [h.inv.accepted, List.append_cancel_left_eq] at haccepted
  rw [h.inv.returned, List.self_eq_append_right] at hreturned
  subst haccepted hreturned
  exact ⟨_, hstep, ⟨hinv, h.pc, h.bufSize⟩, rfl, rfl⟩

end Host

/-! ## The target -/

/-- Nothing but the bits `bs` is shifted, into an empty FIFO, and there are words `v` to be read. -/
def steadyScan (bs : List Bool) (v : BitVec 16) : Scan where
  levels := 1
  input := ⟨⟨false, false, .dropPacket, 0, 0, 0, 0⟩, .reset [0]⟩
  waves t := ⟨false, bs.getD (t - 2) false, decide (2 ≤ t), t == 0, t == 1, false⟩
  capture := 1
  past _ := ⟨false, false, false, false, 0, 0, false⟩
  start := 0
  fifoValid _ := true
  fifoData _ := v

theorem steadyScan_shifted (bs : List Bool) (v : BitVec 16) : (steadyScan bs v).Shifted bs where
  awaits := ⟨0, Nat.one_pos, .inr rfl, fun t h0 (h1 : t < 1) => absurd h1 (Nat.not_lt.mpr h0)⟩
  captures := ⟨rfl, rfl, rfl⟩
  shift := by
    intro t _
    have hcycle : 1 + (1 + t) = t + 2 := by omega
    show InputFsm.Quiet ((steadyScan bs v).waves (1 + (1 + t))) ∧
      ((steadyScan bs v).waves (1 + (1 + t))).shift = true ∧ ((steadyScan bs v).waves (1 + (1 + t))).tdi = _
    rw [hcycle]
    refine ⟨⟨rfl, rfl, rfl⟩, ?_, rfl⟩
    exact decide_eq_true (Nat.le_add_left 2 t)
  idle := rfl

theorem wf_of_pushes_nil {W L : ℕ} {s : InputFsm.State W L} {e : ℕ → InputFsm.In} {a n : ℕ}
    (h : JtagFifo.Wf (stateAt InputFsm.step s e a).fifo 0) (hrst : ∀ t, a ≤ t → t < a + n → (e t).rst = false)
    (hpushes : InputFsm.pushes s e a n = []) : JtagFifo.Wf (stateAt InputFsm.step s e (a + n)).fifo 0 := by
  induction n with
  | zero => exact h
  | succ n ih =>
    rw [InputFsm.pushes_add, List.append_eq_nil_iff, InputFsm.pushes_one] at hpushes
    obtain ⟨hbefore, hlast⟩ := hpushes
    have hwf := ih (fun t ht hlt => hrst t ht (by omega)) hbefore
    have hpop (ready : Bool) : ((stateAt InputFsm.step s e (a + n)).fifo.outValid && ready) = false := by
      rw [hwf.outValid_eq]
      rfl
    have hlow := hrst (a + n) (by omega) (by omega)
    show JtagFifo.Wf (InputFsm.step (stateAt InputFsm.step s e (a + n)) (e (a + n))).fifo 0
    generalize stateAt InputFsm.step s e (a + n) = st at hwf hlast hpop ⊢
    have hnone : InputFsm.pushed st (e (a + n)) = none := by
      cases hp : InputFsm.pushed st (e (a + n)) with
      | none => rfl
      | some x =>
        rw [hp] at hlast
        cases hlast
    have hpush : ((InputFsm.inputFsm st.regs st.fifo.inReady (e (a + n))).2.isSome && st.fifo.inReady) = false := by
      rw [InputFsm.pushed] at hnone
      cases hready : st.fifo.inReady with
      | true =>
        rw [hready, if_pos rfl] at hnone
        rw [hnone]
        rfl
      | false => exact Bool.and_false _
    rw [InputFsm.step, hlow]
    exact (hwf.next_keep _ (hpop _) hpush).1

section Target
variable {oocd : List UInt8 → List (ℕ × ℕ)} {req : List UInt8}

/-- A scan of a short request with an answer in one piece. -/
theorem exists_transfer (hoocd : ReadsFields oocd) (hne : req ≠ []) (hlen : req.length ≤ 100) {x : Scan}
    (hx : x.Shifted (bytesBits req)) (hover : ¬ (x.exchange (bytesBits req)).Overrun) :
    ∃ t : Transfer oocd req (bitsBytes (x.captured (bytesBits req))), t.scan = x := by
  have hfields : oocd (command (scanFields req)) = (scanFields req).map fun f => (f.numBits, f.value) :=
    hoocd _ (scanFields_valid req)
  have hbits : shiftedBits (oocd (command (scanFields req))) = bytesBits req := by
    rw [hfields, shiftedBits_scanFields]
  have hcount : (x.captured (bytesBits req)).length = (bytesBits req).length := length_trace
  have htotal : totalBits (oocd (command (scanFields req))) = (bytesBits req).length := by
    rw [← length_shiftedBits, hbits]
  obtain ⟨xs, hxs⟩ : ∃ xs, Captured (oocd (command (scanFields req))) (x.captured (bytesBits req)) xs := by
    apply exists_captured
    · intro f hf
      rw [hfields] at hf
      obtain ⟨g, hg, rfl⟩ := List.mem_map.mp hf
      obtain ⟨bytes, hbytes, -, rfl⟩ := mem_scanFields hg
      have hpos := List.length_pos_of_ne_nil hbytes
      exact ⟨Nat.mul_pos hpos (by norm_num), dvd_mul_left _ _⟩
    · rw [hcount, htotal]
  cases xs with
  | nil =>
    rw [hfields, scanFields_cons hne] at hxs
    exact hxs.elim
  | cons first others =>
    have hdecoded : Response.decoded ⟨first, others⟩ = bitsBytes (x.captured (bytesBits req)) := by
      rw [← hxs.decoded (by rw [hcount, htotal]), List.flatMap_cons]
      rfl
    have hsize : (Response.decoded ⟨first, others⟩).length = req.length := by
      rw [hdecoded, length_bitsBytes, hcount, length_bytesBits, Nat.mul_div_cancel_left _ (by norm_num)]
    have htext : (Response.text ⟨first, others⟩).length < DrscanRead.bufInitialSize := by
      have hbound := hxs.length_text
      rw [htotal, length_bytesBits, List.map_cons, List.sum_cons] at hbound
      rw [Response.text, List.length_append, length_textAfter, DrscanRead.bufInitialSize]
      show first.digits.length + ((others.map fun x => x.digits.length + 1).sum + 1) < 2048
      omega
    have hend : ∀ ys : List Field, 0x1a ∈ Response.textAfter ys := by
      intro ys
      induction ys with
      | nil => exact List.mem_singleton_self _
      | cons y ys ih => exact List.mem_cons_of_mem _ (List.mem_append_right _ ih)
    have hmem : 0x1a ∈ Response.text ⟨first, others⟩ := List.mem_append_right _ (hend others)
    have hdelivers : DrscanRead.Delivers [.data (Response.text ⟨first, others⟩)] (Response.text ⟨first, others⟩) := by
      refine ⟨List.flatMap_singleton _ _, fun y hy => .inr ⟨_, List.ne_nil_of_mem hmem, ?_⟩⟩
      exact List.mem_singleton.mp hy
    have hblock : (List.replicate req.length (0 : UInt8)).length = (Response.decoded ⟨first, others⟩).length := by
      rw [List.length_replicate, hsize]
    have hready := DrscanRead.ready_start ⟨first, others⟩ (fun _ => 0) hblock
    have hread := hready.run (htext.trans (by norm_num [DrscanRead.bufInitialSize])) hdelivers (.inl hmem) (fun _ => 0)
      (hready.run_ne_excess hdelivers htext (fun _ => 0))
    rw [hsize, hdecoded] at hread
    exact ⟨{
      scan := x
      cmd := command (scanFields req)
      written := jtagDrscanWrite_eq (by omega)
      shifted := by rw [hbits]; exact hx
      inTime := by rw [hbits]; exact hover
      answer := ⟨first, others⟩
      captured := by rw [hbits]; exact hxs
      reads := _
      delivers := hdelivers
      clean := .inl hmem
      fresh := fun _ => 0
      block := List.replicate req.length 0
      room := List.length_replicate
      read := hread }, rfl⟩

theorem steadyScan_words (h : Sized req 1 1) (v : BitVec 16) :
    ¬ ((steadyScan (bytesBits req) v).exchange (bytesBits req)).Overrun ∧
      (steadyScan (bytesBits req) v).delivered (bytesBits req) = (pairs (Poll.payload 2 req 1)).map leWord ∧
        (steadyScan (bytesBits req) v).taken (bytesBits req) = [v] ∧
          Answered (steadyScan (bytesBits req) v) req
            (bitsBytes ((steadyScan (bytesBits req) v).captured (bytesBits req))) 1 1 := by
  have hx := steadyScan_shifted (bytesBits req) v
  obtain ⟨hwrSize, hrdSize, -⟩ := h.exchange (steadyScan (bytesBits req) v)
  have hover : ¬ ((steadyScan (bytesBits req) v).exchange (bytesBits req)).Overrun := by
    rintro ⟨-, hlt, -⟩
    rw [hwrSize, hrdSize] at hlt
    exact absurd hlt (lt_irrefl _)
  obtain ⟨htaken, -⟩ := h.taken hx hover le_rfl (fun i _ => rfl) (fun hlt => absurd hlt (lt_irrefl 1))
  obtain ⟨k, hk, hdelivered, hstatus, hfull⟩ := h.accepts hx
  obtain rfl : k = 1 := by
    by_contra hne
    obtain rfl : k = 0 := by omega
    -- the FIFO would have been full, although nothing has entered
    have hroom := hfull Nat.one_pos
    have hlen : (bytesBits req).length = 80 := by
      rw [length_bytesBits, h.length]
      norm_num
    have hnone : InputFsm.pushes (steadyScan (bytesBits req) v).inState (steadyScan (bytesBits req) v).inWave 0 48 =
        [] := by
      have hall : InputFsm.pushes (steadyScan (bytesBits req) v).inState (steadyScan (bytesBits req) v).inWave 0
          (48 + 33) = [] := by
        have hnil : Poll.payload 2 req 0 = [] := by rw [Poll.payload, Nat.zero_mul, slice, List.take_zero]
        rw [Scan.delivered, hlen, hnil] at hdelivered
        exact hdelivered
      rw [InputFsm.pushes_add, List.append_eq_nil_iff] at hall
      exact hall.1
    have hreset : JtagFifo.Wf (JtagFifo.reset (L := 1) [(0 : BitVec 16)]) 0 := JtagFifo.wf_reset rfl
    have hpop : ((JtagFifo.reset (L := 1) [(0 : BitVec 16)]).outValid && false) = false := Bool.and_false _
    have hpush : (false && (JtagFifo.reset (L := 1) [(0 : BitVec 16)]).inReady) = false := rfl
    have hempty : JtagFifo.Wf (stateAt InputFsm.step (steadyScan (bytesBits req) v).inState
        (steadyScan (bytesBits req) v).inWave 0).fifo 0 :=
      (hreset.next_keep 0 hpop hpush).1
    have hwf := wf_of_pushes_nil hempty (fun t _ _ => rfl) hnone
    rw [InputFsm.room] at hroom
    have hready := hwf.inReady_eq
    cases hready.symm.trans hroom
  have hanswered := h.answers hx hover le_rfl hstatus
  exact ⟨hover, hdelivered, htaken, hanswered⟩

end Target

/-! ## The round -/

/-- Nothing is stored and nothing is on its way. -/
def Idle (s : State) : Prop := At s.host .top [] []

theorem idle_initial : Idle initial := ⟨Poll.inv_initial 2, rfl, by decide⟩

theorem exists_round {oocd : List UInt8 → List (ℕ × ℕ)} (hoocd : ReadsFields oocd) {s : State} (hs : Idle s)
    (p : UInt8 × UInt8) (v : BitVec 16) :
    ∃ s', Relation.ReflTransGen (Step oocd) s s' ∧ Idle s' ∧ s'.host.accepted = s.host.accepted ++ [p.1, p.2] ∧
      s'.delivered = s.delivered ++ [leWord p] ∧ s'.popped = s.popped ++ [v] ∧
        s'.host.read = s.host.read ++ wordBytes v := by
  obtain ⟨h1, hstep1, hat1, haccepted1, hread1⟩ := hs.write p.1 p.2
  obtain ⟨h2, hstep2, hat2, huser2⟩ := hat1.look rfl
  obtain ⟨h3, hstep3, hat3, huser3⟩ := hat2.calcLen
  obtain ⟨h4, req, hstep4, hat4, hsent, huser4⟩ := hat3.build fun _ => 0
  have hsized : Sized req 1 1 := sized_of_sent hsent hat4.inv.fits.1
  have hdata : Poll.payload 2 req 1 = [p.1, p.2] := hsent.req.data
  obtain ⟨hover, hdelivered, htaken, hanswered⟩ := steadyScan_words hsized v
  have hreq : req.length = 10 := by
    rw [hsized.length]
    rfl
  obtain ⟨t, ht⟩ := exists_transfer hoocd (List.ne_nil_of_length_pos (by omega)) (by omega)
    (steadyScan_shifted (bytesBits req) v) hover
  obtain ⟨-, hbits⟩ := t.bits_eq hoocd
  have hanswers : Poll.Answers 2 req (bitsBytes ((steadyScan (bytesBits req) v).captured (bytesBits req))) := by
    refine ⟨hanswered.length, ?_, ?_⟩
    · rw [hanswered.wrRespSize, hsized.wrSize]
      decide
    · rw [hanswered.rdRespSize, hsized.rdSize]
      exact hanswered.le
  obtain ⟨h5, hstep5, hat5, huser5⟩ := hat4.answer hanswers
  obtain ⟨h6, n, hstep6, hat6, huser6⟩ := hat5.parseAcked rfl hanswered.wrRespSize
  obtain ⟨h7, hstep7, hat7, huser7⟩ := hat6.parseRead
  rw [hanswered.rdRespSize, hanswered.data, htaken, List.flatMap_singleton] at hat7
  obtain ⟨h8, hstep8, hat8, haccepted8, hread8⟩ := hat7.read (length_leBytes 2 v.toNat)
  have hwrite : Step oocd s { s with host := h1 } := .host _ (by simp) (by simp) hstep1
  have hlook : Step oocd { s with host := h1 } { s with host := h2 } := .host _ (by simp) (by simp) hstep2
  have hcalcLen : Step oocd { s with host := h2 } { s with host := h3 } :=
    .host _ (by simp) (by rintro n ⟨⟩; norm_num) hstep3
  have hbuild : Step oocd { s with host := h3 } { s with host := h4 } := .host _ (by simp) (by simp) hstep4
  have htransfer : Step oocd { s with host := h4 } ⟨h5, s.delivered ++ [leWord p], s.popped ++ [v]⟩ := by
    have hstep : Step oocd { s with host := h4 } _ := .transfer t hat4.pc hstep5
    rw [ht, hbits, hdelivered, htaken, hdata] at hstep
    exact hstep
  have hacked : Step oocd ⟨h5, s.delivered ++ [leWord p], s.popped ++ [v]⟩
      ⟨h6, s.delivered ++ [leWord p], s.popped ++ [v]⟩ := .host _ (by simp) (by simp) hstep6
  have hstored : Step oocd ⟨h6, s.delivered ++ [leWord p], s.popped ++ [v]⟩
      ⟨h7, s.delivered ++ [leWord p], s.popped ++ [v]⟩ := .host _ (by simp) (by simp) hstep7
  have hread : Step oocd ⟨h7, s.delivered ++ [leWord p], s.popped ++ [v]⟩
      ⟨h8, s.delivered ++ [leWord p], s.popped ++ [v]⟩ := .host _ (by simp) (by simp) hstep8
  refine ⟨⟨h8, s.delivered ++ [leWord p], s.popped ++ [v]⟩, ?_, hat8, ?_, rfl, rfl, ?_⟩
  · have hsent : Relation.ReflTransGen (Step oocd) s { s with host := h4 } :=
      (((Relation.ReflTransGen.single hwrite).tail hlook).tail hcalcLen).tail hbuild
    exact (((hsent.tail htransfer).tail hacked).tail hstored).tail hread
  · rw [haccepted8, huser7.1, huser6.1, huser5.1, huser4.1, huser3.1, huser2.1, haccepted1]
  · show h8.read = _
    rw [hread8, huser7.2, huser6.2, huser5.2, huser4.2, huser3.2, huser2.2, hread1]

end GlipOsd.Jtag.WordStream
