import GlipOsd.Tcp.Words

/-! # The control messages of the TCP interface

The host writes a message as a `uint16_t`, which on a little-endian machine puts the low byte first.
`next_cycle` takes the first byte as the high one, and `control_msg` leaves the value in the item, into which
the next message is merged.
-/

namespace GlipOsd.Tcp
open Runs Bytes
set_option autoImplicit false

/-- The bytes on the control socket. -/
def wire (ms : List (BitVec 16)) : List UInt8 := ms.flatMap fun m => leBytes 2 m.toNat

/-- The messages that have been returned are the first ones that were written, and no byte is lost. -/
structure MessagesMatch (ms : List (BitVec 16)) (s : Sim) : Prop where
  messages : s.messages = (ms.take s.messages.length).map (·.setWidth 32)
  logic_rst : s.messages.map (·.getLsbD 0) = (ms.take s.messages.length).map (·.getLsbD 0)
  received : s.receivedControl.length = 2 * s.messages.length + s.tcp.controlItem.part + s.tcp.control.length
  part_lt : s.tcp.controlItem.part < 2

/-! ## What is returned -/

def swap (m : BitVec 16) : BitVec 16 := m <<< 8 ||| m >>> 8

/-- The values returned for the messages, of which the first is merged into `value`. -/
def returned : BitVec 16 → List (BitVec 16) → List (BitVec 32)
  | _, [] => []
  | value, m :: ms => (value ||| swap m).setWidth 32 :: returned (value ||| swap m) ms

/-- The value that stays in the item. -/
def merged (value : BitVec 16) (ms : List (BitVec 16)) : BitVec 16 := ms.foldl (fun value m => value ||| swap m) value

theorem merged_concat (value : BitVec 16) (ms : List (BitVec 16)) (m : BitVec 16) :
    merged value (ms ++ [m]) = merged value ms ||| swap m := by
  rw [merged, List.foldl_append]
  rfl

theorem returned_concat (value : BitVec 16) (ms : List (BitVec 16)) (m : BitVec 16) :
    returned value (ms ++ [m]) = returned value ms ++ [(merged value ms ||| swap m).setWidth 32] := by
  induction ms generalizing value with
  | nil => rfl
  | cons m' ms ih =>
    rw [List.cons_append, returned, ih, returned]
    rfl

theorem length_returned (value : BitVec 16) (ms : List (BitVec 16)) : (returned value ms).length = ms.length := by
  induction ms generalizing value with
  | nil => rfl
  | cons m ms ih => rw [returned, List.length_cons, List.length_cons, ih]

theorem swap_or (a b : BitVec 16) : swap (a ||| b) = swap a ||| swap b := by
  rw [swap, swap, swap, BitVec.shiftLeft_or_distrib, BitVec.ushiftRight_or_distrib]
  ac_rfl

theorem swap_swap (m : BitVec 16) : swap (swap m) = m := by
  apply BitVec.eq_of_getLsbD_eq
  intro i hi
  simp only [swap, BitVec.getLsbD_or, BitVec.getLsbD_shiftLeft, BitVec.getLsbD_ushiftRight]
  have hhigh : m.getLsbD (8 + (8 + i)) = false := BitVec.getLsbD_of_ge _ _ (by omega)
  by_cases h : i < 8
  · have h16 : 8 + i < 16 := by omega
    simp [hi, h, h16, hhigh]
  · have hlow : i - 8 < 8 := by omega
    have hlow' : i - 8 < 16 := by omega
    have hback : 8 + (i - 8) = i := by omega
    simp [hi, h, hhigh, hlow, hlow', hback]

/-- Merging a message gives the message if and only if its bytes are equal and it has all bits of the value. -/
theorem or_swap_eq_iff (value m : BitVec 16) : value ||| swap m = m ↔ swap m = m ∧ value ||| m = m := by
  constructor
  · intro h
    have hswap : swap value ||| m = swap m := by
      have heq := congrArg swap h
      rwa [swap_or, swap_swap] at heq
    have hm : swap m ||| m = m := by
      calc swap m ||| m = swap m ||| (value ||| swap m) := by rw [h]
        _ = value ||| swap m := by rw [BitVec.or_comm value, ← BitVec.or_assoc, BitVec.or_self]
        _ = m := h
    have hm' : swap m ||| m = swap m := by
      calc swap m ||| m = swap value ||| m ||| m := by rw [hswap]
        _ = swap value ||| m := by rw [BitVec.or_assoc, BitVec.or_self]
        _ = swap m := hswap
    have heq : swap m = m := hm'.symm.trans hm
    rw [heq] at h
    exact ⟨heq, h⟩
  · rintro ⟨hswap, hvalue⟩
    rwa [hswap]

theorem setWidth_inj {a b : BitVec 16} : a.setWidth 32 = b.setWidth 32 ↔ a = b := by
  constructor
  · intro h
    have hnat := congrArg BitVec.toNat h
    rw [BitVec.toNat_setWidth_of_le (by decide), BitVec.toNat_setWidth_of_le (by decide)] at hnat
    exact BitVec.eq_of_toNat_eq hnat
  · exact congrArg _

/-- Both bytes of every message are equal, and it has all bits of the one before. -/
def Mergeable (ms : List (BitVec 16)) : Prop :=
  (∀ m ∈ ms, swap m = m) ∧ ms.IsChain fun m m' => m ||| m' = m'

theorem returned_eq_iff_chain (value : BitVec 16) (ms : List (BitVec 16)) :
    returned value ms = ms.map (·.setWidth 32) ↔
      (∀ m ∈ ms, swap m = m) ∧ (value :: ms).IsChain fun m m' => m ||| m' = m' := by
  induction ms generalizing value with
  | nil => simp [returned]
  | cons m ms ih =>
    rw [returned, List.map_cons, List.cons.injEq, setWidth_inj, List.isChain_cons_cons, List.forall_mem_cons]
    constructor
    · rintro ⟨hm, hms⟩
      rw [hm, ih] at hms
      obtain ⟨hswap, hvalue⟩ := (or_swap_eq_iff value m).mp hm
      exact ⟨⟨hswap, hms.1⟩, hvalue, hms.2⟩
    · rintro ⟨⟨hswap, hms⟩, hvalue, hchain⟩
      have hm := (or_swap_eq_iff value m).mpr ⟨hswap, hvalue⟩
      rw [hm, ih]
      exact ⟨rfl, hms, hchain⟩

theorem returned_eq_iff (ms : List (BitVec 16)) : returned 0 ms = ms.map (·.setWidth 32) ↔ Mergeable ms := by
  rw [returned_eq_iff_chain, Mergeable]
  refine and_congr_right fun _ => ?_
  cases ms with
  | nil => simp
  | cons m ms =>
    rw [List.isChain_cons_cons]
    exact and_iff_right BitVec.zero_or

/-! ## Assembling a message -/

section Assemble
variable {undef : UInt8 → ℕ → BitVec 32} {item : TempStorage} {pending : List UInt8} {value : BitVec 16}

/-- What the bytes of a message add to the value. -/
def placed : List UInt8 → BitVec 64
  | [] => 0
  | [b] => b.toBitVec.setWidth 64 <<< 8
  | b :: c :: _ => b.toBitVec.setWidth 64 <<< 8 ||| c.toBitVec.setWidth 64

/-- The bytes `pending` have been merged into the value. -/
def Merging (value : BitVec 16) (item : TempStorage) (pending : List UInt8) : Prop :=
  item.part = pending.length ∧ item.value = value.setWidth 64 ||| placed pending

/-- A small shift of a byte does not reach the sign. -/
theorem signExtend_shl (b : UInt8) {n : ℕ} (h : n ≤ 8) :
    (shl undef b n).signExtend 64 = b.toBitVec.setWidth 64 <<< n := by
  have hmsb : (b.toBitVec.setWidth 32 <<< n).msb = false := by
    rw [BitVec.msb_eq_getLsbD_last, BitVec.getLsbD_shiftLeft, BitVec.getLsbD_setWidth,
      BitVec.getLsbD_of_ge b.toBitVec _ (by omega), Bool.and_false, Bool.and_false]
  rw [shl, if_pos (by omega), BitVec.signExtend_eq_setWidth_of_msb_false hmsb]
  apply BitVec.eq_of_getLsbD_eq
  intro i hi
  rw [BitVec.getLsbD_setWidth, BitVec.getLsbD_shiftLeft, BitVec.getLsbD_shiftLeft, BitVec.getLsbD_setWidth,
    BitVec.getLsbD_setWidth]
  by_cases h32 : i < 32
  · have h32' : i - n < 32 := by omega
    have h64 : i - n < 64 := by omega
    simp [hi, h32, h32', h64]
  · have hbyte : b.toBitVec.getLsbD (i - n) = false := BitVec.getLsbD_of_ge _ _ (by omega)
    simp [hbyte]

theorem Merging.insert (h : Merging value item pending) (hlt : item.part < 2) (data : UInt8) :
    Merging value (item.insert undef data ((2 - item.part - 1) * 8)) (pending ++ [data]) := by
  obtain ⟨hpart, hvalue⟩ := h
  refine ⟨?_, ?_⟩
  · rw [List.length_append, ← hpart]
    rfl
  · show item.value ||| (shl undef data ((2 - item.part - 1) * 8)).signExtend 64 = _
    rw [hvalue, hpart, BitVec.or_assoc]
    match pending, hpart with
    | [], _ =>
      rw [List.length_nil, signExtend_shl data (by norm_num)]
      exact congrArg _ BitVec.zero_or
    | [b], _ =>
      rw [List.length_singleton, signExtend_shl data (by norm_num)]
      exact congrArg _ (congrArg _ (BitVec.shiftLeft_zero _))
    | b :: c :: rest, hpart =>
      rw [hpart, List.length_cons, List.length_cons] at hlt
      omega

theorem placed_leBytes (m : BitVec 16) : placed (leBytes 2 m.toNat) = (swap m).setWidth 64 := by
  have hlow : (UInt8.ofNat m.toNat).toBitVec = m.setWidth 8 := by
    apply BitVec.eq_of_toNat_eq
    rw [UInt8.toNat_toBitVec, UInt8.toNat_ofNat', BitVec.toNat_setWidth]
  have hhigh : (UInt8.ofNat (m.toNat / 256)).toBitVec = (m >>> 8).setWidth 8 := by
    apply BitVec.eq_of_toNat_eq
    rw [UInt8.toNat_toBitVec, UInt8.toNat_ofNat', BitVec.toNat_setWidth, BitVec.toNat_ushiftRight, Nat.shiftRight_eq_div_pow]
  show (UInt8.ofNat m.toNat).toBitVec.setWidth 64 <<< 8 ||| (UInt8.ofNat (m.toNat / 256)).toBitVec.setWidth 64 =
    (swap m).setWidth 64
  rw [hlow, hhigh]
  apply BitVec.eq_of_getLsbD_eq
  intro i hi
  simp only [swap, BitVec.getLsbD_or, BitVec.getLsbD_shiftLeft, BitVec.getLsbD_setWidth, BitVec.getLsbD_ushiftRight]
  by_cases h8 : i < 8
  · have h16 : i < 16 := by omega
    simp [hi, h8, h16]
  · by_cases h16 : i < 16
    · have hlow : i - 8 < 8 := by omega
      have hlow' : i - 8 < 64 := by omega
      have hzero : m.getLsbD (8 + i) = false := BitVec.getLsbD_of_ge _ _ (by omega)
      simp [hi, h8, h16, hlow, hlow', hzero]
    · have hlow : ¬ i - 8 < 8 := by omega
      have hzero : m.getLsbD (8 + i) = false := BitVec.getLsbD_of_ge _ _ (by omega)
      simp [h8, h16, hlow, hzero]

end Assemble

/-! ## All cycles -/

section Run
variable {undef : UInt8 → ℕ → BitVec 32} {s s' : Sim} {i : Cycle} {value : BitVec 16} {pending : List UInt8}
  {ms : List (BitVec 16)}

variable (undef) in
theorem nextControl_spec {t : GlipTcp} (h : Merging value t.controlItem pending) (hlt : t.controlItem.part < 2) :
    ∃ xs, t.control = xs ++ (nextControl undef t).2.2 ∧ Merging value (nextControl undef t).2.1 (pending ++ xs) ∧
      ((nextControl undef t).1 = true ∧ (nextControl undef t).2.1.part = 2 ∨
        (nextControl undef t).1 = false ∧ (nextControl undef t).2.1.part < 2 ∧ (nextControl undef t).2.2 = []) := by
  obtain ⟨xs, hmoved, hP⟩ := assemble_spec undef (Merging value) (fun _ _ data h hlt => h.insert hlt data) h
    hlt.le t.control
  unfold nextControl
  simp only
  split_ifs with hpart
  · exact ⟨xs, hmoved.queue_eq, hP, .inl ⟨rfl, hpart⟩⟩
  · exact ⟨xs, hmoved.queue_eq, hP,
      .inr ⟨rfl, lt_of_le_of_ne hmoved.part_le hpart, hmoved.complete.resolve_left hpart⟩⟩

/-- The messages `done` have been returned, and the item holds the bytes `pending` of the next one. -/
structure Returned (s : Sim) (done : List (BitVec 16)) (pending : List UInt8) : Prop where
  received : s.receivedControl = wire done ++ pending ++ s.tcp.control
  merging : Merging (merged 0 done) s.tcp.controlItem pending
  part_lt : s.tcp.controlItem.part < 2
  messages : s.messages = returned 0 done

theorem returned_start (w : ℕ) : Returned (start w) [] [] := ⟨rfl, ⟨rfl, rfl⟩, Nat.zero_lt_two, rfl⟩

theorem wire_concat (ms : List (BitVec 16)) (m : BitVec 16) : wire (ms ++ [m]) = wire ms ++ leBytes 2 m.toNat := by
  rw [wire, List.flatMap_append, List.flatMap_singleton, wire]

theorem wire_append (ms ms' : List (BitVec 16)) : wire (ms ++ ms') = wire ms ++ wire ms' := List.flatMap_append

theorem wire_split {done rest : List (BitVec 16)} {bytes more : List UInt8} (hlen : bytes.length = 2)
    (h : wire done ++ bytes ++ more <+: wire (done ++ rest)) :
    ∃ m rest', rest = m :: rest' ∧ bytes = leBytes 2 m.toNat := by
  rw [wire_append, List.append_assoc, List.prefix_append_right_inj] at h
  cases rest with
  | nil =>
    have hle := h.length_le
    rw [List.length_append, hlen] at hle
    exact absurd hle (by simp [wire])
  | cons m rest =>
    refine ⟨m, rest, rfl, ?_⟩
    have hbytes : bytes <+: leBytes 2 m.toNat ++ wire rest := (List.prefix_append bytes more).trans h
    rw [List.prefix_iff_eq_take, hlen] at hbytes
    exact hbytes.trans (List.take_left' (length_leBytes _ _))

theorem Returned.step {done rest : List (BitVec 16)} (h : Returned s done pending) (hstep : Stepped undef s i s')
    (hwire : s'.receivedControl <+: wire (done ++ rest)) :
    ∃ done' rest' pending', done ++ rest = done' ++ rest' ∧ Returned s' done' pending' ∧
      (done'.length = done.length + 1 ∨ s'.tcp.control = []) := by
  obtain ⟨xs, hqueue, hmerging, hdone⟩ := nextControl_spec undef (t := (serve s i).tcp) h.merging h.part_lt
  have hreceived : s'.receivedControl = wire done ++ (pending ++ xs) ++ s'.tcp.control := by
    have hcontrol : s.tcp.control ++ i.control = xs ++ s'.tcp.control := by
      rw [hstep.control]
      exact hqueue
    rw [hstep.receivedControl, h.received, List.append_assoc, hcontrol]
    simp only [List.append_assoc]
  obtain ⟨hmsg, hpart⟩ | ⟨hmsg, hpart, hempty⟩ := hdone
  · obtain ⟨hmessages, hitem⟩ := hstep.message hmsg
    rw [hreceived] at hwire
    obtain ⟨m, rest', rfl, hbytes⟩ := wire_split (hmerging.1.symm.trans hpart) hwire
    rw [hbytes] at hreceived hmerging
    have hvalue : (nextControl undef (serve s i).tcp).2.1.value = (merged 0 (done ++ [m])).setWidth 64 := by
      rw [hmerging.2, placed_leBytes, merged_concat, BitVec.setWidth_or]
    refine ⟨done ++ [m], rest', [], List.append_cons done m rest', ⟨?_, ?_, ?_, ?_⟩, .inl (List.length_append ..)⟩
    · rw [hreceived, wire_concat, List.append_nil]
    · rw [hitem]
      exact ⟨rfl, hvalue.trans (BitVec.or_zero).symm⟩
    · rw [hitem]
      exact Nat.zero_lt_two
    · rw [hmessages, h.messages, returned_concat, hvalue, merged_concat,
        BitVec.setWidth_setWidth_of_le _ (by norm_num)]
  · obtain ⟨hmessages, hitem⟩ := hstep.noMessage hmsg
    refine ⟨done, rest, pending ++ xs, rfl, ⟨hreceived, ?_, ?_, hmessages.trans h.messages⟩, .inr ?_⟩
    · rwa [hitem]
    · rwa [hitem]
    · rw [hstep.control, hempty]

theorem length_wire (ms : List (BitVec 16)) : (wire ms).length = 2 * ms.length := by
  induction ms with
  | nil => rfl
  | cons m ms ih =>
    rw [wire, List.flatMap_cons, List.length_append, length_leBytes, ← wire, ih, List.length_cons]
    ring

variable (undef) in
/-- As long as the bytes are those of messages, the values are the merged ones. -/
theorem Returned.run {done : List (BitVec 16)} (rest : List (BitVec 16)) (hr : Running s) (h : Returned s done pending) (cs : List Cycle)
    (hwire : s.receivedControl ++ cs.flatMap Cycle.control <+: wire (done ++ rest)) :
    ∃ t, runFrom (cycle undef) s cs = some t ∧ ∃ done' rest' pending', done ++ rest = done' ++ rest' ∧
      Returned t done' pending' := by
  induction cs generalizing s done rest pending with
  | nil => exact ⟨s, rfl, done, rest, pending, rfl, h⟩
  | cons i cs ih =>
    obtain ⟨s', hcycle, hstep⟩ := hr.cycle undef i
    rw [List.flatMap_cons, ← List.append_assoc, ← hstep.receivedControl] at hwire
    obtain ⟨done', rest', pending', hms, h', -⟩ := h.step hstep ((List.prefix_append _ _).trans hwire)
    rw [hms] at hwire
    obtain ⟨t, hrun, done'', rest'', pending'', hms', ht⟩ := ih rest' (hr.step hstep) h' hwire
    exact ⟨t, (runFrom_cons_eq_some _).mpr ⟨s', hcycle, hrun⟩, done'', rest'', pending'', hms.trans hms', ht⟩

/-- The cycle in which both bytes of a message arrive. -/
def wireCycle (m : BitVec 16) : Cycle := ⟨[], leBytes 2 m.toNat, 0, false, none⟩

variable (undef) in
/-- When every message arrives in a cycle, all are returned. -/
theorem Returned.run_all {done : List (BitVec 16)} (hr : Running s) (h : Returned s done []) (hempty : s.tcp.control = [])
    (rest : List (BitVec 16)) :
    ∃ t, runFrom (cycle undef) s (rest.map wireCycle) = some t ∧ Returned t (done ++ rest) [] := by
  induction rest generalizing s done with
  | nil => exact ⟨s, rfl, by rwa [List.append_nil]⟩
  | cons m rest ih =>
    obtain ⟨s', hcycle, hstep⟩ := hr.cycle undef (wireCycle m)
    have hreceived : s'.receivedControl = wire (done ++ [m]) := by
      rw [hstep.receivedControl, h.received, hempty, List.append_nil, List.append_nil, wire_concat]
      rfl
    have hwire : s'.receivedControl <+: wire (done ++ [m]) := by rw [hreceived]
    obtain ⟨done', rest', pending', hms, h', hdone⟩ := h.step hstep hwire
    have hlen := congrArg List.length (hreceived.symm.trans h'.received)
    have hlen' := congrArg List.length hms
    have hpart := h'.merging.1.symm.trans_lt h'.part_lt
    simp only [List.length_append, length_wire, List.length_singleton] at hlen hlen'
    have hrest : rest' = [] ∧ pending' = [] ∧ s'.tcp.control = [] := by
      rw [← List.length_eq_zero_iff, ← List.length_eq_zero_iff, ← List.length_eq_zero_iff]
      obtain hdone | hcontrol := hdone
      · exact ⟨by omega, by omega, by omega⟩
      · rw [hcontrol, List.length_nil] at hlen
        exact ⟨by omega, by omega, List.length_eq_zero_iff.mpr hcontrol⟩
    obtain ⟨rfl, rfl, hcontrol⟩ := hrest
    rw [List.append_nil] at hms
    rw [← hms] at h'
    obtain ⟨t, hrun, ht⟩ := ih (hr.step hstep) h' hcontrol
    refine ⟨t, (runFrom_cons_eq_some _).mpr ⟨s', hcycle, hrun⟩, ?_⟩
    rwa [← List.append_cons] at ht

theorem Returned.messagesMatch_iff {done rest : List (BitVec 16)} (h : Returned s done pending) :
    MessagesMatch (done ++ rest) s ↔ Mergeable done := by
  have hlen : s.messages.length = done.length := by rw [h.messages, length_returned]
  rw [← returned_eq_iff, ← h.messages]
  constructor
  · intro hmatch
    have hmessages := hmatch.messages
    rwa [hlen, List.take_left] at hmessages
  · intro hmessages
    refine ⟨?_, ?_, ?_, h.part_lt⟩
    · rwa [hlen, List.take_left]
    · rw [hlen, List.take_left, hmessages, List.map_map]
      refine List.map_congr_left fun m _ => ?_
      rw [Function.comp_apply, BitVec.getLsbD_setWidth]
      rfl
    · rw [h.received, List.length_append, List.length_append, length_wire, hlen, h.merging.1]

/-- What the cycles in which one message each arrives say about the messages. -/
theorem mergeable_of_match {w : ℕ} (hrun : runFrom (cycle undef) (start w) (ms.map wireCycle) = some s)
    (h : MessagesMatch ms s) : Mergeable ms := by
  obtain ⟨t, hrun', ht⟩ := (returned_start w).run_all undef (inv_start w).running rfl ms
  obtain rfl := Option.some.inj (hrun.symm.trans hrun')
  rw [← List.append_nil ms, ← List.nil_append ms, ht.messagesMatch_iff] at h
  exact h

theorem Mergeable.left {done rest : List (BitVec 16)} (h : Mergeable (done ++ rest)) : Mergeable done :=
  ⟨fun m hm => h.1 m (List.mem_append_left rest hm), h.2.left_of_append⟩

end Run

/-- The messages are delivered in every run if and only if they survive being swapped and merged. -/
theorem messages_match_iff (undef : UInt8 → ℕ → BitVec 32) (w : ℕ) (ms : List (BitVec 16)) :
    (∀ cs, cs.flatMap Cycle.control <+: wire ms →
      ∃ s, runFrom (cycle undef) (start w) cs = some s ∧ MessagesMatch ms s) ↔ Mergeable ms := by
  constructor
  · intro h
    have hcontrol : (ms.map wireCycle).flatMap Cycle.control = wire ms := List.flatMap_map _ _ _
    obtain ⟨s, hrun, hmatch⟩ := h (ms.map wireCycle) (by rw [hcontrol])
    exact mergeable_of_match hrun hmatch
  · intro h cs hcs
    obtain ⟨t, hrun, done, rest, pending, rfl, ht⟩ :=
      (returned_start w).run undef ms (inv_start w).running cs hcs
    exact ⟨t, hrun, ht.messagesMatch_iff.mpr h.left⟩

/-- The message of `gb_tcp_logic_reset` is not returned as it was written. -/
theorem logic_reset_lost : ¬ ∃ undef s, runFrom (cycle undef) (start 16) ([1].map wireCycle) = some s ∧
    MessagesMatch [1] s := by
  rintro ⟨undef, s, hrun, hmatch⟩
  have hswap := (mergeable_of_match hrun hmatch).1 1 (List.mem_singleton_self 1)
  exact absurd hswap (by decide)

end GlipOsd.Tcp
