import Mathlib
import GlipOsd.Foundations.Runs
import GlipOsd.Uart.Creditor
import GlipOsd.Uart.Host

/-! # The set-up of the connection

`reset` of the host, behind the drained line, against the logic that is released from `com_rst`.
The egress starts in `PASSTHROUGH` and sends whatever is on the output of the FIFO; `reset` ignores
one byte that is not the marker. So the two agree only when that byte is no marker and no word.

The transmitter takes the bits of a byte one after another from its input, so that the first byte
need not be a value that was there at any one time. The host sends its grant once, and no words
before `reset` returns.
-/

namespace GlipOsd.Uart.Setup
open Runs
set_option autoImplicit false

/-- The end of `reset`: the two bytes of the debt, and what is not read. -/
def readDebt : List UInt8 → Except Stop (UInt8 × UInt8 × List UInt8)
  | a :: b :: c :: rest =>
    if a ≠ 0xfe then
      match rest with
      | [] => .error .blocked
      | d :: rest => if b = 0xfe then .ok (c, d, rest) else .error .assertion
    else .ok (b, c, rest)
  | _ => .error .blocked

/-- The registers and the bytes that the host receives; as history the positions in `bytes` where the
egress begins an item, the positions of the bytes with which a word was consumed, and the credit of
the first grant. When `reset` has returned, `returned` is its position in `bytes`. -/
structure State (CW : ℕ) where
  creditor : Creditor 15 CW
  gen : CreditGen CW
  egress : EgressState
  credit : BitVec 15
  lent : Bool
  offered : Option UInt8
  bytes : List UInt8
  bounds : List ℕ
  consumed : List ℕ
  granted : Option ℕ
  ctx : Ctx
  returned : Option ℕ

def initial (CW C : ℕ) (ctx : Ctx) : State CW :=
  ⟨creditorReset 15 CW C, creditGenReset CW, egressReset, 0#15, false, none, [], [0], [], none, ctx,
    none⟩

/-- The inputs of one cycle; `wire` is the byte that the host receives when one is done. -/
structure Input where
  inData : UInt8
  inValid : Bool
  outDone : Bool
  wire : UInt8
  lend : Bool
  deriving DecidableEq

inductive Label
  | cycle (i : Input)
  | reset
  deriving DecidableEq

section System
variable {CW : ℕ}

def State.egressIn (s : State CW) (C : ℕ) (i : Input) : EgressIn where
  inData := i.inData
  inValid := i.inValid
  outDone := i.outDone
  canSend := s.credit != 0#15
  credit := s.creditor.credit.setWidth 15
  creditEn := creditEn s.gen (Uart.creditor C s.creditor false s.gen.getCredit).2.grant

def cycle (C : ℕ) (s : State CW) (i : Input) : State CW :=
  let c := creditor C s.creditor false s.gen.getCredit
  let e := s.egressIn C i
  let accept := transfer s.egress e
  { s with
    creditor := c.1
    gen := creditGen C s.gen false c.2.grant (egress s.egress e).2.creditAck
    egress := (egress s.egress e).1
    credit := (debtor s.credit accept i.lend 0x3fff#14).1
    lent := s.lent || i.lend
    offered := if i.inValid && !(egress s.egress e).2.inReady then some i.inData else none
    bytes := if i.outDone then s.bytes ++ [i.wire] else s.bytes
    bounds := if i.outDone && (egress s.egress e).1 == .idle then s.bounds ++ [s.bytes.length + 1]
      else s.bounds
    consumed := if accept then s.consumed ++ [s.bytes.length] else s.consumed
    granted := if c.2.grant && s.granted.isNone then some c.1.credit.toNat else s.granted }

/-- A word is held until it is accepted, the grant comes once, and behind the first byte the data of
the transmitter does not change while it sends. -/
structure Allowed (C : ℕ) (s : State CW) (i : Input) : Prop where
  held : ∀ d ∈ s.offered, i.inValid = true ∧ i.inData = d
  done : DoneEnabled s.egress (s.egressIn C i)
  once : i.lend = true → s.lent = false
  wire : i.outDone = true → s.bytes ≠ [] → i.wire = (egress s.egress (s.egressIn C i)).2.outData

instance (C : ℕ) (s : State CW) (i : Input) : Decidable (Allowed C s i) :=
  decidable_of_iff
    ((∀ d ∈ s.offered, i.inValid = true ∧ i.inData = d) ∧
      DoneEnabled s.egress (s.egressIn C i) ∧ (i.lend = true → s.lent = false) ∧
      (i.outDone = true → s.bytes ≠ [] →
        i.wire = (egress s.egress (s.egressIn C i)).2.outData))
    ⟨fun ⟨a, b, c, d⟩ => ⟨a, b, c, d⟩, fun ⟨a, b, c, d⟩ => ⟨a, b, c, d⟩⟩

/-- The run ends when `reset` returns. -/
def step (C : ℕ) (s : State CW) (l : Label) : Option (State CW) :=
  if s.returned.isSome then none
  else
    match l with
    | .cycle i => if Allowed C s i then some (cycle C s i) else none
    | .reset =>
      match readDebt s.bytes with
      | .ok (first, second, rest) => some { s with
          ctx := Uart.reset s.ctx first second
          returned := some (s.bytes.length - rest.length) }
      | .error _ => none

/-- The host's debt is the first grant, its position is between two items, and no word was consumed
with a byte that `reset` has read. -/
def Agreed (s : State CW) : Prop :=
  ∀ pos, s.returned = some pos →
    s.granted = some s.ctx.debt ∧ pos ∈ s.bounds ∧ ∀ p ∈ s.consumed, pos ≤ p

/-- The first byte is no marker and no word, and is not taken for a marker by the egress. -/
def Clean (s : State CW) : Label → Prop
  | .cycle i => s.bytes = [] → i.outDone = true →
      i.inValid = false ∧ i.inData ≠ 0xfe ∧ i.wire ≠ 0xfe
  | .reset => True

instance (s : State CW) : ∀ l, Decidable (Clean s l)
  | .cycle _ => inferInstanceAs (Decidable (_ → _ → _))
  | .reset => inferInstanceAs (Decidable True)

/-! ## The first credit message -/

def firstGrant (CW C : ℕ) : BitVec CW := (creditor C (creditorReset 15 CW C) false true).1.credit

def message (CW C : ℕ) : List UInt8 :=
  [0xfe, creditHigh ((firstGrant CW C).setWidth 15), creditLow ((firstGrant CW C).setWidth 15)]

structure Requesting (C : ℕ) (s : State CW) : Prop where
  pnd : s.gen.sendCreditPnd = true
  get : s.gen.getCredit = true
  creditor : s.creditor = creditorReset 15 CW C
  granted : s.granted = none

structure Granted (C : ℕ) (s : State CW) : Prop where
  pnd : s.gen.sendCreditPnd = true
  get : s.gen.getCredit = false
  credit : s.creditor.credit = firstGrant CW C
  granted : s.granted = some (firstGrant CW C).toNat

/-- What the first byte was: as received, whether a word was consumed with it, and whether the egress
took it for a marker. -/
structure First where
  wire : UInt8
  word : Bool
  marker : Bool

/-- The bytes in front of the credit message. -/
def First.front (f : First) : List UInt8 := if f.marker then [f.wire, 0xfe] else [f.wire]

def First.clean (f : First) : Prop := f.wire ≠ 0xfe ∧ f.word = false ∧ f.marker = false

structure Fresh (C : ℕ) (s : State CW) : Prop where
  egress : s.egress = .passthrough
  bytes : s.bytes = []
  bounds : s.bounds = [0]
  consumed : s.consumed = []
  gen : (s.gen = creditGenReset CW ∧ s.creditor = creditorReset 15 CW C ∧ s.granted = none) ∨
    Requesting C s ∨ Granted C s

/-- Behind the first byte, which is to be repeated. -/
structure Repeating (C : ℕ) (f : First) (s : State CW) : Prop where
  marker : f.marker = true
  egress : s.egress = .passthroughRepeat
  bytes : s.bytes = [f.wire]
  bounds : s.bounds = [0]
  consumed : s.consumed = if f.word then [0] else []
  gen : Requesting C s ∨ Granted C s

/-- The credit message is begun, or is complete. -/
inductive Sending (C : ℕ) (f : First) (s : State CW) : Prop
  | begin (egress : s.egress = .idle) (bytes : s.bytes = f.front)
      (gen : Requesting C s ∨ Granted C s)
  | credit1 (egress : s.egress = .sendCredit1) (bytes : s.bytes = f.front) (gen : Granted C s)
  | credit2 (egress : s.egress = .sendCredit2) (bytes : s.bytes = f.front ++ [0xfe])
      (gen : Granted C s)
  | credit3 (egress : s.egress = .sendCredit3)
      (bytes : s.bytes = f.front ++
        [0xfe, creditHigh ((firstGrant CW C).setWidth 15)]) (gen : Granted C s)
  | sent (tail : List UInt8) (bytes : s.bytes = f.front ++ message CW C ++ tail)
      (bound : f.front.length + 3 ∈ s.bounds) (granted : s.granted = some (firstGrant CW C).toNat)

/-- Behind the bytes in front of the credit message. -/
structure Behind (C : ℕ) (f : First) (s : State CW) : Prop where
  sending : Sending C f s
  bounds : ∀ b ∈ s.bounds, b = 0 ∨ b = f.front.length ∨ f.front.length + 3 ≤ b
  first : f.word = true → 0 ∈ s.consumed
  consumed : ∀ p ∈ s.consumed, p = 0 ∧ f.word = true ∨ f.front.length + 3 ≤ p

/-- The course of a set-up; `first` is known behind the first byte. -/
inductive Phase (C : ℕ) : Option First → State CW → Prop
  | fresh {s : State CW} (h : Fresh C s) : Phase C none s
  | repeating {f : First} {s : State CW} (h : Repeating C f s) : Phase C (some f) s
  | behind {f : First} {s : State CW} (h : Behind C f s) : Phase C (some f) s

/-! ## One cycle -/

section Cycle
variable {C : ℕ} {s : State CW} {f : First} {i : Input}

theorem requesting_next (hgen : s.gen = creditGenReset CW)
    (hcreditor : s.creditor = creditorReset 15 CW C) (hgranted : s.granted = none) :
    Requesting C (cycle C s i) := by
  refine ⟨?_, ?_, ?_, ?_⟩
  · simp [cycle, hgen, creditGenReset, creditGen]
  · simp [cycle, hgen, creditGenReset, creditGen]
  · simp only [cycle, hgen, hcreditor, creditGenReset, creditor, Bool.false_eq_true, if_false]
    congr 1
    apply BitVec.eq_of_toNat_eq
    have hlt := (creditorReset 15 CW C).resources.isLt
    rw [BitVec.toNat_setWidth, BitVec.toNat_setWidth, Nat.mod_eq_of_lt (by omega : _ < 2 ^ (15 + 1)),
      Nat.mod_eq_of_lt hlt]
    rfl
  · simp [cycle, hgen, creditGenReset, creditor, hgranted]

theorem granted_of_requesting (h : Requesting C s) : Granted C (cycle C s i) := by
  refine ⟨?_, ?_, ?_, ?_⟩
  · simp [cycle, creditGen, h.pnd, h.get]
  · simp [cycle, creditGen, h.pnd, h.get, creditor]
  · simp only [cycle, h.get, h.creditor]
    rfl
  · simp only [cycle, h.get, h.creditor, h.granted]
    rfl

theorem granted_next (h : Granted C s)
    (hack : (egress s.egress (s.egressIn C i)).2.creditAck = false) : Granted C (cycle C s i) := by
  refine ⟨?_, ?_, ?_, ?_⟩
  · simp [cycle, creditGen, h.pnd, h.get, hack]
  · simp [cycle, creditGen, h.pnd, h.get]
  · simp only [cycle, h.get]
    exact h.credit
  · simp [cycle, h.get, creditor, h.granted]

theorem gen_next (h : Requesting C s ∨ Granted C s)
    (hack : (egress s.egress (s.egressIn C i)).2.creditAck = false) : Granted C (cycle C s i) :=
  h.elim granted_of_requesting fun hg => granted_next hg hack

theorem creditEn_eq (h : Requesting C s ∨ Granted C s) (i : Input) :
    (s.egressIn C i).creditEn = true := by
  rcases h with h | h <;> simp [State.egressIn, creditEn, creditor, h.pnd, h.get]

theorem granted_keep {g : ℕ} (h : s.granted = some g) : (cycle C s i).granted = some g := by
  simp [cycle, h]

theorem cycle_quiet (hd : i.outDone = false) :
    (cycle C s i).bytes = s.bytes ∧ (cycle C s i).bounds = s.bounds ∧
      (cycle C s i).consumed = s.consumed := by
  have hnone : transfer s.egress (s.egressIn C i) = false := by
    cases hs : s.egress <;> simp [transfer, egress, State.egressIn, hd]
  simp [cycle, hd, hnone]

theorem cycle_done (hd : i.outDone = true) (hs : s.egress ≠ .passthrough) :
    (cycle C s i).bytes = s.bytes ++ [i.wire] ∧ (cycle C s i).consumed = s.consumed := by
  have hnone : transfer s.egress (s.egressIn C i) = false := by
    cases he : s.egress <;> simp_all [transfer, egress]
  simp [cycle, hd, hnone]

theorem cycle_later (s : State CW) (i : Input) :
    (∃ tail, (cycle C s i).bytes = s.bytes ++ tail) ∧
      (∀ b ∈ (cycle C s i).bounds, b ∈ s.bounds ∨ s.bytes.length < b) ∧
      (∀ b ∈ s.bounds, b ∈ (cycle C s i).bounds) ∧
      (∀ p ∈ (cycle C s i).consumed, p ∈ s.consumed ∨ p = s.bytes.length) ∧
      ∀ p ∈ s.consumed, p ∈ (cycle C s i).consumed := by
  refine ⟨?_, ?_, ?_, ?_, ?_⟩
  · simp only [cycle]
    split_ifs
    · exact ⟨[i.wire], rfl⟩
    · exact ⟨[], (List.append_nil _).symm⟩
  all_goals
    simp only [cycle]
    intro b hb
    split_ifs at hb ⊢ <;> simp_all
  · obtain hb | rfl := hb
    · exact .inl hb
    · exact .inr (Nat.lt_succ_self _)

theorem fresh_next (h : Fresh C s) (i : Input) :
    ∃ first, Phase C first (cycle C s i) ∧
      ((∀ f ∈ first, f.clean) ↔ Clean s (.cycle i)) := by
  have hack : (egress s.egress (s.egressIn C i)).2.creditAck = false := by
    rw [h.egress]
    rfl
  have hgen : Requesting C (cycle C s i) ∨ Granted C (cycle C s i) := by
    obtain ⟨hg, hc, hn⟩ | hg := h.gen
    · exact .inl (requesting_next hg hc hn)
    · exact .inr (gen_next hg hack)
  cases hd : i.outDone with
  | false =>
    obtain ⟨hbytes, hbounds, hconsumed⟩ := cycle_quiet (C := C) (s := s) hd
    refine ⟨none, .fresh ⟨?_, hbytes.trans h.bytes, hbounds.trans h.bounds,
      hconsumed.trans h.consumed, .inr hgen⟩, by simp [Clean, hd]⟩
    simp [cycle, h.egress, egress, State.egressIn, hd]
  | true =>
    have hbytes : (cycle C s i).bytes = [i.wire] := by simp [cycle, hd, h.bytes]
    have hconsumed : (cycle C s i).consumed = if i.inValid then [0] else [] := by
      simp [cycle, h.consumed, h.bytes, transfer, h.egress, egress, State.egressIn, hd]
    by_cases hm : i.inData = 0xfe
    · refine ⟨some ⟨i.wire, i.inValid, true⟩, .repeating ⟨rfl, ?_, hbytes, ?_, hconsumed, hgen⟩, ?_⟩
      · simp [cycle, h.egress, egress, State.egressIn, hd, hm]
      · simp [cycle, h.egress, egress, State.egressIn, hd, hm, h.bounds]
      · simp [Clean, First.clean, h.bytes, hd, hm]
    · have hbounds : (cycle C s i).bounds = [0, 1] := by
        simp [cycle, h.egress, egress, State.egressIn, hd, hm, h.bounds, h.bytes]
      refine ⟨some ⟨i.wire, i.inValid, false⟩, .behind ⟨.begin ?_ hbytes hgen, ?_, ?_, ?_⟩, ?_⟩
      · simp [cycle, h.egress, egress, State.egressIn, hd, hm]
      · simp [hbounds, First.front]
      · rintro hv
        rw [hconsumed, if_pos hv]
        exact List.mem_singleton_self 0
      · rw [hconsumed]
        split_ifs with hv <;> simp [hv]
      · simp only [Option.mem_def, Option.some.injEq, forall_eq', Clean, First.clean, h.bytes, hd,
          forall_const, and_true]
        constructor
        · rintro ⟨hw, hv⟩
          exact ⟨hv, hm, hw⟩
        · rintro ⟨hv, -, hw⟩
          exact ⟨hw, hv⟩

theorem repeating_next (h : Repeating C f s) (hi : Allowed C s i) :
    Phase C (some f) (cycle C s i) := by
  have hack : (egress s.egress (s.egressIn C i)).2.creditAck = false := by
    rw [h.egress]
    rfl
  have hgen := gen_next h.gen hack
  cases hd : i.outDone with
  | false =>
    obtain ⟨hbytes, hbounds, hconsumed⟩ := cycle_quiet (C := C) (s := s) hd
    refine .repeating ⟨h.marker, ?_, hbytes.trans h.bytes, hbounds.trans h.bounds,
      hconsumed.trans h.consumed, .inr hgen⟩
    simp [cycle, h.egress, egress, State.egressIn, hd]
  | true =>
    obtain ⟨hbytes, hconsumed⟩ := cycle_done (C := C) (s := s) hd (by simp [h.egress])
    have hwire : i.wire = 0xfe := by
      rw [hi.wire hd (by simp [h.bytes]), h.egress]
      rfl
    have hfront : f.front = [f.wire, 0xfe] := by rw [First.front, if_pos h.marker]
    have hbounds : (cycle C s i).bounds = [0, 2] := by
      simp [cycle, h.egress, egress, State.egressIn, hd, h.bounds, h.bytes]
    refine .behind ⟨.begin ?_ ?_ (.inr hgen), ?_, ?_, ?_⟩
    · simp [cycle, h.egress, egress, State.egressIn, hd]
    · rw [hbytes, h.bytes, hwire, hfront]
      rfl
    · simp [hbounds, hfront]
    · rintro hv
      rw [hconsumed, h.consumed, if_pos hv]
      exact List.mem_singleton_self 0
    · rw [hconsumed, h.consumed]
      split_ifs with hv <;> simp [hv]

/-- The message goes on by at most one byte. -/
theorem sending_next_cycle (h : Sending C f s) (hi : Allowed C s i) :
    Sending C f (cycle C s i) := by
  have hfront : f.front ≠ [] := by
    unfold First.front
    split_ifs <;> simp
  cases h with
  | begin he hb hg =>
    have hack : (egress s.egress (s.egressIn C i)).2.creditAck = false := by
      rw [he]
      rfl
    have hd : i.outDone = false := by
      by_contra hd
      have := hi.done (by simpa [State.egressIn] using hd)
      simp [he, egress] at this
    refine .credit1 ?_ ((cycle_quiet hd).1.trans hb) (gen_next hg hack)
    simp [cycle, he, egress, creditEn_eq hg i]
  | credit1 he hb hg =>
    have hack : (egress s.egress (s.egressIn C i)).2.creditAck = false := by
      rw [he]
      rfl
    cases hd : i.outDone with
    | false =>
      refine .credit1 ?_ ((cycle_quiet hd).1.trans hb) (granted_next hg hack)
      simp [cycle, he, egress, State.egressIn, hd]
    | true =>
      have hwire : i.wire = 0xfe := by
        rw [hi.wire hd (by simpa [hb] using hfront), he]
        rfl
      refine .credit2 ?_ ?_ (granted_next hg hack)
      · simp [cycle, he, egress, State.egressIn, hd]
      · rw [(cycle_done hd (by simp [he])).1, hb, hwire]
  | credit2 he hb hg =>
    have hack : (egress s.egress (s.egressIn C i)).2.creditAck = false := by
      rw [he]
      rfl
    cases hd : i.outDone with
    | false =>
      refine .credit2 ?_ ((cycle_quiet hd).1.trans hb) (granted_next hg hack)
      simp [cycle, he, egress, State.egressIn, hd]
    | true =>
      have hwire : i.wire = creditHigh ((firstGrant CW C).setWidth 15) := by
        rw [hi.wire hd (by simp [hb]), he, ← hg.credit]
        rfl
      refine .credit3 ?_ ?_ (granted_next hg hack)
      · simp [cycle, he, egress, State.egressIn, hd]
      · rw [(cycle_done hd (by simp [he])).1, hb, hwire, List.append_assoc]
        rfl
  | credit3 he hb hg =>
    cases hd : i.outDone with
    | false =>
      have hack : (egress s.egress (s.egressIn C i)).2.creditAck = false := by
        rw [he]
        exact hd
      refine .credit3 ?_ ((cycle_quiet hd).1.trans hb) (granted_next hg hack)
      simp [cycle, he, egress, State.egressIn, hd]
    | true =>
      have hwire : i.wire = creditLow ((firstGrant CW C).setWidth 15) := by
        rw [hi.wire hd (by simp [hb]), he, ← hg.credit]
        rfl
      refine .sent [] ?_ ?_ (granted_keep hg.granted)
      · rw [(cycle_done hd (by simp [he])).1, hb, hwire, message]
        simp
      · simp [cycle, he, egress, State.egressIn, hd, hb]
  | sent tail hb hbound hgranted =>
    obtain ⟨⟨more, hmore⟩, -, hkeep, -⟩ := cycle_later (C := C) s i
    refine .sent (tail ++ more) ?_ (hkeep _ hbound) (granted_keep hgranted)
    rw [hmore, hb, List.append_assoc]

theorem cycle_consumed (hs : s.egress ≠ .passthrough) :
    (cycle C s i).consumed = s.consumed := by
  cases hd : i.outDone with
  | false => exact (cycle_quiet hd).2.2
  | true => exact (cycle_done hd hs).2

/-- Until the message is complete no item ends and no word is consumed. -/
theorem behind_history (h : Sending C f s) (i : Input) :
    (∀ b ∈ (cycle C s i).bounds, b ∈ s.bounds ∨ f.front.length + 3 ≤ b) ∧
      ∀ p ∈ (cycle C s i).consumed, p ∈ s.consumed ∨ f.front.length + 3 ≤ p := by
  obtain ⟨-, hbounds, -, hconsumed, -⟩ := cycle_later (C := C) s i
  have hsame : ∀ {t : List ℕ}, t = s.consumed →
      ∀ p ∈ t, p ∈ s.consumed ∨ f.front.length + 3 ≤ p := fun ht p hp => .inl (ht ▸ hp)
  cases h with
  | begin he hb hg =>
    refine ⟨fun b hb' => .inl ?_, hsame (cycle_consumed (by simp [he]))⟩
    simpa [cycle, he, egress, creditEn_eq hg i] using hb'
  | credit1 he hb hg =>
    refine ⟨fun b hb' => .inl ?_, hsame (cycle_consumed (by simp [he]))⟩
    cases hd : i.outDone <;> simpa [cycle, he, egress, State.egressIn, hd] using hb'
  | credit2 he hb hg =>
    refine ⟨fun b hb' => .inl ?_, hsame (cycle_consumed (by simp [he]))⟩
    cases hd : i.outDone <;> simpa [cycle, he, egress, State.egressIn, hd] using hb'
  | credit3 he hb hg =>
    refine ⟨fun b hb' => (hbounds b hb').imp_right fun hlt => ?_,
      hsame (cycle_consumed (by simp [he]))⟩
    rw [hb, List.length_append] at hlt
    simp only [List.length_cons, List.length_nil] at hlt
    omega
  | sent tail hb hbound hgranted =>
    have hlen : f.front.length + 3 ≤ s.bytes.length := by
      rw [hb, List.length_append, List.length_append]
      simp only [message, List.length_cons, List.length_nil]
      omega
    refine ⟨fun b hb' => (hbounds b hb').imp_right fun hlt => by omega, fun p hp => ?_⟩
    exact (hconsumed p hp).imp_right fun heq => by omega

theorem behind_next (h : Behind C f s) (hi : Allowed C s i) : Behind C f (cycle C s i) := by
  obtain ⟨hbounds, hconsumed⟩ := behind_history h.sending i
  obtain ⟨-, -, -, -, hkeep⟩ := cycle_later (C := C) s i
  refine ⟨sending_next_cycle h.sending hi, fun b hb => ?_, fun hv => hkeep 0 (h.first hv),
    fun p hp => ?_⟩
  · obtain hold | hnew := hbounds b hb
    · exact h.bounds b hold
    · exact .inr (.inr hnew)
  · obtain hold | hnew := hconsumed p hp
    · exact h.consumed p hold
    · exact .inr hnew

end Cycle

/-! ## When `reset` returns -/

section Returns
variable {C : ℕ} {s s' t : State CW} {f : First}

/-- What `reset` has read, once it has returned. -/
def Result (s : State CW) : Prop :=
  ∀ pos, s.returned = some pos → ∃ a b rest, readDebt s.bytes = .ok (a, b, rest) ∧
    pos = s.bytes.length - rest.length ∧ s.ctx.debt = creditOf a b

theorem readDebt_length {bytes rest : List UInt8} {a b : UInt8}
    (h : readDebt bytes = .ok (a, b, rest)) :
    bytes.length = rest.length + if bytes[0]? = some 0xfe then 3 else 4 := by
  match bytes, h with
  | x :: y :: z :: tail, h =>
    simp only [readDebt] at h
    by_cases hx : x = 0xfe
    · rw [if_neg (not_not.mpr hx)] at h
      simp only [Except.ok.injEq, Prod.mk.injEq] at h
      simp [hx, ← h.2.2]
    · rw [if_pos hx] at h
      cases tail with
      | nil => cases h
      | cons d tail =>
        simp only at h
        split_ifs at h
        simp only [Except.ok.injEq, Prod.mk.injEq] at h
        simp [hx, ← h.2.2]

/-- Behind a clean first byte `reset` returns with the first grant. -/
theorem readDebt_clean (h : Sending C f s) (hf : f.clean) {a b : UInt8} {rest : List UInt8}
    (hread : readDebt s.bytes = .ok (a, b, rest)) :
    creditOf a b = ((firstGrant CW C).setWidth 15).toNat ∧
      s.bytes.length - rest.length = f.front.length + 3 ∧ f.front.length + 3 ∈ s.bounds ∧
      s.granted = some (firstGrant CW C).toNat := by
  obtain ⟨hw, -, hm⟩ := hf
  have hfront : f.front = [f.wire] := by rw [First.front, hm, if_neg Bool.false_ne_true]
  cases h with
  | begin he hb hg =>
    rw [hb, hfront] at hread
    cases hread
  | credit1 he hb hg =>
    rw [hb, hfront] at hread
    cases hread
  | credit2 he hb hg =>
    rw [hb, hfront] at hread
    cases hread
  | credit3 he hb hg =>
    rw [hb, hfront] at hread
    simp [readDebt, hw] at hread
  | sent tail hb hbound hgranted =>
    rw [hb, hfront] at hread
    simp only [message, List.cons_append, List.nil_append, readDebt, if_pos hw, if_true,
      Except.ok.injEq, Prod.mk.injEq] at hread
    obtain ⟨rfl, rfl, rfl⟩ := hread
    refine ⟨?_, ?_, hbound, hgranted⟩
    · rw [creditHigh_eq _ ((firstGrant CW C).setWidth 15),
        creditLow_eq ((firstGrant CW C).setWidth 15), halves_self]
      exact creditOf_message (BitVec.isLt _)
    · simp only [hb, hfront, message, List.length_append, List.length_cons, List.length_nil]
      omega

theorem head_front (h : Sending C f s) : s.bytes[0]? = some f.wire := by
  have hfront : ∀ tail : List UInt8, (f.front ++ tail)[0]? = some f.wire := by
    intro tail
    unfold First.front
    split_ifs <;> rfl
  cases h with
  | begin he hb hg => simpa [hb] using hfront []
  | credit1 he hb hg => simpa [hb] using hfront []
  | credit2 he hb hg => rw [hb, hfront]
  | credit3 he hb hg => rw [hb, hfront]
  | sent tail hb hbound hgranted => rw [hb, List.append_assoc, hfront]

theorem agreed_behind (hCW : CW ≤ 15) (h : Behind C f s) (hresult : Result s) {pos : ℕ}
    (hpos : s.returned = some pos) : Agreed s ↔ f.clean := by
  obtain ⟨a, b, rest, hread, hposeq, hdebt⟩ := hresult pos hpos
  constructor
  · intro hagreed
    obtain ⟨-, hbound, hwords⟩ := hagreed pos hpos
    have hlen := readDebt_length hread
    rw [head_front h.sending] at hlen
    have hcases := h.bounds pos hbound
    have hword : f.word = false := by
      by_contra hv
      have hzero := hwords 0 (h.first (by simpa using hv))
      split_ifs at hlen <;> omega
    cases hm : f.marker with
    | true =>
      have hfront : f.front.length = 2 := by rw [First.front, if_pos hm]; rfl
      split_ifs at hlen <;> omega
    | false =>
      have hfront : f.front.length = 1 := by rw [First.front, hm]; rfl
      refine ⟨fun hw => ?_, hword, hm⟩
      rw [hw, if_pos rfl] at hlen
      omega
  · intro hclean pos' hpos'
    obtain rfl : pos = pos' := Option.some.inj (hpos.symm.trans hpos')
    obtain ⟨hcredit, hlen, hbound, hgranted⟩ := readDebt_clean h.sending hclean hread
    rw [hlen] at hposeq
    subst hposeq
    refine ⟨?_, hbound, fun p hp => ?_⟩
    · have hlt : (firstGrant CW C).toNat < 2 ^ 15 :=
        (firstGrant CW C).isLt.trans_le (Nat.pow_le_pow_right (by omega) hCW)
      rw [hgranted, hdebt, hcredit, BitVec.toNat_setWidth, Nat.mod_eq_of_lt hlt]
    · obtain ⟨-, hv⟩ | hle := h.consumed p hp
      · rw [hclean.2.1] at hv
        cases hv
      · exact hle

theorem Phase.behind_of_read {first : Option First} (h : Phase C first s) {a b : UInt8}
    {rest : List UInt8} (hread : readDebt s.bytes = .ok (a, b, rest)) :
    ∃ f, first = some f ∧ Behind C f s := by
  cases h with
  | fresh h =>
    rw [h.bytes] at hread
    cases hread
  | repeating h =>
    rw [h.bytes] at hread
    cases hread
  | behind h => exact ⟨_, rfl, h⟩

theorem behind_reset (h : Behind C f s) (ctx : Ctx) (returned : Option ℕ) :
    Behind C f { s with ctx := ctx, returned := returned } := by
  refine ⟨?_, h.bounds, h.first, h.consumed⟩
  have hgranted : Granted C s → Granted C { s with ctx := ctx, returned := returned } :=
    fun hg => ⟨hg.pnd, hg.get, hg.credit, hg.granted⟩
  cases h.sending with
  | begin he hb hg =>
    exact .begin he hb (hg.imp (fun hr => ⟨hr.pnd, hr.get, hr.creditor, hr.granted⟩) hgranted)
  | credit1 he hb hg => exact .credit1 he hb (hgranted hg)
  | credit2 he hb hg => exact .credit2 he hb (hgranted hg)
  | credit3 he hb hg => exact .credit3 he hb (hgranted hg)
  | sent tail hb hbound hg => exact .sent tail hb hbound hg

theorem phase_step {first : Option First} (h : Phase C first s) {l : Label}
    (hstep : step C s l = some s') :
    ∃ first', Phase C first' s' ∧ Result s' ∧
      ((∀ f ∈ first', f.clean) ↔ (∀ f ∈ first, f.clean) ∧ Clean s l) := by
  unfold step at hstep
  split_ifs at hstep with hreturned
  cases l with
  | cycle i =>
    simp only [Option.ite_none_right_eq_some, Option.some.injEq] at hstep
    obtain ⟨hi, rfl⟩ := hstep
    have hresult : Result (cycle C s i) := fun pos hpos => by
      have hsome : s.returned = some pos := hpos
      simp [hsome] at hreturned
    have hclean : s.bytes ≠ [] → Clean s (.cycle i) := fun hne hb => absurd hb hne
    cases h with
    | fresh h =>
      obtain ⟨first', hphase, hiff⟩ := fresh_next h i
      exact ⟨first', hphase, hresult, by simpa using hiff⟩
    | repeating h =>
      exact ⟨_, repeating_next h hi, hresult,
        (and_iff_left (hclean (by simp [h.bytes]))).symm⟩
    | behind h =>
      have hne : s.bytes ≠ [] := by
        intro hb
        have hhead := head_front h.sending
        rw [hb] at hhead
        cases hhead
      exact ⟨_, .behind (behind_next h hi), hresult, (and_iff_left (hclean hne)).symm⟩
  | reset =>
    simp only at hstep
    split at hstep
    case h_2 => cases hstep
    rename_i a b rest hread
    obtain rfl := Option.some.inj hstep
    obtain ⟨f, rfl, hbehind⟩ := h.behind_of_read hread
    refine ⟨some f, .behind (behind_reset hbehind _ _), ?_, (and_iff_left trivial).symm⟩
    rintro pos ⟨⟩
    exact ⟨a, b, rest, hread, rfl, Nat.zero_add _⟩

theorem phase_run {first : Option First} (h : Phase C first s) (hresult : Result s)
    {ls : List Label} (hrun : runFrom (step C) s ls = some t) :
    ∃ first', Phase C first' t ∧ Result t ∧
      ((∀ f ∈ first', f.clean) ↔ (∀ f ∈ first, f.clean) ∧ Takes (step C) Clean s ls) := by
  induction ls generalizing s first with
  | nil =>
    obtain rfl := Option.some.inj hrun
    exact ⟨first, h, hresult, (and_iff_left trivial).symm⟩
  | cons l ls ih =>
    obtain ⟨s', hstep, hrest⟩ := (runFrom_cons_eq_some (step C)).mp hrun
    obtain ⟨first', h', hresult', hiff⟩ := phase_step h hstep
    obtain ⟨first'', ht, htresult, hiff'⟩ := ih h' hresult' hrest
    refine ⟨first'', ht, htresult, hiff'.trans ?_⟩
    rw [hiff, and_assoc]
    refine and_congr_right fun _ => and_congr_right fun _ =>
      ⟨fun htakes u hu => ?_, fun htakes => htakes s' hstep⟩
    obtain rfl : s' = u := Option.some.inj (hstep.symm.trans hu)
    exact htakes

end Returns

end System

/-- **When the set-up agrees.** In every run in which `reset` returns: the host's debt is the first
grant of the creditor, its position is between two items of the egress and no word was consumed with
a byte that it has read, exactly when the first byte of the egress was no marker, no word was
consumed with it, and the egress did not take it for a marker. -/
theorem setup_agreed_iff {CW : ℕ} (hCW : CW ≤ 15) (C : ℕ) (ctx : Ctx) (ls : List Label)
    (s : State CW) (hrun : runFrom (step C) (initial CW C ctx) ls = some s)
    (hreturned : s.returned.isSome) :
    Agreed s ↔ Takes (step C) Clean (initial CW C ctx) ls := by
  have hfresh : Fresh C (initial CW C ctx) := ⟨rfl, rfl, rfl, rfl, .inl ⟨rfl, rfl, rfl⟩⟩
  have hresult : Result (initial CW C ctx) := by rintro pos ⟨⟩
  obtain ⟨first, hphase, hresult', hiff⟩ := phase_run (.fresh hfresh) hresult hrun
  obtain ⟨pos, hpos⟩ := Option.isSome_iff_exists.mp hreturned
  obtain ⟨a, b, rest, hread, -⟩ := hresult' pos hpos
  obtain ⟨f, rfl, hbehind⟩ := hphase.behind_of_read hread
  rw [agreed_behind hCW hbehind hresult' hpos]
  simpa using hiff

/-- A cycle that completes a byte, with the data of the FIFO and what the host receives. -/
def done (inData : UInt8) (inValid : Bool) (wire : UInt8) : Label :=
  .cycle ⟨inData, inValid, true, wire, false⟩

/-- The set-up behind one byte of the FIFO: the message, of which 4090 are the bytes `0x1f` and
`0xfa`, and the return. -/
def setup (first : Label) : List Label :=
  [first, .cycle ⟨0, false, false, 0, false⟩, done 0 false 0xfe, done 0 false 0x1f,
    done 0 false 0xfa, .reset]

set_option maxRecDepth 2000 in
/-- A word that is there from the start is taken for the byte to be ignored. -/
theorem first_word_lost :
    ∃ s, runFrom (step 4090) (initial 12 4090 gbUartNew) (setup (done 0x55 true 0x55)) = some s ∧
      s.returned = some 4 ∧ s.consumed = [0] ∧ ¬ Agreed s :=
  ⟨_, rfl, rfl, rfl, fun h => absurd ((h 4 rfl).2.2 0 List.mem_cons_self) (by decide)⟩

set_option maxRecDepth 2000 in
/-- An idle FIFO whose output is no marker. -/
theorem setup_agreed_idle :
    ∃ s, runFrom (step 4090) (initial 12 4090 gbUartNew) (setup (done 0x55 false 0x55)) = some s ∧
      Agreed s :=
  ⟨_, rfl, (setup_agreed_iff (by decide) 4090 gbUartNew (setup (done 0x55 false 0x55)) _ rfl
    rfl).mpr (by decide)⟩

end GlipOsd.Uart.Setup
