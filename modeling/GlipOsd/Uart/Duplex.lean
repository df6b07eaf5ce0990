import GlipOsd.Uart.Credit
import GlipOsd.Uart.EgressStream
import GlipOsd.Uart.HostCredit
import GlipOsd.Uart.HostLine
import GlipOsd.Uart.IngressStream

/-! # The link between the user and the logic

Both ends of the UART backend and the lines between them: the thread of the host with its two buffers, the
calls of the user, and on the other side the UART control with the debtor, the creditor and the FIFOs of
`glip_uart_toplevel`. The control bytes of one direction carry the credit of the other, so that neither
stream can be followed without the other.

The link starts behind the set-up: the first credit of the logic has arrived, the first one of the host is on
its way. The communication is not reset again. The FIFOs are queues; when the vendor's `in_buffer` says that it
is almost full is an input.
-/

namespace GlipOsd.Uart.Duplex
open CircularBuffer Runs
set_option autoImplicit false

/-- The host (`ctx`, and with `failed` an assertion has ended its process), the bytes that it has not read
(`up`) and those that have not reached the ingress (`down`), the registers of the logic and its FIFOs; as
history what the user has written and read, and what the logic has put into `out_fifo` (`offered`) and what
has left `in_buffer` towards it (`taken`), and whether `in_buffer` has said that it is almost full (`flagged`).
`error` is the one of the UART control, sticky as in `glip_uart_toplevel`. -/
structure State (CW : ℕ) where
  ctx : Ctx
  failed : Bool
  up : List UInt8
  down : List UInt8
  creditor : Creditor 15 CW
  gen : CreditGen CW
  egress : EgressState
  ingress : Ingress
  debtor : BitVec 15
  inBuffer : List UInt8
  outFifo : List UInt8
  error : Bool
  written : List UInt8
  read : List UInt8
  offered : List UInt8
  taken : List UInt8
  flagged : Bool

/-- Behind the set-up: all credit of the logic is at the host. -/
def initial (CW C : ℕ) (creditFirst : BitVec 6) : State CW where
  ctx := reset gbUartNew (creditHigh (BitVec.ofNat 15 C)) (creditLow (BitVec.ofNat 15 C))
  failed := false
  up := []
  down := sendCredit uartMaxTranche
  creditor := ⟨0#15, BitVec.ofNat CW C⟩
  gen := ⟨BitVec.ofNat CW (C >>> 1), false, false⟩
  egress := .idle
  ingress := ⟨.passthrough, creditFirst⟩
  debtor := 0#15
  inBuffer := []
  outFifo := []
  error := false
  written := []
  read := []
  offered := []
  taken := []
  flagged := false

/-- The inputs of one cycle of the logic: with `rx` the next byte of the host arrives; `idle` is on the output
of an empty `out_fifo`; `inReady` is `ingress_buffer_ready`, `almostFull` the flag of `in_buffer`; `push` enters
`out_fifo`. -/
structure Input where
  rx : Bool
  outDone : Bool
  idle : UInt8
  inReady : Bool
  almostFull : Bool
  push : Option UInt8
  deriving DecidableEq

inductive Label
  | cycle (i : Input)
  | threadRead (n : ℕ)
  | threadWrite
  | threadCredit
  | logicReset (val : Bool)
  | userRead (channel size : ℕ)
  | userWrite (channel : ℕ) (data : List UInt8)

section System
variable {CW : ℕ}

/-- The input of the ingress and what is left on the line. -/
def arrive (down : List UInt8) (rx : Bool) : IngressStream.Input × List UInt8 :=
  match rx, down with
  | true, d :: rest => (⟨true, d⟩, rest)
  | _, down => (⟨false, 0⟩, down)

def transferIn (s : State CW) (i : Input) : Bool := !s.inBuffer.isEmpty && i.inReady

def State.egressIn (s : State CW) (C : ℕ) (i : Input) : EgressIn where
  inData := s.outFifo.head?.getD i.idle
  inValid := !s.outFifo.isEmpty
  outDone := i.outDone
  canSend := s.debtor != 0#15
  credit := s.creditor.credit.setWidth 15
  creditEn := creditEn s.gen (Uart.creditor C s.creditor (transferIn s i) s.gen.getCredit).2.grant

/-- The outputs of the ingress. -/
def ingressOut (s : State CW) (i : Input) : IngressOut :=
  (ingress s.ingress (arrive s.down i.rx).1.inValid (arrive s.down i.rx).1.inData).2

/-- `out_ready` of the ingress -/
def ingressOutReady (i : Input) : Bool := !i.almostFull

/-- `error` of the ingress -/
def ingressError (s : State CW) (i : Input) : Bool := !ingressOutReady i || (ingressOut s i).fsmError

/-- A full FIFO takes no word: `C` is `INPUT_FIFO_CREDIT`, `D` the depth of `in_buffer`. -/
def cycle (C D : ℕ) (s : State CW) (i : Input) : State CW :=
  let a := arrive s.down i.rx
  let o := ingressOut s i
  let out := transferIn s i
  let c := creditor C s.creditor out s.gen.getCredit
  let e := s.egressIn C i
  let accept := transfer s.egress e
  let debt := debtor s.debtor accept o.creditEn o.creditVal
  { s with
    up := s.up ++ completed s.egress e
    down := a.2
    creditor := c.1
    gen := creditGen C s.gen out c.2.grant (egress s.egress e).2.creditAck
    egress := (egress s.egress e).1
    ingress := (ingress s.ingress a.1.inValid a.1.inData).1
    debtor := debt.1
    inBuffer := (if out then s.inBuffer.tail else s.inBuffer) ++
      if o.outValid ∧ s.inBuffer.length < D then [a.1.inData] else []
    outFifo := (if accept then s.outFifo.tail else s.outFifo) ++ i.push.toList
    error := s.error || ingressError s i || c.2.error || debt.2
    offered := s.offered ++ i.push.toList
    taken := s.taken ++ if out then s.inBuffer.take 1 else []
    flagged := s.flagged || i.almostFull }

def hostStep (s : State CW) : Label → Option (State CW)
  | .threadRead n =>
    match threadRead s.ctx s.up n with
    | .ok (ctx, up) => some { s with ctx := ctx, up := up }
    | .error .assertion => some { s with failed := true }
    | .error .blocked => none
  | .threadWrite =>
    match threadWrite s.ctx with
    | .ok (ctx, tx) => some { s with ctx := ctx, down := s.down ++ tx }
    | .error .assertion => some { s with failed := true }
    | .error .blocked => none
  | .threadCredit =>
    some { s with ctx := (threadCredit s.ctx).1, down := s.down ++ (threadCredit s.ctx).2 }
  | .logicReset val => some { s with down := s.down ++ resetLogic (if val then 1 else 0) }
  | .userRead channel size =>
    some { s with
      ctx := (gbUartRead s.ctx channel size).2
      read := s.read ++ (gbUartRead s.ctx channel size).1.getD [] }
  | .userWrite channel data =>
    some { s with
      ctx := (gbUartWrite s.ctx channel data).2
      written := s.written ++ data.take ((gbUartWrite s.ctx channel data).1.getD 0) }
  | .cycle _ => none

/-- The logic goes on behind a failed host. -/
def step (C D : ℕ) (s : State CW) : Label → Option (State CW)
  | .cycle i => if DoneEnabled s.egress (s.egressIn C i) then some (cycle C D s i) else none
  | l => if s.failed then none else hostStep s l

/-- A grant is given only when the tranche fits besides what is stored. -/
def GrantsFit (s : State CW) (l : Label) : Prop :=
  l = .threadCredit → s.ctx.credit < s.ctx.bufferSize - uartMaxTranche →
    s.ctx.credit + cbufFillLevel s.ctx.inputBuffer + uartMaxTranche ≤ s.ctx.bufferSize

/-- `in_buffer` says that it is almost full only with at least `A` words stored. -/
def FlagFrom (A : ℕ) (s : State CW) (l : Label) : Prop :=
  ∀ i, l = .cycle i → i.almostFull = true → A ≤ s.inBuffer.length

end System

/-! ## The credit of the logic -/

section Circulation
variable {CW C D : ℕ} {s : State CW}

/-- The state as the circulation of the logic's credit sees it. -/
def circulation (s : State CW) (granted received sent arrived : ℕ) : Credit.State CW :=
  ⟨s.creditor, s.gen, s.egress, s.ingress, s.up, s.down, s.ctx.debt, s.inBuffer.length, granted, received, sent,
    arrived, false⟩

def creditInput (s : State CW) (i : Input) : Credit.Input :=
  ⟨s.outFifo.head?.getD i.idle, !s.outFifo.isEmpty, i.outDone, s.debtor != 0#15, transferIn s i, i.rx⟩

def Credited (C : ℕ) (s : State CW) : Prop :=
  ∃ granted received sent arrived items hostItems,
    Credit.Inv C (circulation s granted received sent arrived) items hostItems

theorem credited_initial (hCW : CW ≤ 15) (hC : C < 2 ^ CW) (creditFirst : BitVec 6) :
    Credited C (initial CW C creditFirst) := by
  have hC15 : C < 2 ^ 15 := hC.trans_le (Nat.pow_le_pow_right (by omega) hCW)
  have hdebt : (initial CW C creditFirst).ctx.debt = C := by
    have hval : creditOf (creditHigh (BitVec.ofNat 15 C)) (creditLow (BitVec.ofNat 15 C)) = C := by
      rw [creditHigh_eq _ (BitVec.ofNat 15 C), creditLow_eq (BitVec.ofNat 15 C), halves_self,
        creditOf_message (BitVec.isLt _), BitVec.toNat_ofNat, Nat.mod_eq_of_lt hC15]
    exact (Nat.zero_add _).trans hval
  have hhalf : (BitVec.ofNat CW (C >>> 1)).toNat ≤ C / 2 := by
    rw [BitVec.toNat_ofNat, Nat.shiftRight_eq_div_pow]
    exact Nat.mod_le _ _
  refine ⟨0, 0, 0, 0, [], [.credit 0x3fff], rfl, rfl, rfl, rfl, ?_, ?_, ?_, hhalf, ?_, rfl⟩
  · simpa [circulation, Credit.pending, creditSum, hostWords, initial] using hdebt
  · intro h
    cases h
  · intro h
    cases h
  · exact fun _ => .inr (by simpa [circulation, initial] using hhalf)

theorem arrive_eq (t : Credit.State CW) (rx : Bool) : Credit.arrive t rx =
    (ingress t.ingress (arrive t.down rx).1.inValid (arrive t.down rx).1.inData, (arrive t.down rx).2) := by
  unfold Credit.arrive arrive
  cases rx with
  | false => rfl
  | true => cases t.down <;> rfl

theorem credited_bounds (h : Credited C s) (i : Input) :
    s.ctx.debt ≤ C ∧ s.inBuffer.length + (ingressOut s i).outValid.toNat ≤ C := by
  obtain ⟨granted, received, sent, arrived, items, hostItems, h⟩ := h
  have htotal : s.creditor.resources.toNat + creditSum items +
      Credit.pending (circulation s granted received sent arrived) + s.ctx.debt + (hostWords hostItems).length +
        s.inBuffer.length = C := h.total
  obtain ⟨hostItems', -, hwords⟩ := Credit.arrive_words h.down i.rx
  rw [arrive_eq] at hwords
  have hvalid : (ingressOut s i).outValid.toNat + (hostWords hostItems').length = (hostWords hostItems).length :=
    hwords
  omega

/-- Room for every word that may come. -/
theorem length_inBuffer (hD : C ≤ D) (h : Credited C s) (i : Input) :
    (cycle C D s i).inBuffer.length =
      s.inBuffer.length + (ingressOut s i).outValid.toNat - (transferIn s i).toNat := by
  have hroom := (credited_bounds h i).2
  simp only [cycle]
  cases hvalid : (ingressOut s i).outValid with
  | false => cases htransfer : transferIn s i <;> simp
  | true =>
    rw [hvalid, Bool.toNat_true] at hroom
    have hlt : s.inBuffer.length < D := by omega
    cases htransfer : transferIn s i with
    | false => simp [hlt]
    | true =>
      have hpos : s.inBuffer ≠ [] := by
        intro hnil
        simp [transferIn, hnil] at htransfer
      have hlength := List.length_pos_iff.mpr hpos
      simp only [if_true, hlt, and_self, List.length_append, List.length_tail, List.length_singleton,
        Bool.toNat_true]
      omega

theorem credited_cycle (hCW : CW ≤ 15) (hC : C < 2 ^ CW) (hD : C ≤ D) (h : Credited C s) {i : Input}
    (hdone : DoneEnabled s.egress (s.egressIn C i)) : Credited C (cycle C D s i) ∧
      (creditor C s.creditor (transferIn s i) s.gen.getCredit).2.error = false := by
  have hlength := length_inBuffer hD h i
  obtain ⟨granted, received, sent, arrived, items, hostItems, h⟩ := h
  have hout : (transferIn s i).toNat ≤ s.inBuffer.length := by
    unfold transferIn
    cases s.inBuffer with
    | nil => exact Nat.zero_le _
    | cons d rest => exact (Bool.toNat_le _).trans (Nat.succ_pos _)
  generalize ht : circulation s granted received sent arrived = t at h
  have hstep : Credit.step C t (.cycle (creditInput s i)) = some (Credit.cycle C t (creditInput s i)) := by
    rw [← ht]
    exact if_pos ⟨hdone, hout⟩
  obtain ⟨items', hostItems', h'⟩ := Credit.inv_step hCW hC _ _ _ ⟨items, hostItems, h⟩ hstep
  have hquiet : (creditor C s.creditor (transferIn s i) s.gen.getCredit).2.error = false := by
    have hor := h'.quiet
    rwa [← ht] at hor
  have hnext : Credit.cycle C t (creditInput s i) = circulation (cycle C D s i)
      (Credit.cycle C t (creditInput s i)).granted (Credit.cycle C t (creditInput s i)).received
        (Credit.cycle C t (creditInput s i)).sent (Credit.cycle C t (creditInput s i)).arrived := by
    rw [← ht]
    simp only [circulation, Credit.cycle, arrive_eq, Credit.State.mk.injEq, hlength, true_and]
    exact ⟨rfl, rfl, rfl, rfl, rfl, rfl, rfl, rfl, hquiet⟩
  rw [hnext] at h'
  exact ⟨⟨_, _, _, _, items', hostItems', h'⟩, hquiet⟩

theorem inv_receives (parsed : List Item) {t : Credit.State CW} {items : List Item} {hostItems : List HostItem}
    (h : Credit.Inv C t items hostItems) {rest : List UInt8} (hwire : t.wire = encode parsed ++ rest) :
    ∃ items', Credit.Inv C { t with
      wire := rest
      debt := t.debt + creditSum parsed
      received := t.received + creditSum parsed } items' hostItems := by
  induction parsed generalizing t items with
  | nil =>
    rw [encode_nil, List.nil_append] at hwire
    rw [← hwire]
    exact ⟨items, h⟩
  | cons item parsed ih =>
    have hstep : Credit.step C t .receive = some { t with
        wire := encode parsed ++ rest
        debt := t.debt + creditSum [item]
        received := t.received + creditSum [item] } := by
      rw [Credit.step, hwire, encode_cons, List.append_assoc, Credit.receive_item]
      rfl
    obtain ⟨items', h'⟩ := Credit.inv_receive h hstep
    obtain ⟨items'', h''⟩ := ih h' rfl
    rw [← List.singleton_append, creditSum_append, ← Nat.add_assoc, ← Nat.add_assoc]
    exact ⟨items'', h''⟩

theorem credited_receives (h : Credited C s) {parsed : List Item} {up : List UInt8} {ctx : Ctx}
    (hup : s.up = encode parsed ++ up) (hdebt : ctx.debt = s.ctx.debt + creditSum parsed) :
    Credited C { s with ctx := ctx, up := up } := by
  obtain ⟨granted, received, sent, arrived, items, hostItems, h⟩ := h
  obtain ⟨items', h'⟩ := inv_receives parsed h hup
  rw [circulation, ← hdebt] at h'
  exact ⟨granted, received + creditSum parsed, sent, arrived, items', hostItems, h'⟩

theorem credited_sends (h : Credited C s) {words : List UInt8} {ctx : Ctx} (hwords : words.length ≤ s.ctx.debt)
    (hdebt : ctx.debt = s.ctx.debt - words.length) :
    Credited C { s with ctx := ctx, down := s.down ++ words.flatMap sendWord } := by
  obtain ⟨granted, received, sent, arrived, items, hostItems, h⟩ := h
  have h' := Credit.inv_send h (if_pos hwords)
  rw [circulation, ← hdebt] at h'
  exact ⟨granted, received, sent + words.length, arrived, items, _, h'⟩

theorem credited_control (h : Credited C s) {item : HostItem} (hitem : hostWords [item] = []) {ctx : Ctx}
    (hdebt : ctx.debt = s.ctx.debt) : Credited C { s with ctx := ctx, down := s.down ++ item.encode } := by
  obtain ⟨granted, received, sent, arrived, items, hostItems, h⟩ := h
  have h' := Credit.inv_control h item hitem
  rw [circulation, ← hdebt] at h'
  exact ⟨granted, received, sent, arrived, items, _, h'⟩

theorem credited_ctx (h : Credited C s) {ctx : Ctx} (hdebt : ctx.debt = s.ctx.debt) :
    Credited C { s with ctx := ctx } := by
  obtain ⟨granted, received, sent, arrived, items, hostItems, h⟩ := h
  rw [circulation, ← hdebt] at h
  exact ⟨granted, received, sent, arrived, items, hostItems, h⟩

end Circulation

/-! ## The streams -/

section Streams
variable {CW : ℕ}

/-- From the logic to the user: the line carries `items` and the item in progress, and `q` is stored. A word
that waits for the transmitter is there, with credit for it. -/
structure Upward (s : State CW) (items : List Item) (high : BitVec 15) (q : List UInt8) : Prop where
  line : s.up = encode items ++ inProgress s.egress high
  words : s.offered = s.read ++ q ++ dataWords items ++ EgressStream.inWord s.egress ++ s.outFifo
  rep : Rep 15 s.ctx.inputBuffer q
  waiting : s.egress = .passthrough → s.outFifo ≠ [] ∧ s.debtor ≠ 0#15

/-- From the user to the logic: the line carries `hostItems`, of which the first may have arrived in part. -/
structure Downward (s : State CW) (hostItems : List HostItem) (q : List UInt8) : Prop where
  line : s.ingress.inProgress ++ s.down = encodeHost hostItems
  words : s.written = s.taken ++ s.inBuffer ++ hostWords hostItems ++ q
  rep : Rep 15 s.ctx.outputBuffer q

/-- The credit of the host: what the logic may still send, is sending and has sent, and room for it. -/
structure Granted (s : State CW) (items : List Item) (hostItems : List HostItem) (q : List UInt8) : Prop where
  size_eq : s.ctx.bufferSize = 32768
  total : s.debtor.toNat + HostCredit.grantSum hostItems + (dataWords items).length +
    (EgressStream.inWord s.egress).length = s.ctx.credit
  credit_le : s.ctx.credit ≤ 32767
  fits : s.ctx.credit + q.length ≤ 32768

structure Inv (C : ℕ) (s : State CW) : Prop where
  credited : Credited C s
  running : s.failed = false
  quiet : s.error = s.flagged
  streams : ∃ items high hostItems q q', Upward s items high q ∧ Downward s hostItems q' ∧ Granted s items hostItems q

end Streams

/-! ## One cycle of the logic -/

section Cycle
variable {CW C D : ℕ} {s : State CW} {items : List Item} {high : BitVec 15} {hostItems : List HostItem}
  {q q' : List UInt8}

theorem hostWords_events (o : IngressOut) (d : UInt8) :
    hostWords (IngressStream.events o d) = if o.outValid then [d] else [] := by
  simp only [IngressStream.events, hostWords_append]
  split_ifs <;> rfl

theorem grantSum_events (o : IngressOut) (d : UInt8) :
    HostCredit.grantSum (IngressStream.events o d) = if o.creditEn then o.creditVal.toNat else 0 := by
  simp only [IngressStream.events, HostCredit.grantSum_append]
  split_ifs <;> simp [HostCredit.grantSum]

/-- What the ingress reports in a cycle comes from the line. -/
theorem ingress_reported (h : Downward s hostItems q') (i : Input) :
    ∃ hostItems', hostItems = IngressStream.events (ingressOut s i) (arrive s.down i.rx).1.inData ++ hostItems' ∧
      (cycle C D s i).ingress.inProgress ++ (cycle C D s i).down = encodeHost hostItems' ∧
      (ingressOut s i).fsmError = false := by
  have hline : s.ingress.inProgress ++ IngressStream.bytes [(arrive s.down i.rx).1] ++ (arrive s.down i.rx).2 =
      encodeHost hostItems := by
    rw [← h.line, List.append_assoc]
    unfold arrive
    cases i.rx with
    | false => rfl
    | true => cases s.down <;> rfl
  obtain ⟨done, hostItems', rfl, hnext, hreported, herror⟩ := IngressStream.cycle_frame
    (s := ⟨s.ingress, [], false⟩) hline
  have hevents : IngressStream.events (ingressOut s i) (arrive s.down i.rx).1.inData = done.toList := hreported
  rw [IngressStream.bytes, List.append_nil] at hnext
  exact ⟨hostItems', by rw [hevents], hnext, herror⟩

theorem transfer_head (h : Upward s items high q) {i : Input} (ht : transfer s.egress (s.egressIn C i) = true) :
    s.outFifo = (s.egressIn C i).inData :: s.outFifo.tail ∧ s.debtor ≠ 0#15 := by
  obtain ⟨hp, -, hvalid⟩ := (EgressStream.transfer_eq _ _).mp ht
  obtain ⟨hne, hcredit⟩ := h.waiting hp
  refine ⟨?_, hcredit⟩
  obtain ⟨d, rest, heq⟩ := List.exists_cons_of_ne_nil hne
  simp only [State.egressIn, heq]
  rfl

theorem egress_words (h : Upward s items high q) (i : Input) :
    EgressStream.inWord s.egress ++ s.outFifo = dataWords (finished s.egress high (s.egressIn C i)) ++
      EgressStream.inWord (cycle C D s i).egress ++
        (if transfer s.egress (s.egressIn C i) then s.outFifo.tail else s.outFifo) ∧
      (EgressStream.inWord s.egress).length + (transfer s.egress (s.egressIn C i)).toNat =
        (dataWords (finished s.egress high (s.egressIn C i))).length +
          (EgressStream.inWord (cycle C D s i).egress).length := by
  have hvalid : s.egress = .passthrough → i.outDone = true → (s.egressIn C i).inValid = true := by
    intro hp _
    simpa [State.egressIn] using (h.waiting hp).1
  have hframe := EgressStream.words_frame s.egress high (s.egressIn C i) hvalid
  cases ht : transfer s.egress (s.egressIn C i) with
  | false =>
    rw [ht] at hframe
    simp only [Bool.false_eq_true, if_false, List.append_nil] at hframe ⊢
    refine ⟨congrArg (· ++ _) hframe, ?_⟩
    rw [hframe, List.length_append]
    rfl
  | true =>
    rw [ht] at hframe
    simp only [if_true] at hframe ⊢
    constructor
    · conv_lhs => rw [(transfer_head h ht).1]
      rw [← List.singleton_append, ← List.append_assoc]
      exact congrArg (· ++ _) hframe
    · have hlength := congrArg List.length hframe
      rw [List.length_append, List.length_append] at hlength
      exact hlength

/-- The debtor is exact, because the credit of the host covers what it holds and what it is lent. -/
theorem debtor_next (hup : Upward s items high q) (hgranted : Granted s items hostItems q) {i : Input}
    {hostItems' : List HostItem}
    (hitems : hostItems = IngressStream.events (ingressOut s i) (arrive s.down i.rx).1.inData ++ hostItems') :
    (cycle C D s i).debtor.toNat + (transfer s.egress (s.egressIn C i)).toNat + HostCredit.grantSum hostItems' =
        s.debtor.toNat + HostCredit.grantSum hostItems ∧ s.debtor.toNat ≤ (cycle C D s i).debtor.toNat +
          (transfer s.egress (s.egressIn C i)).toNat ∧
      (debtor s.debtor (transfer s.egress (s.egressIn C i)) (ingressOut s i).creditEn
        (ingressOut s i).creditVal).2 = false := by
  have htotal := hgranted.total
  have hle := hgranted.credit_le
  rw [hitems, HostCredit.grantSum_append, grantSum_events] at htotal ⊢
  obtain ⟨hexact, herror⟩ := HostCredit.debtor_exact s.debtor (transfer s.egress (s.egressIn C i))
    (ingressOut s i).creditEn (ingressOut s i).creditVal (fun ht => (transfer_head hup ht).2) (by omega)
  simp only [cycle]
  exact ⟨by omega, by omega, herror⟩

theorem upward_cycle (h : Upward s items high q) (hgranted : Granted s items hostItems q) {i : Input}
    {hostItems' : List HostItem}
    (hitems : hostItems = IngressStream.events (ingressOut s i) (arrive s.down i.rx).1.inData ++ hostItems')
    (hdone : DoneEnabled s.egress (s.egressIn C i)) :
    Upward (cycle C D s i) (items ++ finished s.egress high (s.egressIn C i))
      (if s.egress = .sendCredit2 then (s.egressIn C i).credit else high) q := by
  refine ⟨?_, ?_, h.rep, ?_⟩
  · have hframe := egress_frame s.egress high _ hdone
    rw [encode_append, List.append_assoc]
    exact (congrArg (· ++ _) h.line).trans ((List.append_assoc _ _ _).trans (congrArg _ hframe))
  · have hwords := (egress_words (C := C) (D := D) h i).1
    have hoffered : (cycle C D s i).offered = s.offered ++ i.push.toList := rfl
    have hfifo : (cycle C D s i).outFifo =
        (if transfer s.egress (s.egressIn C i) then s.outFifo.tail else s.outFifo) ++ i.push.toList := rfl
    have hread : (cycle C D s i).read = s.read := rfl
    rw [hoffered, hfifo, hread, h.words, List.append_assoc _ (EgressStream.inWord s.egress), hwords, dataWords_append]
    simp only [List.append_assoc]
  · intro hp
    -- the word was there, and is not taken in this cycle
    have hbefore : transfer s.egress (s.egressIn C i) = false ∧ s.outFifo ≠ [] ∧ s.debtor ≠ 0#15 := by
      have hnext : (egress s.egress (s.egressIn C i)).1 = .passthrough := hp
      cases hs : s.egress <;> rw [hs] at hnext <;> simp only [egress] at hnext
      case idle =>
        split_ifs at hnext with hen hsend
        have hword : s.debtor ≠ 0#15 ∧ s.outFifo ≠ [] := by simpa [State.egressIn] using hsend
        exact ⟨by simp [transfer, egress], hword.2, hword.1⟩
      case passthrough =>
        split_ifs at hnext with hd
        exact ⟨by simp [transfer, egress, hd], h.waiting hs⟩
      all_goals split_ifs at hnext
    obtain ⟨hnone, hne, hcredit⟩ := hbefore
    obtain ⟨-, hle, -⟩ := debtor_next (C := C) (D := D) h hgranted hitems
    rw [hnone] at hle
    refine ⟨?_, fun hzero => hcredit (BitVec.eq_of_toNat_eq ?_)⟩
    · simp only [cycle, hnone, Bool.false_eq_true, if_false]
      exact List.append_ne_nil_of_left_ne_nil hne _
    · rw [hzero] at hle
      exact Nat.le_zero.mp hle

theorem downward_cycle (hD : C ≤ D) (hcredited : Credited C s) (h : Downward s hostItems q') {i : Input}
    {hostItems' : List HostItem}
    (hitems : hostItems = IngressStream.events (ingressOut s i) (arrive s.down i.rx).1.inData ++ hostItems')
    (hline : (cycle C D s i).ingress.inProgress ++ (cycle C D s i).down = encodeHost hostItems') :
    Downward (cycle C D s i) hostItems' q' := by
  refine ⟨hline, ?_, h.rep⟩
  have hroom : (ingressOut s i).outValid = true → s.inBuffer.length < D := by
    intro hvalid
    have hle := (credited_bounds hcredited i).2
    rw [hvalid, Bool.toNat_true] at hle
    omega
  have hstored : (if (ingressOut s i).outValid = true ∧ s.inBuffer.length < D then [(arrive s.down i.rx).1.inData]
      else []) = if (ingressOut s i).outValid then [(arrive s.down i.rx).1.inData] else [] :=
    if_congr (and_iff_left_of_imp hroom) rfl rfl
  have hout : s.inBuffer = (if transferIn s i then s.inBuffer.take 1 else []) ++
      if transferIn s i then s.inBuffer.tail else s.inBuffer := by
    split_ifs
    · rw [← List.drop_one, List.take_append_drop]
    · rfl
  have hwritten : (cycle C D s i).written = s.written := rfl
  rw [hwritten, h.words, hitems, hostWords_append, hostWords_events]
  simp only [cycle, hstored]
  conv_lhs => rw [hout]
  simp only [List.append_assoc]

theorem inv_cycle (hCW : CW ≤ 15) (hC : C < 2 ^ CW) (hD : C ≤ D) (h : Inv C s) {i : Input}
    (hdone : DoneEnabled s.egress (s.egressIn C i)) : Inv C (cycle C D s i) := by
  obtain ⟨hcredited, hrunning, hquiet, items, high, hostItems, q, q', hup, hdown, hgranted⟩ := h
  obtain ⟨hcredited', hcreditor⟩ := credited_cycle hCW hC hD hcredited hdone
  obtain ⟨hostItems', hitems, hline, hfsm⟩ := ingress_reported (C := C) (D := D) hdown i
  obtain ⟨hdebtor, -, hdebt⟩ := debtor_next (C := C) (D := D) hup hgranted hitems
  have hlength := (egress_words (C := C) (D := D) hup i).2
  have htotal := hgranted.total
  refine ⟨hcredited', hrunning, ?_, _, _, hostItems', q, q', upward_cycle hup hgranted hitems hdone,
    downward_cycle hD hcredited hdown hitems hline, hgranted.size_eq, ?_, hgranted.credit_le, hgranted.fits⟩
  · simp only [cycle, ingressError, ingressOutReady, hquiet, hfsm, hcreditor, hdebt, Bool.not_not, Bool.or_false]
  · have hcredit : (cycle C D s i).ctx.credit = s.ctx.credit := rfl
    rw [hcredit, dataWords_append, List.length_append]
    omega

end Cycle

/-! ## The thread and the user -/

section Host
variable {CW C : ℕ} {s s' : State CW}

theorem partial_inProgress (state : EgressState) (high : BitVec 15) : Partial (inProgress state high) := by
  have hmessage : (Item.credit high).encode = [0xfe, creditHigh high, creditLow high] := by
    have hhalves := encode_halves high high
    rwa [halves_self] at hhalves
  cases state with
  | idle | passthrough | sendCredit1 => exact ⟨high, _, rfl, List.cons_ne_nil _ _⟩
  | passthroughRepeat | sendCredit2 => exact ⟨high, [creditHigh high, creditLow high], hmessage, List.cons_ne_nil _ _⟩
  | sendCredit3 => exact ⟨high, [creditLow high], hmessage, List.cons_ne_nil _ _⟩

/-- In front of a full buffer there is no credit, so that no word is on the line. -/
theorem inv_threadRead (h : Inv C s) {n : ℕ} (hstep : hostStep s (.threadRead n) = some s') : Inv C s' := by
  obtain ⟨hcredited, hrunning, hquiet, items, high, hostItems, q, q', hup, hdown, hgranted⟩ := h
  have hsize : s.ctx.inputBuffer.size = 32768 := hup.rep.size_eq
  have htotal := hgranted.total
  have hfits := hgranted.fits
  have hle := hgranted.credit_le
  have hfull : cbufFreeLevel s.ctx.inputBuffer = 0 → ∀ d rest, items ≠ .word d :: rest := by
    rintro hfree d rest rfl
    rw [hup.rep.freeLevel_eq] at hfree
    rw [dataWords, List.length_cons] at htotal
    omega
  have hread := threadRead_line (by omega) hup.rep (by omega) hfull (partial_inProgress s.egress high) n
  rw [← hup.line] at hread
  obtain hblocked | ⟨parsed, rest, buf, rfl, hrep, hok⟩ := hread
  · simp only [hostStep, hblocked] at hstep
    cases hstep
  · simp only [hostStep, hok, Option.some.injEq] at hstep
    subst hstep
    have hline := hup.line
    have hwords := hup.words
    rw [encode_append, List.append_assoc] at hline
    rw [dataWords_append] at hwords htotal
    rw [List.length_append] at htotal
    refine ⟨credited_receives hcredited hline rfl, hrunning, hquiet, rest, high, hostItems, _, q',
      ⟨rfl, ?_, hrep, hup.waiting⟩, ⟨hdown.line, hdown.words, hdown.rep⟩, hgranted.size_eq, ?_, ?_, ?_⟩
    · rw [hwords]
      simp only [List.append_assoc]
    · simp only
      omega
    · simp only
      omega
    · rw [List.length_append]
      simp only
      omega

theorem inv_threadWrite (hC : C < 2 ^ 31) (h : Inv C s) (hstep : hostStep s .threadWrite = some s') : Inv C s' := by
  obtain ⟨hcredited, hrunning, hquiet, items, high, hostItems, q, q', hup, hdown, hgranted⟩ := h
  have hdebt : s.ctx.debt ≤ C := (credited_bounds hcredited ⟨false, false, 0, false, false, none⟩).1
  obtain ⟨n, buf, hn, hlen, hrep, hok⟩ := threadWrite_sends (by omega) hdown.rep (by omega)
  simp only [hostStep, hok, Option.some.injEq] at hstep
  subst hstep
  have htake : (q'.take n).length = n := List.length_take_of_le hlen
  refine ⟨credited_sends hcredited (htake.trans_le hn) (by rw [htake]), hrunning, hquiet, items, high,
    hostItems ++ (q'.take n).map .word, q, q'.drop n, ⟨hup.line, hup.words, hup.rep, hup.waiting⟩, ⟨?_, ?_, hrep⟩,
    hgranted.size_eq, ?_, hgranted.credit_le, hgranted.fits⟩
  · rw [encodeHost_append, encodeHost_words, ← hdown.line, List.append_assoc]
  · rw [hostWords_append, hostWords_words, hdown.words, List.append_assoc, List.append_assoc _ _ (q'.drop n),
      List.append_assoc (hostWords hostItems), List.take_append_drop]
  · rw [HostCredit.grantSum_append, HostCredit.grantSum_words]
    exact hgranted.total

/-- A message on the line without a word behind what is there. -/
theorem Downward.control {hostItems : List HostItem} {q : List UInt8} (h : Downward s hostItems q) {item : HostItem}
    (hitem : hostWords [item] = []) {ctx : Ctx} (hbuffer : ctx.outputBuffer = s.ctx.outputBuffer) :
    Downward { s with ctx := ctx, down := s.down ++ item.encode } (hostItems ++ [item]) q := by
  refine ⟨?_, ?_, hbuffer ▸ h.rep⟩
  · rw [encodeHost_append, ← h.line, encodeHost_cons, encodeHost_nil, List.append_nil, List.append_assoc]
  · rw [hostWords_append, hitem, List.append_nil]
    exact h.words

theorem inv_logicReset (h : Inv C s) (val : Bool) :
    Inv C { s with down := s.down ++ resetLogic (if val then 1 else 0) } := by
  obtain ⟨hcredited, hrunning, hquiet, items, high, hostItems, q, q', hup, hdown, hgranted⟩ := h
  have hcontrol : Credited C { s with down := s.down ++ (HostItem.logicRst val).encode } :=
    credited_control hcredited rfl rfl
  have hdown' : Downward { s with down := s.down ++ (HostItem.logicRst val).encode } (hostItems ++ [.logicRst val]) q' :=
    hdown.control rfl rfl
  refine ⟨hcontrol, hrunning, hquiet, items, high, hostItems ++ [HostItem.logicRst val], q, q',
    ⟨hup.line, hup.words, hup.rep, hup.waiting⟩, hdown', hgranted.size_eq, ?_, hgranted.credit_le,
    hgranted.fits⟩
  rw [HostCredit.grantSum_append]
  exact hgranted.total

theorem inv_threadCredit (h : Inv C s) (hfit : GrantsFit s .threadCredit) :
    Inv C { s with ctx := (threadCredit s.ctx).1, down := s.down ++ (threadCredit s.ctx).2 } := by
  unfold threadCredit
  split_ifs with hlow
  · obtain ⟨hcredited, hrunning, hquiet, items, high, hostItems, q, q', hup, hdown, hgranted⟩ := h
    have hroom := hfit rfl hlow
    have htotal := hgranted.total
    have hmax : uartMaxTranche = 16383 := rfl
    rw [hup.rep.fillLevel_eq, hgranted.size_eq] at hroom
    rw [hgranted.size_eq] at hlow
    have hcontrol : Credited C
        { s with
          ctx := { s.ctx with credit := s.ctx.credit + uartMaxTranche }
          down := s.down ++ (HostItem.credit 0x3fff).encode } := credited_control hcredited rfl rfl
    have hdown' : Downward
        { s with
          ctx := { s.ctx with credit := s.ctx.credit + uartMaxTranche }
          down := s.down ++ (HostItem.credit 0x3fff).encode } (hostItems ++ [.credit 0x3fff]) q' :=
      hdown.control rfl rfl
    refine ⟨hcontrol, hrunning, hquiet, items, high, hostItems ++ [HostItem.credit 0x3fff], q, q',
      ⟨hup.line, hup.words, hup.rep, hup.waiting⟩, hdown', hgranted.size_eq, ?_, ?_, ?_⟩
    · have hone : HostCredit.grantSum [.credit 0x3fff] = uartMaxTranche := rfl
      rw [HostCredit.grantSum_append, hone]
      simp only
      omega
    · simp only
      omega
    · simp only
      omega
  · simpa using h

theorem inv_userRead (h : Inv C s) (channel size : ℕ) :
    Inv C { s with
      ctx := (gbUartRead s.ctx channel size).2
      read := s.read ++ (gbUartRead s.ctx channel size).1.getD [] } := by
  obtain ⟨hcredited, hrunning, hquiet, items, high, hostItems, q, q', hup, hdown, hgranted⟩ := h
  obtain ⟨n, buf, htake, hctx, hrep⟩ := gbUartRead_takes hup.rep (by norm_num) channel size
  rw [htake, hctx]
  refine ⟨credited_ctx hcredited rfl, hrunning, hquiet, items, high, hostItems, q.drop n, q',
    ⟨hup.line, ?_, hrep, hup.waiting⟩, ⟨hdown.line, hdown.words, hdown.rep⟩, hgranted.size_eq, hgranted.total,
    hgranted.credit_le, ?_⟩
  · rw [List.append_assoc s.read, List.take_append_drop]
    exact hup.words
  · have hfits := hgranted.fits
    rw [List.length_drop]
    simp only
    omega

theorem inv_userWrite (h : Inv C s) (channel : ℕ) (data : List UInt8) :
    Inv C { s with
      ctx := (gbUartWrite s.ctx channel data).2
      written := s.written ++ data.take ((gbUartWrite s.ctx channel data).1.getD 0) } := by
  obtain ⟨hcredited, hrunning, hquiet, items, high, hostItems, q, q', hup, hdown, hgranted⟩ := h
  obtain ⟨buf, hctx, hrep⟩ := gbUartWrite_stores hdown.rep channel data
  rw [hctx]
  refine ⟨credited_ctx hcredited rfl, hrunning, hquiet, items, high, hostItems, q, _,
    ⟨hup.line, hup.words, hup.rep, hup.waiting⟩, ⟨hdown.line, ?_, hrep⟩, hgranted.size_eq, hgranted.total,
    hgranted.credit_le, hgranted.fits⟩
  rw [hdown.words]
  simp only [List.append_assoc]

end Host

/-! ## Runs -/

section Runs
variable {CW C D : ℕ} {s s' : State CW}

theorem inv_initial (hCW : CW ≤ 15) (hC : C < 2 ^ CW) (creditFirst : BitVec 6) :
    Inv C (initial CW C creditFirst) := by
  have hrep : Rep 15 (initial CW C creditFirst).ctx.inputBuffer [] := Grant.rep_discard_all (rep_cbufInit 15)
  have hrep' : Rep 15 (initial CW C creditFirst).ctx.outputBuffer [] := Grant.rep_discard_all (rep_cbufInit 15)
  have hcredit : (initial CW C creditFirst).ctx.credit = uartMaxTranche := HostCredit.reset_credit _ _ _
  refine ⟨credited_initial hCW hC creditFirst, rfl, rfl, [], 0, [.credit 0x3fff], [], [],
    ⟨rfl, rfl, hrep, ?_⟩, ⟨rfl, rfl, hrep'⟩, rfl, ?_, ?_, ?_⟩
  · intro h
    cases h
  · rw [hcredit]
    simp [initial, HostCredit.grantSum, dataWords, EgressStream.inWord, uartMaxTranche]
  · rw [hcredit]
    exact (by decide : uartMaxTranche ≤ 32767)
  · rw [hcredit]
    exact (by decide : uartMaxTranche + 0 ≤ 32768)

theorem inv_hostStep (hC : C < 2 ^ 31) {l : Label} (h : Inv C s) (hfit : GrantsFit s l)
    (hstep : hostStep s l = some s') : Inv C s' := by
  cases l with
  | cycle i => cases hstep
  | threadRead n => exact inv_threadRead h hstep
  | threadWrite => exact inv_threadWrite hC h hstep
  | threadCredit =>
    obtain rfl := Option.some.inj hstep
    exact inv_threadCredit h hfit
  | logicReset val =>
    obtain rfl := Option.some.inj hstep
    exact inv_logicReset h val
  | userRead channel size =>
    obtain rfl := Option.some.inj hstep
    exact inv_userRead h channel size
  | userWrite channel data =>
    obtain rfl := Option.some.inj hstep
    exact inv_userWrite h channel data

theorem inv_step (hCW : CW ≤ 15) (hC : C < 2 ^ CW) (hD : C ≤ D) {l : Label} (h : Inv C s) (hfit : GrantsFit s l)
    (hstep : step C D s l = some s') : Inv C s' := by
  have hC31 : C < 2 ^ 31 := hC.trans_le (Nat.pow_le_pow_right (by omega) (by omega))
  cases l with
  | cycle i =>
    simp only [step, Option.ite_none_right_eq_some, Option.some.injEq] at hstep
    obtain ⟨hdone, rfl⟩ := hstep
    exact inv_cycle hCW hC hD h hdone
  | _ =>
    simp only [step] at hstep
    split_ifs at hstep
    exact inv_hostStep hC31 h hfit hstep

/-- What the link is for. Nothing fails but by the almost-full flag, what comes out at one end went in at the
other, in order, and all of it when nothing is left in between. -/
structure Delivers (C : ℕ) (s : State CW) : Prop where
  running : s.failed = false
  quiet : s.error = s.flagged
  stored : s.inBuffer.length ≤ C
  down : s.taken <+: s.written
  up : s.read <+: s.offered
  allDown : cbufFillLevel s.ctx.outputBuffer = 0 → s.down = [] → s.ingress.state = .passthrough →
    s.inBuffer = [] → s.taken = s.written
  allUp : s.outFifo = [] → s.egress ≠ .passthroughRepeat → s.up = [] → cbufFillLevel s.ctx.inputBuffer = 0 →
    s.read = s.offered

theorem encode_eq_nil {items : List Item} (h : encode items = []) : items = [] := by
  cases items with
  | nil => rfl
  | cons item items =>
    cases item with
    | word d =>
      simp only [encode_cons, Item.encode] at h
      split_ifs at h <;> cases h
    | credit tranche => cases h

theorem encodeHost_eq_nil {items : List HostItem} (h : encodeHost items = []) : items = [] := by
  cases items with
  | nil => rfl
  | cons item items =>
    cases item with
    | word d =>
      simp only [encodeHost_cons, HostItem.encode, sendWord] at h
      split_ifs at h <;> cases h
    | credit tranche => cases h
    | logicRst val => cases h
    | comRst val => cases h

theorem Inv.delivers (h : Inv C s) : Delivers C s := by
  have hstored := (credited_bounds h.credited ⟨false, false, 0, false, false, none⟩).2
  obtain ⟨-, hrunning, hquiet, items, high, hostItems, q, q', hup, hdown, hgranted⟩ := h
  refine ⟨hrunning, hquiet, (Nat.le_add_right _ _).trans hstored, ?_, ?_, ?_, ?_⟩
  · rw [hdown.words, List.append_assoc, List.append_assoc]
    exact List.prefix_append _ _
  · rw [hup.words, List.append_assoc, List.append_assoc, List.append_assoc]
    exact List.prefix_append _ _
  · intro hfill hempty hstate hbuffer
    rw [hdown.rep.fillLevel_eq, List.length_eq_zero_iff] at hfill
    have hline := hdown.line
    rw [hempty, Ingress.inProgress, hstate] at hline
    rw [hdown.words, encodeHost_eq_nil hline.symm, hfill, hbuffer]
    simp [hostWords]
  · intro hfifo hstate hempty hfill
    rw [hup.rep.fillLevel_eq, List.length_eq_zero_iff] at hfill
    have hline := hup.line
    rw [hempty] at hline
    have hitems := encode_eq_nil (List.append_eq_nil_iff.mp hline.symm).1
    have hword : EgressStream.inWord s.egress = [] := by
      cases hs : s.egress with
      | passthroughRepeat => exact absurd hs hstate
      | _ => rfl
    rw [hup.words, hitems, hfill, hfifo, hword]
    simp [dataWords]

theorem flagged_hostStep {l : Label} (hstep : hostStep s l = some s') : s'.flagged = s.flagged := by
  cases l with
  | cycle i => cases hstep
  | threadRead n =>
    simp only [hostStep] at hstep
    split at hstep <;> cases hstep <;> rfl
  | threadWrite =>
    simp only [hostStep] at hstep
    split at hstep <;> cases hstep <;> rfl
  | threadCredit | logicReset | userRead | userWrite =>
    obtain rfl := Option.some.inj hstep
    rfl

/-- With less credit than the flag waits for it stays down. -/
theorem flagged_step {A : ℕ} (hA : C < A) {l : Label} (h : Inv C s) (hflag : FlagFrom A s l)
    (hstep : step C D s l = some s') : s'.flagged = s.flagged := by
  cases l with
  | cycle i =>
    simp only [step, Option.ite_none_right_eq_some, Option.some.injEq] at hstep
    obtain ⟨-, rfl⟩ := hstep
    have hstored := (credited_bounds h.credited i).2
    have hdown : i.almostFull = false := by
      by_contra hup
      have habove := hflag i rfl ((Bool.not_eq_false _).mp hup)
      omega
    simp only [cycle, hdown, Bool.or_false]
  | _ =>
    simp only [step] at hstep
    split_ifs at hstep
    exact flagged_hostStep hstep

theorem no_error_below_flag {A : ℕ} (hCW : CW ≤ 15) (hC : C < 2 ^ CW) (hD : C ≤ D) (hA : C < A)
    (creditFirst : BitVec 6) {ls : List Label} {s : State CW}
    (hfits : Takes (step C D) GrantsFit (initial CW C creditFirst) ls)
    (hflags : Takes (step C D) (FlagFrom A) (initial CW C creditFirst) ls)
    (hrun : runFrom (step C D) (initial CW C creditFirst) ls = some s) : s.error = false := by
  have h : Inv C s ∧ s.flagged = false := by
    refine Takes.run (fun s => Inv C s ∧ s.flagged = false) ?_ ⟨inv_initial hCW hC creditFirst, rfl⟩
      (hfits.and hflags) hrun
    rintro s l s' ⟨hinv, hdown⟩ ⟨hfit, hflag⟩ hstep
    exact ⟨inv_step hCW hC hD hinv hfit hstep, (flagged_step hA hinv hflag hstep).trans hdown⟩
  exact h.1.quiet.trans h.2

end Runs

/-- **Both directions of the link deliver.** Along every run behind the set-up, for every timing of the lines, the
FIFOs, the thread and the user, when the host grants only what fits: no assertion of the host fails, and an error
is raised in the logic only by `in_buffer`, which stores no more than its credit, saying that it is almost full;
what leaves `in_buffer` is the beginning of what the user has written, what the user has read is the beginning of
what the logic has offered, and when nothing is left on the way it is all of it. Where `in_buffer` says that it is
almost full only with more words than there is credit for, no error is raised at all. -/
theorem link_delivers {CW C D : ℕ} (hCW : CW ≤ 15) (hC : C < 2 ^ CW) (hD : C ≤ D) (creditFirst : BitVec 6)
    (ls : List Label) (s : State CW) (hfits : Takes (step C D) GrantsFit (initial CW C creditFirst) ls)
    (hrun : runFrom (step C D) (initial CW C creditFirst) ls = some s) :
    Delivers C s ∧
      ∀ A, C < A → Takes (step C D) (FlagFrom A) (initial CW C creditFirst) ls → s.error = false :=
  ⟨(Takes.run (Inv C) (fun _ _ _ h hfit hstep => inv_step hCW hC hD h hfit hstep)
    (inv_initial hCW hC creditFirst) hfits hrun).delivers,
    fun _ hA hflags => no_error_below_flag hCW hC hD hA creditFirst hfits hflags hrun⟩

/-- The first grant of the host arrives and lets the word of the logic through; behind a second grant the word of
the user arrives. -/
def wordEachWay : List Label :=
  [.userWrite 0 [0x12], .threadWrite, .cycle ⟨true, false, 0, true, false, some 0x55⟩] ++
    List.replicate 3 (.cycle ⟨true, false, 0, true, false, none⟩) ++
    [.cycle ⟨false, true, 0, true, false, none⟩, .threadRead 1, .userRead 0 1] ++
    List.replicate 4 (.cycle ⟨true, false, 0, true, false, none⟩)

/-- The second grant is given at once. -/
theorem word_each_way_delivers :
    ∃ s, runFrom (step 4090 4096) (initial 12 4090 0) (.threadCredit :: wordEachWay) = some s ∧
      s.read = [0x55] ∧ s.taken = [0x12] ∧ s.error = false ∧ Delivers 4090 s := by
  obtain ⟨s, hrun, hread, htaken⟩ : ∃ s ∈ runFrom (step 4090 4096) (initial 12 4090 0) (.threadCredit :: wordEachWay),
      s.read = [0x55] ∧ s.taken = [0x12] := by
    decide +kernel
  have hfits : Takes (step 4090 4096) GrantsFit (initial 12 4090 0) (.threadCredit :: wordEachWay) := by
    refine ⟨fun _ _ => (by decide : uartMaxTranche + 0 + uartMaxTranche ≤ 32768), fun s' _ => ?_⟩
    refine takes_of_labels ?_ s'
    simp [wordEachWay, GrantsFit]
  have hflags : Takes (step 4090 4096) (FlagFrom 4091) (initial 12 4090 0) (.threadCredit :: wordEachWay) :=
    takes_of_labels (by simp [wordEachWay, FlagFrom]) _
  obtain ⟨hdelivers, herror⟩ := link_delivers (by decide) (by decide) (by decide) 0 _ _ hfits hrun
  exact ⟨s, hrun, hread, htaken, herror 4091 (by decide) hflags, hdelivers⟩

end GlipOsd.Uart.Duplex
