import GlipOsd.Foundations.Runs
import GlipOsd.Uart.Egress
import GlipOsd.Uart.Grant

/-! # Credit of the logic, in circulation

The host's credit accounting, the lines in both directions, the ingress and the debtor of the logic.
Each grant is a message of the host that the ingress hands to the debtor; each data word of the
logic takes one from the debtor and, when `parse_buffer` stores it, one from the host's credit. So
the debtor, the grants under way and the words under way are the host's credit together, and the
register of 15 bits is just large enough.

The logic sends words within its credit, at any time; the thread takes its parts in any order, and
the user reads and writes at any time. Not covered is a marker word that waits in front of a full
input buffer: it is not parsed by `parse_buffer` but taken for a credit message.
-/

namespace GlipOsd.Uart.HostCredit
open CircularBuffer Runs
set_option autoImplicit false

/-- The bytes that the host has not parsed (`rx`) and those that have not reached the ingress
(`down`); as history the credit lent to the debtor, the words paid from it, and its error. With
`failed` an assertion has ended the process of the host. -/
structure State where
  ctx : Ctx
  failed : Bool
  rx : List UInt8
  down : List UInt8
  ingress : Ingress
  credit : BitVec 15
  lent : ℕ
  paid : ℕ
  error : Bool

/-- Behind `reset` of the host and `com_rst` of the logic: the first grant is sent. -/
def initial (creditFirst : BitVec 6) (first second : UInt8) : State :=
  ⟨reset gbUartNew first second, false, [], sendCredit uartMaxTranche, ⟨.passthrough, creditFirst⟩, 0#15, 0,
    0, false⟩

/-- In a cycle of the logic the next byte of the host may arrive and a word may be sent. -/
inductive Label
  | cycle (rx : Bool) (word : Option UInt8)
  | creditMessage (tranche : BitVec 15)
  | threadRead (n : ℕ)
  | threadWrite
  | threadCredit
  | logicReset (val : Bool)
  | userRead (channel size : ℕ)
  | userWrite (channel : ℕ) (data : List UInt8)

def arrive (s : State) (rx : Bool) : (Ingress × IngressOut) × List UInt8 :=
  match rx, s.down with
  | true, d :: rest => (ingress s.ingress true d, rest)
  | _, down => (ingress s.ingress false 0, down)

def cycle (s : State) (rx : Bool) (word : Option UInt8) : State :=
  let a := arrive s rx
  let payback := word.isSome
  let lend := a.1.2.creditEn
  let tranche := a.1.2.creditVal
  let debt := debtor s.credit payback lend tranche
  { s with
    rx := s.rx ++ encode (word.toList.map .word)
    down := a.2
    ingress := a.1.1
    credit := debt.1
    lent := if lend then s.lent + tranche.toNat else s.lent
    paid := s.paid + payback.toNat
    error := s.error || debt.2 }

/-- What the thread reads next is parsed: there is room, or no marker word is in front. -/
def Readable (s : State) : Prop :=
  0 < cbufFreeLevel s.ctx.inputBuffer ∨ s.rx[0]? ≠ some 0xfe ∨ s.rx[1]? ≠ some 0xfe

instance (s : State) : Decidable (Readable s) := inferInstanceAs (Decidable (_ ∨ _ ∨ _))

def hostStep (s : State) : Label → Option State
  | .threadRead n =>
    if Readable s then
      match threadRead s.ctx s.rx n with
      | .ok (ctx, rx) => some { s with ctx := ctx, rx := rx }
      | .error .assertion => some { s with failed := true }
      | .error .blocked => none
    else none
  | .threadWrite =>
    match threadWrite s.ctx with
    | .ok (ctx, tx) => some { s with ctx := ctx, down := s.down ++ tx }
    | .error .assertion => some { s with failed := true }
    | .error .blocked => none
  | .threadCredit =>
    some { s with ctx := (threadCredit s.ctx).1, down := s.down ++ (threadCredit s.ctx).2 }
  | .logicReset val => some { s with down := s.down ++ resetLogic (if val then 1 else 0) }
  | .userRead channel size => some { s with ctx := (gbUartRead s.ctx channel size).2 }
  | .userWrite channel data => some { s with ctx := (gbUartWrite s.ctx channel data).2 }
  | _ => none

/-- A word is only sent when the debtor is owing; the logic goes on behind a failed host. -/
def step (s : State) : Label → Option State
  | .cycle rx word =>
    if word.isSome → s.credit ≠ 0#15 then some (cycle s rx word) else none
  | .creditMessage tranche => some { s with rx := s.rx ++ (Item.credit tranche).encode }
  | l => if s.failed then none else hostStep s l

def grantSum : List HostItem → ℕ
  | [] => 0
  | .credit tranche :: items => tranche.toNat + grantSum items
  | _ :: items => grantSum items

theorem grantSum_append (xs ys : List HostItem) :
    grantSum (xs ++ ys) = grantSum xs + grantSum ys := by
  induction xs with
  | nil => exact (Nat.zero_add _).symm
  | cons x xs ih => cases x <;> simp [grantSum, ih, Nat.add_assoc]

theorem grantSum_words (ds : List UInt8) : grantSum (ds.map .word) = 0 := by
  induction ds with
  | nil => rfl
  | cons d ds ih => exact ih

/-- The lines carry `items` and `hostItems`, of which the first may have arrived in part. -/
structure Conserved (s : State) (items : List Item) (hostItems : List HostItem) : Prop where
  rx : s.rx = encode items
  down : s.ingress.inProgress ++ s.down = encodeHost hostItems
  total : s.credit.toNat + grantSum hostItems + (dataWords items).length = s.ctx.credit
  credit_le : s.ctx.credit ≤ 32767
  register : s.credit.toNat + s.paid = s.lent
  quiet : s.error = false

/-- The buffer that `threadRead` fills stays well formed. -/
structure Inv (s : State) (items : List Item) (hostItems : List HostItem) : Prop
    extends Conserved s items hostItems where
  size_eq : s.ctx.bufferSize = 32768
  rep : ∃ q, Rep 15 s.ctx.inputBuffer q

theorem reset_credit (ctx : Ctx) (first second : UInt8) :
    (reset ctx first second).credit = uartMaxTranche := rfl

theorem inv_initial (creditFirst : BitVec 6) (first second : UInt8) :
    Inv (initial creditFirst first second) [] [.credit 0x3fff] where
  rx := rfl
  down := rfl
  total := by simp [initial, grantSum, dataWords, reset_credit, uartMaxTranche]
  credit_le := (reset_credit gbUartNew first second).trans_le (by decide)
  register := rfl
  quiet := rfl
  size_eq := rfl
  rep := ⟨[], Grant.rep_discard_all (rep_cbufInit 15)⟩

section Steps
variable {s s' : State} {items : List Item} {hostItems : List HostItem}

theorem arrive_credit (h : s.ingress.inProgress ++ s.down = encodeHost hostItems) (rx : Bool) :
    ∃ hostItems', (arrive s rx).1.1.inProgress ++ (arrive s rx).2 = encodeHost hostItems' ∧
      (if (arrive s rx).1.2.creditEn then (arrive s rx).1.2.creditVal.toNat else 0) +
        grantSum hostItems' = grantSum hostItems := by
  have hidle : ingress s.ingress false 0 = (s.ingress, {}) := by
    obtain ⟨state, c⟩ := s.ingress
    cases state <;> rfl
  unfold arrive
  split
  · rename_i d rest hdown
    rw [hdown] at h
    obtain ⟨done, hostItems', rfl, hrest, hout⟩ := ingress_frame h
    refine ⟨hostItems', hrest, ?_⟩
    rw [hout, grantSum_append]
    cases done with
    | none => rfl
    | some item => cases item <;> rfl
  · rw [hidle]
    exact ⟨hostItems, h, Nat.zero_add _⟩

/-- The debtor computes the exact difference as long as what is lent fits besides its credit. -/
theorem debtor_exact (credit : BitVec 15) (payback lend : Bool) (tranche : BitVec 14)
    (hpay : payback = true → credit ≠ 0#15)
    (hfits : credit.toNat + (if lend then tranche.toNat else 0) < 2 ^ 15) :
    (debtor credit payback lend tranche).1.toNat + payback.toNat =
      credit.toNat + (if lend then tranche.toNat else 0) ∧
      (debtor credit payback lend tranche).2 = false := by
  have hpos : payback = true → 0 < credit.toNat := fun hp =>
    Nat.pos_of_ne_zero fun hz => hpay hp (BitVec.eq_of_toNat_eq hz)
  cases payback with
  | false =>
    cases lend with
    | false => exact ⟨rfl, rfl⟩
    | true =>
      obtain ⟨herr, hsum⟩ := debtor_lend credit tranche (by omega)
      exact ⟨hsum hfits, herr.mpr hfits⟩
  | true =>
    have hc := hpos rfl
    cases lend with
    | false =>
      obtain ⟨hval, herr⟩ := debtor_payback credit tranche hc
      refine ⟨?_, herr⟩
      rw [hval]
      exact Nat.sub_add_cancel hc
    | true =>
      have hle : credit.toNat + tranche.toNat ≤ 2 ^ 15 := Nat.le_of_lt hfits
      refine ⟨?_, rfl⟩
      rw [debtor_both_eq credit tranche (by omega) hc hle]
      exact Nat.sub_add_cancel (Nat.le_add_right_of_le hc)

theorem inv_cycle (h : Inv s items hostItems) {rx : Bool} {word : Option UInt8}
    (hstep : step s (.cycle rx word) = some s') :
    ∃ items' hostItems', Inv s' items' hostItems' := by
  simp only [step, Option.ite_none_right_eq_some, Option.some.injEq] at hstep
  obtain ⟨howing, rfl⟩ := hstep
  have htotal := h.total
  have hle := h.credit_le
  have hregister := h.register
  obtain ⟨hostItems', hdown, hgrants⟩ := arrive_credit h.down rx
  obtain ⟨hcredit, herror⟩ := debtor_exact s.credit word.isSome (arrive s rx).1.2.creditEn
    (arrive s rx).1.2.creditVal howing (by omega)
  have hwords : (dataWords (word.toList.map .word)).length = word.isSome.toNat := by
    cases word <;> rfl
  refine ⟨items ++ word.toList.map .word, hostItems', ⟨⟨?_, hdown, ?_, hle, ?_, ?_⟩, h.size_eq, h.rep⟩⟩
  · simp only [cycle, h.rx, encode_append]
  · rw [dataWords_append, List.length_append, hwords]
    simp only [cycle]
    omega
  · simp only [cycle]
    split_ifs at hcredit ⊢ <;> omega
  · simp only [cycle, h.quiet, herror, Bool.or_self]

theorem inv_creditMessage (h : Inv s items hostItems) (tranche : BitVec 15) :
    Inv { s with rx := s.rx ++ (Item.credit tranche).encode } (items ++ [.credit tranche])
      hostItems := by
  refine ⟨⟨?_, h.down, ?_, h.credit_le, h.register, h.quiet⟩, h.size_eq, h.rep⟩
  · rw [encode_append, h.rx, encode_cons, encode_nil, List.append_nil]
  · rw [dataWords_append, dataWords, dataWords, List.append_nil]
    exact h.total

theorem threadRead_full {ctx : Ctx} (hfree : cbufFreeLevel ctx.inputBuffer = 0) {d : UInt8}
    (hd : d ≠ 0xfe) (rest : List UInt8) (n : ℕ) :
    threadRead ctx (d :: rest) n =
      if n = 0 then .ok (ctx, d :: rest) else .error .assertion := by
  unfold threadRead
  rw [if_pos hfree]
  cases n with
  | zero => rfl
  | succ n =>
    rw [Nat.min_eq_right (Nat.succ_le_succ n.zero_le)]
    simp [hd]

theorem inv_failed (h : Inv s items hostItems) : Inv { s with failed := true } items hostItems :=
  ⟨⟨h.rx, h.down, h.total, h.credit_le, h.register, h.quiet⟩, h.size_eq, h.rep⟩

theorem inv_threadRead (h : Inv s items hostItems) {n : ℕ}
    (hstep : hostStep s (.threadRead n) = some s') : ∃ items', Inv s' items' hostItems := by
  have htotal := h.total
  have hle := h.credit_le
  obtain ⟨q, hq⟩ := h.rep
  rw [hostStep] at hstep
  split_ifs at hstep with hreadable
  by_cases hword : cbufFreeLevel s.ctx.inputBuffer = 0 ∧ ∃ d rest, items = .word d :: rest
  · -- nothing is parsed
    obtain ⟨hfree, d, rest, rfl⟩ := hword
    have hd : d ≠ 0xfe := by
      rintro rfl
      simp [Readable, hfree, h.rx, Item.encode] at hreadable
    have hfront : s.rx = d :: encode rest := by
      rw [h.rx, encode_cons, Item.encode, if_neg hd, List.singleton_append]
    rw [hfront, threadRead_full hfree hd, ← hfront] at hstep
    split_ifs at hstep
    · obtain rfl := Option.some.inj hstep
      exact ⟨_, h⟩
    · obtain rfl := Option.some.inj hstep
      exact ⟨_, inv_failed h⟩
  · have hfull : cbufFreeLevel s.ctx.inputBuffer = 0 → ∀ d rest, items ≠ .word d :: rest :=
      fun hfree d rest heq => hword ⟨hfree, d, rest, heq⟩
    obtain ⟨parsed, rest, buf, rfl, -, hrep, heq⟩ :=
      threadRead_encode (by omega) hq (by omega) hfull n
    simp only [h.rx, heq] at hstep
    obtain rfl := Option.some.inj hstep
    rw [dataWords_append, List.length_append] at htotal
    refine ⟨rest, ⟨⟨rfl, h.down, ?_, ?_, h.register, h.quiet⟩, h.size_eq, ⟨_, hrep⟩⟩⟩
    · simp only
      omega
    · simp only
      omega

/-- The write part sends data words only, and leaves the credit and the input buffer alone. -/
theorem threadWrite_frame {ctx ctx' : Ctx} {tx : List UInt8}
    (h : threadWrite ctx = .ok (ctx', tx)) :
    ctx'.credit = ctx.credit ∧ ctx'.inputBuffer = ctx.inputBuffer ∧
      ctx'.bufferSize = ctx.bufferSize ∧ ∃ ds : List UInt8, tx = encodeHost (ds.map .word) := by
  unfold threadWrite at h
  split at h
  · dsimp only at h
    split at h
    · split at h
      · rename_i words buf hread
        obtain ⟨rfl, rfl⟩ := Prod.mk.inj (Except.ok.inj h)
        exact ⟨rfl, rfl, rfl, words, (encodeHost_words words).symm⟩
      · cases h
    · obtain ⟨rfl, rfl⟩ := Prod.mk.inj (Except.ok.inj h)
      exact ⟨rfl, rfl, rfl, [], rfl⟩
  · obtain ⟨rfl, rfl⟩ := Prod.mk.inj (Except.ok.inj h)
    exact ⟨rfl, rfl, rfl, [], rfl⟩

theorem inv_threadWrite (h : Inv s items hostItems) (hstep : hostStep s .threadWrite = some s') :
    ∃ hostItems', Inv s' items hostItems' := by
  rw [hostStep] at hstep
  split at hstep
  case h_2 =>
    obtain rfl := Option.some.inj hstep
    exact ⟨_, inv_failed h⟩
  case h_3 => cases hstep
  rename_i ctx tx hwrite
  obtain rfl := Option.some.inj hstep
  obtain ⟨hcredit, hbuf, hsize, ds, rfl⟩ := threadWrite_frame hwrite
  refine ⟨hostItems ++ ds.map .word, ⟨⟨h.rx, ?_, ?_, hcredit ▸ h.credit_le, h.register, h.quiet⟩,
    hsize.trans h.size_eq, hbuf ▸ h.rep⟩⟩
  · rw [encodeHost_append, ← h.down, List.append_assoc]
  · rw [grantSum_append, grantSum_words]
    exact h.total.trans hcredit.symm

/-- A grant puts the credit and the line up by the same tranche, and is only given below the
bound. -/
theorem inv_threadCredit (h : Inv s items hostItems) :
    ∃ hostItems', Inv { s with
      ctx := (threadCredit s.ctx).1
      down := s.down ++ (threadCredit s.ctx).2 } items hostItems' := by
  have htotal := h.total
  have hsize := h.size_eq
  unfold threadCredit
  split_ifs with hlow
  · refine ⟨hostItems ++ [.credit 0x3fff], ⟨⟨h.rx, ?_, ?_, ?_, h.register, h.quiet⟩, h.size_eq,
      h.rep⟩⟩
    · rw [encodeHost_append, ← h.down, List.append_assoc]
      rfl
    · rw [grantSum_append]
      have hone : grantSum [.credit 0x3fff] = uartMaxTranche := rfl
      simp only
      omega
    · have hmax : uartMaxTranche = 16383 := rfl
      simp only
      omega
  · exact ⟨hostItems, ⟨⟨h.rx, by simpa using h.down, htotal, h.credit_le, h.register, h.quiet⟩,
      h.size_eq, h.rep⟩⟩

theorem inv_logicReset (h : Inv s items hostItems) (val : Bool) :
    Inv { s with down := s.down ++ resetLogic (if val then 1 else 0) } items
      (hostItems ++ [.logicRst val]) := by
  refine ⟨⟨h.rx, ?_, ?_, h.credit_le, h.register, h.quiet⟩, h.size_eq, h.rep⟩
  · rw [encodeHost_append, ← h.down, List.append_assoc, encodeHost_cons, encodeHost_nil,
      List.append_nil, HostItem.encode]
  · rw [grantSum_append]
    exact h.total

theorem inv_userRead (h : Inv s items hostItems) (channel size : ℕ) :
    Inv { s with ctx := (gbUartRead s.ctx channel size).2 } items hostItems := by
  obtain ⟨q, hq⟩ := h.rep
  obtain ⟨n, buf, -, heq, hrep⟩ := gbUartRead_takes hq (by norm_num) channel size
  rw [heq]
  exact ⟨⟨h.rx, h.down, h.total, h.credit_le, h.register, h.quiet⟩, h.size_eq, ⟨_, hrep⟩⟩

theorem inv_userWrite (h : Inv s items hostItems) (channel : ℕ) (data : List UInt8) :
    Inv { s with ctx := (gbUartWrite s.ctx channel data).2 } items hostItems := by
  unfold gbUartWrite
  split_ifs <;>
    exact ⟨⟨h.rx, h.down, h.total, h.credit_le, h.register, h.quiet⟩, h.size_eq, h.rep⟩

theorem inv_hostStep (h : Inv s items hostItems) {l : Label} (hstep : hostStep s l = some s') :
    ∃ items' hostItems', Inv s' items' hostItems' := by
  cases l with
  | cycle rx word => cases hstep
  | creditMessage tranche => cases hstep
  | threadRead n =>
    obtain ⟨items', h'⟩ := inv_threadRead h hstep
    exact ⟨items', hostItems, h'⟩
  | threadWrite => exact ⟨items, inv_threadWrite h hstep⟩
  | threadCredit =>
    obtain rfl := Option.some.inj hstep
    exact ⟨items, inv_threadCredit h⟩
  | logicReset val =>
    obtain rfl := Option.some.inj hstep
    exact ⟨items, _, inv_logicReset h val⟩
  | userRead channel size =>
    obtain rfl := Option.some.inj hstep
    exact ⟨items, hostItems, inv_userRead h channel size⟩
  | userWrite channel data =>
    obtain rfl := Option.some.inj hstep
    exact ⟨items, hostItems, inv_userWrite h channel data⟩

theorem inv_step : Stable step fun s => ∃ items hostItems, Inv s items hostItems := by
  rintro s l s' ⟨items, hostItems, h⟩ hstep
  cases l with
  | cycle rx word => exact inv_cycle h hstep
  | creditMessage tranche =>
    obtain rfl := Option.some.inj hstep
    exact ⟨_, hostItems, inv_creditMessage h tranche⟩
  | _ =>
    simp only [step] at hstep
    split_ifs at hstep
    exact inv_hostStep h hstep

end Steps

/-- **The debtor never overflows.** In every reachable state, under every interleaving: the credit of
the debtor, the grants under way and the data words under way or not yet parsed are the credit of
the host together, at most `2 ^ 15 - 1`; the register is exactly what was lent less what was paid,
and no error was raised. -/
theorem debtor_never_overflows (creditFirst : BitVec 6) (first second : UInt8) (ls : List Label)
    (s : State) (hrun : runFrom step (initial creditFirst first second) ls = some s) :
    ∃ items hostItems, Conserved s items hostItems := by
  obtain ⟨items, hostItems, h⟩ :=
    inv_step.run ⟨[], [.credit 0x3fff], inv_initial creditFirst first second⟩ hrun
  exact ⟨items, hostItems, h.toConserved⟩

/-- The second grant is given, the first arrives, and a word is paid with it. -/
def firstWord : List Label :=
  [.threadCredit, .cycle true none, .cycle true none, .cycle true none, .cycle false (some 0x55)]

theorem first_word_conserved :
    ∃ s, runFrom step (initial 0 0x41 0) firstWord = some s ∧ s.credit = 16382#15 ∧
      ∃ items hostItems, Conserved s items hostItems :=
  ⟨_, rfl, rfl, debtor_never_overflows 0 0x41 0 firstWord _ rfl⟩

end GlipOsd.Uart.HostCredit
