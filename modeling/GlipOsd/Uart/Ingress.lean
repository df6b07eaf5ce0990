import GlipOsd.Uart.Wire

/-! # The ingress path of the UART control

The finite state machine of `glip_uart_control_ingress`, as a function of the registers and the
inputs of one clock cycle, and the datagrams the host sends to it: data words, credit of up to 14
bits, and the two reset registers.

`ingress_frame` describes the arrival of one byte of a stream of datagrams: either nothing happens,
or exactly the outputs of the datagram whose last byte it is.
-/

namespace GlipOsd.Uart
set_option autoImplicit false

/-! ## The state machine -/

inductive IngressState
  | passthrough
  | matched
  | credit
  deriving DecidableEq, Repr

/-- The registers; `creditFirst` has no reset value. -/
structure Ingress where
  state : IngressState
  creditFirst : BitVec 6
  deriving DecidableEq

/-- The outputs that depend on the state; a value without its enable is 0 (`x` in the source for
`credit_val`). -/
structure IngressOut where
  outValid : Bool := false
  creditEn : Bool := false
  creditVal : BitVec 14 := 0#14
  logicRstEn : Bool := false
  logicRstVal : Bool := false
  comRstEn : Bool := false
  comRstVal : Bool := false
  fsmError : Bool := false
  deriving DecidableEq

def ingress (r : Ingress) (inValid : Bool) (inData : UInt8) : Ingress × IngressOut :=
  let data := inData.toBitVec
  match r.state with
  | .passthrough =>
    if inValid then
      if inData = 0xfe then ({ r with state := .matched }, {}) else (r, { outValid := true })
    else (r, {})
  | .matched =>
    if inValid then
      if !data.getLsbD 0 then
        -- the repeated data item
        ({ r with state := .passthrough }, { outValid := true, fsmError := inData != 0xfe })
      else if !data.getLsbD 7 then (⟨.credit, data.extractLsb' 1 6⟩, {})
      else
        ({ r with state := .passthrough },
          { logicRstEn := !data.getLsbD 2
            comRstEn := data.getLsbD 2
            logicRstVal := data.getLsbD 1
            comRstVal := data.getLsbD 1 })
    else (r, {})
  | .credit =>
    if inValid then
      ({ r with state := .passthrough }, { creditEn := true, creditVal := r.creditFirst ++ data })
    else (r, {})

/-! ## Datagrams of the host -/

inductive HostItem
  | word (d : UInt8)
  | credit (tranche : BitVec 14)
  | logicRst (val : Bool)
  | comRst (val : Bool)
  deriving DecidableEq, Repr

/-- The bytes written for one data word in the write part of the thread. -/
def sendWord (d : UInt8) : List UInt8 := if d = 0xfe then [d, d] else [d]

def sendCredit (tranche : ℕ) : List UInt8 := creditMessage tranche

def resetLogic (state : UInt8) : List UInt8 := [0xfe, (state &&& 0x1) <<< 1 ||| 0x81]

def resetCom (state : UInt8) : List UInt8 := [0xfe, (state &&& 0x1) <<< 1 ||| 0x85]

def HostItem.encode : HostItem → List UInt8
  | .word d => sendWord d
  | .credit tranche => sendCredit tranche.toNat
  | .logicRst val => resetLogic (if val then 1 else 0)
  | .comRst val => resetCom (if val then 1 else 0)

def encodeHost (items : List HostItem) : List UInt8 := items.flatMap HostItem.encode

def hostWords : List HostItem → List UInt8
  | [] => []
  | .word d :: items => d :: hostWords items
  | _ :: items => hostWords items

@[simp] theorem encodeHost_nil : encodeHost [] = [] := rfl

@[simp] theorem encodeHost_cons (item : HostItem) (items : List HostItem) :
    encodeHost (item :: items) = item.encode ++ encodeHost items := rfl

theorem encodeHost_append (xs ys : List HostItem) :
    encodeHost (xs ++ ys) = encodeHost xs ++ encodeHost ys := List.flatMap_append

theorem hostWords_append (xs ys : List HostItem) :
    hostWords (xs ++ ys) = hostWords xs ++ hostWords ys := by
  induction xs with
  | nil => rfl
  | cons x xs ih => cases x <;> simp [hostWords, ih]

theorem encodeHost_words (ds : List UInt8) :
    encodeHost (ds.map .word) = ds.flatMap sendWord := by
  rw [encodeHost, List.flatMap_map]
  rfl

theorem hostWords_words (ds : List UInt8) : hostWords (ds.map .word) = ds := by
  induction ds with
  | nil => rfl
  | cons d ds ih => exact congrArg (d :: ·) ih

/-! ## Arriving bytes -/

/-- The outputs for a datagram in the cycle of its last byte. -/
def HostItem.out : HostItem → IngressOut
  | .word _ => { outValid := true }
  | .credit tranche => { creditEn := true, creditVal := tranche }
  | .logicRst val => { logicRstEn := true, logicRstVal := val, comRstVal := val }
  | .comRst val => { comRstEn := true, logicRstVal := val, comRstVal := val }

/-- `{0, creditFirst, 1}` -/
def creditByte (creditFirst : BitVec 6) : UInt8 := ⟨0#1 ++ creditFirst ++ 1#1⟩

def Ingress.inProgress (r : Ingress) : List UInt8 :=
  match r.state with
  | .passthrough => []
  | .matched => [0xfe]
  | .credit => [0xfe, creditByte r.creditFirst]

theorem creditByte_toNat (c : BitVec 6) : (creditByte c).toNat = 2 * c.toNat + 1 := by
  have hc := c.isLt
  unfold creditByte
  rw [UInt8.toNat, BitVec.toNat_append, BitVec.toNat_append, Nat.shiftLeft_eq, Nat.shiftLeft_eq,
    Nat.mul_comm, ← Nat.two_pow_add_eq_or_of_lt (by decide)]
  simp

theorem credit_first {tranche : BitVec 14} {b : UInt8}
    (hb : b = UInt8.ofNat (0x1 ||| (tranche.toNat >>> 8) <<< 1)) :
    b.toBitVec.getLsbD 0 = true ∧ b.toBitVec.getLsbD 7 = false ∧
      b = creditByte (b.toBitVec.extractLsb' 1 6) ∧
      b.toBitVec.extractLsb' 1 6 ++ (UInt8.ofNat (tranche.toNat &&& 0xff)).toBitVec = tranche := by
  have ht := tranche.isLt
  have hval : b.toNat = 2 * (tranche.toNat / 256) + 1 := by
    rw [hb, odd_first, UInt8.toNat_ofNat', Nat.shiftRight_eq_div_pow, Nat.mod_eq_of_lt (by omega)]
  have hbv : b.toBitVec.toNat = 2 * (tranche.toNat / 256) + 1 := hval
  have hmid : (b.toBitVec.extractLsb' 1 6).toNat = tranche.toNat / 256 := by
    rw [BitVec.extractLsb'_toNat, Nat.shiftRight_eq_div_pow, hbv]
    omega
  refine ⟨?_, ?_, ?_, ?_⟩
  · rw [BitVec.getLsbD, hbv, Nat.testBit_zero, decide_eq_true_iff]
    omega
  · rw [BitVec.getLsbD, hbv, Nat.testBit_eq_decide_div_mod_eq, decide_eq_false_iff_not]
    omega
  · apply UInt8.toNat.inj
    rw [creditByte_toNat, hmid, hval]
  · have hlow : (UInt8.ofNat (tranche.toNat &&& 0xff)).toBitVec.toNat = tranche.toNat % 256 := by
      have hand := Nat.and_two_pow_sub_one_eq_mod tranche.toNat 8
      rw [UInt8.toNat_toBitVec, UInt8.toNat_ofNat', (hand : _ &&& 0xff = _)]
      omega
    apply BitVec.eq_of_toNat_eq
    rw [BitVec.toNat_append, hmid, hlow, Nat.shiftLeft_eq, Nat.mul_comm,
      ← Nat.two_pow_add_eq_or_of_lt (by omega)]
    omega

theorem inProgress_passthrough (c : BitVec 6) : (Ingress.mk .passthrough c).inProgress = [] := rfl

theorem inProgress_matched (c : BitVec 6) : (Ingress.mk .matched c).inProgress = [0xfe] := rfl

theorem inProgress_credit (c : BitVec 6) :
    (Ingress.mk .credit c).inProgress = [0xfe, creditByte c] := rfl

theorem ingress_passthrough {c : BitVec 6} {items : List HostItem} {d : UInt8} {rest : List UInt8}
    (h : d :: rest = encodeHost items) :
    ∃ (done : Option HostItem) (items' : List HostItem), items = done.toList ++ items' ∧
      (ingress ⟨.passthrough, c⟩ true d).1.inProgress ++ rest = encodeHost items' ∧
      (ingress ⟨.passthrough, c⟩ true d).2 = (done.map HostItem.out).getD {} := by
  cases items with
  | nil => cases h
  | cons item items =>
    by_cases hd : d = 0xfe
    · refine ⟨none, item :: items, rfl, ?_, by simp [ingress, hd]⟩
      simpa [ingress, hd, inProgress_matched] using h
    · cases item with
      | word x =>
        rw [encodeHost_cons, HostItem.encode, sendWord] at h
        split_ifs at h with hx
        · exact absurd ((List.cons.inj h).1.trans hx) hd
        · obtain ⟨rfl, rfl⟩ := List.cons.inj h
          exact ⟨some (.word d), items, rfl, by simp [ingress, hd, inProgress_passthrough],
            by simp [ingress, hd, HostItem.out]⟩
      | credit tranche => exact absurd (List.cons.inj h).1 hd
      | logicRst val => exact absurd (List.cons.inj h).1 hd
      | comRst val => exact absurd (List.cons.inj h).1 hd

theorem ingress_matched {c : BitVec 6} {items : List HostItem} {d : UInt8} {rest : List UInt8}
    (h : 0xfe :: d :: rest = encodeHost items) :
    ∃ (done : Option HostItem) (items' : List HostItem), items = done.toList ++ items' ∧
      (ingress ⟨.matched, c⟩ true d).1.inProgress ++ rest = encodeHost items' ∧
      (ingress ⟨.matched, c⟩ true d).2 = (done.map HostItem.out).getD {} := by
  cases items with
  | nil => cases h
  | cons item items =>
    cases item with
    | word x =>
      rw [encodeHost_cons, HostItem.encode, sendWord] at h
      split_ifs at h with hx
      · subst hx
        obtain ⟨-, h⟩ := List.cons.inj h
        obtain ⟨rfl, rfl⟩ := List.cons.inj h
        exact ⟨some (.word 0xfe), items, rfl, rfl, rfl⟩
      · exact absurd (List.cons.inj h).1.symm hx
    | credit tranche =>
      obtain ⟨-, htail⟩ := List.cons.inj h
      obtain ⟨hfirst, hrest⟩ := List.cons.inj htail
      obtain ⟨hodd, htop, hbyte, -⟩ := credit_first hfirst
      have hstep : ingress ⟨.matched, c⟩ true d = (⟨.credit, d.toBitVec.extractLsb' 1 6⟩, {}) := by
        simp only [ingress, if_true, hodd, htop, Bool.not_true, Bool.not_false, Bool.false_eq_true,
          if_false]
      rw [hstep, inProgress_credit, ← hbyte]
      exact ⟨none, .credit tranche :: items, rfl, h, rfl⟩
    | logicRst val =>
      obtain ⟨-, htail⟩ := List.cons.inj h
      obtain ⟨hd, hrest⟩ := List.cons.inj htail
      have hrest' : rest = encodeHost items := hrest
      subst hd
      refine ⟨some (.logicRst val), items, rfl, ?_, ?_⟩
      · rw [hrest']
        cases val <;> rfl
      · cases val <;> rfl
    | comRst val =>
      obtain ⟨-, htail⟩ := List.cons.inj h
      obtain ⟨hd, hrest⟩ := List.cons.inj htail
      have hrest' : rest = encodeHost items := hrest
      subst hd
      refine ⟨some (.comRst val), items, rfl, ?_, ?_⟩
      · rw [hrest']
        cases val <;> rfl
      · cases val <;> rfl

theorem ingress_credit {c : BitVec 6} {items : List HostItem} {d : UInt8} {rest : List UInt8}
    (h : 0xfe :: creditByte c :: d :: rest = encodeHost items) :
    ∃ (done : Option HostItem) (items' : List HostItem), items = done.toList ++ items' ∧
      (ingress ⟨.credit, c⟩ true d).1.inProgress ++ rest = encodeHost items' ∧
      (ingress ⟨.credit, c⟩ true d).2 = (done.map HostItem.out).getD {} := by
  have hbyte := creditByte_toNat c
  have hc := c.isLt
  cases items with
  | nil => cases h
  | cons item items =>
    cases item with
    | word x =>
      rw [encodeHost_cons, HostItem.encode, sendWord] at h
      split_ifs at h with hx
      · subst hx
        have hval := congrArg UInt8.toNat (List.cons.inj (List.cons.inj h).2).1
        rw [hbyte] at hval
        exact absurd hval (by simp; omega)
      · exact absurd (List.cons.inj h).1.symm hx
    | credit tranche =>
      obtain ⟨-, htail⟩ := List.cons.inj h
      obtain ⟨hfirst, htail'⟩ := List.cons.inj htail
      obtain ⟨rfl, hrest⟩ := List.cons.inj htail'
      obtain ⟨-, -, -, hval⟩ := credit_first hfirst
      have hsix : (creditByte c).toBitVec.extractLsb' 1 6 = c := by
        apply BitVec.eq_of_toNat_eq
        rw [BitVec.extractLsb'_toNat, Nat.shiftRight_eq_div_pow, UInt8.toNat_toBitVec, hbyte]
        omega
      rw [hsix] at hval
      exact ⟨some (.credit tranche), items, rfl, hrest,
        congrArg (fun v => { creditEn := true, creditVal := v : IngressOut }) hval⟩
    | logicRst val =>
      have hval := congrArg UInt8.toNat (List.cons.inj (List.cons.inj h).2).1
      rw [hbyte] at hval
      cases val <;> simp at hval <;> omega
    | comRst val =>
      have hval := congrArg UInt8.toNat (List.cons.inj (List.cons.inj h).2).1
      rw [hbyte] at hval
      cases val <;> simp at hval <;> omega

/-- **One arriving byte of a stream of datagrams.** -/
theorem ingress_frame {r : Ingress} {items : List HostItem} {d : UInt8} {rest : List UInt8}
    (h : r.inProgress ++ d :: rest = encodeHost items) :
    ∃ (done : Option HostItem) (items' : List HostItem), items = done.toList ++ items' ∧
      (ingress r true d).1.inProgress ++ rest = encodeHost items' ∧
      (ingress r true d).2 = (done.map HostItem.out).getD {} := by
  obtain ⟨state, c⟩ := r
  cases state with
  | passthrough => exact ingress_passthrough h
  | matched => exact ingress_matched h
  | credit => exact ingress_credit h

end GlipOsd.Uart
