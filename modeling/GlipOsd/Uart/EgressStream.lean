import GlipOsd.Foundations.Runs
import GlipOsd.Uart.Egress

/-! # The egress stream from reset

The egress with the debtor from the cycle on in which the reset is released. The state machine starts
in `PASSTHROUGH` and not in `IDLE`, so that the first byte is sent whether or not there is a word
and credit for it; everything behind the first byte is a sequence of items. The credit the debtor
is lent must fit into its register.
-/

namespace GlipOsd.Uart.EgressStream
open Runs
set_option autoImplicit false

/-- The registers; the word that is offered and not accepted yet; and as history the completed
bytes, the accepted words, the credit received so far and whether the debtor raised an error. -/
structure State where
  state : EgressState
  credit : BitVec 15
  offered : Option UInt8
  bytes : List UInt8
  accepted : List UInt8
  received : ℕ
  error : Bool
  deriving DecidableEq

def initial : State := ⟨egressReset, 0#15, none, [], [], 0, false⟩

structure Input where
  inData : UInt8
  inValid : Bool
  outDone : Bool
  credit : BitVec 15
  creditEn : Bool
  lend : Bool
  tranche : BitVec 14
  deriving DecidableEq

def Input.egressIn (i : Input) (s : State) : EgressIn where
  inData := i.inData
  inValid := i.inValid
  outDone := i.outDone
  canSend := s.credit != 0#15
  credit := i.credit
  creditEn := i.creditEn

def next (s : State) (i : Input) : State :=
  let e := i.egressIn s
  let accept := transfer s.state e
  let debt := debtor s.credit accept i.lend i.tranche
  { state := (egress s.state e).1
    credit := debt.1
    offered := if i.inValid && !(egress s.state e).2.inReady then some i.inData else none
    bytes := s.bytes ++ completed s.state e
    accepted := if accept then s.accepted ++ [i.inData] else s.accepted
    received := if i.lend then s.received + i.tranche.toNat else s.received
    error := s.error || debt.2 }

/-- A word is held until it is accepted. -/
def Held (s : State) (i : Input) : Prop := ∀ d ∈ s.offered, i.inValid = true ∧ i.inData = d

instance (s : State) (i : Input) : Decidable (Held s i) :=
  inferInstanceAs (Decidable (∀ d ∈ s.offered, _))

def step (s : State) (i : Input) : Option State :=
  if Held s i ∧ DoneEnabled s.state (i.egressIn s) then some (next s i) else none

/-! ## The law -/

/-- The accepted word whose second marker is still to be sent. -/
def inWord : EgressState → List UInt8
  | .passthroughRepeat => [0xfe]
  | _ => []

/-- The completed bytes are items and the item in progress, the words of these are the accepted
words, they are covered by credit, and the debtor raised no error. -/
structure Sound (s : State) : Prop where
  stream : ∃ items high, s.bytes = encode items ++ inProgress s.state high ∧
    s.accepted = dataWords items ++ inWord s.state
  covered : s.accepted.length ≤ s.received
  quiet : s.error = false

/-- The first byte is backed by a word and by credit, and the credit register does not overflow. -/
structure Backed (s : State) (i : Input) : Prop where
  first : s.bytes = [] → i.outDone = true →
    i.inValid = true ∧ (0 < s.credit.toNat ∨ i.lend = true ∧ 0 < i.tranche.toNat)
  fits : i.lend = true → transfer s.state (i.egressIn s) = false →
    s.credit.toNat + i.tranche.toNat < 2 ^ 15

/-- Before the first byte the machine waits in `PASSTHROUGH`; later it is there only with a word
and with credit. -/
structure Inv (s : State) : Prop where
  credit_le : s.credit.toNat + s.accepted.length ≤ s.received
  fresh : s.bytes = [] → s.state = .passthrough ∧ s.accepted = [] ∧ s.credit.toNat = s.received
  later : s.bytes ≠ [] → s.state = .passthrough → s.offered.isSome ∧ 0 < s.credit.toNat

theorem inv_initial : Inv initial where
  credit_le := le_rfl
  fresh := fun _ => ⟨rfl, rfl, rfl⟩
  later := fun h => absurd rfl h

theorem sound_initial : Sound initial where
  stream := ⟨[], 0, rfl, rfl⟩
  covered := le_rfl
  quiet := rfl

/-! ## One cycle -/

theorem transfer_eq (state : EgressState) (i : EgressIn) :
    transfer state i = true ↔ state = .passthrough ∧ i.outDone = true ∧ i.inValid = true := by
  cases state <;> simp [transfer, egress, and_comm]

/-- The words of the items finished in a cycle are accepted then or were accepted before. -/
theorem words_frame (state : EgressState) (high : BitVec 15) (i : EgressIn)
    (hvalid : state = .passthrough → i.outDone = true → i.inValid = true) :
    inWord state ++ (if transfer state i then [i.inData] else []) =
      dataWords (finished state high i) ++ inWord (egress state i).1 := by
  cases hd : i.outDone with
  | false =>
    cases state <;> simp [inWord, transfer, finished, dataWords, egress, hd]
    split_ifs <;> rfl
  | true =>
    cases state with
    | idle =>
      have hnext : inWord (egress .idle i).1 = [] := by
        simp only [egress]
        split_ifs <;> rfl
      have htransfer : transfer .idle i = false := by simp [transfer, egress]
      have hfinished : finished .idle high i = [] := by simp [finished]
      rw [hnext, htransfer, hfinished]
      rfl
    | passthrough =>
      have hv := hvalid rfl hd
      by_cases hm : i.inData = 0xfe <;>
        simp [inWord, transfer, finished, dataWords, egress, hd, hv, hm]
    | passthroughRepeat => simp [inWord, transfer, finished, dataWords, egress, hd]
    | sendCredit1 => simp [inWord, transfer, finished, dataWords, egress, hd]
    | sendCredit2 => simp [inWord, transfer, finished, dataWords, egress, hd]
    | sendCredit3 => simp [inWord, transfer, finished, dataWords, egress, hd]

section Cycle
variable {s : State} {i : Input}

theorem stream_next (hs : Sound s) (hdone : DoneEnabled s.state (i.egressIn s))
    (hvalid : s.state = .passthrough → i.outDone = true → i.inValid = true) :
    ∃ items high, (next s i).bytes = encode items ++ inProgress (next s i).state high ∧
      (next s i).accepted = dataWords items ++ inWord (next s i).state := by
  obtain ⟨items, high, hbytes, hwords⟩ := hs.stream
  refine ⟨items ++ finished s.state high (i.egressIn s),
    if s.state = .sendCredit2 then i.credit else high, ?_, ?_⟩
  · rw [encode_append, List.append_assoc, next]
    exact (congrArg (· ++ _) hbytes).trans
      ((List.append_assoc _ _ _).trans (congrArg _ (egress_frame s.state high _ hdone)))
  · have hframe := words_frame s.state high (i.egressIn s) hvalid
    have haccept : (next s i).accepted = s.accepted ++
        if transfer s.state (i.egressIn s) then [i.inData] else [] := by
      simp only [next]
      split_ifs <;> simp
    rw [haccept, hwords, dataWords_append, List.append_assoc, List.append_assoc]
    exact congrArg _ hframe

/-- A byte that is no word and no credit is no part of a stream without words. -/
theorem encode_ne_singleton {items : List Item} {b : UInt8} (hwords : dataWords items = []) :
    encode items ≠ [b] := by
  cases items with
  | nil => simp
  | cons item items =>
    cases item with
    | word d => simp [dataWords] at hwords
    | credit tranche => simp [Item.encode, creditMessage]

/-- A first byte without a word behind it breaks the stream. -/
theorem not_sound_unbacked (hfresh : s.state = .passthrough ∧ s.accepted = [])
    (hbytes : s.bytes = []) (hd : i.outDone = true) (hv : i.inValid = false) :
    ¬ Sound (next s i) := by
  intro h
  obtain ⟨items, high, hb, hw⟩ := h.stream
  have hnone : transfer s.state (i.egressIn s) = false := by
    simp [transfer, Input.egressIn, hv]
  simp only [next, hnone, Bool.false_eq_true, if_false, hfresh.2] at hw
  simp only [next, hbytes, hfresh.1, egress, completed, Input.egressIn, hd, Bool.and_self,
    if_true, List.nil_append] at hb hw
  split_ifs at hb hw with hm
  · simp [inWord] at hw
  · simp only [inWord, inProgress, List.append_nil] at hb hw
    exact encode_ne_singleton hw.symm hb.symm

/-- The credit in one cycle: what is accepted was covered, or was lent in this cycle. -/
theorem credit_next (hI : Inv s) (hs : Sound s) (hback : Backed s i)
    (hcover : transfer s.state (i.egressIn s) = true →
      0 < s.credit.toNat ∨ i.lend = true ∧ 0 < i.tranche.toNat) :
    (next s i).credit.toNat + (next s i).accepted.length ≤ (next s i).received ∧
      (next s i).error = false ∧
      (transfer s.state (i.egressIn s) = false →
        (next s i).credit.toNat = s.credit.toNat + if i.lend then i.tranche.toNat else 0) := by
  have hle := hI.credit_le
  have hquiet := hs.quiet
  have hfits := hback.fits
  simp only [next]
  generalize transfer s.state (i.egressIn s) = accept at hcover hfits
  cases accept with
  | false =>
    cases hl : i.lend with
    | false => exact ⟨hle, by simp [debtor, hquiet], fun _ => by simp [debtor]⟩
    | true =>
      obtain ⟨herr, hsum⟩ := debtor_lend s.credit i.tranche (by omega)
      have hfit := hfits hl rfl
      simp only [hsum hfit, herr.mpr hfit, hquiet, if_true, Bool.false_eq_true, if_false]
      exact ⟨by omega, rfl, by simp⟩
  | true =>
    have hcov := hcover rfl
    cases hl : i.lend with
    | false =>
      obtain ⟨hval, herr⟩ := debtor_payback s.credit i.tranche
        (by simpa [hl] using hcov)
      have hpos : 0 < s.credit.toNat := by simpa [hl] using hcov
      simp only [hval, herr, hquiet, if_true, List.length_append, List.length_singleton,
        Bool.false_eq_true, if_false]
      exact ⟨by omega, rfl, fun h => by cases h⟩
    | true =>
      have hpos : 0 < s.credit.toNat + i.tranche.toNat := by
        obtain h | h := hcov
        · omega
        · omega
      obtain ⟨hval, herr⟩ := debtor_both s.credit i.tranche
        (by omega) hpos
      simp only [herr, hquiet, if_true, List.length_append, List.length_singleton]
      exact ⟨by omega, rfl, fun h => by cases h⟩

theorem sound_next (hI : Inv s) (hs : Sound s) (hheld : Held s i)
    (hdone : DoneEnabled s.state (i.egressIn s)) (hback : Backed s i) :
    Sound (next s i) ∧ Inv (next s i) := by
  -- behind the first byte the word and the credit are there since `IDLE`
  have hcovered : s.state = .passthrough → i.outDone = true →
      i.inValid = true ∧ (0 < s.credit.toNat ∨ i.lend = true ∧ 0 < i.tranche.toNat) := by
    intro hp hd
    by_cases hbytes : s.bytes = []
    · exact hback.first hbytes hd
    · obtain ⟨hoff, hcredit⟩ := hI.later hbytes hp
      obtain ⟨d, hoff⟩ := Option.isSome_iff_exists.mp hoff
      exact ⟨(hheld d hoff).1, .inl hcredit⟩
  have hvalid := fun hp hd => (hcovered hp hd).1
  obtain ⟨hle, herr, hkeep⟩ := credit_next hI hs hback fun ht => by
    obtain ⟨hp, hd, -⟩ := (transfer_eq _ _).mp ht
    exact (hcovered hp hd).2
  refine ⟨⟨stream_next hs hdone hvalid, by omega, herr⟩, ⟨hle, ?_, ?_⟩⟩
  · -- still before the first byte
    intro hbytes
    obtain ⟨hold, hnew⟩ := List.append_eq_nil_iff.mp hbytes
    obtain ⟨hp, hacc, hcredit⟩ := hI.fresh hold
    have hd : i.outDone = false := by
      by_contra hd
      simp [completed, hp, egress, Input.egressIn, hd] at hnew
    have hnone : transfer s.state (i.egressIn s) = false := by
      simp [transfer, hp, egress, Input.egressIn, hd]
    refine ⟨by simp [next, hp, egress, Input.egressIn, hd], by simp [next, hnone, hacc], ?_⟩
    rw [hkeep hnone, hcredit]
    simp only [next]
    split_ifs <;> rfl
  · -- in `PASSTHROUGH`: it waited there, or a word and credit were there in `IDLE`
    intro hbytes hp
    have hnone : transfer s.state (i.egressIn s) = false := by
      by_contra ht
      obtain ⟨hp', hd, -⟩ := (transfer_eq _ _).mp (Bool.not_eq_false _ ▸ ht)
      simp only [next, hp', egress] at hp
      split_ifs at hp
    have hword : i.inValid = true ∧ 0 < s.credit.toNat := by
      cases hst : s.state <;> simp only [next, hst, egress] at hp
      case idle =>
        split_ifs at hp with hen hsend
        simp only [Input.egressIn, Bool.and_eq_true, bne_iff_ne, ne_eq] at hsend
        exact ⟨hsend.2, Nat.pos_of_ne_zero fun h => hsend.1 (BitVec.eq_of_toNat_eq h)⟩
      case passthrough =>
        split_ifs at hp with hd
        have hold : s.bytes ≠ [] := by
          simpa [next, completed, hst, egress, Bool.eq_false_of_not_eq_true hd] using hbytes
        obtain ⟨hoff, hcredit⟩ := hI.later hold hst
        obtain ⟨d, hoff⟩ := Option.isSome_iff_exists.mp hoff
        exact ⟨(hheld d hoff).1, hcredit⟩
      all_goals
        split_ifs at hp
    have hready : (egress s.state (i.egressIn s)).2.inReady = false := by
      simpa [transfer, Input.egressIn, hword.1] using hnone
    refine ⟨?_, by rw [hkeep hnone]; omega⟩
    simp [next, hready, hword.1]

/-- A cycle that is not backed breaks the law at once. -/
theorem backed_of_sound (hI : Inv s) (hs : Sound (next s i)) : Backed s i := by
  have herr := hs.quiet
  simp only [next, Bool.or_eq_false_iff] at herr
  constructor
  · intro hbytes hd
    obtain ⟨hp, hacc, hcredit⟩ := hI.fresh hbytes
    have hv : i.inValid = true := by
      by_contra hv
      exact not_sound_unbacked ⟨hp, hacc⟩ hbytes hd (by simpa using hv) hs
    refine ⟨hv, ?_⟩
    have hacc' : transfer s.state (i.egressIn s) = true := (transfer_eq _ _).mpr ⟨hp, hd, hv⟩
    by_contra hnot
    obtain ⟨hzero, hlend⟩ := not_or.mp hnot
    have hzero' : s.credit = 0#15 := BitVec.eq_of_toNat_eq (by simpa using hzero)
    cases hl : i.lend with
    | false => simp [hacc', hl, hzero', debtor] at herr
    | true =>
      have hcov := hs.covered
      have htranche : i.tranche.toNat = 0 := by simpa [hl] using hlend
      simp only [next, hacc', if_true, hl, hacc, htranche, List.nil_append,
        List.length_singleton] at hcov
      omega
  · intro hl hnone
    rw [hnone, hl] at herr
    exact (debtor_lend _ _ (by omega)).1.mp herr.2

end Cycle

/-- **When the egress stream is one of items.** Along every run from the release of the reset, for
every pattern of offered words, credit requests, lent credit and acknowledged bytes: in every cycle
the completed bytes are encodings of accepted words and complete credit messages, the accepted
words are covered by credit and the debtor raises no error, exactly when the first byte is completed
with a word and with credit behind it and no lent credit overflows the register. -/
theorem egress_sound_iff (is : List Input) (s : State) (hrun : runFrom step initial is = some s) :
    Passes step Sound initial is ↔ Takes step Backed initial is := by
  refine passes_iff_takes Inv ?_ ?_ inv_initial sound_initial hrun
  · intro s i s' hI hs hstep hs'
    simp only [step, Option.ite_none_right_eq_some, Option.some.injEq] at hstep
    obtain ⟨⟨hheld, hdone⟩, rfl⟩ := hstep
    exact (sound_next hI hs hheld hdone (backed_of_sound hI hs')).2
  · intro s i s' hI hs hstep
    simp only [step, Option.ite_none_right_eq_some, Option.some.injEq] at hstep
    obtain ⟨⟨hheld, hdone⟩, rfl⟩ := hstep
    exact ⟨backed_of_sound hI, fun hback => (sound_next hI hs hheld hdone hback).1⟩

/-- No word is offered, and the transmitter acknowledges the byte it is given. -/
def trash : Input := ⟨0x55, false, true, 0, false, false, 0⟩

set_option maxRecDepth 2000 in
/-- The byte on the idle data input is sent although there is neither a word nor credit. -/
theorem trash_byte_sent :
    ∃ s, runFrom step initial [trash] = some s ∧ s.bytes = [0x55] ∧ s.accepted = [] ∧ ¬ Sound s :=
  ⟨next initial trash, rfl, rfl, rfl, not_sound_unbacked ⟨rfl, rfl⟩ rfl rfl rfl⟩

set_option maxRecDepth 2000 in
/-- Credit first and then a marker word: the stream is sound. -/
theorem egress_sound_marker :
    Passes step Sound initial
      [⟨0xfe, true, false, 0, false, true, 5⟩, ⟨0xfe, true, true, 0, false, false, 0⟩,
        ⟨0x00, false, true, 0, false, false, 0⟩] :=
  (egress_sound_iff _ _ rfl).mpr (by
    refine ⟨⟨by decide, by decide⟩, ?_⟩
    rintro _ ⟨⟩
    refine ⟨⟨by decide, by decide⟩, ?_⟩
    rintro _ ⟨⟩
    exact ⟨⟨by decide, by decide⟩, fun _ _ => trivial⟩)

end GlipOsd.Uart.EgressStream
