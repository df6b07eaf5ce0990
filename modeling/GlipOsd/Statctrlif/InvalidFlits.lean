import GlipOsd.Foundations.Runs
import GlipOsd.Statctrlif.Model

/-! # The data of invalid flits

Two runs with the same handshakes, and the same data and `last` in every valid flit. `Agree` relates
the registers that still matter in each state; the others may differ.
-/

namespace GlipOsd.Statctrlif.InvalidFlits
open Runs
set_option autoImplicit false

variable {w : ℕ}

/-- The inputs of two runs in one cycle, up to what is on the data lines without `valid`. -/
structure SameHandshake (i j : Input) : Prop where
  valid : i.debugIn.valid = j.debugIn.valid
  flit : i.debugIn.valid = true → i.debugIn = j.debugIn
  debugOutReady : i.debugOutReady = j.debugOutReady
  regAck : i.regAck = j.regAck
  regErr : i.regErr = j.regErr
  regRdata : i.regRdata = j.regRdata

def cycle (p : Params) (ss : Regs w × Regs w) (ii : Input × Input) : Option (Regs w × Regs w) :=
  some (next p ss.1 ii.1, next p ss.2 ii.2)

/-- The outputs of both runs; the access is compared while it is requested, and in every cycle if
`always` is set. -/
structure SameOutputs (always : Bool) (p : Params) (ss : Regs w × Regs w) : Prop where
  inReady : debugInReady ss.1 = debugInReady ss.2
  out : debugOut p ss.1 = debugOut p ss.2
  request : regRequest ss.1 = regRequest ss.2
  access : always = true ∨ regRequest ss.1 = true →
    ss.1.reqAddr = ss.2.reqAddr ∧ ss.1.reqWrite = ss.2.reqWrite
  wdata : regRequest ss.1 = true → regWdata ss.1 = regWdata ss.2
  stalled : stall p ss.1 = stall p ss.2

/-- An invalid flit in `STATE_ADDR` is used as an address; here it has the same effect in both runs. With
`always`, the header is looked at as well. -/
def SameEffect (always : Bool) (ss : Regs w × Regs w) (ii : Input × Input) : Prop :=
  ii.1.debugIn.valid = false →
    match ss.1.state with
    | .addr =>
      if addrIsExt ii.1.debugIn.data || addrIsExt ii.2.debugIn.data then
        ii.1.debugIn.data = ii.2.debugIn.data
      else if ss.1.reqWrite then
        always = true → ss.1.reqSize = reqSize16 → ii.1.debugIn.data = ii.2.debugIn.data
      else
        (ii.1.debugIn.data = regModid ↔ ii.2.debugIn.data = regModid) ∧
          (ii.1.debugIn.data = regVersion ↔ ii.2.debugIn.data = regVersion)
    | .start => always = true → ii.1.debugIn.data.getLsbD 12 = ii.2.debugIn.data.getLsbD 12
    | _ => True

/-- The registers that matter in a state are the same. -/
structure Agree (always : Bool) (a b : Regs w) : Prop where
  state : a.state = b.state
  modCsStall : a.modCsStall = b.modCsStall
  reqrespValue : a.reqrespValue = b.reqrespValue
  request : always = true ∨ (a.state ≠ .idle ∧ a.state ≠ .start ∧ a.state ≠ .drop) →
    a.reqWrite = b.reqWrite
  reqAddr : always = true ∨ a.state = .write ∨ a.state = .extStart → a.reqAddr = b.reqAddr
  respDest : a.state ≠ .idle → a.state ≠ .start → a.state ≠ .drop → a.respDest = b.respDest
  reqSize : a.state = .addr → a.reqSize = b.reqSize
  respError : (a.state = .addr ∧ a.reqWrite = false) ∨ a.state = .write ∨ a.state = .respStart ∨
    a.state = .respSrc ∨ a.state = .respValue → a.respError = b.respError

variable {always : Bool} {p : Params} {a b : Regs w} {i j : Input}

theorem Agree.refl (a : Regs w) : Agree always a a :=
  ⟨rfl, rfl, rfl, fun _ => rfl, fun _ => rfl, fun _ _ _ => rfl, fun _ => rfl, fun _ => rfl⟩

theorem Agree.sameOutputs (h : Agree always a b) : SameOutputs always p (a, b) := by
  have hstate := h.state
  have hvalue := h.reqrespValue
  refine ⟨?_, ?_, ?_, ?_, ?_, ?_⟩
  · simp only [debugInReady, hstate]
  · unfold debugOut
    simp only [← hstate]
    cases hs : a.state with
    | respStart => simp only [h.respDest (by simp [hs]) (by simp [hs]) (by simp [hs])]
    | respSrc => simp only [h.respError (by simp [hs]), h.request (Or.inr (by simp [hs]))]
    | respValue => simp only [hvalue]
    | _ => rfl
  · simp only [regRequest, hstate]
  · intro hreq
    have hext : always = true ∨ a.state = .extStart := by
      refine hreq.imp_right fun hr => ?_
      unfold regRequest at hr
      cases hs : a.state <;> simp [hs] at hr
      rfl
    exact ⟨h.reqAddr (hext.imp_right Or.inr), h.request (hext.imp_right fun hs => by simp [hs])⟩
  · intro _
    simp only [regWdata, hvalue]
  · simp only [stall, h.modCsStall]

theorem Agree.addr (h : Agree always a b) (hs : a.state = .addr) :
    b.state = .addr ∧ a.reqWrite = b.reqWrite ∧ a.reqSize = b.reqSize ∧ a.respDest = b.respDest ∧
      (a.reqWrite = false → a.respError = b.respError) ∧ (always = true → a.reqAddr = b.reqAddr) :=
  ⟨h.state ▸ hs, h.request (Or.inr (by simp [hs])), h.reqSize hs,
    h.respDest (by simp [hs]) (by simp [hs]) (by simp [hs]),
    fun hw => h.respError (Or.inl ⟨hs, hw⟩), fun ha => h.reqAddr (Or.inl ha)⟩

theorem agree_decodeAddr {d e : BitVec 16} (h : Agree always a b) (hs : a.state = .addr)
    (hwrite : a.reqWrite = true → always = true → a.reqSize = reqSize16 → d = e)
    (hread : a.reqWrite = false → (d = regModid ↔ e = regModid) ∧ (d = regVersion ↔ e = regVersion)) :
    Agree always (decodeAddr p a d) (decodeAddr p b e) := by
  obtain ⟨hbs, hw, hsize, hdest, herr, haddr⟩ := h.addr hs
  have hcs := h.modCsStall
  have hvalue := h.reqrespValue
  cases hcase : a.reqWrite with
  | true =>
    have hb : b.reqWrite = true := hw ▸ hcase
    by_cases h2 : a.reqSize = reqSize16
    · have hb2 : b.reqSize = reqSize16 := hsize ▸ h2
      have haddr' : always = true → d = e := fun ha => hwrite hcase ha h2
      constructor <;> simp_all [decodeAddr]
    · have hb2 : b.reqSize ≠ reqSize16 := hsize ▸ h2
      constructor <;> simp_all [decodeAddr]
  | false =>
    have hb : b.reqWrite = false := hw ▸ hcase
    obtain ⟨hmod, hver⟩ := hread hcase
    have herr' := herr hcase
    by_cases h2 : d = regModid
    · have he := hmod.mp h2
      constructor <;> simp_all [decodeAddr]
    · have he := mt hmod.mpr h2
      by_cases h3 : d = regVersion
      · have he' := hver.mp h3
        constructor <;> simp_all [decodeAddr]
      · have he' := mt hver.mpr h3
        constructor <;> simp_all [decodeAddr]

theorem agree_acceptAddr {d : BitVec 16} (h : Agree always a b) (hs : a.state = .addr) (last : Bool) :
    Agree always (acceptAddr (decodeAddr p a d) last) (acceptAddr (decodeAddr p b d) last) := by
  obtain ⟨hbs, hw, hsize, hdest, herr, haddr⟩ := h.addr hs
  have hcs := h.modCsStall
  have hvalue := h.reqrespValue
  cases hcase : a.reqWrite with
  | true =>
    have hb : b.reqWrite = true := hw ▸ hcase
    by_cases h2 : a.reqSize = reqSize16
    · have hb2 : b.reqSize = reqSize16 := hsize ▸ h2
      by_cases h3 : d = regCs
      · cases last <;> constructor <;> simp_all [decodeAddr, acceptAddr]
      · cases last <;> constructor <;> simp_all [decodeAddr, acceptAddr]
    · have hb2 : b.reqSize ≠ reqSize16 := hsize ▸ h2
      cases last <;> constructor <;> simp_all [decodeAddr, acceptAddr]
  | false =>
    have hb : b.reqWrite = false := hw ▸ hcase
    have herr' := herr hcase
    by_cases h2 : d = regModid
    · cases last <;> constructor <;> simp_all [decodeAddr, acceptAddr]
    · by_cases h3 : d = regVersion
      · cases last <;> constructor <;> simp_all [decodeAddr, acceptAddr]
      · cases last <;> constructor <;> simp_all [decodeAddr, acceptAddr]

theorem agree_acceptValue (h : Agree always a b) (hs : a.state = .write) (d : BitVec 16) :
    Agree always (acceptValue p a d) (acceptValue p b d) := by
  have haddr := h.reqAddr (Or.inr (Or.inl hs))
  unfold acceptValue
  rw [← haddr]
  split_ifs
  · exact ⟨h.state, rfl, h.reqrespValue, h.request, fun _ => rfl, h.respDest, h.reqSize, h.respError⟩
  · exact ⟨h.state, h.modCsStall, h.reqrespValue, h.request, fun _ => rfl, h.respDest,
      h.reqSize, fun _ => rfl⟩
  · exact ⟨h.state, h.modCsStall, h.reqrespValue, h.request, fun _ => rfl, h.respDest,
      h.reqSize, fun _ => rfl⟩
  · exact h

/-! ## One cycle in each state -/

section Next
variable (h : Agree always a b) (hin : SameHandshake i j)
include h hin

theorem agree_start (hs : a.state = .start) (hc : SameEffect always (a, b) (i, j)) :
    Agree always (next p a i) (next p b j) := by
  have hbs := h.state.symm
  have hcs := h.modCsStall
  have hvalue := h.reqrespValue
  have hreq := h.request
  have haddr := h.reqAddr
  unfold SameEffect at hc
  rw [hs] at hbs
  simp only [hs] at hc
  unfold next
  simp only [hs, hbs, ← hin.valid]
  cases hv : i.debugIn.valid with
  | true =>
    rw [← hin.flit hv]
    simp only [if_true]
    split_ifs <;> constructor <;> simp_all [decodeHeader]
  | false =>
    have hbit := hc hv
    simp only [Bool.false_eq_true, if_false]
    constructor <;> simp_all [decodeHeader]

theorem agree_addr (hs : a.state = .addr) (hc : SameEffect always (a, b) (i, j)) :
    Agree always (next p a i) (next p b j) := by
  obtain ⟨hbs, hw, hsize, hdest, -, haddr⟩ := h.addr hs
  have hcs := h.modCsStall
  have hvalue := h.reqrespValue
  unfold SameEffect at hc
  simp only [hs] at hc
  unfold next
  cases hv : i.debugIn.valid with
  | true =>
    have hflit := hin.flit hv
    simp only [hs, hbs, ← hflit, hv, if_true]
    split_ifs with hext
    · constructor <;> simp_all
    · exact agree_acceptAddr h hs _
  | false =>
    have hc := hc hv
    have hv' : j.debugIn.valid = false := hin.valid ▸ hv
    simp only [hs, hbs, hv', Bool.false_eq_true, if_false]
    by_cases hext : (addrIsExt i.debugIn.data || addrIsExt j.debugIn.data) = true
    · rw [if_pos hext] at hc
      rw [← hc, Bool.or_self] at hext
      rw [← hc, if_pos hext, if_pos hext]
      constructor <;> simp_all
    · rw [if_neg hext] at hc
      rw [Bool.or_eq_true, not_or] at hext
      rw [if_neg hext.1, if_neg hext.2]
      refine agree_decodeAddr h hs ?_ ?_
      · intro hwr
        rwa [if_pos hwr] at hc
      · intro hwr
        rwa [if_neg (by rw [hwr]; exact Bool.false_ne_true)] at hc

theorem agree_write (hs : a.state = .write) : Agree always (next p a i) (next p b j) := by
  have hbs : b.state = .write := h.state ▸ hs
  unfold next
  simp only [hs, hbs, ← hin.valid]
  cases hv : i.debugIn.valid with
  | true =>
    rw [← hin.flit hv]
    have hval := agree_acceptValue (p := p) h hs i.debugIn.data
    have hstate : (acceptValue p a i.debugIn.data).state = .write := by
      unfold acceptValue
      split_ifs <;> exact hs
    have hw := hval.request (Or.inr (by simp [hstate]))
    have hdest := hval.respDest (by simp [hstate]) (by simp [hstate]) (by simp [hstate])
    have herr := hval.respError (Or.inr (Or.inl hstate))
    simp only [if_true]
    exact ⟨rfl, hval.modCsStall, hval.reqrespValue, fun _ => hw,
      fun _ => hval.reqAddr (Or.inr (Or.inl hstate)), fun _ _ _ => hdest,
      fun hs' => by split_ifs at hs', fun _ => herr⟩
  | false =>
    simp only [Bool.false_eq_true, if_false]
    exact h

theorem agree_respSrc (hs : a.state = .respSrc) : Agree always (next p a i) (next p b j) := by
  have hbs : b.state = .respSrc := h.state ▸ hs
  have hcs := h.modCsStall
  have hvalue := h.reqrespValue
  have haddr := h.reqAddr
  have hdest := h.respDest
  have herr := h.respError
  have hw := h.request (Or.inr (by simp [hs]))
  unfold next
  simp only [hs, hbs, ← hin.debugOutReady]
  cases i.debugOutReady with
  | true =>
    cases hcase : a.reqWrite with
    | true =>
      have hb : b.reqWrite = true := hw ▸ hcase
      constructor <;> simp_all
    | false =>
      have hb : b.reqWrite = false := hw ▸ hcase
      constructor <;> simp_all
  | false =>
    simp only [Bool.false_eq_true, if_false]
    exact h

theorem agree_next (hc : SameEffect always (a, b) (i, j)) : Agree always (next p a i) (next p b j) := by
  have hbs := h.state.symm
  have hcs := h.modCsStall
  have hvalue := h.reqrespValue
  have hreq := h.request
  have haddr := h.reqAddr
  have hdest := h.respDest
  have herr := h.respError
  cases hs : a.state with
  | start => exact agree_start h hin hs hc
  | addr => exact agree_addr h hin hs hc
  | write => exact agree_write h hin hs
  | respSrc => exact agree_respSrc h hin hs
  | idle =>
    rw [hs] at hbs
    unfold next
    simp only [hs, hbs, ← hin.valid]
    split_ifs
    · constructor <;> simp_all
    · exact h
  | respStart =>
    rw [hs] at hbs
    unfold next
    simp only [hs, hbs, ← hin.debugOutReady]
    split_ifs
    · constructor <;> simp_all
    · exact h
  | respValue =>
    rw [hs] at hbs
    unfold next
    simp only [hs, hbs, ← hin.debugOutReady]
    split_ifs
    · constructor <;> simp_all
    · exact h
  | drop =>
    rw [hs] at hbs
    unfold next
    simp only [hs, hbs, ← hin.valid]
    cases hv : i.debugIn.valid with
    | true =>
      rw [← hin.flit hv]
      split_ifs
      · constructor <;> simp_all
      · exact h
    | false => exact h
  | extStart =>
    rw [hs] at hbs
    unfold next
    simp only [hs, hbs, ← hin.regAck, ← hin.regErr, ← hin.regRdata]
    split_ifs
    · constructor <;> simp_all
    · constructor <;> simp_all
  | extWait =>
    rw [hs] at hbs
    unfold next
    simp only [hs, hbs]
    exact h

end Next

/-- **Invalid flits.** Two runs from the same state with the same handshakes, which differ only in the
data lines without `valid`, have the same outputs in every cycle, provided that invalid data has the
same effect in `STATE_ADDR`. -/
theorem sameOutputs_of_sameEffect (always : Bool) (p : Params) (s : Regs w)
    (inputs : List (Input × Input)) (hin : ∀ ii ∈ inputs, SameHandshake ii.1 ii.2)
    (heffect : Takes (cycle p) (SameEffect always) (s, s) inputs) :
    Passes (cycle p) (SameOutputs always p) (s, s) inputs := by
  have hrun : ∀ (ss : Regs w × Regs w), Agree always ss.1 ss.2 →
      Takes (cycle p) (SameEffect always) ss inputs → Passes (cycle p) (SameOutputs always p) ss inputs := by
    clear heffect
    induction inputs with
    | nil => exact fun ss hss _ => hss.sameOutputs
    | cons ii inputs ih =>
      intro ss hss htakes
      refine ⟨hss.sameOutputs, fun ss' hstep => ?_⟩
      have hss' : Agree always ss'.1 ss'.2 := by
        obtain rfl := Option.some.inj hstep
        exact agree_next hss (hin ii List.mem_cons_self) htakes.1
      exact ih (fun jj hj => hin jj (List.mem_cons_of_mem ii hj)) ss' hss' (htakes.2 ss' hstep)
  exact hrun (s, s) (Agree.refl s) heffect

instance (always : Bool) (ss : Regs w × Regs w) (ii : Input × Input) :
    Decidable (SameEffect always ss ii) := by
  unfold SameEffect
  cases ss.1.state <;> infer_instance

def offer (valid last : Bool) (data : BitVec 16) : Input := ⟨⟨valid, last, data⟩, true, true, false, 0⟩

/-- Different data before the header, while no flit is valid. -/
theorem sameOutputs_before_header :
    Passes (cycle scmParams) (SameOutputs false scmParams) (resetRegs, resetRegs)
      [(offer true false 0, offer true false 0), (offer false false 1, offer false false 2),
        (offer true false 5, offer true false 5), (offer true true 0, offer true true 0)] :=
  sameOutputs_of_sameEffect false scmParams resetRegs _
    (by
      intro ii hii
      simp only [List.mem_cons, List.not_mem_nil, or_false] at hii
      rcases hii with rfl | rfl | rfl | rfl <;> constructor <;> decide)
    (by decide)

/-- Different data before the address: the first run requests an access. -/
theorem not_sameOutputs_before_address :
    (∀ ii ∈ [(offer true false 0, offer true false 0), (offer true false 5, offer true false 5),
      (offer false false 0x200, offer false false 0)], SameHandshake ii.1 ii.2) ∧
    ¬ Passes (cycle scmParams) (SameOutputs false scmParams) (resetRegs, resetRegs)
      [(offer true false 0, offer true false 0), (offer true false 5, offer true false 5),
        (offer false false 0x200, offer false false 0)] := by
  constructor
  · intro ii hii
    simp only [List.mem_cons, List.not_mem_nil, or_false] at hii
    rcases hii with rfl | rfl | rfl <;> constructor <;> decide
  · intro hpass
    have hlast := hpass.last rfl
    exact absurd hlast.request (by decide)

end GlipOsd.Statctrlif.InvalidFlits
