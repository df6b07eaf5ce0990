import GlipOsd.Foundations.Runs
import GlipOsd.Statctrlif.Model

/-! # Accesses to external registers

A stream of 16 bit requests to external registers on `debug_in`, the accesses they cause at the register
interface and the responses. `Tracked` adds to the registers what was transferred on each side.
-/

namespace GlipOsd.Statctrlif.ExternalAccess
open Runs
set_option autoImplicit false

variable {w : ℕ}

/-! ## Requests, accesses and responses -/

/-- A well-formed 16 bit request to an external register. -/
structure Request where
  dest : BitVec 16
  write : Bool
  requester : BitVec 10
  addr : BitVec 16
  ext : addrIsExt addr = true
  value : BitVec 16

/-- The upper bits of the header: type, burst, write and size. -/
def control (write : Bool) : BitVec 6 := 0#2 ++ 0#1 ++ BitVec.ofBool write ++ reqSize16

namespace Request

def header (r : Request) : BitVec 16 := control r.write ++ r.requester

def flits (r : Request) : List DiiFlit :=
  [⟨true, false, r.dest⟩, ⟨true, false, r.header⟩, ⟨true, !r.write, r.addr⟩] ++
    if r.write then [⟨true, true, r.value⟩] else []

end Request

/-- An acknowledged access at the register interface. -/
structure Access where
  addr : BitVec 16
  write : Bool
  wdata : BitVec 16
  err : Bool
  rdata : BitVec 16
  deriving DecidableEq

def Carries (r : Request) (a : Access) : Prop :=
  a.addr = r.addr ∧ a.write = r.write ∧ (r.write = true → a.wdata = r.value)

def responseData (id : BitVec 10) (r : Request) (a : Access) : List (BitVec 16) :=
  [r.requester.zeroExtend 16, 0#4 ++ BitVec.ofBool r.write ++ BitVec.ofBool a.err ++ id] ++
    if r.write then [] else [a.rdata]

def responses (id : BitVec 10) (rs : List Request) (as : List Access) : List (BitVec 16) :=
  (List.zipWith (responseData id) rs as).flatten

/-! ## The run -/

structure Tracked (w : ℕ) where
  regs : Regs w
  /-- The flits transferred on `debug_in`. -/
  taken : List DiiFlit
  accesses : List Access
  /-- The flits transferred on `debug_out`. -/
  sent : List DiiFlit

def acknowledged (s : Regs w) (i : Input) : List Access :=
  if regRequest s && (i.regAck || i.regErr) then
    [⟨s.reqAddr, s.reqWrite, regWdata s, i.regErr, i.regRdata⟩]
  else []

def cycle (p : Params) (t : Tracked w) (i : Input) : Option (Tracked w) :=
  some
    { regs := next p t.regs i
      taken := t.taken ++ i.debugIn.transfer (debugInReady t.regs)
      accesses := t.accesses ++ acknowledged t.regs i
      sent := t.sent ++ (debugOut p t.regs).transfer i.debugOutReady }

/-- The requests `done` caused one access each, which carries the request, and are answered; no other
packet but the next one was begun. -/
structure Served (p : Params) (reqs : List Request) (t : Tracked w) (done todo : List Request) : Prop where
  split : reqs = done ++ todo
  accesses : List.Forall₂ Carries done t.accesses
  begun : done.flatMap Request.flits <+: t.taken ∧
    t.taken <+: (done ++ todo.take 1).flatMap Request.flits
  answered : t.sent.map DiiFlit.data <+: responses p.id done t.accesses
  idle : t.regs.state = .idle → t.taken = done.flatMap Request.flits ∧
    t.sent.map DiiFlit.data = responses p.id done t.accesses

/-- Reads only, and no invalid flit that looks like an external address. -/
def PlainRead (t : Tracked w) (i : Input) : Prop :=
  t.regs.state = .addr → t.regs.reqWrite = false ∧
    (i.debugIn.valid = false → addrIsExt i.debugIn.data = false)

/-! ## The invariant -/

def destFlit (r : Request) : DiiFlit := ⟨true, false, r.dest⟩
def headerFlit (r : Request) : DiiFlit := ⟨true, false, r.header⟩
def addrFlit (r : Request) : DiiFlit := ⟨true, !r.write, r.addr⟩

theorem Request.flits_of_read {r : Request} (hr : r.write = false) :
    r.flits = [destFlit r, headerFlit r, addrFlit r] := by
  simp [Request.flits, destFlit, headerFlit, addrFlit, hr]

/-- A response is in progress: `n` flits of it were sent. -/
def Responding (p : Params) (t : Tracked w) (done : List Request) (n : ℕ) : Prop :=
  ∃ before r earlier a, done = before ++ [r] ∧ t.accesses = earlier ++ [a] ∧
    List.Forall₂ Carries before earlier ∧ t.taken = done.flatMap Request.flits ∧
    r.write = false ∧ t.regs.reqWrite = false ∧ t.regs.respDest = r.requester ∧
    t.regs.respError = a.err ∧ t.regs.reqrespValue.setWidth 16 = a.rdata ∧
    t.sent.map DiiFlit.data = responses p.id before earlier ++ (responseData p.id r a).take n

/-- What each state says of the packet in progress. -/
def Progress (p : Params) (t : Tracked w) (done todo : List Request) : Prop :=
  match t.regs.state with
  | .idle =>
    t.taken = done.flatMap Request.flits ∧ t.sent.map DiiFlit.data = responses p.id done t.accesses
  | .start =>
    ∃ r rest, todo = r :: rest ∧ t.taken = done.flatMap Request.flits ++ [destFlit r] ∧
      t.sent.map DiiFlit.data = responses p.id done t.accesses
  | .addr =>
    ∃ r rest, todo = r :: rest ∧ t.taken = done.flatMap Request.flits ++ [destFlit r, headerFlit r] ∧
      t.regs.reqWrite = r.write ∧ t.regs.respDest = r.requester ∧
      t.sent.map DiiFlit.data = responses p.id done t.accesses
  | .extStart =>
    ∃ r rest, todo = r :: rest ∧ t.taken = done.flatMap Request.flits ++ r.flits ∧
      r.write = false ∧ t.regs.reqWrite = false ∧ t.regs.reqAddr = r.addr ∧
      t.regs.respDest = r.requester ∧ t.sent.map DiiFlit.data = responses p.id done t.accesses
  | .respStart => Responding p t done 0
  | .respSrc => Responding p t done 1
  | .respValue => Responding p t done 2
  | _ => False

structure Inv (p : Params) (reqs : List Request) (t : Tracked w) (done todo : List Request) : Prop where
  split : reqs = done ++ todo
  accesses : List.Forall₂ Carries done t.accesses
  progress : Progress p t done todo

variable {p : Params} {reqs done todo : List Request} {t t' : Tracked w} {i : Input}

/-- The flit that is taken next belongs to the next request. -/
theorem next_flit {part : List DiiFlit} (hsplit : reqs = done ++ todo)
    (htaken : t.taken = done.flatMap Request.flits ++ part) (hready : debugInReady t.regs = true)
    (hv : i.debugIn.valid = true) (hstep : cycle p t i = some t')
    (hin : t'.taken <+: reqs.flatMap Request.flits) :
    t'.taken = done.flatMap Request.flits ++ (part ++ [i.debugIn]) ∧
      ∃ r rest tail, todo = r :: rest ∧
        part ++ [i.debugIn] <+: destFlit r :: headerFlit r :: addrFlit r :: tail := by
  obtain rfl := Option.some.inj hstep
  simp only [hready, DiiFlit.transfer_of_ready hv rfl, htaken, List.append_assoc] at hin ⊢
  refine ⟨trivial, ?_⟩
  rw [hsplit, List.flatMap_append, List.prefix_append_right_inj] at hin
  cases todo with
  | nil =>
    rw [List.flatMap_nil, List.prefix_nil, List.append_eq_nil_iff] at hin
    exact absurd hin.2 (List.cons_ne_nil _ _)
  | cons r rest =>
    rw [List.flatMap_cons] at hin
    exact ⟨r, rest, _, rfl, hin⟩

/-! ## The fields of a header -/

theorem getLsbD_header (r : Request) (i : ℕ) : r.header.getLsbD i =
    if i < 10 then r.requester.getLsbD i else (control r.write).getLsbD (i - 10) :=
  BitVec.getLsbD_append

theorem header_write (r : Request) : r.header.getLsbD 12 = r.write := by
  rw [getLsbD_header]
  cases r.write <;> rfl

theorem header_type (r : Request) : r.header.extractLsb' 14 2 = 0 := by
  apply BitVec.eq_of_getLsbD_eq
  intro i hi
  rw [BitVec.getLsbD_extractLsb', getLsbD_header, if_neg (by omega)]
  obtain rfl | rfl : i = 0 ∨ i = 1 := by omega
  · cases r.write <;> rfl
  · cases r.write <;> rfl

theorem header_requester (r : Request) : r.header.extractLsb' 0 10 = r.requester := by
  apply BitVec.eq_of_getLsbD_eq
  intro i hi
  rw [BitVec.getLsbD_extractLsb', getLsbD_header, Nat.zero_add, if_pos hi, decide_eq_true hi,
    Bool.true_and]

/-! ## One cycle in each state -/

theorem responses_concat {rs : List Request} {as : List Access} (id : BitVec 10) (r : Request)
    (a : Access) (hlen : rs.length = as.length) :
    responses id (rs ++ [r]) (as ++ [a]) = responses id rs as ++ responseData id r a := by
  rw [responses, responses, List.zipWith_append hlen, List.flatten_append]
  simp

theorem cycle_of_ready (hready : debugInReady t.regs = true) (hstep : cycle p t i = some t') :
    t'.regs = next p t.regs i ∧ t'.accesses = t.accesses ∧ t'.sent = t.sent ∧
      (i.debugIn.valid = false → t'.taken = t.taken) := by
  obtain rfl := Option.some.inj hstep
  have hquiet : acknowledged t.regs i = [] ∧ debugOut p t.regs = .idle := by
    unfold debugInReady at hready
    unfold acknowledged regRequest debugOut
    cases hs : t.regs.state <;> rw [hs] at hready <;> first | exact ⟨rfl, rfl⟩ | cases hready
  refine ⟨rfl, ?_, ?_, fun hv => ?_⟩
  · simp only [hquiet.1, List.append_nil]
  · simp only [hquiet.2, DiiFlit.transfer_idle, List.append_nil]
  · simp only [DiiFlit.transfer_of_not_valid _ hv, List.append_nil]

theorem inv_idle (h : Inv p reqs t done todo) (hs : t.regs.state = .idle)
    (hstep : cycle p t i = some t') (hin : t'.taken <+: reqs.flatMap Request.flits) :
    Inv p reqs t' done todo := by
  obtain ⟨hsplit, hacc, hprog⟩ := h
  rw [Progress, hs] at hprog
  obtain ⟨htaken, hsent⟩ := hprog
  have hready : debugInReady t.regs = true := by simp only [debugInReady, hs]
  obtain ⟨hregs, haccesses, hout, hquiet⟩ := cycle_of_ready hready hstep
  refine ⟨hsplit, haccesses ▸ hacc, ?_⟩
  cases hv : i.debugIn.valid with
  | false =>
    have hnext : t'.regs = t.regs := by simp [hregs, next, hs, hv]
    rw [Progress, hnext, hs, hquiet hv, haccesses, hout]
    exact ⟨htaken, hsent⟩
  | true =>
    have hnext : t'.regs.state = .start := by simp [hregs, next, hs, hv]
    obtain ⟨htaken', r, rest, tail, htodo, hfront⟩ :=
      next_flit hsplit (by rw [List.append_nil]; exact htaken) hready hv hstep hin
    rw [List.nil_append, List.cons_prefix_cons] at hfront
    rw [Progress, hnext, haccesses, hout]
    exact ⟨r, rest, htodo, by rw [htaken', hfront.1, List.nil_append], hsent⟩

theorem inv_start (h : Inv p reqs t done todo) (hs : t.regs.state = .start)
    (hstep : cycle p t i = some t') (hin : t'.taken <+: reqs.flatMap Request.flits) :
    Inv p reqs t' done todo := by
  obtain ⟨hsplit, hacc, hprog⟩ := h
  rw [Progress, hs] at hprog
  obtain ⟨r, rest, htodo, htaken, hsent⟩ := hprog
  have hready : debugInReady t.regs = true := by simp only [debugInReady, hs]
  obtain ⟨hregs, haccesses, hout, hquiet⟩ := cycle_of_ready hready hstep
  refine ⟨hsplit, haccesses ▸ hacc, ?_⟩
  cases hv : i.debugIn.valid with
  | false =>
    have hnext : t'.regs.state = .start := by simp [hregs, next, hs, hv]
    rw [Progress, hnext, hquiet hv, haccesses, hout]
    exact ⟨r, rest, htodo, htaken, hsent⟩
  | true =>
    obtain ⟨htaken', r', rest', tail, htodo', hfront⟩ := next_flit hsplit htaken hready hv hstep hin
    obtain ⟨rfl, rfl⟩ := List.cons.inj (htodo.symm.trans htodo')
    rw [List.cons_append, List.nil_append, List.cons_prefix_cons, List.cons_prefix_cons] at hfront
    have hflit : i.debugIn = headerFlit r := hfront.2.1
    have hnext : t'.regs = { decodeHeader t.regs r.header with state := .addr } := by
      simp [hregs, next, hs, hflit, headerFlit, header_type]
    rw [Progress, hnext, haccesses, hout]
    exact ⟨r, rest, htodo, by rw [htaken', hflit]; rfl, header_write r, header_requester r, hsent⟩

theorem inv_addr (h : Inv p reqs t done todo) (hs : t.regs.state = .addr)
    (hstep : cycle p t i = some t') (hin : t'.taken <+: reqs.flatMap Request.flits)
    (hc : PlainRead t i) : Inv p reqs t' done todo := by
  obtain ⟨hsplit, hacc, hprog⟩ := h
  rw [Progress, hs] at hprog
  obtain ⟨r, rest, htodo, htaken, hwrite, hdest, hsent⟩ := hprog
  obtain ⟨hread, hplain⟩ := hc hs
  have hready : debugInReady t.regs = true := by simp only [debugInReady, hs]
  obtain ⟨hregs, haccesses, hout, hquiet⟩ := cycle_of_ready hready hstep
  refine ⟨hsplit, haccesses ▸ hacc, ?_⟩
  cases hv : i.debugIn.valid with
  | false =>
    have hnext : t'.regs = decodeAddr p t.regs i.debugIn.data := by
      simp [hregs, next, hs, hv, hplain hv]
    have hdest' : (decodeAddr p t.regs i.debugIn.data).respDest = t.regs.respDest := by
      unfold decodeAddr
      split_ifs <;> rfl
    rw [Progress, hnext, hquiet hv, haccesses, hout, decodeAddr_state, hs, decodeAddr_reqWrite, hdest']
    exact ⟨r, rest, htodo, htaken, hwrite, hdest, hsent⟩
  | true =>
    obtain ⟨htaken', r', rest', tail, htodo', hfront⟩ := next_flit hsplit htaken hready hv hstep hin
    obtain ⟨rfl, rfl⟩ := List.cons.inj (htodo.symm.trans htodo')
    simp only [List.cons_append, List.nil_append, List.cons_prefix_cons] at hfront
    have hflit : i.debugIn = addrFlit r := hfront.2.2.1
    have hr : r.write = false := hwrite ▸ hread
    have hnext : t'.regs = { t.regs with reqAddr := r.addr, state := .extStart } := by
      simp [hregs, next, hs, hflit, addrFlit, r.ext]
    rw [Progress, hnext, haccesses, hout]
    exact ⟨r, rest, htodo, by rw [htaken', hflit, Request.flits_of_read hr]; rfl, hr, hread, rfl,
      hdest, hsent⟩

theorem taken_of_not_ready (hready : debugInReady t.regs = false) (hstep : cycle p t i = some t') :
    t'.regs = next p t.regs i ∧ t'.taken = t.taken := by
  obtain rfl := Option.some.inj hstep
  simp only [hready, DiiFlit.transfer_of_not_ready _ rfl, List.append_nil, and_self]

/-- In `STATE_EXT_START` the access is requested until it is acknowledged. -/
theorem inv_extStart (h : Inv p reqs t done todo) (hs : t.regs.state = .extStart) (hw : 16 ≤ w)
    (hstep : cycle p t i = some t') : ∃ done' todo', Inv p reqs t' done' todo' := by
  obtain ⟨hsplit, hacc, hprog⟩ := h
  rw [Progress, hs] at hprog
  obtain ⟨r, rest, htodo, htaken, hr, hread, haddr, hdest, hsent⟩ := hprog
  obtain ⟨hregs, htaken'⟩ := taken_of_not_ready (by simp only [debugInReady, hs]) hstep
  have hsilent : debugOut p t.regs = .idle := by simp only [debugOut, hs]
  have hreq : regRequest t.regs = true := by simp only [regRequest, hs]
  have hout : t'.sent = t.sent := by
    obtain rfl := Option.some.inj hstep
    simp only [hsilent, DiiFlit.transfer_idle, List.append_nil]
  have haccesses : t'.accesses = t.accesses ++ acknowledged t.regs i := by
    obtain rfl := Option.some.inj hstep
    rfl
  cases hack : i.regAck || i.regErr with
  | false =>
    have hnext : t'.regs = { t.regs with reqrespValue := i.regRdata.setWidth w } := by
      simp [hregs, next, hs, hack]
    have hnone : acknowledged t.regs i = [] := by simp [acknowledged, hack]
    rw [hnone, List.append_nil] at haccesses
    refine ⟨done, todo, hsplit, haccesses ▸ hacc, ?_⟩
    rw [Progress, hnext]
    simp only [hs]
    exact ⟨r, rest, htodo, htaken' ▸ htaken, hr, hread, haddr, hdest, by rw [hout, haccesses, hsent]⟩
  | true =>
    have hnext : t'.regs = { t.regs with
        reqrespValue := i.regRdata.setWidth w, respError := i.regErr, state := .respStart } := by
      simp [hregs, next, hs, hack]
    have hone : acknowledged t.regs i =
        [⟨t.regs.reqAddr, t.regs.reqWrite, regWdata t.regs, i.regErr, i.regRdata⟩] := by
      simp [acknowledged, hreq, hack]
    rw [hone] at haccesses
    refine ⟨done ++ [r], rest, by rw [hsplit, htodo, List.append_assoc]; rfl, ?_, ?_⟩
    · rw [haccesses]
      refine List.rel_append hacc (List.Forall₂.cons ?_ List.Forall₂.nil)
      exact ⟨haddr, by rw [hread, hr], fun hr' => by rw [hr] at hr'; cases hr'⟩
    · have hstate : t'.regs.state = .respStart := by rw [hnext]
      rw [Progress, hstate]
      refine ⟨done, r, t.accesses, _, rfl, haccesses, hacc, ?_, hr, ?_, ?_, ?_, ?_, ?_⟩
      · rw [htaken', htaken, List.flatMap_append, List.flatMap_singleton]
      · rw [hnext]
        exact hread
      · rw [hnext]
        exact hdest
      · rw [hnext]
      · rw [hnext]
        simp only
        rw [BitVec.setWidth_setWidth_of_le _ hw, BitVec.setWidth_eq]
      · rw [hout, hsent, List.take_zero, List.append_nil]

theorem responding_of_sent {n : ℕ} {f : DiiFlit} (h : Responding p t done n)
    (hregs : t'.regs.reqWrite = t.regs.reqWrite ∧ t'.regs.respDest = t.regs.respDest ∧
      t'.regs.respError = t.regs.respError ∧ t'.regs.reqrespValue = t.regs.reqrespValue)
    (htaken : t'.taken = t.taken) (haccesses : t'.accesses = t.accesses)
    (hsent : t'.sent = t.sent ++ [f])
    (hf : ∀ r a, r.write = false → t.regs.respDest = r.requester → t.regs.respError = a.err →
      t.regs.reqrespValue.setWidth 16 = a.rdata → (responseData p.id r a)[n]? = some f.data) :
    Responding p t' done (n + 1) := by
  obtain ⟨before, r, earlier, a, hdone, hacc, hall, htaken0, hr, hread, hdest, herr, hvalue, hout⟩ := h
  refine ⟨before, r, earlier, a, hdone, haccesses ▸ hacc, hall, htaken ▸ htaken0, hr,
    hregs.1 ▸ hread, hregs.2.1 ▸ hdest, hregs.2.2.1 ▸ herr, hregs.2.2.2 ▸ hvalue, ?_⟩
  rw [hsent, List.map_append, hout, List.take_add_one, hf r a hr hdest herr hvalue, List.append_assoc]
  rfl

/-- In the response states nothing happens until `debug_out` is ready. -/
theorem cycle_of_responding (hs : t.regs.state = .respStart ∨ t.regs.state = .respSrc ∨
    t.regs.state = .respValue) (hstep : cycle p t i = some t') :
    t'.taken = t.taken ∧ t'.accesses = t.accesses ∧
      (i.debugOutReady = false → t' = t) ∧
      (i.debugOutReady = true → t'.sent = t.sent ++ [debugOut p t.regs]) := by
  obtain rfl := Option.some.inj hstep
  have hready : debugInReady t.regs = false := by
    rcases hs with hs | hs | hs <;> simp only [debugInReady, hs]
  have hnone : acknowledged t.regs i = [] := by
    rcases hs with hs | hs | hs <;> simp [acknowledged, regRequest, hs]
  have hvalid : (debugOut p t.regs).valid = true := by
    rcases hs with hs | hs | hs <;> simp [debugOut, hs]
  simp only [hready, hnone, DiiFlit.transfer_of_not_ready _ rfl, List.append_nil, true_and]
  constructor
  · intro hout
    have hnext : next p t.regs i = t.regs := by
      rcases hs with hs | hs | hs <;> simp [next, hs, hout]
    rw [hnext, DiiFlit.transfer_of_not_ready _ hout, List.append_nil]
  · intro hout
    rw [DiiFlit.transfer_of_ready hvalid hout]

theorem inv_responding (h : Inv p reqs t done todo)
    (hs : t.regs.state = .respStart ∨ t.regs.state = .respSrc ∨ t.regs.state = .respValue)
    (hstep : cycle p t i = some t') : Inv p reqs t' done todo := by
  obtain ⟨htaken, haccesses, hquiet, hsent⟩ := cycle_of_responding hs hstep
  cases hout : i.debugOutReady with
  | false => rwa [hquiet hout]
  | true =>
    have hsent := hsent hout
    have hregs : t'.regs = next p t.regs i := by
      obtain rfl := Option.some.inj hstep
      rfl
    obtain ⟨hsplit, hacc, hprog⟩ := h
    refine ⟨hsplit, haccesses ▸ hacc, ?_⟩
    obtain hs | hs | hs := hs
    · rw [Progress, hs] at hprog
      have hnext : t'.regs = { t.regs with state := .respSrc } := by simp [hregs, next, hs, hout]
      have hstate : t'.regs.state = .respSrc := by rw [hnext]
      rw [Progress, hstate]
      refine responding_of_sent hprog (by simp [hnext]) htaken haccesses hsent ?_
      intro r a hr hdest herr hvalue
      simp [responseData, debugOut, hs, hdest]
    · rw [Progress, hs] at hprog
      have hread : t.regs.reqWrite = false := by
        obtain ⟨-, -, -, -, -, -, -, -, -, hread, -⟩ := hprog
        exact hread
      have hnext : t'.regs = { t.regs with state := .respValue } := by
        simp [hregs, next, hs, hout, hread]
      have hstate : t'.regs.state = .respValue := by rw [hnext]
      rw [Progress, hstate]
      refine responding_of_sent hprog (by simp [hnext]) htaken haccesses hsent ?_
      intro r a hr hdest herr hvalue
      simp [responseData, debugOut, hs, hr, hread, herr]
    · rw [Progress, hs] at hprog
      have hnext : t'.regs = { t.regs with state := .idle } := by simp [hregs, next, hs, hout]
      have hstate : t'.regs.state = .idle := by rw [hnext]
      have hall : Responding p t' done 3 := by
        refine responding_of_sent hprog (by simp [hnext]) htaken haccesses hsent ?_
        intro r a hr hdest herr hvalue
        simp [responseData, debugOut, hs, hr, hvalue]
      obtain ⟨before, r, earlier, a, rfl, hacc', hcarried, htaken', hr, -, -, -, -, hsent'⟩ := hall
      rw [Progress, hstate]
      refine ⟨htaken', ?_⟩
      have hlen : (responseData p.id r a).length = 3 := by simp [responseData, hr]
      rw [hsent', hacc', responses_concat _ _ _ hcarried.length_eq, List.take_of_length_le hlen.le]

theorem inv_cycle (h : Inv p reqs t done todo) (hw : 16 ≤ w) (hc : PlainRead t i)
    (hstep : cycle p t i = some t') (hin : t'.taken <+: reqs.flatMap Request.flits) :
    ∃ done' todo', Inv p reqs t' done' todo' := by
  cases hs : t.regs.state with
  | idle => exact ⟨done, todo, inv_idle h hs hstep hin⟩
  | start => exact ⟨done, todo, inv_start h hs hstep hin⟩
  | addr => exact ⟨done, todo, inv_addr h hs hstep hin hc⟩
  | extStart => exact inv_extStart h hs hw hstep
  | respStart => exact ⟨done, todo, inv_responding h (Or.inl hs) hstep⟩
  | respSrc => exact ⟨done, todo, inv_responding h (Or.inr (Or.inl hs)) hstep⟩
  | respValue => exact ⟨done, todo, inv_responding h (Or.inr (Or.inr hs)) hstep⟩
  | write | drop | extWait =>
    have hprog := h.progress
    rw [Progress, hs] at hprog
    exact hprog.elim

theorem begun_of_part {part : List DiiFlit} {r : Request} {rest : List Request} (htodo : todo = r :: rest)
    (htaken : t.taken = done.flatMap Request.flits ++ part) (hpart : part <+: r.flits) :
    done.flatMap Request.flits <+: t.taken ∧
      t.taken <+: (done ++ todo.take 1).flatMap Request.flits := by
  refine ⟨⟨part, htaken.symm⟩, ?_⟩
  rw [htaken, htodo, List.take_succ_cons, List.take_zero, List.flatMap_append, List.flatMap_singleton,
    List.prefix_append_right_inj]
  exact hpart

theorem begun_of_eq (htaken : t.taken = done.flatMap Request.flits) :
    done.flatMap Request.flits <+: t.taken ∧
      t.taken <+: (done ++ todo.take 1).flatMap Request.flits := by
  rw [htaken, List.flatMap_append]
  exact ⟨List.prefix_rfl, List.prefix_append _ _⟩

theorem Responding.answered {n : ℕ} (h : Responding p t done n) :
    t.sent.map DiiFlit.data <+: responses p.id done t.accesses ∧
      t.taken = done.flatMap Request.flits := by
  obtain ⟨before, r, earlier, a, rfl, hacc, hcarried, htaken, -, -, -, -, -, hsent⟩ := h
  refine ⟨?_, htaken⟩
  rw [hsent, hacc, responses_concat _ _ _ hcarried.length_eq, List.prefix_append_right_inj]
  exact List.take_prefix _ _

theorem Inv.served (h : Inv p reqs t done todo) : Served p reqs t done todo := by
  obtain ⟨hsplit, hacc, hprog⟩ := h
  cases hs : t.regs.state with
  | idle =>
    rw [Progress, hs] at hprog
    exact ⟨hsplit, hacc, begun_of_eq hprog.1, hprog.2 ▸ List.prefix_rfl, fun _ => hprog⟩
  | start =>
    rw [Progress, hs] at hprog
    obtain ⟨r, rest, htodo, htaken, hsent⟩ := hprog
    refine ⟨hsplit, hacc, begun_of_part htodo htaken ⟨_, rfl⟩, hsent ▸ List.prefix_rfl, ?_⟩
    rw [hs]
    rintro ⟨⟩
  | addr =>
    rw [Progress, hs] at hprog
    obtain ⟨r, rest, htodo, htaken, -, -, hsent⟩ := hprog
    refine ⟨hsplit, hacc, begun_of_part htodo htaken ⟨_, rfl⟩, hsent ▸ List.prefix_rfl, ?_⟩
    rw [hs]
    rintro ⟨⟩
  | extStart =>
    rw [Progress, hs] at hprog
    obtain ⟨r, rest, htodo, htaken, -, -, -, -, hsent⟩ := hprog
    refine ⟨hsplit, hacc, begun_of_part htodo htaken List.prefix_rfl, hsent ▸ List.prefix_rfl, ?_⟩
    rw [hs]
    rintro ⟨⟩
  | respStart | respSrc | respValue =>
    rw [Progress, hs] at hprog
    refine ⟨hsplit, hacc, begun_of_eq hprog.answered.2, hprog.answered.1, ?_⟩
    rw [hs]
    rintro ⟨⟩
  | write | drop | extWait =>
    rw [Progress, hs] at hprog
    exact hprog.elim

/-- **Accesses carry their requests.** While the requests are reads, and no invalid flit looks like an
external address, every request causes one access of its own and is answered with its result. -/
theorem served_of_plainRead (hw : 16 ≤ w) (p : Params) (s : Regs w) (hs : IsReset s)
    (reqs : List Request) (inputs : List Input)
    (htakes : Takes (cycle p) PlainRead ⟨s, [], [], []⟩ inputs) :
    Passes (cycle p)
      (fun t => t.taken <+: reqs.flatMap Request.flits → ∃ done todo, Served p reqs t done todo)
      ⟨s, [], [], []⟩ inputs := by
  have hstart : Inv p reqs (⟨s, [], [], []⟩ : Tracked w) [] reqs := by
    refine ⟨rfl, List.Forall₂.nil, ?_⟩
    rw [Progress, hs.1]
    exact ⟨rfl, rfl⟩
  have hpass : Passes (cycle p)
      (fun t => t.taken <+: reqs.flatMap Request.flits → ∃ done todo, Inv p reqs t done todo)
      ⟨s, [], [], []⟩ inputs := by
    refine htakes.passes ?_ fun _ => ⟨[], reqs, hstart⟩
    intro t i t' hinv hc hstep hin
    have hbefore : t.taken <+: t'.taken := by
      obtain rfl := Option.some.inj hstep
      exact List.prefix_append _ _
    obtain ⟨done, todo, h⟩ := hinv (hbefore.trans hin)
    exact inv_cycle h hw hc hstep hin
  refine hpass.mono fun t ht hin => ?_
  obtain ⟨done, todo, h⟩ := ht hin
  exact ⟨done, todo, h.served⟩

instance (t : Tracked w) (i : Input) : Decidable (PlainRead t i) :=
  inferInstanceAs (Decidable (_ → _))

/-- A cycle with a valid flit on `debug_in`; accesses are acknowledged at once. -/
def offer (last : Bool) (data : BitVec 16) : Input := ⟨⟨true, last, data⟩, true, true, false, 0x17⟩

def readRequest : Request := ⟨0, false, 5, 0x201, by decide, 0⟩

theorem read_served :
    Passes (cycle scmParams)
      (fun t => t.taken <+: [readRequest].flatMap Request.flits →
        ∃ done todo, Served scmParams [readRequest] t done todo)
      ⟨resetRegs, [], [], []⟩
      [offer false 0, offer false 0x405, offer true 0x201, offer false 0, offer false 0, offer false 0,
        offer false 0] :=
  served_of_plainRead (by decide) scmParams resetRegs ⟨rfl, rfl⟩ [readRequest] _ (by decide)

/-- A write, as it is used for the system reset. -/
def writeRequest : Request := ⟨0, true, 5, 0x203, by decide, 1⟩

/-- The access of a write is acknowledged before its value is taken. -/
theorem write_not_served :
    ∃ t, runFrom (cycle scmParams) ⟨resetRegs, [], [], []⟩
        [offer false 0, offer false 0x1405, offer false 0x203, offer true 1] = some t ∧
      t.taken <+: [writeRequest].flatMap Request.flits ∧
      ¬ ∃ done todo, Served scmParams [writeRequest] t done todo := by
  refine ⟨_, rfl, by decide, ?_⟩
  rintro ⟨done, todo, h⟩
  have hacc := h.accesses
  have hlen : done.length = 1 := hacc.length_eq
  obtain ⟨r, rfl⟩ := List.length_eq_one_iff.mp hlen
  obtain ⟨rfl, -⟩ := List.cons.inj h.split
  cases hacc with
  | cons hcarries _ => exact absurd (hcarries.2.2 rfl) (by decide)

end GlipOsd.Statctrlif.ExternalAccess
