import GlipOsd.Statctrlif.Responses

/-! # The system control module

`osd_scm`: the status and control interface with the registers that describe the system. A stream of read
requests on `debug_in` is answered with the values of the registers, one answer for each request, as long as
the address follows the header of a request at once.
-/

namespace GlipOsd.Scm
open Runs Statctrlif
set_option autoImplicit false

/-- The parameters, as far as a register shows them. -/
structure Config where
  systemid : BitVec 16
  numMod : BitVec 16
  maxPktLen : BitVec 16

/-- The instance of `osd_statctrlif`. -/
def params (id : BitVec 10) : Params := ⟨1, 0, false, id⟩

/-- The register file; without a value `reg_err` is set and `reg_rdata` is `x`. -/
def regRdata (c : Config) (addr : BitVec 16) : Option (BitVec 16) :=
  if addr = 0x200 then some c.systemid
  else if addr = 0x201 then some c.numMod
  else if addr = 0x202 then some c.maxPktLen
  else none

/-- The inputs of `u_statctrlif`. -/
def input (c : Config) (s : Regs 16) (debugIn : DiiFlit) (debugOutReady : Bool) : Statctrlif.Input where
  debugIn := debugIn
  debugOutReady := debugOutReady
  regAck := true
  regErr := regRequest s && (regRdata c s.reqAddr).isNone
  regRdata := (regRdata c s.reqAddr).getD 0

/-- The registers, and as history the flits transferred on `debug_in` and on `debug_out`. -/
structure Tracked where
  regs : Regs 16
  taken : List DiiFlit
  sent : List DiiFlit
  deriving DecidableEq

/-- The flit on `debug_in` and `debug_out_ready`. -/
structure Cycle where
  debugIn : DiiFlit
  debugOutReady : Bool

def cycle (c : Config) (id : BitVec 10) (t : Tracked) (i : Cycle) : Option Tracked :=
  some
    { regs := next (params id) t.regs (input c t.regs i.debugIn i.debugOutReady)
      taken := t.taken ++ i.debugIn.transfer (debugInReady t.regs)
      sent := t.sent ++ (debugOut (params id) t.regs).transfer i.debugOutReady }

/-! ## Requests and answers -/

/-- The registers that can be read, with those of the status and control interface. -/
def registers : List (BitVec 16) := [regModid, regVersion, 0x200, 0x201, 0x202]

def value (c : Config) (addr : BitVec 16) : BitVec 16 :=
  if addr = regModid then 1 else if addr = regVersion then 0 else (regRdata c addr).getD 0

/-- A packet that reads a register. The type of the packet is 0, its size does not matter. -/
structure Request where
  dest : BitVec 16
  header : BitVec 16
  addr : BitVec 16
  register : header.extractLsb' 14 2 = 0
  read : header.getLsbD 12 = false
  known : addr ∈ registers

namespace Request

def flits (r : Request) : List DiiFlit := [⟨true, false, r.dest⟩, ⟨true, false, r.header⟩, ⟨true, true, r.addr⟩]

def requester (r : Request) : BitVec 10 := r.header.extractLsb' 0 10

def answer (c : Config) (id : BitVec 10) (r : Request) : List DiiFlit :=
  Responses.response id r.requester false false (value c r.addr)

/-- The registers that are not in the status and control interface are in the register file. -/
theorem local_or_ext (c : Config) (r : Request) :
    addrIsExt r.addr = false ∧ (r.addr = regModid ∨ r.addr = regVersion) ∨
      addrIsExt r.addr = true ∧ regRdata c r.addr = some (value c r.addr) := by
  have hknown := r.known
  simp only [registers, List.mem_cons, List.not_mem_nil, or_false] at hknown
  obtain haddr | haddr | haddr | haddr | haddr := hknown <;> rw [haddr]
  · exact .inl ⟨rfl, .inl rfl⟩
  · exact .inl ⟨rfl, .inr rfl⟩
  all_goals exact .inr ⟨rfl, rfl⟩

end Request

/-- The address is at the port as soon as it is awaited: what is there instead would be used. -/
def Prompt (t : Tracked) (i : Cycle) : Prop := t.regs.state = .addr → i.debugIn.valid = true

instance (t : Tracked) (i : Cycle) : Decidable (Prompt t i) := inferInstanceAs (Decidable (_ → _))

/-! ## The invariant -/

section Invariant
variable (c : Config) (id : BitVec 10) (t : Tracked) (done todo : List Request)

/-- The requests `done` are answered. -/
structure Between : Prop where
  taken : t.taken = done.flatMap Request.flits
  sent : t.sent = done.flatMap (Request.answer c id)

/-- Of the request `r` the first `k` flits are taken, and the first `n` flits of its answer are sent. -/
structure Within (k n : ℕ) (r : Request) : Prop where
  next : todo.head? = some r
  taken : t.taken = done.flatMap Request.flits ++ r.flits.take k
  sent : t.sent = done.flatMap (Request.answer c id) ++ (r.answer c id).take n

/-- The registers have what they need of the header. -/
structure Decoded (r : Request) : Prop where
  reqWrite : t.regs.reqWrite = false
  respDest : t.regs.respDest = r.requester
  respError : t.regs.respError = false

def Responding (n : ℕ) : Prop :=
  ∃ r, Within c id t done todo 3 n r ∧ Decoded t r ∧ t.regs.reqrespValue = value c r.addr

def Progress : Prop :=
  match t.regs.state with
  | .idle => Between c id t done
  | .start => ∃ r, Within c id t done todo 1 0 r
  | .addr => ∃ r, Within c id t done todo 2 0 r ∧ Decoded t r
  | .extStart => ∃ r, Within c id t done todo 3 0 r ∧ Decoded t r ∧ t.regs.reqAddr = r.addr ∧ addrIsExt r.addr = true
  | .respStart => Responding c id t done todo 0
  | .respSrc => Responding c id t done todo 1
  | .respValue => Responding c id t done todo 2
  | _ => False

structure Inv (reqs : List Request) : Prop where
  split : reqs = done ++ todo
  progress : Progress c id t done todo

end Invariant

/-- Nothing is taken behind the next request, and of its answer nothing is sent before it is taken as a whole. -/
structure Served (c : Config) (id : BitVec 10) (reqs : List Request) (t : Tracked) (done todo : List Request) :
    Prop where
  split : reqs = done ++ todo
  begun : done.flatMap Request.flits <+: t.taken ∧ t.taken <+: (done ++ todo.take 1).flatMap Request.flits
  answered : done.flatMap (Request.answer c id) <+: t.sent ∧
    t.sent <+: (done ++ todo.take 1).flatMap (Request.answer c id)
  whole : t.sent = done.flatMap (Request.answer c id) ∨ t.taken = (done ++ todo.take 1).flatMap Request.flits
  idle : t.regs.state = .idle → t.taken = done.flatMap Request.flits ∧ t.sent = done.flatMap (Request.answer c id)

/-! ## One cycle -/

theorem take_of_prefix {α : Type*} {xs ys : List α} {x : α} {k : ℕ} (hk : k < xs.length)
    (h : xs.take k ++ [x] <+: xs ++ ys) : xs[k]? = some x ∧ xs.take k ++ [x] = xs.take (k + 1) := by
  have hlength : (xs.take k ++ [x]).length = k + 1 := by
    rw [List.length_append, List.length_take_of_le hk.le, List.length_singleton]
  have heq : xs.take k ++ [x] = xs.take (k + 1) := by
    rw [List.prefix_iff_eq_take.mp h, hlength, List.take_append_of_le_length hk]
  refine ⟨?_, heq⟩
  rw [List.take_add_one, List.append_cancel_left_eq] at heq
  cases hx : xs[k]? with
  | none =>
    rw [hx] at heq
    cases heq
  | some y =>
    rw [hx] at heq
    exact congrArg some (List.singleton_inj.mp heq).symm

section Steps
variable {c : Config} {id : BitVec 10} {reqs done todo : List Request} {t t' : Tracked} {i : Cycle}

theorem cycle_of_ready (hready : debugInReady t.regs = true) (hstep : cycle c id t i = some t') :
    t'.taken = t.taken ++ i.debugIn.transfer true ∧ t'.sent = t.sent := by
  obtain rfl := Option.some.inj hstep
  have hidle : debugOut (params id) t.regs = .idle := by
    unfold debugInReady at hready
    unfold debugOut
    cases hs : t.regs.state <;> rw [hs] at hready <;> first | rfl | cases hready
  simp only [hready, hidle, DiiFlit.transfer_idle, List.append_nil, and_self]

theorem regs_of_cycle (hstep : cycle c id t i = some t') :
    t'.regs = next (params id) t.regs (input c t.regs i.debugIn i.debugOutReady) := by
  obtain rfl := Option.some.inj hstep
  rfl

theorem Decoded.congr {r : Request} (h : Decoded t r) (hwrite : t'.regs.reqWrite = t.regs.reqWrite)
    (hdest : t'.regs.respDest = t.regs.respDest) (herror : t'.regs.respError = t.regs.respError) : Decoded t' r :=
  ⟨hwrite.trans h.reqWrite, hdest.trans h.respDest, herror.trans h.respError⟩

/-- The flit that is taken next belongs to the next request. -/
theorem next_flit {r : Request} {k n : ℕ} (h : Within c id t done todo k n r) (hsplit : reqs = done ++ todo)
    (hk : k < 3) (hready : debugInReady t.regs = true) (hv : i.debugIn.valid = true)
    (hstep : cycle c id t i = some t') (hin : t'.taken <+: reqs.flatMap Request.flits) :
    r.flits[k]? = some i.debugIn ∧ Within c id t' done todo (k + 1) n r := by
  obtain ⟨htaken, hsent⟩ := cycle_of_ready hready hstep
  rw [DiiFlit.transfer_of_ready hv rfl, h.taken, List.append_assoc] at htaken
  obtain ⟨rest, rfl⟩ : ∃ rest, todo = r :: rest := List.head?_eq_some_iff.mp h.next
  rw [htaken, hsplit, List.flatMap_append, List.prefix_append_right_inj, List.flatMap_cons] at hin
  have hlength : k < r.flits.length := hk
  obtain ⟨hflit, heq⟩ := take_of_prefix hlength hin
  exact ⟨hflit, h.next, by rw [htaken, heq], by rw [hsent, h.sent]⟩

theorem inv_idle (h : Inv c id t done todo reqs) (hs : t.regs.state = .idle) (hstep : cycle c id t i = some t')
    (hin : t'.taken <+: reqs.flatMap Request.flits) : Inv c id t' done todo reqs := by
  obtain ⟨hsplit, hprog⟩ := h
  rw [Progress, hs] at hprog
  have hready : debugInReady t.regs = true := by simp [debugInReady, hs]
  have hregs := regs_of_cycle hstep
  obtain ⟨htaken, hsent⟩ := cycle_of_ready hready hstep
  cases hv : i.debugIn.valid with
  | false =>
    have hstate : t'.regs.state = .idle := by simp [hregs, next, hs, input, hv]
    rw [DiiFlit.transfer_of_not_valid true hv, List.append_nil] at htaken
    refine ⟨hsplit, ?_⟩
    rw [Progress, hstate]
    exact ⟨htaken.trans hprog.taken, hsent.trans hprog.sent⟩
  | true =>
    have hstate : t'.regs.state = .start := by simp [hregs, next, hs, input, hv]
    -- there is a next request, because a flit of it is taken
    have hmore : todo ≠ [] := by
      rintro rfl
      have hlength := hin.length_le
      rw [htaken, DiiFlit.transfer_of_ready hv rfl, hprog.taken, hsplit, List.append_nil, List.length_append,
        List.length_singleton] at hlength
      omega
    obtain ⟨r, rest, rfl⟩ := List.exists_cons_of_ne_nil hmore
    have hwithin : Within c id t done (r :: rest) 0 0 r :=
      ⟨rfl, by simpa using hprog.taken, by simpa using hprog.sent⟩
    refine ⟨hsplit, ?_⟩
    rw [Progress, hstate]
    exact ⟨r, (next_flit hwithin hsplit (by decide) hready hv hstep hin).2⟩

theorem inv_start (h : Inv c id t done todo reqs) (hs : t.regs.state = .start) (hstep : cycle c id t i = some t')
    (hin : t'.taken <+: reqs.flatMap Request.flits) : Inv c id t' done todo reqs := by
  obtain ⟨hsplit, hprog⟩ := h
  rw [Progress, hs] at hprog
  obtain ⟨r, hwithin⟩ := hprog
  have hready : debugInReady t.regs = true := by simp [debugInReady, hs]
  have hregs := regs_of_cycle hstep
  obtain ⟨htaken, hsent⟩ := cycle_of_ready hready hstep
  refine ⟨hsplit, ?_⟩
  cases hv : i.debugIn.valid with
  | false =>
    have hstate : t'.regs.state = .start := by simp [hregs, next, hs, input, hv]
    rw [DiiFlit.transfer_of_not_valid true hv, List.append_nil] at htaken
    rw [Progress, hstate]
    exact ⟨r, hwithin.next, htaken.trans hwithin.taken, hsent.trans hwithin.sent⟩
  | true =>
    obtain ⟨hflit, hwithin'⟩ := next_flit hwithin hsplit (by decide) hready hv hstep hin
    have hdata : i.debugIn.data = r.header := (congrArg DiiFlit.data (Option.some.inj hflit)).symm
    have hnext : t'.regs = { decodeHeader t.regs r.header with state := .addr } := by
      rw [hregs]
      simp only [next, hs, input, hv, hdata, r.register, ne_eq, not_true_eq_false, if_false, if_true]
    rw [Progress, hnext]
    exact ⟨r, hwithin', by rw [hnext]; exact r.read, by rw [hnext]; rfl, by rw [hnext]; rfl⟩

/-- The address is decoded in the cycle in which it is taken. -/
theorem inv_addr (h : Inv c id t done todo reqs) (hs : t.regs.state = .addr) (hprompt : Prompt t i)
    (hstep : cycle c id t i = some t') (hin : t'.taken <+: reqs.flatMap Request.flits) :
    Inv c id t' done todo reqs := by
  obtain ⟨hsplit, hprog⟩ := h
  rw [Progress, hs] at hprog
  obtain ⟨r, hwithin, hdecoded⟩ := hprog
  have hv := hprompt hs
  have hready : debugInReady t.regs = true := by simp [debugInReady, hs]
  have hregs := regs_of_cycle hstep
  obtain ⟨hflit, hwithin'⟩ := next_flit hwithin hsplit (by decide) hready hv hstep hin
  have heq : i.debugIn = ⟨true, true, r.addr⟩ := (Option.some.inj hflit).symm
  have hwrite := hdecoded.reqWrite
  refine ⟨hsplit, ?_⟩
  cases hext : addrIsExt r.addr with
  | true =>
    have hnext : t'.regs = { t.regs with reqAddr := r.addr, state := .extStart } := by
      rw [hregs]
      simp only [next, hs, input, heq, hext, if_true]
    rw [Progress, hnext]
    exact ⟨r, hwithin', hdecoded.congr (by rw [hnext]) (by rw [hnext]) (by rw [hnext]), rfl, hext⟩
  | false =>
    obtain ⟨-, hlocal⟩ | ⟨hnot, -⟩ := r.local_or_ext c
    case inr => rw [hext] at hnot; cases hnot
    have hnext : t'.regs = { t.regs with reqrespValue := value c r.addr, state := .respStart } := by
      rw [hregs]
      simp only [next, hs, input, heq, hext, decodeAddr, hwrite, acceptAddr, Bool.false_eq_true, if_false, if_true]
      obtain haddr | haddr := hlocal
      · simp [haddr, params, value]
      · simp [haddr, params, value, show ¬ regVersion = regModid by decide]
    rw [Progress, hnext]
    exact ⟨r, hwithin', hdecoded.congr (by rw [hnext]) (by rw [hnext]) (by rw [hnext]), by rw [hnext]⟩

theorem taken_of_not_ready (hready : debugInReady t.regs = false) (hstep : cycle c id t i = some t') :
    t'.taken = t.taken := by
  obtain rfl := Option.some.inj hstep
  simp only [hready, DiiFlit.transfer_of_not_ready _ rfl, List.append_nil]

/-- The access is acknowledged at once. -/
theorem inv_extStart (h : Inv c id t done todo reqs) (hs : t.regs.state = .extStart)
    (hstep : cycle c id t i = some t') : Inv c id t' done todo reqs := by
  obtain ⟨hsplit, hprog⟩ := h
  rw [Progress, hs] at hprog
  obtain ⟨r, hwithin, hdecoded, haddr, hext⟩ := hprog
  have hregs := regs_of_cycle hstep
  have htaken := taken_of_not_ready (by simp [debugInReady, hs]) hstep
  have hsent : t'.sent = t.sent := by
    obtain rfl := Option.some.inj hstep
    have hidle : debugOut (params id) t.regs = .idle := by simp [debugOut, hs]
    simp only [hidle, DiiFlit.transfer_idle, List.append_nil]
  obtain ⟨hnot, -⟩ | ⟨-, hvalue⟩ := r.local_or_ext c
  case inl => rw [hext] at hnot; cases hnot
  have hnext : t'.regs =
      { t.regs with reqrespValue := value c r.addr, respError := false, state := .respStart } := by
    rw [hregs]
    simp [next, hs, input, haddr, hvalue, regRequest]
  refine ⟨hsplit, ?_⟩
  rw [Progress, hnext]
  refine ⟨r, ⟨hwithin.next, htaken.trans hwithin.taken, hsent.trans hwithin.sent⟩, ?_, by rw [hnext]⟩
  exact hdecoded.congr (by rw [hnext]) (by rw [hnext]) (by rw [hnext, hdecoded.respError])

/-- What is on `debug_out` is the next flit of the answer. -/
theorem debugOut_eq {n : ℕ} {r : Request} (h : Decoded t r) (hvalue : t.regs.reqrespValue = value c r.addr)
    (hs : t.regs.state = .respStart ∧ n = 0 ∨ t.regs.state = .respSrc ∧ n = 1 ∨ t.regs.state = .respValue ∧ n = 2) :
    (r.answer c id)[n]? = some (debugOut (params id) t.regs) ∧ (debugOut (params id) t.regs).valid = true := by
  obtain ⟨hs, rfl⟩ | ⟨hs, rfl⟩ | ⟨hs, rfl⟩ := hs
  · simp [Request.answer, Responses.response, debugOut, hs, h.respDest]
  · simp [Request.answer, Responses.response, Responses.header, debugOut, hs, h.respError, h.reqWrite, params]
  · simp [Request.answer, Responses.response, debugOut, hs, hvalue]

theorem responding_of_sent {n : ℕ} {r : Request} (hwithin : Within c id t done todo 3 n r) (hdecoded : Decoded t r)
    (hvalue : t.regs.reqrespValue = value c r.addr)
    (hs : t.regs.state = .respStart ∧ n = 0 ∨ t.regs.state = .respSrc ∧ n = 1 ∨ t.regs.state = .respValue ∧ n = 2)
    (hready : i.debugOutReady = true) (hstep : cycle c id t i = some t') :
    Within c id t' done todo 3 (n + 1) r ∧
      t'.regs = { t.regs with state := match n with | 0 => .respSrc | 1 => .respValue | _ => .idle } := by
  have hregs := regs_of_cycle hstep
  have htaken := taken_of_not_ready (by obtain ⟨hs, -⟩ | ⟨hs, -⟩ | ⟨hs, -⟩ := hs <;> simp [debugInReady, hs]) hstep
  obtain ⟨hflit, hvalid⟩ : (r.answer c id)[n]? = some (debugOut (params id) t.regs) ∧
      (debugOut (params id) t.regs).valid = true := debugOut_eq hdecoded hvalue hs
  refine ⟨⟨hwithin.next, htaken.trans hwithin.taken, ?_⟩, ?_⟩
  · obtain rfl := Option.some.inj hstep
    simp only [DiiFlit.transfer_of_ready hvalid hready, hwithin.sent, List.append_assoc]
    rw [List.take_add_one, hflit, Option.toList_some]
  · have hwrite := hdecoded.reqWrite
    rw [hregs]
    obtain ⟨hs, rfl⟩ | ⟨hs, rfl⟩ | ⟨hs, rfl⟩ := hs <;> simp [next, hs, input, hready, hwrite]

/-- In the response states nothing happens until `debug_out` is ready. -/
theorem cycle_of_responding (hs : t.regs.state = .respStart ∨ t.regs.state = .respSrc ∨ t.regs.state = .respValue)
    (hready : i.debugOutReady = false) : cycle c id t i = some t := by
  have hnext : next (params id) t.regs (input c t.regs i.debugIn i.debugOutReady) = t.regs := by
    obtain hs | hs | hs := hs <;> simp [next, hs, input, hready]
  have hin : debugInReady t.regs = false := by
    obtain hs | hs | hs := hs <;> simp [debugInReady, hs]
  rw [cycle, hnext, hin, hready, DiiFlit.transfer_of_not_ready _ rfl, DiiFlit.transfer_of_not_ready _ rfl,
    List.append_nil, List.append_nil]

/-- In the states of a response, the state tells how much of it is sent. -/
theorem Inv.responding (h : Inv c id t done todo reqs)
    (hs : t.regs.state = .respStart ∨ t.regs.state = .respSrc ∨ t.regs.state = .respValue) :
    ∃ n, (t.regs.state = .respStart ∧ n = 0 ∨ t.regs.state = .respSrc ∧ n = 1 ∨ t.regs.state = .respValue ∧ n = 2) ∧
      Responding c id t done todo n := by
  have hprog := h.progress
  obtain hs | hs | hs := hs <;> rw [Progress, hs] at hprog
  · exact ⟨0, .inl ⟨hs, rfl⟩, hprog⟩
  · exact ⟨1, .inr (.inl ⟨hs, rfl⟩), hprog⟩
  · exact ⟨2, .inr (.inr ⟨hs, rfl⟩), hprog⟩

theorem inv_responding (h : Inv c id t done todo reqs)
    (hs : t.regs.state = .respStart ∨ t.regs.state = .respSrc ∨ t.regs.state = .respValue)
    (hstep : cycle c id t i = some t') : ∃ done' todo', Inv c id t' done' todo' reqs := by
  cases hready : i.debugOutReady with
  | false =>
    obtain rfl := Option.some.inj ((cycle_of_responding hs hready).symm.trans hstep)
    exact ⟨done, todo, h⟩
  | true =>
    obtain ⟨n, hn, r, hwithin, hdecoded, hvalue⟩ := h.responding hs
    obtain ⟨hwithin', hnext⟩ := responding_of_sent hwithin hdecoded hvalue hn hready hstep
    have hdecoded' : Decoded t' r := hdecoded.congr (by rw [hnext]) (by rw [hnext]) (by rw [hnext])
    have hvalue' : t'.regs.reqrespValue = value c r.addr := by rw [hnext, hvalue]
    obtain ⟨_, rfl⟩ | ⟨_, rfl⟩ | ⟨_, rfl⟩ := hn
    · refine ⟨done, todo, h.split, ?_⟩
      rw [Progress, hnext]
      exact ⟨r, hwithin', hdecoded', hvalue'⟩
    · refine ⟨done, todo, h.split, ?_⟩
      rw [Progress, hnext]
      exact ⟨r, hwithin', hdecoded', hvalue'⟩
    · -- the request is answered
      obtain ⟨rest, rfl⟩ : ∃ rest, todo = r :: rest := List.head?_eq_some_iff.mp hwithin.next
      refine ⟨done ++ [r], rest, by rw [h.split, List.append_assoc, List.singleton_append], ?_⟩
      rw [Progress, hnext]
      refine ⟨?_, ?_⟩
      · rw [hwithin'.taken, List.flatMap_append, List.flatMap_singleton]
        rfl
      · rw [hwithin'.sent, List.flatMap_append, List.flatMap_singleton]
        rfl

theorem inv_cycle (h : Inv c id t done todo reqs) (hprompt : Prompt t i) (hstep : cycle c id t i = some t')
    (hin : t'.taken <+: reqs.flatMap Request.flits) : ∃ done' todo', Inv c id t' done' todo' reqs := by
  cases hs : t.regs.state with
  | idle => exact ⟨done, todo, inv_idle h hs hstep hin⟩
  | start => exact ⟨done, todo, inv_start h hs hstep hin⟩
  | addr => exact ⟨done, todo, inv_addr h hs hprompt hstep hin⟩
  | extStart => exact ⟨done, todo, inv_extStart h hs hstep⟩
  | respStart => exact inv_responding h (.inl hs) hstep
  | respSrc => exact inv_responding h (.inr (.inl hs)) hstep
  | respValue => exact inv_responding h (.inr (.inr hs)) hstep
  | write | drop | extWait =>
    have hprog := h.progress
    rw [Progress, hs] at hprog
    exact hprog.elim

end Steps

/-! ## Runs -/

section Runs
variable {c : Config} {id : BitVec 10} {reqs done todo : List Request} {t : Tracked}

theorem Between.served (h : Between c id t done) (hsplit : reqs = done ++ todo) : Served c id reqs t done todo := by
  refine ⟨hsplit, ?_, ?_, .inl h.sent, fun _ => ⟨h.taken, h.sent⟩⟩
  · rw [h.taken, List.flatMap_append]
    exact ⟨List.prefix_rfl, List.prefix_append _ _⟩
  · rw [h.sent, List.flatMap_append]
    exact ⟨List.prefix_rfl, List.prefix_append _ _⟩

theorem Within.served {k n : ℕ} {r : Request} (h : Within c id t done todo k n r) (hsplit : reqs = done ++ todo)
    (hkn : n = 0 ∨ k = 3) (hs : t.regs.state ≠ .idle) : Served c id reqs t done todo := by
  have htodo : todo.take 1 = [r] := by
    obtain ⟨rest, rfl⟩ := List.head?_eq_some_iff.mp h.next
    rfl
  refine ⟨hsplit, ?_, ?_, hkn.imp ?_ ?_, fun hidle => absurd hidle hs⟩
  · rw [h.taken, htodo, List.flatMap_append, List.flatMap_singleton, List.prefix_append_right_inj]
    exact ⟨List.prefix_append _ _, List.take_prefix _ _⟩
  · rw [h.sent, htodo, List.flatMap_append, List.flatMap_singleton, List.prefix_append_right_inj]
    exact ⟨List.prefix_append _ _, List.take_prefix _ _⟩
  · rintro rfl
    rw [h.sent, List.take_zero, List.append_nil]
  · rintro rfl
    rw [h.taken, htodo, List.flatMap_append, List.flatMap_singleton]
    rfl

theorem Inv.served (h : Inv c id t done todo reqs) : Served c id reqs t done todo := by
  obtain ⟨hsplit, hprog⟩ := h
  cases hs : t.regs.state with
  | idle =>
    rw [Progress, hs] at hprog
    exact hprog.served hsplit
  | start =>
    rw [Progress, hs] at hprog
    obtain ⟨r, hwithin⟩ := hprog
    exact hwithin.served hsplit (.inl rfl) (by simp [hs])
  | addr | extStart =>
    rw [Progress, hs] at hprog
    obtain ⟨r, hwithin, -⟩ := hprog
    exact hwithin.served hsplit (.inl rfl) (by simp [hs])
  | respStart | respSrc | respValue =>
    rw [Progress, hs] at hprog
    obtain ⟨r, hwithin, -⟩ := hprog
    exact hwithin.served hsplit (.inr rfl) (by simp [hs])
  | write | drop | extWait =>
    rw [Progress, hs] at hprog
    exact hprog.elim

/-- Behind a reset. -/
def start (s : Regs 16) : Tracked := ⟨s, [], []⟩

theorem inv_start_of_reset (c : Config) (id : BitVec 10) {s : Regs 16} (hs : IsReset s) (reqs : List Request) :
    Inv c id (start s) [] reqs reqs := by
  refine ⟨rfl, ?_⟩
  rw [Progress, start, hs.1]
  exact ⟨rfl, rfl⟩

theorem taken_grows {t' : Tracked} {i : Cycle} (hstep : cycle c id t i = some t') : t.taken <+: t'.taken := by
  obtain rfl := Option.some.inj hstep
  exact List.prefix_append _ _

theorem Within.sent_front {k n : ℕ} {r : Request} (h : Within c id t done todo k n r) (hsplit : reqs = done ++ todo) :
    t.sent <+: reqs.flatMap (Request.answer c id) := by
  obtain ⟨rest, rfl⟩ := List.head?_eq_some_iff.mp h.next
  rw [h.sent, hsplit, List.flatMap_append, List.prefix_append_right_inj, List.flatMap_cons]
  exact (List.take_prefix _ _).trans (List.prefix_append _ _)

theorem Inv.sent_front (h : Inv c id t done todo reqs) : t.sent <+: reqs.flatMap (Request.answer c id) := by
  refine h.served.answered.2.trans ?_
  rw [h.split, List.flatMap_append, List.flatMap_append, List.prefix_append_right_inj]
  exact (List.take_prefix 1 todo).flatMap _

/-- What is sent in a cycle belongs to an answer, whatever is taken. -/
theorem Inv.sent_next {t' : Tracked} {i : Cycle} (h : Inv c id t done todo reqs) (hstep : cycle c id t i = some t') :
    t'.sent <+: reqs.flatMap (Request.answer c id) := by
  have hbefore := h.sent_front
  by_cases hs : t.regs.state = .respStart ∨ t.regs.state = .respSrc ∨ t.regs.state = .respValue
  · cases hready : i.debugOutReady with
    | false =>
      obtain rfl := Option.some.inj ((cycle_of_responding hs hready).symm.trans hstep)
      exact hbefore
    | true =>
      obtain ⟨n, hn, r, hwithin, hdecoded, hvalue⟩ := h.responding hs
      obtain ⟨hwithin', -⟩ := responding_of_sent hwithin hdecoded hvalue hn hready hstep
      exact hwithin'.sent_front h.split
  · have hsent : t'.sent = t.sent := by
      obtain rfl := Option.some.inj hstep
      have hidle : debugOut (params id) t.regs = .idle := by
        simp only [not_or] at hs
        unfold debugOut
        cases hstate : t.regs.state <;> simp_all
      simp only [hidle, DiiFlit.transfer_idle, List.append_nil]
    exact hsent ▸ hbefore

end Runs

/-- **The system control module answers.** From reset, for every timing on both sides: as long as what is taken
on `debug_in` is a stream of requests and every address follows its header at once, the flits on `debug_out` are
the answers to these requests, in their order and with the values of the registers, and no answer is begun before
its request is taken. -/
theorem requests_answered (c : Config) (id : BitVec 10) (s : Regs 16) (hs : IsReset s) (reqs : List Request)
    (cycles : List Cycle) (hprompt : Takes (cycle c id) Prompt (start s) cycles) :
    Passes (cycle c id)
      (fun t => t.taken <+: reqs.flatMap Request.flits → ∃ done todo, Served c id reqs t done todo)
      (start s) cycles := by
  have hpass : Passes (cycle c id)
      (fun t => t.taken <+: reqs.flatMap Request.flits → ∃ done todo, Inv c id t done todo reqs)
      (start s) cycles := by
    refine hprompt.passes ?_ fun _ => ⟨[], reqs, inv_start_of_reset c id hs reqs⟩
    intro t i t' hinv hc hstep hin
    obtain ⟨done, todo, h⟩ := hinv ((taken_grows hstep).trans hin)
    exact inv_cycle h hc hstep hin
  refine hpass.mono fun t ht hin => ?_
  obtain ⟨done, todo, h⟩ := ht hin
  exact ⟨done, todo, h.served⟩

/-- The host asks for the number of modules. -/
def numModRequest : Request := ⟨1, 0x0400, 0x201, by decide, by decide, by decide⟩

def offer (last : Bool) (data : BitVec 16) : Cycle := ⟨⟨true, last, data⟩, true⟩

def numModCycles : List Cycle :=
  [offer false 1, offer false 0x0400, offer true 0x201, offer false 0, offer false 0, offer false 0, offer false 0]

theorem num_mod_answered :
    ∃ t, runFrom (cycle ⟨0xdead, 3, 16⟩ 1) (start resetRegs) numModCycles = some t ∧
      t.sent = [⟨true, false, 0⟩, ⟨true, false, 1⟩, ⟨true, true, 3⟩] ∧
      ∃ done todo, Served ⟨0xdead, 3, 16⟩ 1 [numModRequest] t done todo :=
  ⟨_, rfl, rfl, (requests_answered ⟨0xdead, 3, 16⟩ 1 resetRegs ⟨rfl, rfl⟩ [numModRequest] numModCycles
    (by decide)).last rfl (by decide)⟩

end GlipOsd.Scm
