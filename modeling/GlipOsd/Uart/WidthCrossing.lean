import GlipOsd.Foundations.Runs

/-! # The 16-bit FIFO interface of the UART

With `WIDTH = 16` an upscaler sits between `in_fifo` and the logic and a downscaler between the logic and
`out_fifo`. These sides of the FIFOs and the logic are clocked by `clk_logic`, the scalers by `clk_io`. The FIFOs
are queues; an edge of either clock may come at any time, also together with one of the other clock.
-/

namespace GlipOsd.Uart
open Runs
set_option autoImplicit false

/-! ## The scalers -/

section Scalers
variable {n : ℕ}

/-- `{ upper, lower }` -/
def joinWord (upper lower : BitVec n) : BitVec (n + n) := upper ++ lower

def upperPart (word : BitVec (n + n)) : BitVec n := word.extractLsb' n n

def lowerPart (word : BitVec (n + n)) : BitVec n := word.extractLsb' 0 n

/-- The bytes of a word, the upper one first. -/
def splitWord (word : BitVec (n + n)) : List (BitVec n) := [upperPart word, lowerPart word]

theorem splitWord_joinWord (upper lower : BitVec n) : splitWord (joinWord upper lower) = [upper, lower] := by
  have hupper : upperPart (joinWord upper lower) = upper := by
    apply BitVec.eq_of_getLsbD_eq
    intro i hi
    rw [upperPart, BitVec.getLsbD_extractLsb', joinWord, BitVec.getLsbD_append]
    simp [hi]
  have hlower : lowerPart (joinWord upper lower) = lower := by
    apply BitVec.eq_of_getLsbD_eq
    intro i hi
    rw [lowerPart, BitVec.getLsbD_extractLsb', joinWord, BitVec.getLsbD_append]
    simp [hi]
  rw [splitWord, hupper, hlower]

/-- `glip_upscale`. `scale` is set while the first part is stored. -/
structure Upscale (n : ℕ) where
  scale : Bool
  upper : BitVec n
  deriving DecidableEq

def Upscale.inReady (s : Upscale n) (outReady : Bool) : Bool := !s.scale || outReady

def Upscale.outValid (s : Upscale n) (inValid : Bool) : Bool := s.scale && inValid

def Upscale.outData (s : Upscale n) (inData : BitVec n) : BitVec (n + n) := joinWord s.upper inData

def Upscale.next (s : Upscale n) (rst : Bool) (inData : BitVec n) (inValid outReady : Bool) : Upscale n where
  scale :=
    if rst then false
    else if s.scale && inValid && s.inReady outReady then false
    else if !s.scale && inValid && s.inReady outReady then true
    else s.scale
  upper := if inValid && s.inReady outReady then inData else s.upper

/-- `glip_downscale`. `scale` is set while the lower part is left. -/
structure Downscale (n : ℕ) where
  scale : Bool
  lower : BitVec n
  deriving DecidableEq

def Downscale.inReady (s : Downscale n) (outReady : Bool) : Bool := !s.scale && outReady

def Downscale.outValid (s : Downscale n) (inValid : Bool) : Bool := s.scale || inValid

def Downscale.outData (s : Downscale n) (inData : BitVec (n + n)) : BitVec n :=
  if s.scale then s.lower else upperPart inData

def Downscale.next (s : Downscale n) (rst : Bool) (inData : BitVec (n + n)) (inValid outReady : Bool) : Downscale n where
  scale :=
    if rst then false
    else if s.scale && s.outValid inValid && outReady then false
    else if !s.scale && inValid && s.inReady outReady then true
    else s.scale
  lower := if inValid && s.inReady outReady then lowerPart inData else s.lower

section Handshakes
variable {inValid outReady : Bool}

theorem Upscale.next_of_idle {s : Upscale n} {inData : BitVec n} (h : (inValid && s.inReady outReady) = false) :
    s.next false inData inValid outReady = s := by
  simp only [Upscale.next, Bool.and_assoc, h, Bool.and_false, Bool.false_eq_true, if_false]

theorem Upscale.next_of_handshake {s : Upscale n} {inData : BitVec n} (h : (inValid && s.inReady outReady) = true) :
    s.next false inData inValid outReady = ⟨!s.scale, inData⟩ := by
  cases hs : s.scale <;> simp [Upscale.next, h, hs]

theorem Downscale.next_of_idle {s : Downscale n} {inData : BitVec (n + n)} (h : (s.outValid inValid && outReady) = false) :
    s.next false inData inValid outReady = s := by
  obtain ⟨scale, lower⟩ := s
  cases scale <;> cases inValid <;> cases outReady <;> simp_all [Downscale.next, Downscale.outValid, Downscale.inReady]

theorem Downscale.next_of_handshake {s : Downscale n} {inData : BitVec (n + n)}
    (h : (s.outValid inValid && outReady) = true) :
    s.next false inData inValid outReady = ⟨!s.scale, if s.scale then s.lower else lowerPart inData⟩ := by
  obtain ⟨scale, lower⟩ := s
  cases scale <;> cases inValid <;> cases outReady <;> simp_all [Downscale.next, Downscale.outValid, Downscale.inReady]

end Handshakes

end Scalers

/-! ## The toplevel -/

/-- What the logic drives; it changes with `clk_logic` only. -/
structure LogicSide (n : ℕ) where
  fifoInReady : Bool
  fifoOutValid : Bool
  fifoOutData : BitVec (n + n)
  deriving DecidableEq

/-- `written` is what has gone into `in_fifo` and `accepted` what the logic has taken; `offered` is what has been
taken from the logic and `read` what has been read from `out_fifo`. -/
structure Crossing (n : ℕ) where
  inFifo : List (BitVec n)
  up : Upscale n
  down : Downscale n
  outFifo : List (BitVec n)
  logic : LogicSide n
  written : List (BitVec n)
  accepted : List (BitVec (n + n))
  offered : List (BitVec (n + n))
  read : List (BitVec n)
  deriving DecidableEq

/-- An edge of `clk_io`: `WREN` and `DI` of `in_fifo`, `RDEN` of `out_fifo`. -/
structure IoEdge (n : ℕ) where
  write : Option (BitVec n)
  rden : Bool
  deriving DecidableEq

/-- The edges at a time; with one of `clk_logic` come the new values of the logic. -/
inductive Edges (n : ℕ)
  | io (i : IoEdge n)
  | logic (next : LogicSide n)
  | both (i : IoEdge n) (next : LogicSide n)
  deriving DecidableEq

/-- The edges of `clk_io` and of `clk_logic`. -/
def Edges.split {n : ℕ} : Edges n → Option (IoEdge n) × Option (LogicSide n)
  | .io i => (some i, none)
  | .logic next => (none, some next)
  | .both i next => (some i, some next)

section Toplevel
variable {n : ℕ}

namespace Crossing

def inEmpty (s : Crossing n) : Bool := s.inFifo.isEmpty

/-- `DO` of `in_fifo`. -/
def inData (s : Crossing n) : BitVec n := s.inFifo.head?.getD 0

def outFull (depth : ℕ) (s : Crossing n) : Bool := depth ≤ s.outFifo.length

/-- A part of a word goes through the upscaler. -/
def upHandshake (s : Crossing n) : Bool := !s.inEmpty && s.up.inReady s.logic.fifoInReady

/-- A part of a word goes through the downscaler. -/
def downHandshake (depth : ℕ) (s : Crossing n) : Bool := s.down.outValid s.logic.fifoOutValid && !s.outFull depth

/-- What `in_fifo` takes. -/
def write (depth : ℕ) (s : Crossing n) (io : Option (IoEdge n)) : List (BitVec n) :=
  if s.inFifo.length < depth then (io.bind IoEdge.write).toList else []

def step (depth : ℕ) (s : Crossing n) (e : Edges n) : Option (Crossing n) :=
  let (io, logic) := e.split
  let fifoInValid := s.up.outValid !s.inEmpty
  let fifoOutReady := s.down.inReady !s.outFull depth
  some {
    inFifo := s.inFifo.drop (if logic.isSome && s.upHandshake then 1 else 0) ++ s.write depth io
    up := if io.isSome then s.up.next false s.inData (!s.inEmpty) s.logic.fifoInReady else s.up
    down := if io.isSome then s.down.next false s.logic.fifoOutData s.logic.fifoOutValid (!s.outFull depth) else s.down
    outFifo := s.outFifo.drop (if io.any IoEdge.rden then 1 else 0) ++
      if logic.isSome && s.downHandshake depth then [s.down.outData s.logic.fifoOutData] else []
    logic := logic.getD s.logic
    written := s.written ++ s.write depth io
    accepted := s.accepted ++
      if logic.isSome && fifoInValid && s.logic.fifoInReady then [s.up.outData s.inData] else []
    offered := s.offered ++ if logic.isSome && s.logic.fifoOutValid && fifoOutReady then [s.logic.fifoOutData] else []
    read := s.read ++ s.outFifo.take (if io.any IoEdge.rden then 1 else 0) }

/-- Behind a reset; the registers of the scalers that have no reset value hold anything. -/
def start (upper lower : BitVec n) (logic : LogicSide n) : Crossing n where
  inFifo := []
  up := ⟨false, upper⟩
  down := ⟨false, lower⟩
  outFifo := []
  logic := logic
  written := []
  accepted := []
  offered := []
  read := []

/-- Nothing is lost or duplicated: what is not yet through waits in a FIFO or, as half of a word, in a scaler. -/
structure Conserved (s : Crossing n) : Prop where
  incoming : s.written = s.accepted.flatMap splitWord ++ ((if s.up.scale then [s.up.upper] else []) ++ s.inFifo)
  outgoing : s.offered.flatMap splitWord = s.read ++ (s.outFifo ++ if s.down.scale then [s.down.lower] else [])

/-- When an edge of one clock comes without the other, nothing goes through the scalers. -/
def Aligned (depth : ℕ) (s : Crossing n) : Edges n → Prop
  | .both _ _ => True
  | _ => s.upHandshake = false ∧ s.downHandshake depth = false

section Step
variable {depth : ℕ} {s s' : Crossing n} {e : Edges n}

/-- The bytes from `in_fifo` stay in order at an edge exactly when it reaches both or the upscaler has no handshake. -/
theorem incoming_iff (h : s.written = s.accepted.flatMap splitWord ++ ((if s.up.scale then [s.up.upper] else []) ++ s.inFifo))
    (hstep : s.step depth e = some s') :
    (s'.written = s'.accepted.flatMap splitWord ++ ((if s'.up.scale then [s'.up.upper] else []) ++ s'.inFifo)) ↔
      (e.split.1.isSome = e.split.2.isSome ∨ s.upHandshake = false) := by
  cases hstep
  cases hup : s.upHandshake with
  | false =>
    refine iff_of_true ?_ (.inr rfl)
    have hno (b : Bool) : (b && s.up.outValid (!s.inEmpty) && s.logic.fifoInReady) = false := by
      rw [Bool.eq_false_iff]
      intro hb
      simp_all [upHandshake, Upscale.outValid, Upscale.inReady]
    simp only [Upscale.next_of_idle hup, ite_self, hno, Bool.and_false, Bool.false_eq_true, if_false, List.drop_zero,
      List.append_nil]
    rw [h]
    simp only [List.append_assoc]
  | true =>
    -- the head of `in_fifo` goes into the upscaler with one clock and leaves `in_fifo` with the other
    obtain ⟨byte, rest, hfifo⟩ : ∃ byte rest, s.inFifo = byte :: rest := by
      apply List.exists_cons_of_ne_nil
      intro hnil
      simp [upHandshake, inEmpty, hnil] at hup
    have hdata : s.inData = byte := by simp [inData, hfifo]
    have hempty : s.inEmpty = false := by simp [inEmpty, hfifo]
    rw [hfifo] at h
    simp only [Upscale.next_of_handshake hup]
    cases hs : s.up.scale with
    | false =>
      rw [hs] at h
      rw [h]
      cases e <;> simp [Edges.split, Upscale.outValid, hs, hdata, hfifo]
    | true =>
      have hready : s.logic.fifoInReady = true := by simp_all [upHandshake, Upscale.inReady]
      rw [hs] at h
      rw [h]
      cases e <;> simp [Edges.split, Upscale.outValid, Upscale.outData, splitWord_joinWord, hs, hdata, hempty, hready, hfifo]

theorem outgoing_iff (h : s.offered.flatMap splitWord = s.read ++ (s.outFifo ++ if s.down.scale then [s.down.lower] else []))
    (hstep : s.step depth e = some s') :
    (s'.offered.flatMap splitWord = s'.read ++ (s'.outFifo ++ if s'.down.scale then [s'.down.lower] else [])) ↔
      (e.split.1.isSome = e.split.2.isSome ∨ s.downHandshake depth = false) := by
  cases hstep
  have hread (k : ℕ) (rest : List (BitVec n)) : s.outFifo.take k ++ (s.outFifo.drop k ++ rest) = s.outFifo ++ rest := by
    rw [← List.append_assoc, List.take_append_drop]
  cases hdown : s.downHandshake depth with
  | false =>
    refine iff_of_true ?_ (.inr rfl)
    have hno (b : Bool) : (b && s.logic.fifoOutValid && s.down.inReady (!s.outFull depth)) = false := by
      rw [Bool.eq_false_iff]
      intro hb
      simp_all [downHandshake, Downscale.outValid, Downscale.inReady]
    simp only [Downscale.next_of_idle hdown, ite_self, hno, Bool.and_false, Bool.false_eq_true, if_false, List.append_nil,
      List.append_assoc, hread]
    exact h
  | true =>
    -- a part goes into `out_fifo` with one clock and the other moves `scale`
    simp only [Downscale.next_of_handshake hdown, List.append_assoc, hread]
    simp only [downHandshake, Bool.and_eq_true, Bool.not_eq_true'] at hdown
    cases hs : s.down.scale with
    | false =>
      have hvalid : s.logic.fifoOutValid = true := by simpa [Downscale.outValid, hs] using hdown.1
      rw [hs] at h
      rw [List.flatMap_append, h]
      cases e <;> simp [Edges.split, Downscale.inReady, Downscale.outData, splitWord, hs, hvalid, hdown.2]
    | true =>
      rw [hs] at h
      rw [List.flatMap_append, h]
      cases e <;> simp [Edges.split, Downscale.inReady, Downscale.outData, hs, hdown.2]

theorem aligned_iff : Aligned depth s e ↔ (e.split.1.isSome = e.split.2.isSome ∨ s.upHandshake = false) ∧
    (e.split.1.isSome = e.split.2.isSome ∨ s.downHandshake depth = false) := by
  cases e <;> simp [Aligned, Edges.split]

theorem conserved_step (h : Conserved s) (hstep : s.step depth e = some s') : Conserved s' ↔ Aligned depth s e := by
  rw [aligned_iff, ← incoming_iff h.incoming hstep, ← outgoing_iff h.outgoing hstep]
  exact ⟨fun h' => ⟨h'.incoming, h'.outgoing⟩, fun h' => ⟨h'.1, h'.2⟩⟩

end Step

instance : DecidablePred (Conserved (n := n)) := fun s => decidable_of_iff
  (s.written = s.accepted.flatMap splitWord ++ ((if s.up.scale then [s.up.upper] else []) ++ s.inFifo) ∧
    s.offered.flatMap splitWord = s.read ++ (s.outFifo ++ if s.down.scale then [s.down.lower] else []))
  ⟨fun h => ⟨h.1, h.2⟩, fun h => ⟨h.incoming, h.outgoing⟩⟩

theorem conserved_start (upper lower : BitVec n) (logic : LogicSide n) : Conserved (start upper lower logic) := ⟨rfl, rfl⟩

/-- The byte stream is kept exactly in the runs in which nothing goes through a scaler at an edge of one clock only. -/
theorem conserved_iff_aligned (depth : ℕ) (upper lower : BitVec n) (logic : LogicSide n) (es : List (Edges n)) :
    Passes (step depth) Conserved (start upper lower logic) es ↔
      Takes (step depth) (Aligned depth) (start upper lower logic) es := by
  obtain ⟨t, hrun⟩ := exists_run (step depth) (fun _ _ => rfl) (start upper lower logic) es
  refine passes_iff_takes (fun _ => True) (fun _ _ _ _ _ _ _ => trivial) ?_ trivial (conserved_start upper lower logic) hrun
  exact fun _ _ _ _ h hstep => conserved_step h hstep

/-- The logic takes the first byte twice: `clk_io` moves it into the upscaler, `clk_logic` then reads the word while the
same byte is still in `in_fifo`. -/
theorem first_byte_doubled : ∃ s, runFrom (step 2048) (start (n := 8) 0 0 ⟨true, false, 0⟩)
      [.io ⟨some 0x11, false⟩, .io ⟨some 0x22, false⟩, .logic ⟨true, false, 0⟩] = some s ∧
    s.written = [0x11, 0x22] ∧ s.accepted = [0x1111] ∧ ¬ Conserved s := by
  refine ⟨_, rfl, ?_⟩
  decide

/-- With edges of both clocks at the same times the word is the pair. -/
example : ((runFrom (step 2048) (start (n := 8) 0 0 ⟨true, false, 0⟩)
    [.both ⟨some 0x11, false⟩ ⟨true, false, 0⟩, .both ⟨some 0x22, false⟩ ⟨true, false, 0⟩,
      .both ⟨none, false⟩ ⟨true, false, 0⟩]).map accepted) = some [0x1122] := by decide

end Crossing

end Toplevel

end GlipOsd.Uart
