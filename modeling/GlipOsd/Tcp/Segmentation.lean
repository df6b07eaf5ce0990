import GlipOsd.Foundations.Bytes
import GlipOsd.Foundations.Pairs
import GlipOsd.Tcp.SystemC
import Mathlib.Data.List.SplitLengths

/-! # The receiving threads of the SystemC target

The inner loops of `tcp_data_proc` and `tcp_ctrl_proc` for one connection. `recv` gives what has arrived, however the
network has cut it, and the threads make words of it at once: the last byte of an odd number is dropped, and the next
one begins a word.
-/

namespace GlipOsd.Tcp.Segmentation
open Runs Bytes Pairs
set_option autoImplicit false

def ctrlMsgLogicReset : UInt16 := 0x0001

/-- A `uint16_t` in memory has its low byte first. -/
def word (lo hi : UInt8) : UInt16 := UInt16.ofNat (leValue [lo, hi])

def wordBytes (w : UInt16) : List UInt8 := leBytes 2 w.toNat

theorem split_word (w : UInt16) : ∃ lo hi, wordBytes w = [lo, hi] ∧ word lo hi = w := by
  refine ⟨_, _, rfl, ?_⟩
  show UInt16.ofNat (leValue (leBytes 2 w.toNat)) = w
  rw [leValue_leBytes_of_lt w.toNat_lt, UInt16.ofNat_toNat]

/-- What `recv` returns: 0, a negative number, or the number of bytes it has put into the buffer. -/
inductive Recv
  | closed
  | again
  | chunk (bytes : List UInt8)
  deriving DecidableEq

def Recv.chunks : Recv → List (List UInt8)
  | .chunk bytes => [bytes]
  | _ => []

/-- There is something in a chunk, and it fits into the buffer of 1024 words. -/
def Fits (bytes : List UInt8) : Prop := 0 < bytes.length ∧ bytes.length ≤ 2 * SystemC.bufferSize

instance (bytes : List UInt8) : Decidable (Fits bytes) := inferInstanceAs (Decidable (_ ∧ _))

/-- Bytes are put at the start of the buffer. -/
def overwrite (buffer bytes : List UInt8) : List UInt8 := bytes ++ buffer.drop bytes.length

/-- `buffer[i]` -/
def bufferWord (buffer : List UInt8) (i : ℕ) : UInt16 := word (buffer.getD (2 * i) 0) (buffer.getD (2 * i + 1) 0)

/-- The words that the loop behind `recv` goes through. -/
def bufferWords (buffer : List UInt8) (nbytes : ℕ) : List UInt16 := (List.range (nbytes / 2)).map (bufferWord buffer)

theorem bufferWords_overwrite (buffer bytes : List UInt8) :
    bufferWords (overwrite buffer bytes) bytes.length = pairs word bytes :=
  (pairs_eq_map word 0 bytes (buffer.drop bytes.length)).symm

/-! ## The data channel -/

/-- `sent` and `pushed` are the bytes written to the socket and the words pushed into `m_input_queue`. -/
structure DataProc where
  buffer : List UInt8
  inputQueue : List UInt16
  outputQueue : List UInt16
  chanDataOk : Bool
  sent : List UInt8
  pushed : List UInt16
  deriving DecidableEq

/-- An iteration of the thread outside reset, and between two of them what the methods do with the queues. -/
inductive DataEvent
  | iteration (r : Recv)
  | push (w : UInt16)
  | pop
  | reset
  deriving DecidableEq

def DataEvent.chunks : DataEvent → List (List UInt8)
  | .iteration r => r.chunks
  | _ => []

/-- Both channels are connected; there may be words in the queues. -/
def dataStart (inputQueue outputQueue : List UInt16) : DataProc :=
  ⟨List.replicate (2 * SystemC.bufferSize) 0, inputQueue, outputQueue, true, [], []⟩

def DataProc.send (s : DataProc) : DataProc :=
  if s.outputQueue.isEmpty then s
  else
    let bytes := (s.outputQueue.take SystemC.bufferSize).flatMap wordBytes
    { s with
      buffer := overwrite s.buffer bytes
      outputQueue := s.outputQueue.drop SystemC.bufferSize
      sent := s.sent ++ bytes }

def DataProc.receive (s : DataProc) : Recv → Option DataProc
  | .closed => some { s with chanDataOk := false }
  | .again => some s
  | .chunk bytes =>
    if Fits bytes then
      let buffer := overwrite s.buffer bytes
      let words := bufferWords buffer bytes.length
      some { s with buffer := buffer, inputQueue := s.inputQueue ++ words, pushed := s.pushed ++ words }
    else none

def tcpDataProc (s : DataProc) : DataEvent → Option DataProc
  | .iteration r => if s.chanDataOk then s.send.receive r else none
  | .push w => some { s with outputQueue := s.outputQueue ++ [w] }
  | .pop => some { s with inputQueue := s.inputQueue.tail }
  | .reset => some { s with inputQueue := [], outputQueue := [] }

@[simp] theorem DataProc.send_pushed (s : DataProc) : s.send.pushed = s.pushed := by
  unfold DataProc.send
  split
  · rfl
  · rfl

theorem tcpDataProc_pushed (s : DataProc) (e : DataEvent) (s' : DataProc) (h : tcpDataProc s e = some s') :
    s'.pushed = s.pushed ++ e.chunks.flatMap (pairs word) := by
  cases e with
  | iteration r =>
    simp only [tcpDataProc] at h
    split at h
    · cases r with
      | closed =>
        obtain rfl := Option.some.inj h
        simp [DataEvent.chunks, Recv.chunks]
      | again =>
        obtain rfl := Option.some.inj h
        simp [DataEvent.chunks, Recv.chunks]
      | chunk bytes =>
        simp only [DataProc.receive] at h
        split at h
        · obtain rfl := Option.some.inj h
          simp [DataEvent.chunks, Recv.chunks, bufferWords_overwrite]
        · cases h
    · cases h
  | push w =>
    obtain rfl := Option.some.inj h
    simp [DataEvent.chunks]
  | pop =>
    obtain rfl := Option.some.inj h
    simp [DataEvent.chunks]
  | reset =>
    obtain rfl := Option.some.inj h
    simp [DataEvent.chunks]

/-! ## The control channel -/

/-- `recognised` are the messages for which the thread has set `m_trigger_ctrl_rst`. -/
structure CtrlProc where
  buffer : List UInt8
  triggerCtrlRst : Bool
  chanCtrlOk : Bool
  recognised : List UInt16
  deriving DecidableEq

/-- An iteration of the thread outside reset, or `ctrl_signal_proc`. -/
inductive CtrlEvent
  | iteration (r : Recv)
  | ctrlSignal
  deriving DecidableEq

def CtrlEvent.chunks : CtrlEvent → List (List UInt8)
  | .iteration r => r.chunks
  | _ => []

/-- The constructor does not set `m_trigger_ctrl_rst`. -/
def ctrlStart (triggerCtrlRst : Bool) : CtrlProc :=
  ⟨List.replicate (2 * SystemC.bufferSize) 0, triggerCtrlRst, true, []⟩

def CtrlProc.receive (s : CtrlProc) : Recv → Option CtrlProc
  | .closed => some { s with chanCtrlOk := false }
  | .again => some s
  | .chunk bytes =>
    if Fits bytes then
      let buffer := overwrite s.buffer bytes
      let messages := (bufferWords buffer bytes.length).filter (· == ctrlMsgLogicReset)
      some { s with
        buffer := buffer
        triggerCtrlRst := s.triggerCtrlRst || !messages.isEmpty
        recognised := s.recognised ++ messages }
    else none

def tcpCtrlProc (s : CtrlProc) : CtrlEvent → Option CtrlProc
  | .iteration r => if s.chanCtrlOk then s.receive r else none
  | .ctrlSignal => some { s with triggerCtrlRst := false }

theorem tcpCtrlProc_recognised (s : CtrlProc) (e : CtrlEvent) (s' : CtrlProc) (h : tcpCtrlProc s e = some s') :
    s'.recognised = s.recognised ++ e.chunks.flatMap fun c => (pairs word c).filter (· == ctrlMsgLogicReset) := by
  cases e with
  | iteration r =>
    simp only [tcpCtrlProc] at h
    split at h
    · cases r with
      | closed =>
        obtain rfl := Option.some.inj h
        simp [CtrlEvent.chunks, Recv.chunks]
      | again =>
        obtain rfl := Option.some.inj h
        simp [CtrlEvent.chunks, Recv.chunks]
      | chunk bytes =>
        simp only [CtrlProc.receive] at h
        split at h
        · obtain rfl := Option.some.inj h
          simp [CtrlEvent.chunks, Recv.chunks, bufferWords_overwrite]
        · cases h
    · cases h
  | ctrlSignal =>
    obtain rfl := Option.some.inj h
    simp [CtrlEvent.chunks]

/-! ## Streams -/

section Streams
variable {inputQueue outputQueue : List UInt16} {triggerCtrlRst : Bool}

theorem data_pushed {es : List DataEvent} {t : DataProc}
    (hrun : runFrom tcpDataProc (dataStart inputQueue outputQueue) es = some t) :
    t.pushed = (es.flatMap DataEvent.chunks).flatMap (pairs word) := by
  rw [runFrom_history tcpDataProc_pushed hrun, List.flatMap_assoc]
  rfl

theorem ctrl_recognised {es : List CtrlEvent} {t : CtrlProc}
    (hrun : runFrom tcpCtrlProc (ctrlStart triggerCtrlRst) es = some t) :
    t.recognised = ((es.flatMap CtrlEvent.chunks).flatMap (pairs word)).filter (· == ctrlMsgLogicReset) := by
  rw [runFrom_history tcpCtrlProc_recognised hrun, List.filter_flatMap, List.flatMap_assoc]
  rfl

theorem ctrl_run {s : CtrlProc} (hs : s.chanCtrlOk = true) {cs : List (List UInt8)} (hcs : ∀ c ∈ cs, Fits c) :
    ∃ t, runFrom tcpCtrlProc s (cs.map fun c => .iteration (.chunk c)) = some t := by
  induction cs generalizing s with
  | nil => exact ⟨s, rfl⟩
  | cons c cs ih =>
    rw [List.forall_mem_cons] at hcs
    obtain ⟨s', hstep, hs'⟩ : ∃ s', tcpCtrlProc s (.iteration (.chunk c)) = some s' ∧ s'.chanCtrlOk = true := by
      simp [tcpCtrlProc, CtrlProc.receive, hs, hcs.1]
    obtain ⟨t, ht⟩ := ih hs' hcs.2
    exact ⟨t, (runFrom_cons_eq_some _).mpr ⟨s', hstep, ht⟩⟩

theorem chunks_map (cs : List (List UInt8)) :
    (cs.map fun c => CtrlEvent.iteration (.chunk c)).flatMap CtrlEvent.chunks = cs := by
  induction cs with
  | nil => rfl
  | cons c cs ih =>
    rw [List.map_cons, List.flatMap_cons, ih]
    rfl

/-- The stream of nothing but messages. -/
def resets (n : ℕ) : List UInt8 := (List.replicate n ctrlMsgLogicReset).flatMap wordBytes

theorem length_resets (n : ℕ) : (resets n).length = 2 * n := by
  induction n with
  | zero => rfl
  | succ n ih =>
    rw [resets, List.replicate_succ, List.flatMap_cons, List.length_append, ← resets, ih]
    show 2 + 2 * n = _
    ring

theorem pairs_resets (n : ℕ) : pairs word (resets n) = List.replicate n ctrlMsgLogicReset := by
  have hnil : ([] : List UInt8).length ≤ 1 := Nat.zero_le 1
  have h := pairs_flatMap word split_word (List.replicate n ctrlMsgLogicReset) hnil
  rwa [List.append_nil] at h

/-- With a chunk of odd length, not all of these messages are recognised. -/
theorem resets_lost {lengths : List ℕ} (hfits : ∀ n ∈ lengths, 0 < n ∧ n ≤ 2 * SystemC.bufferSize)
    (heven : Even lengths.sum) (hodd : ¬ ∀ n ∈ lengths, Even n) :
    ∃ es t, runFrom tcpCtrlProc (ctrlStart triggerCtrlRst) es = some t ∧
      (es.flatMap CtrlEvent.chunks).map List.length = lengths ∧
        t.recognised ≠ (pairs word (es.flatMap CtrlEvent.chunks).flatten).filter (· == ctrlMsgLogicReset) := by
  obtain ⟨n, hn⟩ := heven
  have hlen : (resets n).length = lengths.sum := by rw [length_resets, hn, two_mul]
  have hmap := List.map_splitLengths_length (resets n) lengths hlen.ge
  have hflat := List.flatten_splitLengths (resets n) lengths hlen.le
  have hcs : ∀ c ∈ lengths.splitLengths (resets n), Fits c := by
    intro c hc
    exact hfits c.length (hmap ▸ List.mem_map_of_mem hc)
  obtain ⟨t, hrun⟩ := ctrl_run (s := ctrlStart triggerCtrlRst) rfl hcs
  refine ⟨_, t, hrun, by rw [chunks_map, hmap], ?_⟩
  rw [ctrl_recognised hrun, chunks_map, hflat, pairs_resets]
  intro h
  have hodd' : ¬ ∀ c ∈ lengths.splitLengths (resets n), Even c.length := by
    refine fun hall => hodd fun m hm => ?_
    rw [← hmap] at hm
    obtain ⟨c, hc, rfl⟩ := List.mem_map.mp hm
    exact hall c hc
  have hlt := length_flatMap_pairs_lt word hodd' (by rw [hflat, length_resets]; exact even_two_mul n)
  have hle := List.length_filter_le (· == ctrlMsgLogicReset) ((lengths.splitLengths (resets n)).flatMap (pairs word))
  rw [hflat, pairs_resets, List.length_replicate] at hlt
  rw [h, List.filter_replicate, if_pos (beq_self_eq_true _), List.length_replicate] at hle
  omega

/-- **Only chunks of even length keep the words.** On the data channel, the words pushed are the byte pairs of the
stream exactly if every chunk has an even number of bytes. On the control channel, chunks of given lengths let the same
messages be recognised in every stream exactly if all the lengths are even. -/
theorem words_iff_even (triggerCtrlRst : Bool) {es : List DataEvent} {t : DataProc}
    (hrun : runFrom tcpDataProc (dataStart inputQueue outputQueue) es = some t)
    (heven : Even (es.flatMap DataEvent.chunks).flatten.length) {lengths : List ℕ}
    (hfits : ∀ n ∈ lengths, 0 < n ∧ n ≤ 2 * SystemC.bufferSize) (hsum : Even lengths.sum) :
    (t.pushed = pairs word (es.flatMap DataEvent.chunks).flatten ↔
      ∀ c ∈ es.flatMap DataEvent.chunks, Even c.length) ∧
    ((∀ es t, runFrom tcpCtrlProc (ctrlStart triggerCtrlRst) es = some t →
      (es.flatMap CtrlEvent.chunks).map List.length = lengths →
        t.recognised = (pairs word (es.flatMap CtrlEvent.chunks).flatten).filter (· == ctrlMsgLogicReset)) ↔
      ∀ n ∈ lengths, Even n) := by
  constructor
  · rw [data_pushed hrun]
    exact flatMap_pairs_eq_iff word heven
  · constructor
    · intro hall
      by_contra hodd
      obtain ⟨es, t, hrun, hlengths, hlost⟩ := resets_lost hfits hsum hodd
      exact hlost (hall es t hrun hlengths)
    · rintro hall es t hrun rfl
      have hchunks : ∀ c ∈ es.flatMap CtrlEvent.chunks, Even c.length :=
        fun c hc => hall c.length (List.mem_map_of_mem hc)
      rw [ctrl_recognised hrun, flatMap_pairs word hchunks]

end Streams

/-- Two words with a pause between them. -/
def wholeWords : List DataEvent :=
  [.iteration (.chunk [0x34, 0x12]), .iteration .again, .iteration (.chunk [0x78, 0x56])]

theorem wholeWords_pushed :
    (∃ t, runFrom tcpDataProc (dataStart [] []) wholeWords = some t ∧
      t.pushed = pairs word [0x34, 0x12, 0x78, 0x56]) ∧
    ∀ es t, runFrom tcpCtrlProc (ctrlStart false) es = some t → (es.flatMap CtrlEvent.chunks).map List.length = [4, 2] →
      t.recognised = (pairs word (es.flatMap CtrlEvent.chunks).flatten).filter (· == ctrlMsgLogicReset) := by
  obtain ⟨t, hrun⟩ : ∃ t, runFrom tcpDataProc (dataStart [] []) wholeWords = some t := ⟨_, rfl⟩
  have hlengths : ∀ n ∈ [4, 2], 0 < n ∧ n ≤ 2 * SystemC.bufferSize := by decide
  have h := words_iff_even false hrun (by decide) hlengths (by decide)
  exact ⟨⟨t, hrun, h.1.mpr (by decide)⟩, h.2.mpr (by decide)⟩

/-- Two words in a chunk of one byte and one of three, and a message in two chunks. -/
theorem words_torn :
    (∃ t, runFrom tcpDataProc (dataStart [] []) [.iteration (.chunk [0x34]), .iteration (.chunk [0x12, 0x78, 0x56])] =
      some t ∧ t.pushed = [0x7812] ∧ pairs word [0x34, 0x12, 0x78, 0x56] = [0x1234, 0x5678]) ∧
    ∃ t, runFrom tcpCtrlProc (ctrlStart false) [.iteration (.chunk [0x01]), .iteration (.chunk [0x00])] = some t ∧
      t.recognised = [] ∧ pairs word [0x01, 0x00] = [ctrlMsgLogicReset] := by
  refine ⟨⟨_, rfl, ?_, ?_⟩, _, rfl, ?_, ?_⟩
  all_goals decide

end GlipOsd.Tcp.Segmentation
