import GlipOsd.Foundations.Runs

/-! # The FIFO interface of the SystemC target

`fifo_if_proc` of `glip_tcp_toplevel` outside reset, at every edge of the clock. It sees the ports as they are just
before the edge, and what it writes to them is there after the edge. The thread for the data channel puts words into
`m_input_queue` and takes words out of `m_output_queue` at any time.
-/

namespace GlipOsd.Tcp.SystemC
open Runs
set_option autoImplicit false

def outputBufSize : ℕ := 1024

/-- The number of words in the buffer of the thread. -/
def bufferSize : ℕ := 1024

/-- The words that go to the logic may have any type, so that they can carry their number. -/
structure Toplevel (α β : Type) where
  inputQueue : List α
  outputQueue : List β
  fifoOutReady : Bool
  fifoInValid : Bool
  fifoInData : α
  deriving DecidableEq

/-- What the logic drives just before an edge. -/
structure Logic (β : Type) where
  fifoInReady : Bool
  fifoOutValid : Bool
  fifoOutData : β
  deriving DecidableEq

/-- `zero` is what is driven without a word. -/
def fifoIfProc {α β : Type} (zero : α) (s : Toplevel α β) (l : Logic β) : Toplevel α β :=
  let outputQueue := if l.fifoOutValid then s.outputQueue ++ [l.fifoOutData] else s.outputQueue
  { inputQueue := if l.fifoInReady && !s.inputQueue.isEmpty then s.inputQueue.tail else s.inputQueue
    outputQueue := outputQueue
    fifoOutReady := outputQueue.length ≤ outputBufSize
    fifoInData := s.inputQueue.head?.getD zero
    fifoInValid := !s.inputQueue.isEmpty }

/-! ## The words -/

/-- A word with its number among those pushed into `m_input_queue`. -/
abbrev Item := UInt16 × ℕ

/-- `received` words have been pushed into `m_input_queue`. `popped` and `taken` are the words popped from it and
transferred on `fifo_in`, `pushed` and `given` those pushed into `m_output_queue` and transferred on `fifo_out`.
`wasPopped` says that the word on `fifo_in` was popped when it was put there, `wasThere` that it was there already. -/
structure System where
  top : Toplevel Item UInt16
  received : ℕ
  popped : List Item
  taken : List Item
  pushed : List UInt16
  given : List UInt16
  wasPopped : Bool
  wasThere : Bool
  deriving DecidableEq

inductive Event
  | edge (l : Logic UInt16)
  | receive (words : List UInt16)
  | send
  deriving DecidableEq

/-- Behind the reset, where `fifo_in_data` has any value. -/
def start (data : Item) : System := ⟨⟨[], [], false, false, data⟩, 0, [], [], [], [], false, false⟩

def edge (s : System) (l : Logic UInt16) : System where
  top := fifoIfProc (0, 0) s.top l
  received := s.received
  popped := s.popped ++ if l.fifoInReady then s.top.inputQueue.take 1 else []
  taken := s.taken ++ if s.top.fifoInValid && l.fifoInReady then [s.top.fifoInData] else []
  pushed := s.pushed ++ if l.fifoOutValid then [l.fifoOutData] else []
  given := s.given ++ if l.fifoOutValid && s.top.fifoOutReady then [l.fifoOutData] else []
  wasPopped := l.fifoInReady && !s.top.inputQueue.isEmpty
  wasThere := s.top.fifoInValid && !s.wasPopped

def step (s : System) : Event → Option System
  | .edge l => some (edge s l)
  | .receive words => some { s with
      top := { s.top with inputQueue := s.top.inputQueue ++ words.zipIdx s.received }
      received := s.received + words.length }
  | .send => some { s with top := { s.top with outputQueue := s.top.outputQueue.drop bufferSize } }

/-- The words popped are those transferred on `fifo_in`, where the last one may still be there; the words pushed are
those transferred on `fifo_out`. -/
def Once (s : System) : Prop :=
  (s.popped = s.taken ∨ s.top.fifoInValid = true ∧ s.popped = s.taken ++ [s.top.fifoInData]) ∧ s.pushed = s.given

instance : DecidablePred Once := fun _ => inferInstanceAs (Decidable (_ ∧ _))

/-- The logic is ready at the edge behind one that pops a word, unless the word was on `fifo_in` before that edge; then
it is not ready. It offers words only while `fifo_out_ready` is high. -/
def InStep (s : System) : Event → Prop
  | .edge l => (s.wasPopped = true → l.fifoInReady = !s.wasThere) ∧ (l.fifoOutValid = true → s.top.fifoOutReady = true)
  | _ => True

/-! ## One step -/

structure Inv (s : System) : Prop where
  numbers : (s.popped ++ s.top.inputQueue).map Prod.snd = List.range' 0 s.received
  valid : s.wasPopped = true → s.top.fifoInValid = true
  last : s.wasPopped = true → s.top.fifoInData ∈ s.popped
  front : s.top.fifoInValid = true → s.wasPopped = false → s.top.inputQueue.head? = some s.top.fifoInData
  flow : s.popped = s.taken ++ if s.wasPopped && !s.wasThere then [s.top.fifoInData] else []
  out : s.pushed = s.given

theorem inv_start (data : Item) : Inv (start data) := ⟨rfl, nofun, nofun, nofun, rfl, rfl⟩

section Step
variable {s s' : System} {l : Logic UInt16}

theorem Inv.once (h : Inv s) : Once s := by
  refine ⟨?_, h.out⟩
  have hflow := h.flow
  split_ifs at hflow with hport
  · exact .inr ⟨h.valid (Bool.and_eq_true _ _ ▸ hport).1, hflow⟩
  · exact .inl (hflow.trans (List.append_nil _))

theorem Inv.disjoint (h : Inv s) {x : Item} (hpopped : x ∈ s.popped) : x ∉ s.top.inputQueue := by
  have hnodup : ((s.popped ++ s.top.inputQueue).map Prod.snd).Nodup := h.numbers ▸ List.nodup_range'
  exact List.disjoint_of_nodup_append (List.Nodup.of_map _ hnodup) hpopped

/-- The step of the words to the logic: what is popped and what is transferred. -/
theorem flow_edge (h : Inv s) (hready : s.wasPopped = true → l.fifoInReady = !s.wasThere) :
    (edge s l).popped = (edge s l).taken ++
      if (edge s l).wasPopped && !(edge s l).wasThere then [(edge s l).top.fifoInData] else [] := by
  have hflow := h.flow
  show s.popped ++ (if l.fifoInReady then s.top.inputQueue.take 1 else []) =
    s.taken ++ (if s.top.fifoInValid && l.fifoInReady then [s.top.fifoInData] else []) ++
      if l.fifoInReady && !s.top.inputQueue.isEmpty && !(s.top.fifoInValid && !s.wasPopped) then
        [s.top.inputQueue.head?.getD (0, 0)] else []
  cases hpopped : s.wasPopped with
  | true =>
    -- the word on the port is in transit, or it has been transferred before it was popped
    rw [hpopped, Bool.true_and] at hflow
    rw [h.valid hpopped, hready hpopped, hflow]
    cases s.wasThere <;> cases s.top.inputQueue <;> simp
  | false =>
    rw [hpopped] at hflow
    simp only [Bool.false_and, Bool.false_eq_true, if_false, List.append_nil] at hflow
    rw [hflow]
    cases hvalid : s.top.fifoInValid with
    | true =>
      obtain ⟨rest, hqueue⟩ := List.head?_eq_some_iff.mp (h.front hvalid hpopped)
      rw [hqueue]
      cases l.fifoInReady <;> simp
    | false => cases l.fifoInReady <;> cases s.top.inputQueue <;> simp

theorem numbers_edge (h : Inv s) :
    ((edge s l).popped ++ (edge s l).top.inputQueue).map Prod.snd = List.range' 0 (edge s l).received := by
  have hsame : (edge s l).popped ++ (edge s l).top.inputQueue = s.popped ++ s.top.inputQueue := by
    simp only [edge, fifoIfProc]
    cases l.fifoInReady <;> cases s.top.inputQueue <;> simp
  rw [hsame]
  exact h.numbers

theorem inv_edge (h : Inv s) (hin : InStep s (.edge l)) : Inv (edge s l) where
  numbers := numbers_edge h
  valid := by
    simp only [edge, fifoIfProc]
    cases s.top.inputQueue <;> simp
  last := by
    simp only [edge, fifoIfProc]
    cases l.fifoInReady <;> cases s.top.inputQueue <;> simp
  front := by
    simp only [edge, fifoIfProc]
    cases l.fifoInReady <;> cases s.top.inputQueue <;> simp
  flow := flow_edge h hin.1
  out := by
    have hready := hin.2
    simp only [edge]
    rw [h.out]
    cases hvalid : l.fifoOutValid with
    | true => rw [hready hvalid]; rfl
    | false => rfl

/-- A word that was popped and is not taken now is lost, one that was taken before and is taken again is doubled. -/
theorem not_once_in (h : Inv s) (hpopped : s.wasPopped = true) (hready : l.fifoInReady = s.wasThere) :
    ¬ Once (edge s l) := by
  have hflow := h.flow
  have hqueue := h.disjoint (h.last hpopped)
  rw [hpopped, Bool.true_and] at hflow
  rintro ⟨heq, -⟩
  simp only [edge, fifoIfProc, h.valid hpopped, hready, hflow] at heq
  cases hthere : s.wasThere with
  | true =>
    simp only [hthere] at heq
    cases hinput : s.top.inputQueue with
    | nil => simp [hinput] at heq
    | cons x rest => simp_all
  | false =>
    simp only [hthere] at heq
    cases hinput : s.top.inputQueue with
    | nil => simp [hinput] at heq
    | cons x rest => simp_all

theorem not_once_out (h : Inv s) (hvalid : l.fifoOutValid = true) (hready : s.top.fifoOutReady = false) :
    ¬ Once (edge s l) := by
  rintro ⟨-, hout⟩
  simp only [edge, h.out, hvalid, hready] at hout
  simp at hout

theorem inv_step {e : Event} (h : Inv s) (hin : InStep s e) (hstep : step s e = some s') : Inv s' := by
  cases e with
  | edge l =>
    cases hstep
    exact inv_edge h hin
  | receive words =>
    cases hstep
    refine { h with numbers := ?_, front := ?_ }
    · show (s.popped ++ (s.top.inputQueue ++ words.zipIdx s.received)).map Prod.snd = _
      have happend := List.range'_append_1 (s := 0) (m := s.received) (n := words.length)
      rw [Nat.zero_add] at happend
      rw [← List.append_assoc, List.map_append, h.numbers, List.zipIdx_map_snd, happend]
    · intro hvalid hpopped
      rw [List.head?_append, h.front hvalid hpopped]
      rfl
  | send =>
    cases hstep
    exact { h with }

theorem once_step {e : Event} (h : Inv s) (hstep : step s e = some s') : Once s' ↔ InStep s e := by
  refine ⟨fun honce => ?_, fun hin => (inv_step h hin hstep).once⟩
  cases e with
  | edge l =>
    cases hstep
    refine ⟨fun hpopped => ?_, fun hvalid => ?_⟩
    · by_contra hready
      refine not_once_in h hpopped ?_ honce
      rwa [Bool.eq_not, not_not] at hready
    · by_contra hready
      exact not_once_out h hvalid (Bool.not_eq_true _ ▸ hready) honce
  | receive words => trivial
  | send => trivial

end Step

/-! ## Runs -/

/-- Each word is transferred once in either direction exactly in the runs in which the logic keeps in step with
`fifo_if_proc`, whatever comes from the host. -/
theorem once_iff_inStep (data : Item) (es : List Event) :
    Passes step Once (start data) es ↔ Takes step InStep (start data) es := by
  obtain ⟨t, hrun⟩ := exists_run step (by rintro s (l | words | _); exacts [rfl, rfl, rfl]) (start data) es
  refine passes_iff_takes Inv ?_ (fun _ _ _ h _ hstep => once_step h hstep) (inv_start data) (inv_start data).once hrun
  exact fun s e s' h _ hstep honce => inv_step h ((once_step h hstep).mp honce) hstep

/-- The logic stops being ready for one cycle while a word arrives, and the word is lost. The logic offers a word before
`fifo_out_ready` is high and holds it, and the host gets it twice. -/
theorem word_lost_and_word_doubled :
    (∃ s, runFrom step (start (0, 0)) [.receive [5], .edge ⟨true, false, 0⟩, .edge ⟨false, false, 0⟩,
        .edge ⟨true, false, 0⟩] = some s ∧ s.popped = [(5, 0)] ∧ s.taken = [] ∧ s.top.fifoInValid = false ∧ ¬ Once s) ∧
      ∃ s, runFrom step (start (0, 0)) [.edge ⟨false, true, 7⟩, .edge ⟨false, true, 7⟩, .edge ⟨false, false, 0⟩] =
        some s ∧ s.pushed = [7, 7] ∧ s.given = [7] ∧ ¬ Once s :=
  ⟨⟨_, rfl, by decide⟩, ⟨_, rfl, by decide⟩⟩

/-- A logic that is always ready takes every word once. -/
example : ((runFrom step (start (0, 0)) [.receive [5, 6], .edge ⟨true, false, 0⟩, .edge ⟨true, false, 0⟩,
    .edge ⟨true, false, 0⟩]).map System.taken) = some [(5, 0), (6, 1)] := by decide

end GlipOsd.Tcp.SystemC
