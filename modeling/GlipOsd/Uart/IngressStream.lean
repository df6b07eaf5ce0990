import GlipOsd.Uart.Ingress

/-! # The ingress stream

The host writes datagrams, the ingress classifies their bytes on single bits and on its state. Fed
with any sequence of datagrams, with any gaps between the bytes, it reports each datagram in the
cycle of its last byte and nothing else, and waits in `PASSTHROUGH` between two of them.
-/

namespace GlipOsd.Uart.IngressStream
set_option autoImplicit false

structure Input where
  inValid : Bool
  inData : UInt8

def bytes : List Input → List UInt8
  | [] => []
  | i :: is => if i.inValid then i.inData :: bytes is else bytes is

/-- What the outputs of one cycle report; `out_data` is `in_data`. -/
def events (o : IngressOut) (outData : UInt8) : List HostItem :=
  (if o.outValid then [.word outData] else []) ++
    (if o.creditEn then [.credit o.creditVal] else []) ++
    (if o.logicRstEn then [.logicRst o.logicRstVal] else []) ++
    (if o.comRstEn then [.comRst o.comRstVal] else [])

/-- The registers, everything reported so far and whether `fsm_error` was raised. -/
structure State where
  ingress : Ingress
  reported : List HostItem
  error : Bool

/-- `credit_first` has no reset value. -/
def start (creditFirst : BitVec 6) : State := ⟨⟨.passthrough, creditFirst⟩, [], false⟩

def cycle (s : State) (i : Input) : State :=
  let o := ingress s.ingress i.inValid i.inData
  ⟨o.1, s.reported ++ events o.2 i.inData, s.error || o.2.fsmError⟩

def run (s : State) (is : List Input) : State := is.foldl cycle s

/-! ## Datagrams are a prefix code -/

theorem not_encode_prefix_inProgress (item : HostItem) (r : Ingress) :
    ¬ item.encode <+: r.inProgress := by
  obtain ⟨state, c⟩ := r
  have hc := creditByte_toNat c
  have hlt := c.isLt
  -- the byte behind the marker is odd and below `0x80`
  have hbyte : ∀ b : UInt8, b.toNat % 2 = 0 ∨ 0x80 ≤ b.toNat → b ≠ creditByte c := by
    rintro _ hb rfl
    omega
  rintro ⟨tail, htail⟩
  cases item with
  | word d =>
    simp only [HostItem.encode, sendWord] at htail
    split_ifs at htail with hd
    · subst hd
      cases state with
      | passthrough => cases htail
      | matched => cases htail
      | credit =>
        simp only [Ingress.inProgress, List.cons_append, List.cons.injEq] at htail
        exact hbyte 0xfe (.inl rfl) htail.2.1
    · cases state with
      | passthrough => cases htail
      | matched => exact hd (List.cons.inj htail).1
      | credit => exact hd (List.cons.inj htail).1
  | credit tranche =>
    have hlen := congrArg List.length htail
    simp only [HostItem.encode, sendCredit, creditMessage, List.length_append, List.length_cons,
      List.length_nil] at hlen
    cases state <;> simp [Ingress.inProgress] at hlen <;> omega
  | logicRst val =>
    cases state with
    | passthrough => cases htail
    | matched => cases htail
    | credit =>
      have heq := (List.cons.inj (List.cons.inj htail).2).1
      exact hbyte _ (.inr (by cases val <;> decide)) heq
  | comRst val =>
    cases state with
    | passthrough => cases htail
    | matched => cases htail
    | credit =>
      have heq := (List.cons.inj (List.cons.inj htail).2).1
      exact hbyte _ (.inr (by cases val <;> decide)) heq

theorem done_eq {r : Ingress} {items done todo : List HostItem} {item : HostItem}
    {p tail : List UInt8} (hitem : p ++ tail = item.encode) (htail : tail ≠ [])
    (hitems : items ++ [item] = done ++ todo) (hprogress : r.inProgress ++ tail = encodeHost todo) :
    done = items ∧ r.inProgress = p := by
  obtain rfl | ⟨todo, last, rfl⟩ := List.eq_nil_or_concat todo
  · rw [encodeHost_nil, List.append_eq_nil_iff] at hprogress
    exact absurd hprogress.2 htail
  · rw [List.concat_eq_append, ← List.append_assoc] at hitems
    obtain ⟨rfl, hlast⟩ := List.append_inj' hitems rfl
    obtain rfl := List.singleton_inj.mp hlast
    rw [List.concat_eq_append, encodeHost_append, encodeHost_cons, encodeHost_nil, List.append_nil,
      ← hitem, ← List.append_assoc] at hprogress
    have hp : r.inProgress = encodeHost todo ++ p := List.append_cancel_right hprogress
    cases todo with
    | nil => exact ⟨(List.append_nil done).symm, hp⟩
    | cons x todo =>
      refine absurd ⟨encodeHost todo ++ p, ?_⟩ (not_encode_prefix_inProgress x r)
      rw [hp, encodeHost_cons, List.append_assoc]

/-! ## One cycle -/

theorem ingress_out {r : Ingress} {d : UInt8} (h : (ingress r true d).2 ≠ {}) :
    (ingress r true d).1.inProgress = [] := by
  obtain ⟨state, c⟩ := r
  cases state with
  | passthrough =>
    simp only [ingress, if_true] at h ⊢
    split_ifs at h ⊢
    · exact absurd rfl h
    · rfl
  | matched =>
    simp only [ingress, if_true] at h ⊢
    split_ifs at h ⊢
    · rfl
    · exact absurd rfl h
    · rfl
  | credit => rfl

theorem ingress_gap (r : Ingress) (d : UInt8) : ingress r false d = (r, {}) := by
  obtain ⟨state, c⟩ := r
  cases state <;> rfl

/-- The outputs of a datagram report it, together with its last byte. -/
theorem events_out {item : HostItem} {d : UInt8} (h : item.encode.getLast? = some d) :
    events item.out d = [item] := by
  cases item with
  | word x =>
    have hx : x = d := by
      simp only [HostItem.encode, sendWord] at h
      split_ifs at h <;> simpa using h
    subst hx
    rfl
  | credit tranche => rfl
  | logicRst val => rfl
  | comRst val => rfl

/-- A cycle of the stream reports the datagram that it completes. -/
theorem cycle_frame {s : State} {i : Input} {is : List Input} {items : List HostItem}
    {tail : List UInt8} (h : s.ingress.inProgress ++ bytes (i :: is) ++ tail = encodeHost items) :
    ∃ (done : Option HostItem) (items' : List HostItem), items = done.toList ++ items' ∧
      (cycle s i).ingress.inProgress ++ bytes is ++ tail = encodeHost items' ∧
      (cycle s i).reported = s.reported ++ done.toList ∧ (cycle s i).error = s.error := by
  obtain ⟨valid, d⟩ := i
  cases valid with
  | false =>
    simp only [cycle, ingress_gap]
    exact ⟨none, items, rfl, h, rfl, Bool.or_false _⟩
  | true =>
    rw [bytes, if_pos rfl, List.append_assoc, List.cons_append] at h
    obtain ⟨done, items', rfl, hrest, hout⟩ := ingress_frame h
    refine ⟨done, items', rfl, by rw [List.append_assoc]; exact hrest, ?_⟩
    simp only [cycle, hout]
    cases done with
    | none => exact ⟨rfl, Bool.or_false _⟩
    | some item =>
      have hne : (ingress s.ingress true d).2 ≠ {} := by
        rw [hout]
        cases item <;> simp [HostItem.out]
      -- the byte is the last one of the datagram
      rw [ingress_out hne, List.nil_append] at hrest
      rw [Option.toList_some, List.singleton_append, encodeHost_cons, ← hrest,
        List.append_cons] at h
      have hlast : item.encode.getLast? = some d := by
        rw [← List.append_cancel_right h, List.getLast?_concat]
      refine ⟨congrArg _ (events_out hlast), ?_⟩
      cases item <;> exact Bool.or_false _

theorem run_frame (is : List Input) {s : State} {items : List HostItem} {tail : List UInt8}
    (h : s.ingress.inProgress ++ bytes is ++ tail = encodeHost items) :
    ∃ done todo, items = done ++ todo ∧
      (run s is).ingress.inProgress ++ tail = encodeHost todo ∧
      (run s is).reported = s.reported ++ done ∧ (run s is).error = s.error := by
  induction is generalizing s items with
  | nil =>
    rw [bytes, List.append_nil] at h
    exact ⟨[], items, rfl, h, (List.append_nil _).symm, rfl⟩
  | cons i is ih =>
    obtain ⟨first, items', rfl, hnext, hreported, herror⟩ := cycle_frame h
    obtain ⟨done, todo, rfl, hprogress, hreported', herror'⟩ := ih hnext
    refine ⟨first.toList ++ done, todo, (List.append_assoc _ _ _).symm, hprogress, ?_,
      herror'.trans herror⟩
    rw [run, List.foldl_cons]
    exact hreported'.trans (by rw [hreported, List.append_assoc])

/-- **The ingress reports what the host sent.** At any point of a stream of datagrams, behind the
complete `items` and a proper part `p` of the next one, with any gaps between the bytes: exactly the
complete datagrams are reported, in order and with their values, no error is raised, and the machine
is in `PASSTHROUGH` if it is between two datagrams. -/
theorem ingress_reports (creditFirst : BitVec 6) (items : List HostItem) (item : HostItem)
    (p tail : List UInt8) (is : List Input) (hitem : p ++ tail = item.encode) (htail : tail ≠ [])
    (hbytes : bytes is = encodeHost items ++ p) :
    (run (start creditFirst) is).reported = items ∧ (run (start creditFirst) is).error = false ∧
      (run (start creditFirst) is).ingress.inProgress = p ∧
      (p = [] → (run (start creditFirst) is).ingress.state = .passthrough) := by
  have h : (start creditFirst).ingress.inProgress ++ bytes is ++ tail =
      encodeHost (items ++ [item]) := by
    rw [hbytes, encodeHost_append, encodeHost_cons, encodeHost_nil, List.append_nil, ← hitem,
      start, inProgress_passthrough, List.nil_append, List.append_assoc]
  obtain ⟨done, todo, hitems, hprogress, hreported, herror⟩ := run_frame is h
  obtain ⟨rfl, hp⟩ := done_eq hitem htail hitems hprogress
  refine ⟨hreported, herror, hp, ?_⟩
  rintro rfl
  cases hstate : (run (start creditFirst) is).ingress.state with
  | passthrough => rfl
  | matched => simp [Ingress.inProgress, hstate] at hp
  | credit => simp [Ingress.inProgress, hstate] at hp

/-- A marker word, a credit whose two halves look like markers and a reset, with a gap, in front of
an incomplete marker word. -/
theorem ingress_reports_markers :
    (run (start 0) [⟨true, 0xfe⟩, ⟨false, 0x12⟩, ⟨true, 0xfe⟩, ⟨true, 0xfe⟩, ⟨true, 0x7f⟩,
      ⟨true, 0xfe⟩, ⟨true, 0xfe⟩, ⟨true, 0x83⟩, ⟨true, 0xfe⟩]).reported =
        [.word 0xfe, .credit 0x3ffe, .logicRst true] :=
  (ingress_reports 0 [.word 0xfe, .credit 0x3ffe, .logicRst true] (.word 0xfe) [0xfe] [0xfe] _ rfl
    (by decide) (by decide)).1

end GlipOsd.Uart.IngressStream
