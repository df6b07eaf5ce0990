import GlipOsd.Foundations.Runs
import GlipOsd.Uart.Host

/-! # Credit granted by the host

The logic sends a data word only against credit, the user reads at any time, and the thread goes on
reading and granting. A grant looks at the outstanding credit alone and not at the fill level of
the input buffer, so that the two together can exceed the buffer when the user reads slowly; the
assertions of the thread then fail.

The write part of the loop and `gb_uart_write` touch neither the credit nor the input buffer and
are no steps here.
-/

namespace GlipOsd.Uart.Grant
open CircularBuffer Runs
set_option autoImplicit false

/-- `given` and `sent` count the credit given to the logic and the words it has sent since the
reset; `rx` is on its way to the host. -/
structure State where
  ctx : Ctx
  rx : List UInt8
  given : ℕ
  sent : ℕ
  failed : Bool

def initial (first second : UInt8) : State :=
  ⟨reset gbUartNew first second, [], uartMaxTranche, 0, false⟩

inductive Label
  | arrive (item : Item)
  | userRead (channel size : ℕ)
  | threadRead (n : ℕ)
  | threadCredit

/-- The logic respects its credit. -/
def arrive (s : State) : Item → Option State
  | .word d =>
    if s.sent < s.given then
      some { s with rx := s.rx ++ (Item.word d).encode, sent := s.sent + 1 }
    else none
  | .credit tranche => some { s with rx := s.rx ++ (Item.credit tranche).encode }

/-- A failed assertion ends the process; a blocking read waits. -/
def step (s : State) (l : Label) : Option State :=
  if s.failed then none
  else
    match l with
    | .arrive item => arrive s item
    | .userRead channel size => some { s with ctx := (gbUartRead s.ctx channel size).2 }
    | .threadRead n =>
      match threadRead s.ctx s.rx n with
      | .ok (ctx, rx) => some { s with ctx := ctx, rx := rx }
      | .error .assertion => some { s with failed := true }
      | .error .blocked => none
    | .threadCredit =>
      let ctx := (threadCredit s.ctx).1
      some { s with ctx := ctx, given := s.given + (ctx.credit - s.ctx.credit) }

def State.fill (s : State) : ℕ := cbufFillLevel s.ctx.inputBuffer

/-- No assertion has failed, and what is stored and what may still come fit into the buffer. -/
def Safe (s : State) : Prop := s.failed = false ∧ s.ctx.credit + s.fill ≤ s.ctx.bufferSize

/-- A grant is given only when the tranche fits besides what is stored. -/
def GrantsFit (s : State) (l : Label) : Prop :=
  l = .threadCredit → s.ctx.credit < s.ctx.bufferSize - uartMaxTranche →
    s.ctx.credit + s.fill + uartMaxTranche ≤ s.ctx.bufferSize

/-! ## The invariant of safe runs -/

/-- The stored bytes are `q`, the line carries `items`, and the credit is what the logic may still
send and what is on the line. -/
structure Aligned (s : State) (q : List UInt8) (items : List Item) : Prop where
  size_eq : s.ctx.bufferSize = 32768
  rep : Rep 15 s.ctx.inputBuffer q
  stream : s.rx = encode items
  respects : s.sent ≤ s.given
  credit_eq : s.ctx.credit = s.given - s.sent + (dataWords items).length

theorem Aligned.fill_eq {s : State} {q : List UInt8} {items : List Item} (h : Aligned s q items) :
    s.fill = q.length := h.rep.fillLevel_eq

theorem rep_discard_all {k : ℕ} {buf : Cbuf} {q : List UInt8} (h : Rep k buf q) :
    Rep k (cbufDiscard buf (cbufFillLevel buf)).2 [] := by
  rw [h.fillLevel_eq]
  have hrep := (cbufDiscard_ok h le_rfl).2
  rwa [List.drop_length] at hrep

theorem aligned_initial (first second : UInt8) : Aligned (initial first second) [] [] where
  size_eq := rfl
  rep := rep_discard_all (rep_cbufInit 15)
  stream := rfl
  respects := Nat.zero_le _
  credit_eq := rfl

theorem safe_initial (first second : UInt8) : Safe (initial first second) := by
  refine ⟨rfl, ?_⟩
  rw [(aligned_initial first second).fill_eq, (aligned_initial first second).size_eq]
  exact (by decide : uartMaxTranche + 0 ≤ 32768)

section Steps
variable {s s' : State} {q : List UInt8} {items : List Item}

theorem aligned_arrive {item : Item} (h : Aligned s q items) (hstep : arrive s item = some s') :
    Aligned s' q (items ++ [item]) ∧ s'.failed = s.failed ∧ s'.ctx = s.ctx := by
  have hstream : s.rx ++ item.encode = encode (items ++ [item]) := by
    rw [encode_append, h.stream, encode_cons, encode_nil, List.append_nil]
  have hrespects := h.respects
  have hcredit := h.credit_eq
  cases item with
  | word d =>
    simp only [arrive] at hstep
    split_ifs at hstep with hsend
    obtain rfl := Option.some.inj hstep
    refine ⟨⟨h.size_eq, h.rep, hstream, hsend, ?_⟩, rfl, rfl⟩
    rw [dataWords_append, List.length_append, hcredit]
    simp only [dataWords, List.length_singleton]
    omega
  | credit tranche =>
    obtain rfl := Option.some.inj hstep
    refine ⟨⟨h.size_eq, h.rep, hstream, hrespects, ?_⟩, rfl, rfl⟩
    rw [dataWords_append, List.length_append, hcredit]
    rfl

theorem aligned_userRead (h : Aligned s q items) (channel size : ℕ) :
    ∃ n, Aligned { s with ctx := (gbUartRead s.ctx channel size).2 } (q.drop n) items ∧
      (gbUartRead s.ctx channel size).2.credit = s.ctx.credit := by
  obtain ⟨n, buf, -, heq, hrep⟩ := gbUartRead_takes h.rep (by norm_num) channel size
  rw [heq]
  exact ⟨n, ⟨h.size_eq, hrep, h.stream, h.respects, h.credit_eq⟩, rfl⟩

/-- The read part in a safe state: no assertion fails, and the words that are stored are paid
for. -/
theorem aligned_threadRead (h : Aligned s q items) (hsafe : s.ctx.credit + s.fill ≤ s.ctx.bufferSize)
    (n : ℕ) :
    ∃ ctx rx parsed rest, threadRead s.ctx s.rx n = .ok (ctx, rx) ∧
      Aligned { s with ctx := ctx, rx := rx } (q ++ dataWords parsed) rest ∧
      ctx.credit + (dataWords parsed).length = s.ctx.credit := by
  have hsize : s.ctx.inputBuffer.size = 32768 := h.rep.size_eq
  have hcredit := h.credit_eq
  rw [h.fill_eq, h.size_eq] at hsafe
  -- in front of a full buffer no credit is left, so that no word is on the line
  have hfull : cbufFreeLevel s.ctx.inputBuffer = 0 → ∀ d rest, items ≠ .word d :: rest := by
    rintro hfree d rest rfl
    rw [h.rep.freeLevel_eq] at hfree
    rw [dataWords, List.length_cons] at hcredit
    omega
  obtain ⟨parsed, rest, buf, hitems, -, hrep, heq⟩ :=
    threadRead_encode (by omega) h.rep (by omega) hfull n
  rw [hitems, dataWords_append, List.length_append] at hcredit
  rw [h.stream]
  refine ⟨_, _, parsed, rest, heq, ⟨h.size_eq, hrep, rfl, h.respects, ?_⟩, ?_⟩
  · simp only
    omega
  · simp only
    omega

theorem safe_threadCredit (h : Aligned s q items) (hsafe : Safe s)
    (hstep : step s .threadCredit = some s') :
    Aligned s' q items ∧ (Safe s' ↔ GrantsFit s .threadCredit) := by
  have hrespects := h.respects
  have hcredit := h.credit_eq
  rw [step, if_neg (by simp [hsafe.1])] at hstep
  obtain rfl := Option.some.inj hstep
  unfold threadCredit
  split_ifs with hgrant
  · refine ⟨⟨h.size_eq, h.rep, h.stream, ?_, ?_⟩, ?_⟩
    · simp only
      omega
    · simp only
      omega
    · refine ⟨fun hs _ _ => ?_, fun hfit => ⟨hsafe.1, ?_⟩⟩
      · have hsum : s.ctx.credit + uartMaxTranche + s.fill ≤ s.ctx.bufferSize := hs.2
        omega
      · have hsum := hfit rfl hgrant
        exact (by omega : s.ctx.credit + uartMaxTranche + s.fill ≤ s.ctx.bufferSize)
  · simp only [Nat.sub_self, Nat.add_zero]
    exact ⟨h, iff_of_true hsafe fun _ hlt => absurd hlt hgrant⟩

theorem safe_step {l : Label} (h : Aligned s q items) (hsafe : Safe s)
    (hstep : step s l = some s') :
    (∃ q' items', Aligned s' q' items') ∧ (Safe s' ↔ GrantsFit s l) := by
  have hother : ∀ {l : Label}, l ≠ .threadCredit → GrantsFit s l := fun hl he => absurd he hl
  have hrunning : ¬ s.failed = true := by simp [hsafe.1]
  cases l with
  | arrive item =>
    rw [step, if_neg hrunning] at hstep
    obtain ⟨hal, hfailed, hctx⟩ := aligned_arrive h hstep
    refine ⟨⟨_, _, hal⟩, iff_of_true ⟨hfailed.trans hsafe.1, ?_⟩ (hother (by simp))⟩
    simpa only [State.fill, hctx] using hsafe.2
  | userRead channel size =>
    rw [step, if_neg hrunning] at hstep
    obtain rfl := Option.some.inj hstep
    obtain ⟨n, hal, hcredit⟩ := aligned_userRead h channel size
    refine ⟨⟨_, _, hal⟩, iff_of_true ⟨hsafe.1, ?_⟩ (hother (by simp))⟩
    have hsum := hsafe.2
    rw [h.fill_eq, h.size_eq] at hsum
    rw [hal.fill_eq, hal.size_eq, List.length_drop]
    simp only [hcredit]
    omega
  | threadRead n =>
    obtain ⟨ctx, rx, parsed, rest, hread, hal, hcredit⟩ := aligned_threadRead h hsafe.2 n
    rw [step, if_neg hrunning] at hstep
    simp only [hread] at hstep
    obtain rfl := Option.some.inj hstep
    refine ⟨⟨_, _, hal⟩, iff_of_true ⟨hsafe.1, ?_⟩ (hother (by simp))⟩
    have hsum := hsafe.2
    rw [h.fill_eq, h.size_eq] at hsum
    rw [hal.fill_eq, hal.size_eq, List.length_append]
    simp only
    omega
  | threadCredit =>
    obtain ⟨hal, hiff⟩ := safe_threadCredit h hsafe hstep
    exact ⟨⟨_, _, hal⟩, hiff⟩

end Steps

/-- **When the host never over-grants.** Along every run from a reset, in every order of arrivals,
reads by the user, reads by the thread in chunks of any size, and grants: no assertion fails and the
credit and the fill level together never exceed the buffer, exactly when every grant of the run is
given with room for a tranche besides the credit and the stored bytes. -/
theorem never_over_granted_iff (first second : UInt8) (ls : List Label) (s : State)
    (hrun : runFrom step (initial first second) ls = some s) :
    Passes step Safe (initial first second) ls ↔ Takes step GrantsFit (initial first second) ls := by
  refine passes_iff_takes (fun s => ∃ q items, Aligned s q items) ?_ ?_
    ⟨[], [], aligned_initial first second⟩ (safe_initial first second) hrun
  · rintro s l s' ⟨q, items, h⟩ hsafe hstep -
    exact (safe_step h hsafe hstep).1
  · rintro s l s' ⟨q, items, h⟩ hsafe hstep
    exact (safe_step h hsafe hstep).2

/-! ## Runs with nothing on the line in between -/

/-- Nothing is on the line, `c` words may come and `f` bytes are stored. -/
structure Idle (s : State) (c f : ℕ) : Prop where
  running : s.failed = false
  line : s.rx = []
  size_eq : s.ctx.bufferSize = 32768
  credit_eq : s.ctx.credit = c
  sent_eq : s.sent + c = s.given
  rep : ∃ q, Rep 15 s.ctx.inputBuffer q ∧ q.length = f

/-- One data word is sent and one turn of the loop reads it. -/
def arrival : List Label := [.arrive (.word 0), .threadRead 1, .threadCredit]

def arrivals (n : ℕ) : List Label := (List.replicate n arrival).flatten

theorem threadRead_word {ctx : Ctx} {q : List UInt8} (h : Rep 15 ctx.inputBuffer q)
    (hcredit : 0 < ctx.credit) (hfree : q.length < 32768) :
    ∃ buf, threadRead ctx [0] 1 =
        .ok ({ ctx with inputBuffer := buf, credit := ctx.credit - 1 }, []) ∧
      Rep 15 buf (q ++ [0]) := by
  have hsize : ctx.inputBuffer.size = 32768 := h.size_eq
  obtain ⟨buf, hstore, hrep⟩ := storeWord_ok h hcredit (by omega) 0
  refine ⟨buf, ?_, hrep⟩
  unfold threadRead
  have hpos : 1 ≤ Nat.min (ctx.inputBuffer.size - q.length) tmpBufferSize :=
    Nat.le_min.mpr ⟨by omega, by decide⟩
  have hsmall : Nat.min (ctx.inputBuffer.size - q.length) tmpBufferSize ≤ 256 :=
    Nat.min_le_right _ _
  rw [h.freeLevel_eq, if_neg (by omega), Util.min_eq (by omega) (by decide),
    Util.toSize_natCast (by omega)]
  simp only [min_eq_left hpos]
  rw [parseBuffer.eq_def]
  simp [hstore, parseBuffer]

theorem idle_threadCredit {s : State} {c f : ℕ} (h : Idle s c f) :
    ∃ s', step s .threadCredit = some s' ∧ Idle s' (if c < 16385 then c + 16383 else c) f := by
  have hcredit := h.credit_eq
  have hsize := h.size_eq
  have hsent := h.sent_eq
  have hstep : step s .threadCredit = some { s with
      ctx := (threadCredit s.ctx).1
      given := s.given + ((threadCredit s.ctx).1.credit - s.ctx.credit) } := by
    rw [step, if_neg (by simp [h.running])]
  by_cases hc : c < 16385
  · have hgrant : threadCredit s.ctx =
        ({ s.ctx with credit := c + 16383 }, sendCredit uartMaxTranche) := by
      rw [threadCredit, if_pos (by rw [hcredit, hsize, uartMaxTranche]; omega), hcredit,
        uartMaxTranche]
    rw [hgrant] at hstep
    rw [if_pos hc]
    refine ⟨_, hstep, h.running, h.line, hsize, rfl, ?_, h.rep⟩
    simp only
    omega
  · have hkeep : threadCredit s.ctx = (s.ctx, []) := by
      rw [threadCredit, if_neg (by rw [hcredit, hsize, uartMaxTranche]; omega)]
    rw [hkeep] at hstep
    rw [if_neg hc]
    refine ⟨_, hstep, h.running, h.line, hsize, hcredit, ?_, h.rep⟩
    simp only
    omega

theorem idle_word {s : State} {c f : ℕ} (h : Idle s (c + 1) f) (hf : f < 32768) :
    ∃ s', runFrom step s [.arrive (.word 0), .threadRead 1] = some s' ∧ Idle s' c (f + 1) := by
  obtain ⟨q, hrep, rfl⟩ := h.rep
  have hcredit := h.credit_eq
  have hsent := h.sent_eq
  obtain ⟨buf, hread, hrep'⟩ := threadRead_word hrep (by omega) hf
  have harrive : step s (.arrive (.word 0)) = some { s with rx := [0], sent := s.sent + 1 } := by
    rw [step, if_neg (by simp [h.running])]
    simp only [arrive, h.line]
    rw [if_pos (by omega)]
    rfl
  have hstore : step { s with rx := [0], sent := s.sent + 1 } (.threadRead 1) = some { s with
      ctx := { s.ctx with inputBuffer := buf, credit := s.ctx.credit - 1 }
      rx := []
      sent := s.sent + 1 } := by
    rw [step, if_neg (by simp [h.running])]
    simp only [hread]
  refine ⟨_, by rw [runFrom_cons, harrive, Option.bind_some, runFrom_cons, hstore]; rfl, ?_⟩
  refine ⟨h.running, rfl, h.size_eq, ?_, ?_, q ++ [0], hrep', by simp⟩
  · simp only
    omega
  · simp only
    omega

theorem idle_arrival {s : State} {c f : ℕ} (h : Idle s (c + 1) f) (hf : f < 32768) :
    ∃ s', runFrom step s arrival = some s' ∧
      Idle s' (if c < 16385 then c + 16383 else c) (f + 1) := by
  obtain ⟨s₁, hrun, h₁⟩ := idle_word h hf
  obtain ⟨s₂, hstep, h₂⟩ := idle_threadCredit h₁
  refine ⟨s₂, ?_, h₂⟩
  rw [arrival, ← List.singleton_append (l := [Label.threadRead 1, Label.threadCredit])]
  exact (runFrom_append step s [.arrive (.word 0), .threadRead 1] [.threadCredit]).trans
    (by rw [hrun, Option.bind_some, runFrom_cons, hstep]; rfl)

/-- While the credit stays at the threshold or above it, nothing is granted. -/
theorem idle_arrivals {s : State} {c f : ℕ} (n : ℕ) (h : Idle s (c + n) f) (hc : 16385 ≤ c)
    (hf : f + n ≤ 32768) : ∃ s', runFrom step s (arrivals n) = some s' ∧ Idle s' c (f + n) := by
  induction n generalizing s f with
  | zero => exact ⟨s, rfl, h⟩
  | succ n ih =>
    obtain ⟨s₁, hrun₁, h₁⟩ := idle_arrival (c := c + n) h (by omega)
    rw [if_neg (by omega)] at h₁
    obtain ⟨s₂, hrun₂, h₂⟩ := ih h₁ (by omega)
    refine ⟨s₂, ?_, by rwa [Nat.add_assoc, Nat.add_comm 1] at h₂⟩
    rw [arrivals, List.replicate_succ, List.flatten_cons, runFrom_append, hrun₁, Option.bind_some]
    exact hrun₂

theorem idle_initial (first second : UInt8) : Idle (initial first second) uartMaxTranche 0 :=
  ⟨rfl, rfl, rfl, rfl, Nat.zero_add _, [], rep_discard_all (rep_cbufInit 15), rfl⟩

theorem idle_userRead {s : State} {c f : ℕ} (n : ℕ) (h : Idle s c f) (hn : n ≤ f) :
    ∃ s', step s (.userRead 0 n) = some s' ∧ Idle s' c (f - n) := by
  obtain ⟨q, hrep, rfl⟩ := h.rep
  obtain ⟨buf, hread, hrep'⟩ := gbUartRead_ok hrep (by norm_num) hn
  refine ⟨{ s with ctx := { s.ctx with inputBuffer := buf } }, ?_, h.running, h.line, h.size_eq, h.credit_eq, h.sent_eq,
    q.drop n, hrep', List.length_drop⟩
  rw [step, if_neg (by simp [h.running])]
  simp only [hread]

/-- Nothing is granted, or the tranche fits. -/
theorem idle_grantsFit {s : State} {c f : ℕ} (h : Idle s c f) (hfit : 16385 ≤ c ∨ c + f ≤ 16385) :
    GrantsFit s .threadCredit := by
  obtain ⟨q, hrep, rfl⟩ := h.rep
  intro _ hlow
  rw [h.credit_eq, h.size_eq] at hlow ⊢
  rw [State.fill, hrep.fillLevel_eq]
  have hmax : uartMaxTranche = 16383 := rfl
  omega

theorem takes_arrival {s : State} {c f : ℕ} (h : Idle s (c + 1) f) (hf : f < 32768)
    (hfit : 16385 ≤ c ∨ c + (f + 1) ≤ 16385) : Takes step GrantsFit s arrival := by
  obtain ⟨s', hrun, h'⟩ := idle_word h hf
  have hother : Takes step GrantsFit s [.arrive (.word 0), .threadRead 1] := takes_of_labels (by simp [GrantsFit]) s
  exact hother.append hrun ⟨idle_grantsFit h' hfit, fun _ _ => trivial⟩

theorem takes_arrivals {s : State} {c f : ℕ} (n : ℕ) (h : Idle s (c + n) f) (hc : 16385 ≤ c) (hf : f + n ≤ 32768) :
    Takes step GrantsFit s (arrivals n) := by
  induction n generalizing s f with
  | zero => trivial
  | succ n ih =>
    obtain ⟨s', hrun, h'⟩ := idle_arrival (c := c + n) h (by omega)
    rw [if_neg (by omega)] at h'
    rw [arrivals, List.replicate_succ, List.flatten_cons]
    exact (takes_arrival (c := c + n) h (by omega) (.inl (by omega))).append hrun (ih h' (by omega))

/-- The first grant after a reset, the words that it covers, and a user who reads them. The next word takes the credit
to the threshold, and the second grant fits to the byte. -/
theorem timely_reader_fits :
    ∃ s, runFrom step (initial 0x41 0) (.threadCredit :: (arrivals 16381 ++ (.userRead 0 16381 :: arrival))) = some s ∧
      s.ctx.credit = 32767 ∧ s.fill = 1 ∧
      Passes step Safe (initial 0x41 0) (.threadCredit :: (arrivals 16381 ++ (.userRead 0 16381 :: arrival))) := by
  have h₀ : Idle (initial 0x41 0) 16383 0 := idle_initial 0x41 0
  obtain ⟨s₁, hr₁, h₁⟩ := idle_threadCredit h₀
  obtain ⟨s₂, hr₂, h₂⟩ := idle_arrivals (c := 16385) 16381 h₁ le_rfl (by omega)
  obtain ⟨s₃, hr₃, h₃⟩ := idle_userRead 16381 h₂ (by omega)
  rw [Nat.zero_add, Nat.sub_self] at h₃
  obtain ⟨s₄, hr₄, h₄⟩ := idle_arrival (c := 16384) h₃ (by omega)
  obtain ⟨q, hrep, hlength⟩ := h₄.rep
  have hrun : runFrom step (initial 0x41 0) (.threadCredit :: (arrivals 16381 ++ (.userRead 0 16381 :: arrival))) =
      some s₄ := by
    rw [runFrom_cons, hr₁, Option.bind_some, runFrom_append, hr₂, Option.bind_some, runFrom_cons, hr₃, Option.bind_some,
      hr₄]
  have hfits : Takes step GrantsFit (initial 0x41 0)
      (.threadCredit :: (arrivals 16381 ++ (.userRead 0 16381 :: arrival))) := by
    refine ⟨idle_grantsFit h₀ (.inr (by omega)), fun s hs => ?_⟩
    obtain rfl : s₁ = s := Option.some.inj (hr₁.symm.trans hs)
    refine (takes_arrivals (c := 16385) 16381 h₁ le_rfl (by omega)).append hr₂ ⟨nofun, fun s hs => ?_⟩
    obtain rfl : s₃ = s := Option.some.inj (hr₃.symm.trans hs)
    exact takes_arrival (c := 16384) h₃ (by omega) (.inr (by omega))
  refine ⟨s₄, hrun, h₄.credit_eq, ?_, (never_over_granted_iff 0x41 0 _ s₄ hrun).mpr hfits⟩
  rw [State.fill, hrep.fillLevel_eq, hlength]

/-- The first grants after a reset, and a user who does not read: the second grant is one too many,
and later a data word finds the buffer full. -/
theorem slow_reader_overflows :
    ∃ s₁ s₂,
      runFrom step (initial 0x41 0) (.threadCredit :: (arrivals 16381 ++ arrival)) = some s₁ ∧
      s₁.ctx.bufferSize < s₁.ctx.credit + s₁.fill ∧
      runFrom step s₁ (arrivals 16382 ++ (arrival ++ (arrivals 3 ++
        [.arrive (.word 0), .threadRead 1]))) = some s₂ ∧ s₂.failed = true := by
  have h₀ : Idle (initial 0x41 0) 16383 0 := idle_initial 0x41 0
  obtain ⟨t₁, hr₁, h₁⟩ := idle_threadCredit h₀
  obtain ⟨t₂, hr₂, h₂⟩ := idle_arrivals (c := 16385) 16381 h₁ le_rfl (by omega)
  obtain ⟨s₁, hr₃, h₃⟩ := idle_arrival (c := 16384) h₂ (by omega)
  obtain ⟨t₄, hr₄, h₄⟩ := idle_arrivals (c := 16385) 16382 h₃ le_rfl (by omega)
  obtain ⟨t₅, hr₅, h₅⟩ := idle_arrival (c := 16384) h₄ (by omega)
  obtain ⟨t₆, hr₆, h₆⟩ := idle_arrivals (c := 32764) 3 h₅ (by omega) (by omega)
  obtain ⟨q₃, hrep₃, hlen₃⟩ := h₃.rep
  obtain ⟨q₆, hrep₆, hlen₆⟩ := h₆.rep
  refine ⟨s₁, { t₆ with rx := [0], sent := t₆.sent + 1, failed := true }, ?_, ?_, ?_, rfl⟩
  · rw [runFrom_cons, hr₁, Option.bind_some, runFrom_append, hr₂, Option.bind_some, hr₃]
  · rw [h₃.size_eq, h₃.credit_eq, State.fill, hrep₃.fillLevel_eq, hlen₃]
    decide
  · have hfull : cbufFreeLevel t₆.ctx.inputBuffer = 0 := by
      rw [hrep₆.freeLevel_eq, hlen₆, hrep₆.size_eq]
      norm_num
    have hsent := h₆.sent_eq
    have harrive : step t₆ (.arrive (.word 0)) =
        some { t₆ with rx := [0], sent := t₆.sent + 1 } := by
      rw [step, if_neg (by simp [h₆.running])]
      simp only [arrive, h₆.line]
      rw [if_pos (by omega)]
      rfl
    rw [runFrom_append, hr₄, Option.bind_some, runFrom_append, hr₅, Option.bind_some,
      runFrom_append, hr₆, Option.bind_some, runFrom_cons, harrive, Option.bind_some, runFrom_cons,
      step, if_neg (by simp [h₆.running])]
    simp [threadRead, hfull]

end GlipOsd.Uart.Grant
