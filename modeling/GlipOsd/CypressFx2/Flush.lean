import GlipOsd.Foundations.Clocked
import Mathlib.Tactic

/-! # The arbiter of the FX2 interface and its flush

`glip_cypressfx2_toplevel` writes words to EP6 and reads words from EP2. The FX2 chip sends what was written only when a
packet is full or `pktend` is asserted, so a counter that starts with each write asserts it. The flags of the chip and
of the two clock-crossing FIFOs are inputs.
-/

namespace GlipOsd.CypressFx2.Flush
open Clocked
set_option autoImplicit false

inductive Precedence
  | write
  | read
  deriving DecidableEq

/-- The counter has as many bits as the timeout needs, from which it counts down. -/
structure Regs where
  precedence : Precedence
  counter : ℕ
  deriving DecidableEq

/-- The flags that are seen in a cycle of `fx2_ifclk`. -/
structure In where
  intRst : Bool
  fx2EpoutFifoEmpty : Bool
  fx2EpinFifoFull : Bool
  intFifoOutValid : Bool
  intFifoInReady : Bool
  deriving DecidableEq

structure Out where
  rd : Bool
  wr : Bool
  pktend : Bool
  intFifoOutReady : Bool
  intFifoInValid : Bool
  fifoadr : BitVec 2
  nxtPrecedence : Precedence
  nxtCounter : ℕ
  deriving DecidableEq

def canWrite (i : In) : Bool := !i.fx2EpinFifoFull && i.intFifoOutValid

def canRead (i : In) : Bool := !i.fx2EpoutFifoEmpty && i.intFifoInReady

/-- The outputs by default. -/
def idle (r : Regs) : Out := ⟨false, false, false, false, false, 0b00, .write, r.counter - 1⟩

section Arbiter
variable (forceSendTimeout : ℕ) (r : Regs) (i : In)

def flush : Bool := r.counter == 1 && !canWrite i

def arbiter : Out :=
  if i.intRst then idle r
  else if flush r i then { idle r with pktend := true, fifoadr := 0b10 }
  else if canWrite i && (r.precedence == .write || !canRead i) then
    { idle r with wr := true, intFifoOutReady := true, fifoadr := 0b10, nxtCounter := forceSendTimeout,
                     nxtPrecedence := .read }
  else if canRead i && (r.precedence == .read || !canWrite i) then
    { idle r with rd := true, intFifoInValid := true, nxtPrecedence := .write }
  else idle r

def next : Regs :=
  if i.intRst then ⟨.write, 0⟩ else ⟨(arbiter forceSendTimeout r i).nxtPrecedence, (arbiter forceSendTimeout r i).nxtCounter⟩

end Arbiter

def reset : Regs := ⟨.write, 0⟩

/-! ## What a cycle can do -/

section Cycle
variable {T : ℕ} {r : Regs} {i : In}

/-- What the arbiter does in a cycle out of reset. -/
inductive Acts (T : ℕ) (r : Regs) (i : In) : Out → Prop
  | flush (hone : r.counter = 1) (hcan : canWrite i = false) :
      Acts T r i { idle r with pktend := true, fifoadr := 0b10 }
  | write (hcan : canWrite i = true) :
      Acts T r i { idle r with wr := true, intFifoOutReady := true, fifoadr := 0b10, nxtCounter := T,
                               nxtPrecedence := .read }
  | read (hcan : canRead i = true) (hwhy : r.precedence = .read ∨ canWrite i = false)
      (hflush : ¬ (r.counter = 1 ∧ canWrite i = false)) :
      Acts T r i { idle r with rd := true, intFifoInValid := true, nxtPrecedence := .write }
  | wait (hcan : canWrite i = false) (hflush : r.counter ≠ 1) : Acts T r i (idle r)

theorem arbiter_acts (T : ℕ) (r : Regs) (i : In) (hrst : i.intRst = false) : Acts T r i (arbiter T r i) := by
  rw [arbiter, hrst, if_neg Bool.false_ne_true]
  split_ifs with hflush hwrite hread
  · rw [Flush.flush, Bool.and_eq_true, beq_iff_eq, Bool.not_eq_true'] at hflush
    exact .flush hflush.1 hflush.2
  · rw [Bool.and_eq_true] at hwrite
    exact .write hwrite.1
  · rw [Bool.and_eq_true, Bool.or_eq_true, beq_iff_eq, Bool.not_eq_true'] at hread
    refine .read hread.1 hread.2 ?_
    rintro ⟨hone, hcan⟩
    simp [Flush.flush, hone, hcan] at hflush
  · have hcan : canWrite i = false := by
      by_contra hcan
      rw [Bool.not_eq_false] at hcan
      cases hr : canRead i <;> cases hp : r.precedence <;> simp_all
    refine .wait hcan fun hone => ?_
    simp [Flush.flush, hone, hcan] at hflush

end Cycle

/-! ## Histories -/

section Histories
variable (T : ℕ) (e : ℕ → In)

def regsAt (t : ℕ) : Regs := stateAt (next T) reset e t

def outAt (t : ℕ) : Out := arbiter T (regsAt T e t) (e t)

/-- Histories out of reset, where EP6 gets full only by a write and a word in the outgoing FIFO stays there until it
is read. -/
structure Legal : Prop where
  outOfReset : ∀ t, (e t).intRst = false
  fullByWrite : ∀ t, (e t).fx2EpinFifoFull = false → (e (t + 1)).fx2EpinFifoFull = true → (outAt T e t).wr = true
  staysValid : ∀ t, (e t).intFifoOutValid = true → (outAt T e t).intFifoOutReady = false →
    (e (t + 1)).intFifoOutValid = true

/-- Words have been written since the last `pktend`. -/
def Pending (t : ℕ) : Prop := ∃ u < t, (outAt T e u).wr = true ∧ ∀ v, u < v → v < t → (outAt T e v).pktend = false

/-- No other write comes before the next `pktend`. -/
def LastOfBurst (t : ℕ) : Prop :=
  (outAt T e t).wr = true ∧ ∀ u > t, (outAt T e u).wr = true → ∃ v, t < v ∧ v < u ∧ (outAt T e v).pktend = true

structure Flushes : Prop where
  covered : ∀ t, Pending T e t → 0 < (regsAt T e t).counter ∨ canWrite (e t) = true
  flushed : ∀ t, LastOfBurst T e t → ∃ v, t < v ∧ v ≤ t + T ∧ (outAt T e v).pktend = true
  write : ∀ t, (outAt T e t).wr = true → (e t).fx2EpinFifoFull = false ∧ (e t).intFifoOutValid = true
  read : ∀ t, (outAt T e t).rd = true → (e t).fx2EpoutFifoEmpty = false ∧ (e t).intFifoInReady = true
  exclusive : ∀ t, ¬ ((outAt T e t).wr = true ∧ (outAt T e t).rd = true)

variable {T e} {t : ℕ}

theorem canWrite_iff (i : In) : canWrite i = true ↔ i.fx2EpinFifoFull = false ∧ i.intFifoOutValid = true := by
  rw [canWrite, Bool.and_eq_true, Bool.not_eq_true']

theorem canRead_iff (i : In) : canRead i = true ↔ i.fx2EpoutFifoEmpty = false ∧ i.intFifoInReady = true := by
  rw [canRead, Bool.and_eq_true, Bool.not_eq_true']

theorem regsAt_succ (hrst : (e t).intRst = false) :
    regsAt T e (t + 1) = ⟨(outAt T e t).nxtPrecedence, (outAt T e t).nxtCounter⟩ := by
  have hnext : regsAt T e (t + 1) = next T (regsAt T e t) (e t) := rfl
  rw [hnext, next, hrst]
  rfl

theorem Legal.canWrite_succ (h : Legal T e) (hcan : canWrite (e t) = true) (hwr : (outAt T e t).wr = false)
    (hready : (outAt T e t).intFifoOutReady = false) : canWrite (e (t + 1)) = true := by
  obtain ⟨hfull, hvalid⟩ := (canWrite_iff _).mp hcan
  refine (canWrite_iff _).mpr ⟨?_, h.staysValid t hvalid hready⟩
  by_contra hne
  have hwrite := h.fullByWrite t hfull (Bool.not_eq_false _ ▸ hne)
  rw [hwr] at hwrite
  cases hwrite

/-- Either the counter runs, or the next cycle writes. -/
def Covered (r : Regs) (i : In) : Prop := 0 < r.counter ∨ canWrite i = true ∧ r.precedence = .write

theorem pending_succ (hpending : Pending T e (t + 1)) :
    (outAt T e t).wr = true ∨ Pending T e t ∧ (outAt T e t).pktend = false := by
  obtain ⟨u, hu, hwr, hno⟩ := hpending
  obtain rfl | hlt := Nat.lt_succ_iff_lt_or_eq.mp hu |>.symm
  · exact .inl hwr
  · exact .inr ⟨⟨u, hlt, hwr, fun v hv hvt => hno v hv (by omega)⟩, hno t hlt (by omega)⟩

theorem Legal.acts (h : Legal T e) (t : ℕ) : Acts T (regsAt T e t) (e t) (outAt T e t) :=
  arbiter_acts T _ _ (h.outOfReset t)

theorem Legal.covered_succ (h : Legal T e) (hT : 1 ≤ T) (ih : Pending T e t → Covered (regsAt T e t) (e t))
    (hpending : Pending T e (t + 1)) : Covered (regsAt T e (t + 1)) (e (t + 1)) := by
  have hregs := regsAt_succ (T := T) (h.outOfReset t)
  have hcanNext := h.canWrite_succ (t := t)
  have hpending := pending_succ hpending
  have hacts := h.acts t
  rw [hregs]
  generalize outAt T e t = out at hacts hpending hcanNext
  cases hacts with
  | flush hone hcan =>
    obtain hwr | ⟨-, hend⟩ := hpending
    · cases hwr
    · cases hend
  | write hcan => exact .inl hT
  | read hcan hwhy hflush =>
    obtain hwr | ⟨hpending, -⟩ := hpending
    · cases hwr
    -- the counter goes on, unless it is at its end and a write has to wait for this read
    by_cases hmore : 1 < (regsAt T e t).counter
    · exact .inl (Nat.sub_pos_of_lt hmore)
    · have hcw : canWrite (e t) = true := by
        obtain hpos | ⟨hcw, -⟩ := ih hpending
        · have hone : (regsAt T e t).counter = 1 := by omega
          by_contra hno
          exact hflush ⟨hone, Bool.not_eq_true _ ▸ hno⟩
        · exact hcw
      exact .inr ⟨hcanNext hcw rfl rfl, rfl⟩
  | wait hcan hflush =>
    obtain hwr | ⟨hpending, -⟩ := hpending
    · cases hwr
    obtain hpos | ⟨hcw, -⟩ := ih hpending
    · have hmore : 1 < (regsAt T e t).counter := by omega
      exact .inl (Nat.sub_pos_of_lt hmore)
    · rw [hcan] at hcw
      cases hcw

theorem Legal.covered (h : Legal T e) (hT : 1 ≤ T) (t : ℕ) : Pending T e t → Covered (regsAt T e t) (e t) := by
  induction t with
  | zero => rintro ⟨u, hu, -⟩; omega
  | succ t ih => exact h.covered_succ hT ih

/-- Without another write or `pktend` the counter has counted down by the time that has passed. -/
theorem Legal.counter_after (h : Legal T e) (hwr : (outAt T e t).wr = true) {j : ℕ} (hj : j < T)
    (hquiet : ∀ u, t < u → u ≤ t + j → (outAt T e u).wr = false) : (regsAt T e (t + 1 + j)).counter = T - j := by
  induction j with
  | zero =>
    have hacts := h.acts t
    rw [Nat.add_zero, regsAt_succ (h.outOfReset t)]
    generalize outAt T e t = out at hacts hwr
    cases hacts with
    | flush => cases hwr
    | write => rfl
    | read => cases hwr
    | wait => cases hwr
  | succ j ih =>
    have hcount := ih (by omega) fun u hu hle => hquiet u hu (by omega)
    have hno := hquiet (t + 1 + j) (by omega) (by omega)
    have hacts := h.acts (t + 1 + j)
    rw [← Nat.add_assoc, regsAt_succ (h.outOfReset _)]
    generalize outAt T e (t + 1 + j) = out at hacts hno
    cases hacts with
    | flush => simp only [idle, hcount]; omega
    | write => cases hno
    | read => simp only [idle, hcount]; omega
    | wait => simp only [idle, hcount]; omega

/-- The counter runs out `T` cycles after a write, when another write is possible or `pktend` is asserted. -/
theorem Legal.flushed (h : Legal T e) (hT : 1 ≤ T) (hlast : LastOfBurst T e t) :
    ∃ v, t < v ∧ v ≤ t + T ∧ (outAt T e v).pktend = true := by
  obtain ⟨hwr, hlast⟩ := hlast
  by_contra hno
  have hquiet (u : ℕ) (hu : t < u) (hle : u ≤ t + T + 1) : (outAt T e u).wr = false := by
    by_contra hwr'
    obtain ⟨v, htv, hvu, hend⟩ := hlast u hu (Bool.not_eq_false _ ▸ hwr')
    exact hno ⟨v, htv, by omega, hend⟩
  have hcount := h.counter_after hwr (j := T - 1) (by omega) fun u hu hle => hquiet u hu (by omega)
  have hend : t + 1 + (T - 1) = t + T := by omega
  have hone : T - (T - 1) = 1 := by omega
  rw [hend, hone] at hcount
  have hpktend : (outAt T e (t + T)).pktend ≠ true := fun hp => hno ⟨t + T, by omega, le_rfl, hp⟩
  have hwr₁ := hquiet (t + T) (by omega) (by omega)
  have hwr₂ := hquiet (t + T + 1) (by omega) le_rfl
  have hregs := regsAt_succ (T := T) (h.outOfReset (t + T))
  have hcanNext := h.canWrite_succ (t := t + T)
  have hacts := h.acts (t + T)
  generalize outAt T e (t + T) = out at hacts hpktend hwr₁ hregs hcanNext
  cases hacts with
  | flush => exact hpktend rfl
  | write => cases hwr₁
  | wait _ hflush => exact hflush hcount
  | read hcan hwhy hflush =>
    -- a write was possible, and after the read it has precedence
    have hcw : canWrite (e (t + T)) = true := by
      by_contra hcw
      exact hflush ⟨hcount, Bool.not_eq_true _ ▸ hcw⟩
    have hcw' := hcanNext hcw rfl rfl
    have hacts' := h.acts (t + T + 1)
    rw [hregs] at hacts'
    generalize outAt T e (t + T + 1) = out' at hacts' hwr₂
    cases hacts' with
    | flush _ hcan' => rw [hcw'] at hcan'; cases hcan'
    | write => cases hwr₂
    | wait hcan' => rw [hcw'] at hcan'; cases hcan'
    | read _ hwhy' =>
      obtain hp | hcan' := hwhy'
      · cases hp
      · rw [hcw'] at hcan'
        cases hcan'

/-- **Short packets are flushed** with any timeout, in every history out of reset. -/
theorem flushes (hT : 1 ≤ T) (h : Legal T e) : Flushes T e where
  covered t hpending := (h.covered hT t hpending).imp_right And.left
  flushed t hlast := h.flushed hT hlast
  write t hwr := by
    have hacts := h.acts t
    generalize outAt T e t = out at hacts hwr
    cases hacts with
    | write hcan => exact (canWrite_iff _).mp hcan
    | flush => cases hwr
    | read => cases hwr
    | wait => cases hwr
  read t hrd := by
    have hacts := h.acts t
    generalize outAt T e t = out at hacts hrd
    cases hacts with
    | read hcan => exact (canRead_iff _).mp hcan
    | flush => cases hrd
    | write => cases hrd
    | wait => cases hrd
  exclusive t := by
    rintro ⟨hwr, hrd⟩
    have hacts := h.acts t
    generalize outAt T e t = out at hacts hwr hrd
    cases hacts with
    | read => cases hwr
    | flush => cases hwr
    | write => cases hrd
    | wait => cases hwr

end Histories

/-- One word is in the outgoing FIFO at first, none later, and nothing comes from EP2. -/
def oneWord (t : ℕ) : In := ⟨false, true, false, t == 0, true⟩

theorem oneWord_flushes : Flushes 2 oneWord := by
  refine flushes (by decide) ⟨fun _ => rfl, nofun, fun t hvalid hready => ?_⟩
  have hzero : t = 0 := by simpa [oneWord] using hvalid
  subst hzero
  cases hready

/-- The word is written at once and flushed two cycles later. -/
example : (List.range 4).map (fun t => ((outAt 2 oneWord t).wr, (outAt 2 oneWord t).pktend)) =
    [(true, false), (false, false), (false, true), (false, false)] := by decide

end GlipOsd.CypressFx2.Flush
