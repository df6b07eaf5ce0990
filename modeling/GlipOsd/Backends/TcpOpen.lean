import GlipOsd.Foundations.Ledger
import GlipOsd.Foundations.Runs

/-! # Opening and closing the tcp backend

`gb_tcp_open` and `gb_tcp_close`, with what the calls below answer as data. The fields of the context are
set before the call that fills them, and nothing sets them back.
-/

namespace GlipOsd.Backends.Tcp
open Runs Resources
set_option autoImplicit false

structure Ctx where
  dataSfd : ℤ
  dataEfd : ℤ
  ctrlSfd : ℤ
  deriving DecidableEq

/-- The context of `gb_tcp_new`. -/
def closed : Ctx := ⟨-1, -1, -1⟩

/-- One address: `socket` fails, `connect` fails, or the connection stands. -/
inductive Attempt
  | noSocket
  | refused (sfd : ℕ)
  | connected (sfd : ℕ)
  deriving DecidableEq

/-- The options and what the calls of an open answer. `dataHost` and `ctrlHost` are the addresses that
`getaddrinfo` gives, if it succeeds. -/
structure Calls where
  port : Option UInt32
  dataHost : Option (List Attempt)
  dataNonblock : Bool
  epollCreate : Option ℕ
  epollCtl : Bool
  ctrlHost : Option (List Attempt)
  ctrlNonblock : Bool

def defaultPort : UInt32 := 23000

def connectAttempts (l : Ledger ℕ) : List Attempt → Option (Option ℕ × Ledger ℕ)
  | [] => some (none, l)
  | .noSocket :: attempts => connectAttempts l attempts
  | .refused sfd :: attempts => (l.acquire sfd).bind fun l => connectAttempts (l.release sfd) attempts
  | .connected sfd :: _ => (l.acquire sfd).map fun l => (some sfd, l)

/-- `gl_util_connect_to_host`: the result and what is in `*sfd` afterwards. -/
def connectToHost (l : Ledger ℕ) (port : UInt32) (result : Option (List Attempt)) (sfd : ℤ) : Option (ℤ × ℤ × Ledger ℕ) :=
  if port > 9999999 then some (-1, sfd, l)
  else
    match result with
    | none => some (-1, sfd, l)
    | some attempts => (connectAttempts l attempts).map fun
      | (none, l) => (-1, sfd, l)
      | (some out, l) => (0, out, l)

/-- `gb_tcp_open`; `none` if the answers are not those of a kernel. -/
def gbTcpOpen (c : Ctx) (l : Ledger ℕ) (o : Calls) : Option (ℤ × Ctx × Ledger ℕ) :=
  if c.dataSfd ≥ 0 ∨ c.ctrlSfd ≥ 0 then some (-1, c, l)
  else do
    let portData := o.port.getD defaultPort
    let portCtrl := portData + 1
    let (rv, dataSfd, l) ← connectToHost l portData o.dataHost 0
    let c := { c with dataSfd }
    if rv ≠ 0 then return (-1, c, l)
    if !o.dataNonblock then return (-1, c, l)
    match o.epollCreate with
    | none => return (-1, { c with dataEfd := -1 }, l)
    | some efd =>
      let l ← l.acquire efd
      let c := { c with dataEfd := efd }
      if !o.epollCtl then return (-1, c, l)
      let (rv, ctrlSfd, l) ← connectToHost l portCtrl o.ctrlHost 0
      let c := { c with ctrlSfd }
      if rv ≠ 0 then return (-1, c, l)
      if !o.ctrlNonblock then return (-1, c, l)
      return (0, c, l)

/-- `close` of a field that holds a descriptor. -/
def closeFd (fd : ℤ) (l : Ledger ℕ) : Ledger ℕ := if fd ≥ 0 then l.release fd.toNat else l

def gbTcpClose (c : Ctx) (l : Ledger ℕ) : Ctx × Ledger ℕ :=
  let l := closeFd c.dataEfd l
  let l := closeFd c.dataSfd l
  let c := if c.dataSfd ≥ 0 then { c with dataSfd := -1 } else c
  let l := closeFd c.ctrlSfd l
  let c := if c.ctrlSfd ≥ 0 then { c with ctrlSfd := -1 } else c
  (c, l)

/-! ## Runs -/

/-- `failed` says that the last call was an open in which a call below failed. -/
structure State where
  ctx : Ctx
  ledger : Ledger ℕ
  failed : Bool
  deriving DecidableEq

inductive Op
  | open (o : Calls)
  | close

def initial : State := ⟨closed, empty, false⟩

/-- The test for an open connection. -/
def Ctx.isOpen (c : Ctx) : Bool := c.dataSfd ≥ 0 || c.ctrlSfd ≥ 0

def step (s : State) : Op → Option State
  | .open o => (gbTcpOpen s.ctx s.ledger o).map fun (rv, ctx, ledger) =>
    { ctx, ledger, failed := rv ≠ 0 && !s.ctx.isOpen }
  | .close =>
    let (ctx, ledger) := gbTcpClose s.ctx s.ledger
    some { ctx, ledger, failed := false }

/-- A failed open has left the context closed, and every descriptor that was closed was held. -/
def Clean (s : State) : Prop := (s.failed = true → s.ctx = closed) ∧ s.ledger.stray = []

/-- A connection to the host can be made. -/
def connects (port : UInt32) (result : Option (List Attempt)) : Bool :=
  port ≤ 9999999 && (result.getD []).any fun | .connected _ => true | _ => false

def Calls.succeed (o : Calls) : Bool :=
  connects (o.port.getD defaultPort) o.dataHost && o.dataNonblock && o.epollCreate.isSome && o.epollCtl &&
    connects (o.port.getD defaultPort + 1) o.ctrlHost && o.ctrlNonblock

/-- No call below an open fails, and there is no close after a close. -/
def Safe (s : State) : Op → Prop
  | .open o => s.ctx.isOpen = false → o.succeed = true
  | .close => s.ctx.dataEfd ≥ 0 → s.ctx.isOpen = true

section Spec
variable {l l' : Ledger ℕ} {rv : ℤ} {c c' : Ctx} {o : Calls}

theorem connectAttempts_spec {attempts : List Attempt} {r : Option ℕ} (h : connectAttempts l attempts = some (r, l')) :
    (attempts.any fun | .connected _ => true | _ => false) = true ∧ (∃ out, r = some out ∧ l.acquire out = some l') ∨
      (attempts.any fun | .connected _ => true | _ => false) = false ∧ r = none ∧ l' = l := by
  induction attempts generalizing l with
  | nil =>
    cases h
    exact .inr ⟨rfl, rfl, rfl⟩
  | cons a attempts ih =>
    cases a with
    | noSocket => exact ih h
    | refused sfd =>
      obtain ⟨u, hu, hrest⟩ := Option.bind_eq_some_iff.mp h
      rw [release_acquire hu] at hrest
      exact ih hrest
    | connected sfd =>
      obtain ⟨u, hu, heq⟩ := Option.map_eq_some_iff.mp h
      cases heq
      exact .inl ⟨rfl, sfd, rfl, hu⟩

theorem connectToHost_spec {port : UInt32} {result : Option (List Attempt)} {sfd sfd' : ℤ}
    (h : connectToHost l port result sfd = some (rv, sfd', l')) :
    connects port result = true ∧ rv = 0 ∧ (∃ out : ℕ, sfd' = out ∧ l.acquire out = some l') ∨
      connects port result = false ∧ rv = -1 ∧ sfd' = sfd ∧ l' = l := by
  unfold connectToHost at h
  split_ifs at h with hport
  · cases h
    refine .inr ⟨?_, rfl, rfl, rfl⟩
    rw [connects, decide_eq_false (UInt32.not_le.mpr hport), Bool.false_and]
  · have hle : decide (port ≤ 9999999) = true := decide_eq_true (UInt32.not_lt.mp hport)
    cases result with
    | none =>
      cases h
      refine .inr ⟨?_, rfl, rfl, rfl⟩
      rw [connects, hle]
      rfl
    | some attempts =>
      obtain ⟨⟨r, u⟩, hu, heq⟩ := Option.map_eq_some_iff.mp h
      rw [connects, hle, Bool.true_and]
      obtain ⟨hany, out, rfl, hout⟩ | ⟨hany, rfl, rfl⟩ := connectAttempts_spec hu
      · cases heq
        exact .inl ⟨hany, rfl, out, rfl, hout⟩
      · cases heq
        exact .inr ⟨hany, rfl, rfl, rfl⟩

/-- All calls succeed and the context has the three descriptors, or the open fails and `data_sfd` says that the
backend is open. -/
theorem gbTcpOpen_spec (hclosed : c.isOpen = false) (h : gbTcpOpen c l o = some (rv, c', l')) :
    o.succeed = true ∧ rv = 0 ∧ (∃ dfd efd cfd : ℕ, c' = ⟨dfd, efd, cfd⟩ ∧ l'.held = cfd :: efd :: dfd :: l.held ∧
        l'.stray = l.stray) ∨
      o.succeed = false ∧ rv = -1 ∧ c'.dataSfd ≥ 0 := by
  have hnot : ¬ (c.dataSfd ≥ 0 ∨ c.ctrlSfd ≥ 0) := by
    simpa [Ctx.isOpen] using hclosed
  rw [gbTcpOpen, if_neg hnot] at h
  simp only [Option.bind_eq_bind, Option.bind_eq_some_iff] at h
  obtain ⟨⟨rv1, dataSfd, l1⟩, h1, h⟩ := h
  obtain ⟨hdata, rfl, dfd, rfl, hdfd⟩ | ⟨hdata, rfl, rfl, -⟩ := connectToHost_spec h1
  · simp only [ne_eq, not_true_eq_false, if_false] at h
    have hdfd0 : (dfd : ℤ) ≥ 0 := Int.natCast_nonneg dfd
    cases hnonblock : o.dataNonblock with
    | false =>
      rw [hnonblock] at h
      cases h
      exact .inr ⟨by simp [Calls.succeed, hnonblock], rfl, hdfd0⟩
    | true =>
      rw [hnonblock, Bool.not_true, if_neg Bool.false_ne_true] at h
      cases hepoll : o.epollCreate with
      | none =>
        rw [hepoll] at h
        cases h
        exact .inr ⟨by simp [Calls.succeed, hepoll], rfl, hdfd0⟩
      | some efd =>
        rw [hepoll] at h
        obtain ⟨l2, hefd, h⟩ := Option.bind_eq_some_iff.mp h
        cases hctl : o.epollCtl with
        | false =>
          rw [hctl] at h
          cases h
          exact .inr ⟨by simp [Calls.succeed, hctl], rfl, hdfd0⟩
        | true =>
          rw [hctl, Bool.not_true, if_neg Bool.false_ne_true] at h
          obtain ⟨⟨rv3, ctrlSfd, l3⟩, h3, h⟩ := Option.bind_eq_some_iff.mp h
          obtain ⟨hctrl, rfl, cfd, rfl, hcfd⟩ | ⟨hctrl, rfl, rfl, -⟩ := connectToHost_spec h3
          · rw [if_neg (not_not.mpr rfl)] at h
            cases hnonblock' : o.ctrlNonblock with
            | false =>
              rw [hnonblock'] at h
              cases h
              exact .inr ⟨by simp [Calls.succeed, hnonblock'], rfl, hdfd0⟩
            | true =>
              rw [hnonblock'] at h
              cases h
              obtain ⟨-, hheld1, hstray1⟩ := acquire_eq_some hdfd
              obtain ⟨-, hheld2, hstray2⟩ := acquire_eq_some hefd
              obtain ⟨-, hheld3, hstray3⟩ := acquire_eq_some hcfd
              refine .inl ⟨?_, rfl, dfd, efd, cfd, rfl, ?_, ?_⟩
              · simp [Calls.succeed, hdata, hnonblock, hepoll, hctl, hctrl, hnonblock']
              · rw [hheld3, hheld2, hheld1]
              · rw [hstray3, hstray2, hstray1]
          · cases h
            exact .inr ⟨by simp [Calls.succeed, hctrl], rfl, hdfd0⟩
  · cases h
    exact .inr ⟨by rw [Calls.succeed, hdata]; rfl, rfl, le_rfl⟩

/-- The backend is closed and holds nothing, or it holds the three descriptors of the context. -/
def Inv (s : State) : Prop :=
  s.ctx.dataSfd = -1 ∧ s.ctx.ctrlSfd = -1 ∧ s.ledger.held = [] ∨
    ∃ dfd efd cfd : ℕ, s.ctx = ⟨dfd, efd, cfd⟩ ∧ s.ledger.held = [cfd, efd, dfd]

theorem inv_initial : Inv initial := .inl ⟨rfl, rfl, rfl⟩

theorem closeFd_natCast (fd : ℕ) (l : Ledger ℕ) : closeFd fd l = l.release fd := if_pos (Int.natCast_nonneg fd)

theorem gbTcpClose_open {dfd efd cfd : ℕ} (hheld : l.held = [cfd, efd, dfd]) :
    (gbTcpClose ⟨dfd, efd, cfd⟩ l).1 = ⟨-1, efd, -1⟩ ∧ (gbTcpClose ⟨dfd, efd, cfd⟩ l).2.held = [] ∧
      (gbTcpClose ⟨dfd, efd, cfd⟩ l).2.stray = l.stray := by
  have hnodup := l.nodup
  rw [hheld] at hnodup
  obtain ⟨⟨hce, hcd⟩, hed⟩ : (cfd ≠ efd ∧ cfd ≠ dfd) ∧ efd ≠ dfd := by simpa using hnodup
  obtain ⟨hheld1, hstray1⟩ := release_held (l := l) (a := efd) (by simp [hheld])
  rw [hheld, List.erase_cons_tail (by simpa using hce), List.erase_cons_head] at hheld1
  obtain ⟨hheld2, hstray2⟩ := release_held (l := l.release efd) (a := dfd) (by simp [hheld1])
  rw [hheld1, List.erase_cons_tail (by simpa using hcd), List.erase_cons_head] at hheld2
  obtain ⟨hheld3, hstray3⟩ := release_held (l := (l.release efd).release dfd) (a := cfd) (by simp [hheld2])
  rw [hheld2, List.erase_cons_head] at hheld3
  have hledger : (gbTcpClose ⟨dfd, efd, cfd⟩ l).2 = ((l.release efd).release dfd).release cfd := by
    simp only [gbTcpClose, closeFd_natCast]
    split_ifs <;> rfl
  rw [hledger]
  refine ⟨?_, hheld3, by rw [hstray3, hstray2, hstray1]⟩
  simp [gbTcpClose]

theorem gbTcpClose_closed (h : c.dataSfd = -1 ∧ c.ctrlSfd = -1) : gbTcpClose c l = (c, closeFd c.dataEfd l) := by
  obtain ⟨hdata, hctrl⟩ := h
  simp [gbTcpClose, closeFd, hdata, hctrl]

theorem step_spec {s s' : State} {op : Op} (h : Inv s) (hclean : Clean s) (hstep : step s op = some s') :
    (Clean s' ↔ Safe s op) ∧ (Clean s' → Inv s') := by
  obtain ⟨hdata, hctrl, hheld⟩ | ⟨dfd, efd, cfd, hctx, hheld⟩ := h
  · have hopen : s.ctx.isOpen = false := by rw [Ctx.isOpen, hdata, hctrl]; rfl
    cases op with
    | «open» o =>
      obtain ⟨⟨rv, c, l⟩, hcall, rfl⟩ := Option.map_eq_some_iff.mp hstep
      obtain ⟨hsucceed, rfl, ⟨dfd, efd, cfd, rfl, hheld', hstray⟩⟩ | ⟨hsucceed, rfl, hge⟩ := gbTcpOpen_spec hopen hcall
      · refine ⟨iff_of_true ⟨fun hfailed => ?_, hstray.trans hclean.2⟩ fun _ => hsucceed,
          fun _ => .inr ⟨dfd, efd, cfd, rfl, hheld'.trans (by rw [hheld])⟩⟩
        exact absurd hfailed (by simp)
      · have hnot : ¬ Clean { ctx := c, ledger := l, failed := (-1 : ℤ) ≠ 0 && !s.ctx.isOpen } := by
          intro hclean'
          have hclosed : c = closed := hclean'.1 (by rw [hopen]; rfl)
          rw [hclosed] at hge
          exact absurd hge (by decide)
        refine ⟨iff_of_false hnot fun hsafe => ?_, fun hclean' => absurd hclean' hnot⟩
        exact absurd (hsucceed.symm.trans (hsafe hopen)) Bool.false_ne_true
    | close =>
      rw [step, gbTcpClose_closed ⟨hdata, hctrl⟩] at hstep
      cases hstep
      have hempty (l : Ledger ℕ) (hl : l.held = []) : Inv { ctx := s.ctx, ledger := l, failed := false } :=
        .inl ⟨hdata, hctrl, hl⟩
      by_cases hefd : s.ctx.dataEfd ≥ 0
      · have hstray : (closeFd s.ctx.dataEfd s.ledger).stray ≠ [] := by
          rw [closeFd, if_pos hefd]
          exact release_stray (by simp [hheld])
        refine ⟨iff_of_false (fun hclean' => hstray hclean'.2) fun hsafe => ?_, fun hclean' => absurd hclean'.2 hstray⟩
        exact absurd (hopen.symm.trans (hsafe hefd)) Bool.false_ne_true
      · rw [closeFd, if_neg hefd]
        exact ⟨iff_of_true ⟨fun hfailed => absurd hfailed Bool.false_ne_true, hclean.2⟩ fun hge => absurd hge hefd,
          fun _ => hempty s.ledger hheld⟩
  · have hopen : s.ctx.isOpen = true := by rw [Ctx.isOpen, hctx]; simp
    cases op with
    | «open» o =>
      have hcall : gbTcpOpen s.ctx s.ledger o = some (-1, s.ctx, s.ledger) := by
        rw [gbTcpOpen, if_pos (.inl (by rw [hctx]; exact Int.natCast_nonneg dfd))]
      rw [step, hcall] at hstep
      cases hstep
      refine ⟨iff_of_true ⟨fun hfailed => ?_, hclean.2⟩ fun hclosed => ?_, fun _ => .inr ⟨dfd, efd, cfd, hctx, hheld⟩⟩
      · rw [hopen] at hfailed
        exact absurd hfailed (by simp)
      · exact absurd (hopen.symm.trans hclosed) (by decide)
    | close =>
      obtain ⟨hctx', hheld', hstray'⟩ := gbTcpClose_open hheld
      rw [step, hctx] at hstep
      cases hstep
      exact ⟨iff_of_true ⟨fun hfailed => absurd hfailed Bool.false_ne_true, hstray'.trans hclean.2⟩ fun _ => hopen,
        fun _ => .inl ⟨congrArg Ctx.dataSfd hctx', congrArg Ctx.ctrlSfd hctx', hheld'⟩⟩

end Spec

theorem clean_iff_safe {ops : List Op} {s : State} (hrun : runFrom step initial ops = some s) :
    Passes step Clean initial ops ↔ Takes step Safe initial ops :=
  passes_iff_takes Inv (fun _ _ _ h hclean hstep hclean' => (step_spec h hclean hstep).2 hclean')
    (fun _ _ _ h hclean hstep => (step_spec h hclean hstep).1) inv_initial
    ⟨fun hfailed => absurd hfailed Bool.false_ne_true, rfl⟩ hrun

instance : DecidablePred Clean := fun _ => inferInstanceAs (Decidable (_ ∧ _))

instance : ∀ s op, Decidable (Safe s op)
  | s, .open o => inferInstanceAs (Decidable (s.ctx.isOpen = false → o.succeed = true))
  | s, .close => inferInstanceAs (Decidable (s.ctx.dataEfd ≥ 0 → s.ctx.isOpen = true))

end GlipOsd.Backends.Tcp
