import GlipOsd.Backends.TcpOpen

/-! # Opening and closing the cypressfx2 backend

`gb_cypressfx2_open` looks for a device, opening and closing every candidate, and then opens the one it has
chosen into the context. What fails after that leaves the handle in the context.
-/

namespace GlipOsd.Backends.CypressFx2
open Runs Resources
set_option autoImplicit false

abbrev CString := List UInt8

/-- An entry with the vendor id 0 ends a list. -/
structure UsbDevEntry where
  vid : UInt16
  pid : UInt16
  manufacturer : Option CString
  product : Option CString

def usbDevs : List UsbDevEntry :=
  [⟨0x221a, 0x0100, some [84, 85, 77, 32, 76, 73, 83], some [71, 76, 73, 80]⟩, ⟨0, 0, none, none⟩]

/-- What the calls for a device and an entry answer: `libusb_open` and the two string descriptors. -/
structure Answers where
  handle : Option ℕ
  manufacturer : Option CString
  product : Option CString

/-- `descriptor` is the vendor and the product id, if they can be read; `answers` are those for the entries of the
search list by position. -/
structure Device where
  busNumber : UInt8
  deviceAddress : UInt8
  descriptor : Option (UInt16 × UInt16)
  answers : ℕ → Answers

/-- The options and what the calls of an open answer. `handle` is what the last `libusb_open` gives. -/
structure Calls where
  usbDevBus : Option UInt8
  usbDevAddr : Option UInt8
  usbVid : Option UInt16
  usbPid : Option UInt16
  usbManufacturer : Option CString
  usbProduct : Option CString
  deviceList : Option (List Device)
  handle : Option ℕ
  setConfiguration : Bool
  claimInterface : Bool
  resetOn : Bool
  resetOff : Bool
  writeBuf : Bool
  readBuf : Bool
  writeThread : Bool
  readThread : Bool

/-! ## The search -/

/-- `strncmp` of the string that was read, with `limit` characters; `none` if it cannot be read. -/
def nameMatches (wanted answer : Option CString) (limit : CString → ℕ) : Option Bool :=
  match wanted, answer with
  | none, _ => some true
  | some _, none => none
  | some wanted, some str => some (str.take (limit str) = wanted.take (limit str))

/-- The size of the buffer for the names. -/
def strSize : ℕ := 256

/-- The loop over the search list, from the entry `i`. A handle stays open when a name cannot be read. -/
def searchList (answers : ℕ → Answers) (desc : UInt16 × UInt16) (l : Ledger ℕ) :
    ℕ → List UsbDevEntry → Option (Bool × Ledger ℕ)
  | _, [] => some (false, l)
  | i, e :: es =>
    if e.vid = 0 then some (false, l)
    else if e.vid ≠ desc.1 ∨ e.pid ≠ desc.2 then searchList answers desc l (i + 1) es
    else
      match (answers i).handle with
      | none => searchList answers desc l (i + 1) es
      | some handle => (l.acquire handle).bind fun l =>
        match nameMatches e.manufacturer (answers i).manufacturer fun _ => strSize with
        | none => searchList answers desc l (i + 1) es
        | some false => searchList answers desc (l.release handle) (i + 1) es
        | some true =>
          match nameMatches e.product (answers i).product List.length with
          | none => searchList answers desc l (i + 1) es
          | some false => searchList answers desc (l.release handle) (i + 1) es
          | some true => some (true, l.release handle)

/-- The loop over the devices without a manual configuration. -/
def searchDevices (list : List UsbDevEntry) (l : Ledger ℕ) (found : Option ℕ) :
    ℕ → List Device → Option (Option ℕ × Ledger ℕ)
  | _, [] => some (found, l)
  | i, device :: devices =>
    match device.descriptor with
    | none => searchDevices list l found (i + 1) devices
    | some desc => (searchList device.answers desc l 0 list).bind fun (fits, l) =>
      searchDevices list l (if fits then some i else found) (i + 1) devices

/-- The list to search, if the options are consistent. -/
def Calls.searchlist (o : Calls) : Option (List UsbDevEntry) :=
  match o.usbVid, o.usbPid with
  | none, none => some usbDevs
  | some vid, some pid => some [⟨vid, pid, o.usbManufacturer, o.usbProduct⟩, ⟨0, 0, none, none⟩]
  | _, _ => none

/-- The position of the device to use. -/
def findDevice (o : Calls) (l : Ledger ℕ) (devices : List Device) : Option (Option ℕ × Ledger ℕ) :=
  match o.usbDevBus, o.usbDevAddr with
  | some bus, some addr =>
    some (devices.findIdx? fun device => device.busNumber == bus && device.deviceAddress == addr, l)
  | _, _ => searchDevices (o.searchlist.getD []) l none 0 devices

/-! ## Open and close -/

def einval : ℤ := 22

/-- The options are given in pairs. The vendor and the product id are not looked at in a manual configuration. -/
def Calls.valid (o : Calls) : Bool :=
  o.usbDevBus.isSome == o.usbDevAddr.isSome && (o.usbDevBus.isSome || o.usbVid.isSome == o.usbPid.isSome)

/-- The calls behind the last `libusb_open`. -/
def Calls.finish (o : Calls) : Bool :=
  o.setConfiguration && o.claimInterface && o.resetOn && o.resetOff && o.writeBuf && o.readBuf && o.writeThread &&
    o.readThread

/-- `gb_cypressfx2_open` on `usb_dev_handle`; `none` if a handle is given out twice. Every call that fails behind
the last `libusb_open` gives the same result. -/
def gbCypressfx2Open (handle : Option ℕ) (l : Ledger ℕ) (o : Calls) : Option (ℤ × Option ℕ × Ledger ℕ) :=
  if handle.isSome then some (-1, handle, l)
  else if !o.valid then some (-einval, handle, l)
  else
    match o.deviceList with
    | none => some (-1, handle, l)
    | some devices => (findDevice o l devices).bind fun
      | (none, l) => some (-einval, handle, l)
      | (some _, l) =>
        match o.handle with
        | none => some (-1, handle, l)
        | some new => (l.acquire new).map fun l => (if o.finish then 0 else -1, some new, l)

def gbCypressfx2Close (handle : Option ℕ) (l : Ledger ℕ) : ℤ × Option ℕ × Ledger ℕ :=
  match handle with
  | none => (-1, none, l)
  | some h => (0, none, l.release h)

/-! ## Runs -/

/-- `failed` says that the last call was an open that was not rejected and returned an error. -/
structure State where
  usbDevHandle : Option ℕ
  ledger : Ledger ℕ
  failed : Bool
  deriving DecidableEq

inductive Op
  | open (o : Calls)
  | close

def initial : State := ⟨none, empty, false⟩

def step (s : State) : Op → Option State
  | .open o => (gbCypressfx2Open s.usbDevHandle s.ledger o).map fun (rv, usbDevHandle, ledger) =>
    { usbDevHandle, ledger, failed := rv ≠ 0 && s.usbDevHandle.isNone }
  | .close =>
    let (_, usbDevHandle, ledger) := gbCypressfx2Close s.usbDevHandle s.ledger
    some { usbDevHandle, ledger, failed := false }

/-- A failed open has left the context closed, and every handle that was closed was held. -/
def Clean (s : State) : Prop := (s.failed = true → s.usbDevHandle = none) ∧ s.ledger.stray = []

/-- The search finds an entry for the device. -/
def Device.fits (answers : ℕ → Answers) (desc : UInt16 × UInt16) : ℕ → List UsbDevEntry → Bool
  | _, [] => false
  | i, e :: es =>
    e.vid ≠ 0 &&
      (e.vid = desc.1 && e.pid = desc.2 && (answers i).handle.isSome &&
          nameMatches e.manufacturer (answers i).manufacturer (fun _ => strSize) == some true &&
          nameMatches e.product (answers i).product List.length == some true ||
        Device.fits answers desc (i + 1) es)

/-- There is a device to use. -/
def Calls.deviceFound (o : Calls) (devices : List Device) : Bool :=
  match o.usbDevBus, o.usbDevAddr with
  | some bus, some addr => devices.any fun device => device.busNumber == bus && device.deviceAddress == addr
  | _, _ => devices.any fun device =>
    (device.descriptor.map fun desc => Device.fits device.answers desc 0 (o.searchlist.getD [])).getD false

/-- The last `libusb_open` is reached and gives a handle. -/
def Calls.opensDevice (o : Calls) : Bool :=
  o.valid && (o.deviceList.map o.deviceFound).getD false && o.handle.isSome

/-- If the chosen device can be opened, no call behind fails. -/
def Safe (s : State) : Op → Prop
  | .open o => s.usbDevHandle = none → o.opensDevice = true → o.finish = true
  | .close => True

section Spec
variable {l l' l'' : Ledger ℕ} {o : Calls}

/-- Nothing that was not held is released, and what was held still is. -/
def Grown (l l' : Ledger ℕ) : Prop := l'.stray = l.stray ∧ l.held ⊆ l'.held

theorem Grown.refl (l : Ledger ℕ) : Grown l l := ⟨rfl, List.Subset.refl _⟩

theorem Grown.trans (h : Grown l l') (h' : Grown l' l'') : Grown l l'' :=
  ⟨h'.1.trans h.1, List.Subset.trans h.2 h'.2⟩

theorem grown_acquire {a : ℕ} (h : l.acquire a = some l') : Grown l l' := by
  obtain ⟨-, hheld, hstray⟩ := acquire_eq_some h
  refine ⟨hstray, ?_⟩
  rw [hheld]
  exact List.subset_cons_self _ _

theorem searchList_spec {answers : ℕ → Answers} {desc : UInt16 × UInt16} {i : ℕ} {es : List UsbDevEntry} {fits : Bool}
    (h : searchList answers desc l i es = some (fits, l')) : fits = Device.fits answers desc i es ∧ Grown l l' := by
  induction es generalizing l i with
  | nil =>
    cases h
    exact ⟨rfl, Grown.refl _⟩
  | cons e es ih =>
    rw [searchList] at h
    rw [Device.fits]
    split_ifs at h with hvid hids
    · cases h
      exact ⟨by simp [hvid], Grown.refl _⟩
    · obtain ⟨hfits, hgrown⟩ := ih h
      refine ⟨?_, hgrown⟩
      have hno : (decide (e.vid = desc.1) && decide (e.pid = desc.2)) = false := by
        rw [← Bool.not_eq_true]
        simpa [← not_and_or] using hids
      simp [hvid, hfits, hno]
    · obtain ⟨hv, hp⟩ : e.vid = desc.1 ∧ e.pid = desc.2 := by simpa [not_or] using hids
      cases hhandle : (answers i).handle with
      | none =>
        rw [hhandle] at h
        obtain ⟨hfits, hgrown⟩ := ih h
        exact ⟨by simp [hvid, hfits], hgrown⟩
      | some handle =>
        rw [hhandle] at h
        obtain ⟨u, hu, h⟩ := Option.bind_eq_some_iff.mp h
        have hgrown := grown_acquire hu
        rw [release_acquire hu] at h
        cases hman : nameMatches e.manufacturer (answers i).manufacturer fun _ => strSize with
        | none =>
          rw [hman] at h
          obtain ⟨hfits, hgrown'⟩ := ih h
          exact ⟨by simp [hvid, hfits], hgrown.trans hgrown'⟩
        | some same =>
          cases same with
          | false =>
            rw [hman] at h
            obtain ⟨hfits, hgrown'⟩ := ih h
            exact ⟨by simp [hvid, hfits], hgrown'⟩
          | true =>
            rw [hman] at h
            cases hprod : nameMatches e.product (answers i).product List.length with
            | none =>
              rw [hprod] at h
              obtain ⟨hfits, hgrown'⟩ := ih h
              exact ⟨by simp [hvid, hfits], hgrown.trans hgrown'⟩
            | some same =>
              rw [hprod] at h
              cases same with
              | false =>
                obtain ⟨hfits, hgrown'⟩ := ih h
                exact ⟨by simp [hvid, hfits], hgrown'⟩
              | true =>
                cases h
                rw [hv] at hvid
                exact ⟨by simp [hvid, hv, hp], Grown.refl _⟩

theorem searchDevices_spec {list : List UsbDevEntry} {found r : Option ℕ} {i : ℕ} {devices : List Device}
    (h : searchDevices list l found i devices = some (r, l')) :
    r.isSome = (found.isSome || devices.any fun device =>
      (device.descriptor.map fun desc => Device.fits device.answers desc 0 list).getD false) ∧ Grown l l' := by
  induction devices generalizing l found i with
  | nil =>
    cases h
    exact ⟨by simp, Grown.refl _⟩
  | cons device devices ih =>
    rw [searchDevices] at h
    cases hdesc : device.descriptor with
    | none =>
      rw [hdesc] at h
      obtain ⟨hr, hgrown⟩ := ih h
      exact ⟨by simp [hr, hdesc], hgrown⟩
    | some desc =>
      rw [hdesc] at h
      obtain ⟨⟨fits, u⟩, hu, hrest⟩ := Option.bind_eq_some_iff.mp h
      obtain ⟨hfits, hgrown⟩ := searchList_spec hu
      obtain ⟨hr, hgrown'⟩ := ih hrest
      refine ⟨?_, hgrown.trans hgrown'⟩
      rw [hr, List.any_cons, hdesc, Option.map_some, Option.getD_some, ← hfits]
      cases fits <;> simp

theorem findDevice_spec {devices : List Device} {r : Option ℕ} (h : findDevice o l devices = some (r, l')) :
    r.isSome = o.deviceFound devices ∧ Grown l l' := by
  unfold findDevice at h
  unfold Calls.deviceFound
  split at h
  · cases h
    exact ⟨List.findIdx?_isSome, Grown.refl _⟩
  · obtain ⟨hr, hgrown⟩ := searchDevices_spec h
    refine ⟨?_, hgrown⟩
    simpa using hr

theorem gbCypressfx2Open_spec {rv : ℤ} {handle : Option ℕ} (h : gbCypressfx2Open none l o = some (rv, handle, l')) :
    Grown l l' ∧ (o.opensDevice = true ∧ (∃ new ∈ l'.held, handle = some new) ∧ rv = (if o.finish then 0 else -1) ∨
      o.opensDevice = false ∧ handle = none) := by
  unfold gbCypressfx2Open at h
  rw [if_neg (by simp)] at h
  cases hvalid : o.valid with
  | false =>
    rw [hvalid] at h
    cases h
    exact ⟨Grown.refl _, .inr ⟨by simp [Calls.opensDevice, hvalid], rfl⟩⟩
  | true =>
    rw [hvalid, Bool.not_true, if_neg Bool.false_ne_true] at h
    cases hlist : o.deviceList with
    | none =>
      rw [hlist] at h
      cases h
      exact ⟨Grown.refl _, .inr ⟨by simp [Calls.opensDevice, hlist], rfl⟩⟩
    | some devices =>
      rw [hlist] at h
      obtain ⟨⟨r, u⟩, hu, h⟩ := Option.bind_eq_some_iff.mp h
      obtain ⟨hr, hgrown⟩ := findDevice_spec hu
      cases r with
      | none =>
        cases h
        refine ⟨hgrown, .inr ⟨?_, rfl⟩⟩
        have hnone : o.deviceFound devices = false := hr.symm
        simp [Calls.opensDevice, hlist, hnone]
      | some i =>
        have hfound : o.deviceFound devices = true := hr.symm
        cases hnew : o.handle with
        | none =>
          rw [hnew] at h
          cases h
          exact ⟨hgrown, .inr ⟨by simp [Calls.opensDevice, hnew], rfl⟩⟩
        | some new =>
          rw [hnew] at h
          obtain ⟨v, hv, heq⟩ := Option.map_eq_some_iff.mp h
          cases heq
          obtain ⟨-, hheld, -⟩ := acquire_eq_some hv
          refine ⟨hgrown.trans (grown_acquire hv), .inl ⟨?_, ⟨new, ?_, rfl⟩, rfl⟩⟩
          · simp [Calls.opensDevice, hvalid, hlist, hfound, hnew]
          · rw [hheld]
            exact List.mem_cons_self

/-- The handle of the context is held. -/
def Inv (s : State) : Prop := ∀ h, s.usbDevHandle = some h → h ∈ s.ledger.held

theorem step_spec {s s' : State} {op : Op} (h : Inv s) (hclean : Clean s) (hstep : step s op = some s') :
    (Clean s' ↔ Safe s op) ∧ Inv s' := by
  cases hhandle : s.usbDevHandle with
  | none =>
    cases op with
    | «open» o =>
      obtain ⟨⟨rv, handle, l⟩, hcall, rfl⟩ := Option.map_eq_some_iff.mp hstep
      rw [hhandle] at hcall
      obtain ⟨⟨hstray, -⟩, hres⟩ := gbCypressfx2Open_spec hcall
      obtain ⟨hopens, ⟨new, hnew, rfl⟩, rfl⟩ | ⟨hopens, rfl⟩ := hres
      · refine ⟨?_, fun h heq => Option.some.inj heq ▸ hnew⟩
        rw [Clean, Safe, hhandle, hopens]
        cases hfinish : o.finish with
        | true => exact iff_of_true ⟨fun hfailed => absurd hfailed (by simp), hstray.trans hclean.2⟩ fun _ _ => rfl
        | false =>
          refine iff_of_false (fun hclean' => ?_) fun hsafe => absurd (hsafe rfl rfl) Bool.false_ne_true
          exact absurd (hclean'.1 rfl) (Option.some_ne_none new)
      · refine ⟨iff_of_true ⟨fun _ => rfl, hstray.trans hclean.2⟩ fun _ hyes => ?_, fun _ heq => by cases heq⟩
        exact absurd (hopens.symm.trans hyes) Bool.false_ne_true
    | close =>
      rw [step, hhandle] at hstep
      cases hstep
      exact ⟨iff_of_true ⟨fun _ => rfl, hclean.2⟩ trivial, fun _ heq => by cases heq⟩
  | some old =>
    have hold := h old hhandle
    cases op with
    | «open» o =>
      have hcall : gbCypressfx2Open s.usbDevHandle s.ledger o = some (-1, s.usbDevHandle, s.ledger) := by
        rw [gbCypressfx2Open, hhandle]
        rfl
      rw [step, hcall] at hstep
      cases hstep
      refine ⟨iff_of_true ⟨fun hfailed => ?_, hclean.2⟩ fun hno => ?_, h⟩
      · rw [hhandle] at hfailed
        exact absurd hfailed (by simp)
      · exact absurd (hhandle.symm.trans hno) (Option.some_ne_none old)
    | close =>
      rw [step, hhandle] at hstep
      cases hstep
      exact ⟨iff_of_true ⟨fun _ => rfl, (release_held hold).2.trans hclean.2⟩ trivial, fun _ heq => by cases heq⟩

end Spec

theorem clean_iff_safe {ops : List Op} {s : State} (hrun : runFrom step initial ops = some s) :
    Passes step Clean initial ops ↔ Takes step Safe initial ops :=
  passes_iff_takes Inv (fun _ _ _ h hclean hstep _ => (step_spec h hclean hstep).2)
    (fun _ _ _ h hclean hstep => (step_spec h hclean hstep).1) (fun _ heq => by cases heq)
    ⟨fun _ => rfl, rfl⟩ hrun

instance : ∀ s op, Decidable (Safe s op)
  | s, .open o => inferInstanceAs (Decidable (s.usbDevHandle = none → o.opensDevice = true → o.finish = true))
  | _, .close => isTrue trivial

end GlipOsd.Backends.CypressFx2

namespace GlipOsd.Backends
open Runs

/-- On both backends failed opens leave the context closed, and a close closes only what is held, in exactly these
runs: on tcp no call below an open fails and no close follows a close, on cypressfx2 no call fails once the
device is open. -/
theorem failed_open_closed_iff {ops : List Tcp.Op} {ops' : List CypressFx2.Op} {s : Tcp.State} {s' : CypressFx2.State}
    (hrun : runFrom Tcp.step Tcp.initial ops = some s) (hrun' : runFrom CypressFx2.step CypressFx2.initial ops' = some s') :
    (Passes Tcp.step Tcp.Clean Tcp.initial ops ↔ Takes Tcp.step Tcp.Safe Tcp.initial ops) ∧
      (Passes CypressFx2.step CypressFx2.Clean CypressFx2.initial ops' ↔
        Takes CypressFx2.step CypressFx2.Safe CypressFx2.initial ops') :=
  ⟨Tcp.clean_iff_safe hrun, CypressFx2.clean_iff_safe hrun'⟩

/-- Nothing fails on the default port; the control host refuses the first address. -/
def tcpCalls : Tcp.Calls :=
  ⟨none, some [.noSocket, .connected 3], true, some 4, true, some [.refused 5, .connected 5], true⟩

/-- A ZTEX board that can be opened as handle 1 and then as handle 2. -/
def fxCalls : CypressFx2.Calls :=
  ⟨none, none, none, none, none, none, some [⟨1, 1, some (0x221a, 0x0100), fun _ => ⟨some 1, some [84, 85, 77, 32, 76, 73, 83],
    some [71, 76, 73, 80]⟩⟩], some 2, true, true, true, true, true, true, true, true⟩

/-- The backends are opened twice, the second time in vain, closed and opened again; the first open of the board
finds none. -/
theorem reopen_clean : Passes Tcp.step Tcp.Clean Tcp.initial [.open tcpCalls, .open tcpCalls, .close, .open tcpCalls] ∧
    Passes CypressFx2.step CypressFx2.Clean CypressFx2.initial
      [.open { fxCalls with deviceList := none }, .open fxCalls, .open fxCalls, .close, .close, .open fxCalls] := by
  obtain ⟨s, hs⟩ : ∃ s, runFrom Tcp.step Tcp.initial [.open tcpCalls, .open tcpCalls, .close, .open tcpCalls] = some s :=
    Option.isSome_iff_exists.mp (by decide)
  obtain ⟨s', hs'⟩ : ∃ s', runFrom CypressFx2.step CypressFx2.initial [.open { fxCalls with deviceList := none }, .open fxCalls,
      .open fxCalls, .close, .close, .open fxCalls] = some s' :=
    Option.isSome_iff_exists.mp (by decide)
  obtain ⟨htcp, hfx⟩ := failed_open_closed_iff hs hs'
  exact ⟨htcp.mpr (by decide), hfx.mpr (by decide)⟩

/-- The host cannot be reached: `data_sfd` is 0 afterwards. -/
theorem unreachable_not_closed : ¬ Passes Tcp.step Tcp.Clean Tcp.initial [.open { tcpCalls with dataHost := some [.refused 3] }] := by
  decide

end GlipOsd.Backends
