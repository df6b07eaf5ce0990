import GlipOsd.CircularBuffer.Threads

/-! # One reader and one writer need no lock for the level checks

Positions in the stream count from the start of the run: the writer has published the positions
below `P`, the reader has released those below `R`, and `R ≤ P ≤ R + size`. Each side changes its
own count only, upwards. So a level computed by the reader from loads that are not simultaneous
refers to some `W` between `R` and the current `P`, and one computed by the writer to some
earlier `R`: both are on the safe side. The invariant is split into the shared memory, what the
reader knows and what the writer knows; a step of one side keeps what the other one knows.
-/

namespace GlipOsd.CircularBuffer.Threads
open Memory Mirror Runs
set_option autoImplicit false

/-! ## Levels of pointers at a known distance -/

theorem isFull_at {size k : ℕ} (hsize : size = 2 ^ k) (R d : ℕ) (hd : d ≤ size) :
    ((R + d) % (2 * size) == (R % (2 * size)) ^^^ size) = true ↔ d = size := by
  have hpos : 0 < size := hsize ▸ Nat.two_pow_pos k
  rw [beq_iff_eq, xor_mirror hsize (Nat.mod_lt R (by omega)), mod_pointer_add,
    pointer_eq_mirror_iff hpos hd]

theorem fillLevelOf_at {size k : ℕ} (hsize : size = 2 ^ k) (R d : ℕ) (hd : d ≤ size) :
    fillLevelOf size ((R + d) % (2 * size)) (R % (2 * size)) = if d = size then 0 else d := by
  unfold fillLevelOf
  rw [mask_cell hsize, mask_cell hsize, mod_mod_mirror, mod_mod_mirror]
  split_ifs with h
  · rw [h, Nat.add_mod_right]
    simp
  · rcases cell_distance (a := R) (lt_of_le_of_ne hd h) with hdist | hdist <;> rw [hdist] <;>
      simp only
    · rw [if_neg (by omega), Int.toNat_natCast]
    · rw [if_pos (by omega)]
      omega

/-- Undisturbed, the loads in any order give the level of the sequential model. -/
theorem level_undisturbed (buf : Cbuf) (p q : Shared) (hpq : p ≠ q) :
    (LevelPc.isFull none none |>.load buf p |>.bind fun pc => (pc.next buf.size).load buf q
      |>.map (LevelPc.next buf.size)) =
      some (if cbufIsFull buf then .done buf.size else .subtract none none) ∧
    (LevelPc.subtract none none |>.load buf p |>.bind fun pc => (pc.next buf.size).load buf q
      |>.map (LevelPc.next buf.size)) =
      some (.done (fillLevelOf buf.size buf.wrPtr buf.rdPtr)) ∧
    cbufFillLevel buf =
      if cbufIsFull buf then buf.size else fillLevelOf buf.size buf.wrPtr buf.rdPtr := by
  cases p <;> cases q <;> first | exact absurd rfl hpq | exact ⟨rfl, rfl, rfl⟩

/-! ## What a thread knows about the level -/

/-- The reader has loaded `wr_ptr` at publications between `R` and `P`. -/
def ReaderLevel (size R P : ℕ) : LevelPc → Prop
  | .isFull wr rd | .subtract wr rd =>
    (∀ w ∈ wr, ∃ d, R + d ≤ P ∧ w = (R + d) % (2 * size)) ∧ ∀ r ∈ rd, r = R % (2 * size)
  | .done fillLevel => R + fillLevel ≤ P

/-- The writer has loaded `rd_ptr` at releases of at most `R`; behind the first comparison, when the
buffer was not full any more. -/
def WriterLevel (size R P : ℕ) : LevelPc → Prop
  | .isFull wr rd =>
    (∀ w ∈ wr, w = P % (2 * size)) ∧
      ∀ r ∈ rd, ∃ R' ≤ R, R' ≤ P ∧ P ≤ R' + size ∧ r = R' % (2 * size)
  | .subtract wr rd =>
    P < R + size ∧ (∀ w ∈ wr, w = P % (2 * size)) ∧
      ∀ r ∈ rd, ∃ R' ≤ R, R' ≤ P ∧ P < R' + size ∧ r = R' % (2 * size)
  | .done fillLevel => P ≤ R + fillLevel

theorem ReaderLevel.mono {size R P P' : ℕ} {pc : LevelPc} (h : ReaderLevel size R P pc)
    (hP : P ≤ P') : ReaderLevel size R P' pc := by
  cases pc with
  | done fillLevel => exact le_trans h hP
  | isFull wr rd | subtract wr rd =>
    refine ⟨fun w hw => ?_, h.2⟩
    obtain ⟨d, hd, rfl⟩ := h.1 w hw
    exact ⟨d, hd.trans hP, rfl⟩

theorem WriterLevel.mono {size R R' P : ℕ} {pc : LevelPc} (h : WriterLevel size R P pc)
    (hR : R ≤ R') : WriterLevel size R' P pc := by
  cases pc with
  | done fillLevel => exact le_trans h (Nat.add_le_add_right hR _)
  | isFull wr rd =>
    refine ⟨h.1, fun r hr => ?_⟩
    obtain ⟨R₁, hR₁, hrest⟩ := h.2 r hr
    exact ⟨R₁, hR₁.trans hR, hrest⟩
  | subtract wr rd =>
    refine ⟨by have := h.1; omega, h.2.1, fun r hr => ?_⟩
    obtain ⟨R₁, hR₁, hrest⟩ := h.2.2 r hr
    exact ⟨R₁, hR₁.trans hR, hrest⟩

section LevelSteps
variable {size k R P : ℕ} {pc pc' : LevelPc} {buf : Cbuf} {p : Shared}

theorem ReaderLevel.load (h : ReaderLevel size R P pc) (hwr : buf.wrPtr = P % (2 * size))
    (hrd : buf.rdPtr = R % (2 * size)) (hRP : R ≤ P) (hload : pc.load buf p = some pc') :
    ReaderLevel size R P pc' := by
  have hnow : ∃ d, R + d ≤ P ∧ buf.wrPtr = (R + d) % (2 * size) :=
    ⟨P - R, by omega, by rw [hwr]; congr 1; omega⟩
  unfold LevelPc.load at hload
  split at hload
  case h_1 | h_3 =>
    obtain rfl := Option.some.inj hload
    exact ⟨by rintro w ⟨⟩; exact hnow, h.2⟩
  case h_2 | h_4 =>
    obtain rfl := Option.some.inj hload
    exact ⟨h.1, by rintro r ⟨⟩; exact hrd⟩
  case h_5 => cases hload

theorem ReaderLevel.next (hsize : size = 2 ^ k) (h : ReaderLevel size R P pc) (hP : P ≤ R + size) :
    ReaderLevel size R P (pc.next size) := by
  unfold LevelPc.next
  split
  · obtain ⟨d, hd, hw⟩ := h.1 _ rfl
    rw [hw, h.2 _ rfl]
    split_ifs with hfull
    · rw [isFull_at hsize R d (by omega)] at hfull
      simp only [ReaderLevel]
      omega
    · simp [ReaderLevel]
  · obtain ⟨d, hd, hw⟩ := h.1 _ rfl
    rw [hw, h.2 _ rfl, fillLevelOf_at hsize R d (by omega)]
    simp only [ReaderLevel]
    split_ifs <;> omega
  · exact h

theorem WriterLevel.load (h : WriterLevel size R P pc) (hwr : buf.wrPtr = P % (2 * size))
    (hrd : buf.rdPtr = R % (2 * size)) (hRP : R ≤ P) (hP : P ≤ R + size)
    (hload : pc.load buf p = some pc') : WriterLevel size R P pc' := by
  unfold LevelPc.load at hload
  split at hload
  case h_1 =>
    obtain rfl := Option.some.inj hload
    exact ⟨by rintro w ⟨⟩; exact hwr, h.2⟩
  case h_2 =>
    obtain rfl := Option.some.inj hload
    exact ⟨h.1, by rintro r ⟨⟩; exact ⟨R, le_rfl, hRP, hP, hrd⟩⟩
  case h_3 =>
    obtain rfl := Option.some.inj hload
    exact ⟨h.1, by rintro w ⟨⟩; exact hwr, h.2.2⟩
  case h_4 =>
    obtain rfl := Option.some.inj hload
    exact ⟨h.1, h.2.1, by rintro r ⟨⟩; exact ⟨R, le_rfl, hRP, h.1, hrd⟩⟩
  case h_5 => cases hload

theorem WriterLevel.next (hsize : size = 2 ^ k) (h : WriterLevel size R P pc) :
    WriterLevel size R P (pc.next size) := by
  unfold LevelPc.next
  split
  · obtain ⟨R', hR', hRP', hP', hr⟩ := h.2 _ rfl
    obtain ⟨d, rfl⟩ := Nat.exists_eq_add_of_le hRP'
    rw [h.1 _ rfl, hr]
    split_ifs with hfull
    · rw [isFull_at hsize R' d (by omega)] at hfull
      simp only [WriterLevel]
      omega
    · rw [isFull_at hsize R' d (by omega)] at hfull
      refine ⟨by omega, by simp, by simp⟩
  · obtain ⟨R', hR', hRP', hP', hr⟩ := h.2.2 _ rfl
    obtain ⟨d, rfl⟩ := Nat.exists_eq_add_of_le hRP'
    rw [h.2.1 _ rfl, hr, fillLevelOf_at hsize R' d (by omega), if_neg (by omega)]
    simp only [WriterLevel]
    omega
  · exact h

end LevelSteps

/-! ## The invariant -/

/-- `xs` agrees with `ys` wherever it is known. -/
def Agrees (xs : List (Option UInt8)) (ys : List UInt8) : Prop :=
  ∀ (i : ℕ) (b : UInt8), xs[i]? = some (some b) → ys[i]? = some b

/-- The shared memory: pointers, levels, and the unread bytes in their cells. -/
structure Shape (k : ℕ) (s : State) : Prop where
  size_eq : s.buf.size = 2 ^ k
  length_data : s.buf.data.length = s.buf.size
  wr_eq : s.buf.wrPtr = s.published.length % (2 * s.buf.size)
  rd_eq : s.buf.rdPtr = s.obtained.length % (2 * s.buf.size)
  released : s.obtained.length ≤ s.published.length
  fits : s.published.length ≤ s.obtained.length + s.buf.size
  reads : RingReads s.buf.data s.obtained.length (s.published.drop s.obtained.length)
  agrees : Agrees s.obtained s.published
  safe : s.clobbered = false

/-- The pointer of the last peek designates unread bytes. -/
def PeekInv (size R : ℕ) (published tmp : List UInt8) :
    Option (Ptr × List (Option UInt8)) → Prop
  | none => True
  | some (p, loaded) =>
    R + loaded.length ≤ published.length ∧ Agrees loaded (published.drop R) ∧
      (p = .data (R % size) ∧ R % size + loaded.length ≤ size ∨
        p = .readDataTmp ∧ slice tmp 0 loaded.length = slice published R loaded.length)

def ReaderInv (size R : ℕ) (published tmp : List UInt8)
    (peeked : Option (Ptr × List (Option UInt8))) : ReaderPc → Prop
  | .idle => True
  | .level _ pc => ReaderLevel size R published.length pc
  | .locateRead n | .locatePeek _ n => R + n ≤ published.length
  | .copy n pos got =>
    pos = R % size ∧ R + n ≤ published.length ∧ got.length ≤ n ∧ got = slice published R got.length
  | .gather n pos got =>
    pos = R % size ∧ R + n ≤ published.length ∧ got.length ≤ n ∧
      got = slice published R got.length ∧ slice tmp 0 got.length = got ∧ peeked = none
  | .load taken => R + taken.length ≤ published.length ∧ Agrees taken (published.drop R)
  | .store rdPtr taken =>
    R + taken.length ≤ published.length ∧ Agrees taken (published.drop R) ∧
      rdPtr = R % (2 * size)

/-- The pointer of the last reservation designates free cells, or a temporary block because the free
cells wrap. -/
def ReserveInv (size R P : ℕ) : Option (Ptr × ℕ) → Prop
  | none => True
  | some (p, n) =>
    P + n ≤ R + size ∧
      (p = .data (P % size) ∧ P % size + n ≤ size ∨ p = .writeDataTmp ∧ size < P % size + n)

def WriterInv (size R P : ℕ) (data : List UInt8) : WriterPc → Prop
  | .idle => True
  | .level _ pc => WriterLevel size R P pc
  | .locateWrite bytes => P + bytes.length ≤ R + size
  | .locateReserve _ n => P + n ≤ R + size
  | .locateCommit n => P + max n (size - P % size) ≤ R + size
  | .copy pos copied rest n =>
    pos = P % size ∧ P + (copied.length + rest.length) ≤ R + size ∧
      n ≤ copied.length + rest.length ∧ RingReads data P copied
  | .load bytes => P + bytes.length ≤ R + size ∧ RingReads data P bytes
  | .store wrPtr bytes =>
    P + bytes.length ≤ R + size ∧ RingReads data P bytes ∧ wrPtr = P % (2 * size)

structure Inv (k : ℕ) (s : State) : Prop extends Shape k s where
  peek : PeekInv s.buf.size s.obtained.length s.published (s.buf.readDataTmp.getD []) s.peeked
  reader : ReaderInv s.buf.size s.obtained.length s.published (s.buf.readDataTmp.getD []) s.peeked
    s.reader
  reserve : ReserveInv s.buf.size s.obtained.length s.published.length s.reserved
  writer : WriterInv s.buf.size s.obtained.length s.published.length s.buf.data s.writer

theorem inv_initial (k : ℕ) : Inv k (initial k) where
  size_eq := rfl
  length_data := List.length_replicate
  wr_eq := by simp [initial, cbufInit]
  rd_eq := by simp [initial, cbufInit]
  released := le_rfl
  fits := by simp [initial]
  reads := by intro i hi; simp [initial] at hi
  agrees := by simp [initial, Agrees]
  safe := rfl
  peek := trivial
  reader := trivial
  reserve := trivial
  writer := trivial


/-! ## Lists of known bytes -/

theorem Agrees.append_right {xs : List (Option UInt8)} {ys : List UInt8} (h : Agrees xs ys)
    (zs : List UInt8) : Agrees xs (ys ++ zs) := by
  intro i b hi
  have hy := h i b hi
  rw [List.getElem?_append_left (List.getElem?_eq_some_iff.mp hy).1]
  exact hy

theorem Agrees.append {xs zs : List (Option UInt8)} {ys : List UInt8} (h : Agrees xs ys)
    (hz : Agrees zs (ys.drop xs.length)) : Agrees (xs ++ zs) ys := by
  intro i b hi
  by_cases hlt : i < xs.length
  · exact h i b (by rwa [List.getElem?_append_left hlt] at hi)
  · rw [List.getElem?_append_right (by omega)] at hi
    have hy := hz _ b hi
    rwa [List.getElem?_drop, Nat.add_sub_cancel' (by omega)] at hy

theorem agrees_replicate (n : ℕ) (ys : List UInt8) : Agrees (List.replicate n none) ys := by
  intro i b hi
  rw [List.getElem?_replicate] at hi
  split_ifs at hi
  cases hi

theorem Agrees.set {xs : List (Option UInt8)} {ys : List UInt8} (h : Agrees xs ys) {j : ℕ}
    {b : UInt8} (hb : ys[j]? = some b) : Agrees (xs.set j (some b)) ys := by
  intro i c hi
  rw [List.getElem?_set] at hi
  split_ifs at hi with hij hj
  · obtain rfl : b = c := by simpa using hi
    exact hij ▸ hb
  · exact h i c hi

theorem agrees_map_take (n : ℕ) (ys : List UInt8) : Agrees ((ys.take n).map some) ys := by
  intro i b hi
  rw [List.getElem?_map, Option.map_eq_some_iff] at hi
  obtain ⟨c, hc, hcb⟩ := hi
  obtain rfl : c = b := Option.some.inj hcb
  rw [List.getElem?_take] at hc
  split_ifs at hc
  exact hc

theorem Agrees.seen {p : Ptr} {loaded : List (Option UInt8)} {ys : List UInt8}
    (h : Agrees loaded ys) (n : ℕ) : Agrees (seen (some (p, loaded)) n) ys := by
  intro i b hi
  simp only [Threads.seen, List.getElem?_map, Option.map_eq_some_iff, Option.map_some,
    Option.getD_some] at hi
  obtain ⟨j, hj, hb⟩ := hi
  have hij : i = j := by
    obtain ⟨-, rfl⟩ := List.getElem?_eq_some_iff.mp hj
    rw [List.getElem_range]
  rw [Option.join_eq_some_iff] at hb
  exact h i b (hij ▸ hb)

theorem agrees_seen_none (n : ℕ) (ys : List UInt8) : Agrees (seen none n) ys := by
  intro i b hi
  simp only [Threads.seen, List.getElem?_map, Option.map_eq_some_iff, Option.map_none,
    Option.getD_none, List.getElem?_nil, Option.join_none, reduceCtorEq, and_false,
    exists_false] at hi

theorem length_seen (peeked : Option (Ptr × List (Option UInt8))) (n : ℕ) :
    (seen peeked n).length = n := by simp [seen]

theorem slice_succ {ys : List UInt8} {off n : ℕ} {b : UInt8} (h : ys[off + n]? = some b) :
    slice ys off (n + 1) = slice ys off n ++ [b] := by
  unfold slice
  rw [List.take_add_one, List.getElem?_drop, h]
  rfl

theorem slice_memcpy_succ {block : List UInt8} {n : ℕ} {b : UInt8} (h : n < block.length) :
    slice (memcpy block n [b]) 0 (n + 1) = slice block 0 n ++ [b] := by
  have hb : (memcpy block n [b])[0 + n]? = some b := by
    rw [getElem?_memcpy _ h.le, if_neg (by omega), if_pos (by simp)]
    simp
  rw [slice_succ hb]
  congr 1
  simp only [slice, memcpy, List.drop_zero, List.append_assoc]
  rw [List.take_append_of_le_length (by rw [List.length_take]; omega), List.take_take, min_self]

theorem ringReads_slice (data : List UInt8) {P n : ℕ} (h : P % data.length + n ≤ data.length) :
    RingReads data P (slice data (P % data.length) n) := by
  intro i hi
  rw [length_slice h] at hi
  rw [getElem?_slice, if_pos hi, ← Nat.mod_add_mod, Nat.mod_eq_of_lt (by omega)]

theorem cell_eq {size P j : ℕ} (hj : j < size) : cell size (P % size) j = (P + j) % size := by
  have hP : P % size < size := Nat.mod_lt P (by omega)
  rw [← Nat.mod_add_mod]
  generalize P % size = c at hP
  rw [mod_of_lt_two_mul (by omega)]
  rfl

/-! ## The reader's steps -/

section Reader
variable {k : ℕ} {s s' : State}

theorem Shape.size_pos (h : Shape k s) : 0 < s.buf.size := h.size_eq ▸ Nat.two_pow_pos k

theorem Inv.read_side (h : Inv k s) {n : ℕ} {tmp : Option (List UInt8)} {reader : ReaderPc}
    {peeked : Option (Ptr × List (Option UInt8))}
    (hpeek : PeekInv s.buf.size s.obtained.length s.published (tmp.getD []) peeked)
    (hreader : ReaderInv s.buf.size s.obtained.length s.published (tmp.getD []) peeked reader) :
    Inv k { s with
      buf := { s.buf with readDataTmpSize := n, readDataTmp := tmp }
      reader := reader
      peeked := peeked } :=
  ⟨⟨h.size_eq, h.length_data, h.wr_eq, h.rd_eq, h.released, h.fits, h.reads, h.agrees, h.safe⟩,
    hpeek, hreader, h.reserve, h.writer⟩

/-- The unread byte `j` is in the cell where a copy looks for it. -/
theorem Shape.unread (h : Shape k s) {j : ℕ} (hj : s.obtained.length + j < s.published.length) :
    s.buf.data[cell s.buf.size (s.obtained.length % s.buf.size) j]? =
      s.published[s.obtained.length + j]? := by
  have hfits := h.fits
  have hcell := h.reads j (by rw [List.length_drop]; omega)
  rw [h.length_data, List.getElem?_drop] at hcell
  rw [cell_eq (by omega), hcell]

theorem Shape.rd_cell (h : Shape k s) :
    s.buf.rdPtr &&& (s.buf.size - 1) = s.obtained.length % s.buf.size := by
  rw [mask_cell h.size_eq, h.rd_eq, mod_mod_mirror]

theorem Shape.wr_cell (h : Shape k s) :
    s.buf.wrPtr &&& (s.buf.size - 1) = s.published.length % s.buf.size := by
  rw [mask_cell h.size_eq, h.wr_eq, mod_mod_mirror]

theorem Inv.callReader (h : Inv k s) {op : ReadOp} (hstep : callReader s op = some s') :
    Inv k s' := by
  unfold Threads.callReader at hstep
  split at hstep
  · exact Option.some.inj hstep ▸ h
  · exact Option.some.inj hstep ▸ h
  · obtain rfl := Option.some.inj hstep
    exact h.read_side h.peek ⟨by simp, by simp⟩
  · cases hstep

theorem Inv.look (h : Inv k s) {j : ℕ} (hstep : look s j = some s') : Inv k s' := by
  unfold Threads.look at hstep
  split at hstep
  · rename_i p loaded hidle hpeeked
    split_ifs at hstep with hj
    obtain ⟨b, hb, rfl⟩ := Option.map_eq_some_iff.mp hstep
    have hpeek := h.peek
    rw [hpeeked] at hpeek
    obtain ⟨hlen, hagree, hptr⟩ := hpeek
    have hbyte : s.published[s.obtained.length + j]? = some b := by
      obtain ⟨rfl, hpos⟩ | ⟨rfl, htmp⟩ := hptr
      · rw [← h.unread (by omega), cell, if_pos (by omega)]
        exact hb
      · have hslice := congrArg (fun xs : List UInt8 => xs[j]?) htmp
        simp only [getElem?_slice, if_pos hj, Nat.zero_add] at hslice
        rw [← hslice]
        simpa [Cbuf.block, Ptr.offset] using hb
    refine h.read_side ⟨by simpa using hlen, hagree.set ?_, by simpa using hptr⟩ ?_
    · rw [List.getElem?_drop, hbyte]
    · rw [hidle]
      trivial
  · cases hstep

theorem Inv.readerChecked (h : Inv k s) {fillLevel : ℕ} {op : ReadOp}
    (hlevel : s.obtained.length + fillLevel ≤ s.published.length) :
    Inv k (readerChecked s fillLevel op) := by
  unfold Threads.readerChecked
  split_ifs with hsize
  · exact h.read_side h.peek trivial
  · cases op with
    | read n =>
      simp only [ReadOp.size] at hsize
      exact h.read_side h.peek (by simp only [ReaderInv]; omega)
    | peek alloc n =>
      simp only [ReadOp.size] at hsize
      exact h.read_side h.peek (by simp only [ReaderInv]; omega)
    | discard n =>
      simp only [ReadOp.size] at hsize
      refine h.read_side h.peek ⟨by rw [length_seen]; omega, ?_⟩
      have hpeek := h.peek
      cases hp : s.peeked with
      | none => exact agrees_seen_none _ _
      | some peeked =>
        rw [hp] at hpeek
        exact hpeek.2.1.seen n

theorem Inv.locatePeek (h : Inv k s) {alloc : Alloc} {n : ℕ}
    (hn : s.obtained.length + n ≤ s.published.length) : Inv k (locatePeek s alloc n) := by
  simp only [Threads.locatePeek, h.rd_cell]
  split_ifs with hwrap hfail
  · refine h.read_side ⟨by simpa using hn, agrees_replicate _ _, .inl ⟨rfl, ?_⟩⟩ trivial
    simpa using hwrap
  · exact h.read_side trivial trivial
  · exact h.read_side trivial ⟨rfl, hn, Nat.zero_le _, rfl, rfl, rfl⟩

theorem Inv.gather (h : Inv k s) {n pos : ℕ} {got : List UInt8} (hpc : s.reader = .gather n pos got)
    (hstep : gather s n pos got = some s') : Inv k s' := by
  have hreader := h.reader
  rw [hpc] at hreader
  obtain ⟨rfl, hn, hle, hgot, htmp, hpeeked⟩ := hreader
  unfold Threads.gather at hstep
  split_ifs at hstep with hall
  · obtain rfl := Option.some.inj hstep
    refine h.read_side ⟨by simpa using hn, agrees_replicate _ _, .inr ⟨rfl, ?_⟩⟩ trivial
    rw [List.length_replicate, ← hall, htmp]
    exact hgot
  · split at hstep
    · rename_i block b hblock hb
      split_ifs at hstep with hroom
      obtain rfl := Option.some.inj hstep
      rw [h.unread (by omega)] at hb
      rw [hblock, Option.getD_some] at htmp
      refine h.read_side (by rw [hpeeked]; trivial)
        ⟨rfl, hn, by rw [List.length_append, List.length_singleton]; omega, ?_, ?_, hpeeked⟩
      · rw [List.length_append, List.length_singleton, slice_succ hb, ← hgot]
      · rw [Option.getD_some, List.length_append, List.length_singleton, slice_memcpy_succ hroom,
          htmp]
    · cases hstep

/-- What the writer knows stays true when the reader releases bytes. -/
theorem ReserveInv.mono {size R R' P : ℕ} {reserved : Option (Ptr × ℕ)}
    (h : ReserveInv size R P reserved) (hR : R ≤ R') : ReserveInv size R' P reserved := by
  cases reserved with
  | none => trivial
  | some r => exact ⟨by have := h.1; omega, h.2⟩

theorem WriterInv.mono {size R R' P : ℕ} {data : List UInt8} {pc : WriterPc}
    (h : WriterInv size R P data pc) (hR : R ≤ R') : WriterInv size R' P data pc := by
  cases pc with
  | idle => trivial
  | level op pc => exact WriterLevel.mono h hR
  | locateWrite bytes | locateReserve alloc n | locateCommit n =>
    simp only [WriterInv] at h ⊢
    omega
  | copy pos copied rest n => exact ⟨h.1, by have := h.2.1; omega, h.2.2⟩
  | load bytes => exact ⟨by have := h.1; omega, h.2⟩
  | store wrPtr bytes => exact ⟨by have := h.1; omega, h.2⟩

theorem Inv.release (h : Inv k s) {rdPtr : ℕ} {taken : List (Option UInt8)}
    (hlen : s.obtained.length + taken.length ≤ s.published.length)
    (hagree : Agrees taken (s.published.drop s.obtained.length))
    (hrd : rdPtr = s.obtained.length % (2 * s.buf.size)) :
    Inv k { s with
      buf := { s.buf with rdPtr := cbufPtrAdd s.buf rdPtr taken.length }
      reader := .idle
      peeked := none
      obtained := s.obtained ++ taken } := by
  have hR : s.obtained.length ≤ (s.obtained ++ taken).length := by simp
  refine ⟨⟨h.size_eq, h.length_data, h.wr_eq, ?_, ?_, ?_, ?_, h.agrees.append hagree, h.safe⟩,
    trivial, trivial, h.reserve.mono hR, h.writer.mono hR⟩
  · simp only [cbufPtrAdd]
    rw [mask_pointer h.size_eq, hrd, mod_pointer_add, List.length_append]
  · rw [List.length_append]
    exact hlen
  · have := h.fits
    simp only [List.length_append]
    omega
  · simp only [List.length_append, ← List.drop_drop]
    exact h.reads.drop taken.length

theorem Inv.readerStep (h : Inv k s) {p : Shared} (hstep : readerStep s p = some s') :
    Inv k s' := by
  have hreader := h.reader
  unfold Threads.readerStep at hstep
  split at hstep <;> rename_i hpc <;> rw [hpc] at hreader
  · cases hstep
  · obtain rfl := Option.some.inj hstep
    exact h.readerChecked hreader
  · obtain ⟨pc', hload, rfl⟩ := Option.map_eq_some_iff.mp hstep
    exact h.read_side h.peek
      ((ReaderLevel.load hreader h.wr_eq h.rd_eq h.released hload).next h.size_eq h.fits)
  · obtain rfl := Option.some.inj hstep
    exact h.read_side h.peek ⟨h.rd_cell, hreader, Nat.zero_le _, rfl⟩
  · obtain rfl := Option.some.inj hstep
    exact h.locatePeek hreader
  · rename_i n pos got
    obtain ⟨rfl, hn, hle, hgot⟩ := hreader
    split_ifs at hstep with hall
    · obtain rfl := Option.some.inj hstep
      refine h.read_side h.peek ⟨by rw [List.length_map]; omega, ?_⟩
      rw [hgot]
      exact agrees_map_take _ _
    · obtain ⟨b, hb, rfl⟩ := Option.map_eq_some_iff.mp hstep
      rw [h.unread (by omega)] at hb
      refine h.read_side h.peek
        ⟨rfl, hn, by rw [List.length_append, List.length_singleton]; omega, ?_⟩
      rw [List.length_append, List.length_singleton, slice_succ hb, ← hgot]
  · exact h.gather hpc hstep
  · obtain rfl := Option.some.inj hstep
    exact h.read_side h.peek ⟨hreader.1, hreader.2, h.rd_eq⟩
  · obtain rfl := Option.some.inj hstep
    exact h.release hreader.1 hreader.2.1 hreader.2.2

end Reader

/-! ## The writer's steps -/

section Writer
variable {k : ℕ} {s s' : State}

theorem Inv.write_side (h : Inv k s) {n : ℕ} {tmp : Option (List UInt8)} {writer : WriterPc}
    {reserved : Option (Ptr × ℕ)}
    (hreserve : ReserveInv s.buf.size s.obtained.length s.published.length reserved)
    (hwriter : WriterInv s.buf.size s.obtained.length s.published.length s.buf.data writer) :
    Inv k { s with
      buf := { s.buf with writeDataTmpSize := n, writeDataTmp := tmp }
      writer := writer
      reserved := reserved } :=
  ⟨⟨h.size_eq, h.length_data, h.wr_eq, h.rd_eq, h.released, h.fits, h.reads, h.agrees, h.safe⟩,
    h.peek, h.reader, hreserve, hwriter⟩

theorem not_live {gap : ℕ}
    (hgap : s.published.length + gap < s.obtained.length + s.buf.size) :
    s.live ((s.published.length + gap) % s.buf.size) = false := by
  rw [State.live, List.any_eq_false]
  intro i hi
  rw [List.mem_range] at hi
  rw [beq_iff_eq]
  exact cell_ne (a := s.obtained.length) (by omega) (by omega) (by omega)

theorem Inv.storeCell (h : Inv k s) {gap : ℕ} {b : UInt8} (writer : WriterPc)
    (hgap : s.published.length + gap < s.obtained.length + s.buf.size)
    (hwriter : WriterInv s.buf.size s.obtained.length s.published.length
      (memcpy s.buf.data ((s.published.length + gap) % s.buf.size) [b]) writer) :
    Inv k { Threads.storeCell s ((s.published.length + gap) % s.buf.size) b with writer := writer } := by
  have hlen := h.length_data
  have hpos := h.size_pos
  have hcell : (s.published.length + gap) % s.buf.size < s.buf.data.length :=
    hlen.symm ▸ Nat.mod_lt _ hpos
  have hwrite : memcpy s.buf.data ((s.published.length + gap) % s.buf.size) [b] =
      ringWrite s.buf.data ((s.published.length + gap) % s.buf.size) [b] := by
    rw [ringWrite, if_pos (by simp; omega)]
  refine ⟨⟨h.size_eq, ?_, h.wr_eq, h.rd_eq, h.released, h.fits, ?_, h.agrees, ?_⟩,
    h.peek, h.reader, h.reserve, hwriter⟩
  · exact (length_memcpy (by simp; omega)).trans hlen
  · have hreleased := h.released
    have hunread : (s.published.drop s.obtained.length).length =
        s.published.length - s.obtained.length := List.length_drop
    simp only [Threads.storeCell, hwrite]
    refine h.reads.ringWrite gap ?_ (by omega) (by simp only [List.length_singleton]; omega)
    rw [hlen]
    congr 1
    omega
  · simp only [Threads.storeCell, h.safe, not_live hgap, Bool.or_self]

theorem Inv.callWriter (h : Inv k s) {op : WriteOp} (hstep : callWriter s op = some s') :
    Inv k s' := by
  unfold Threads.callWriter at hstep
  split at hstep
  · obtain rfl := Option.some.inj hstep
    exact h.write_side h.reserve ⟨by simp, by simp⟩
  · cases hstep

theorem Inv.fill (h : Inv k s) {off : ℕ} {b : UInt8} (hstep : fill s off b = some s') :
    Inv k s' := by
  unfold Threads.fill at hstep
  split at hstep
  · rename_i p n hidle hreserved
    split_ifs at hstep with hoff
    have hreserve := h.reserve
    rw [hreserved] at hreserve
    obtain ⟨hfit, ⟨rfl, hpos⟩ | ⟨rfl, -⟩⟩ := hreserve
    · obtain rfl := Option.some.inj hstep
      have hcell : s.published.length % s.buf.size + off =
          (s.published.length + off) % s.buf.size := by
        rw [← Nat.mod_add_mod]
        exact (Nat.mod_eq_of_lt (by omega)).symm
      rw [hcell]
      exact h.storeCell s.writer (by omega) (by rw [hidle]; trivial)
    · obtain rfl := Option.some.inj hstep
      exact h.write_side h.reserve h.writer
  · cases hstep

theorem Inv.callCommit (h : Inv k s) {n : ℕ} (hstep : callCommit s n = some s') : Inv k s' := by
  unfold Threads.callCommit at hstep
  split at hstep
  · rename_i p m hidle hreserved
    have hreserve := h.reserve
    rw [hreserved] at hreserve
    obtain ⟨hfit, hptr⟩ := hreserve
    split_ifs at hstep with hm h0 hp
    · exact Option.some.inj hstep ▸ h
    · obtain rfl := Option.some.inj hstep
      obtain ⟨rfl, -⟩ | ⟨-, hwrap⟩ := hptr
      · cases hp
      · exact h.write_side h.reserve (by simp only [WriterInv]; omega)
    · obtain rfl := Option.some.inj hstep
      obtain ⟨rfl, hpos⟩ | ⟨rfl, -⟩ := hptr
      · have hlen := h.length_data
        have hslice := ringReads_slice s.buf.data (P := s.published.length) (n := n)
          (by rw [hlen]; omega)
        rw [hlen] at hslice
        refine h.write_side h.reserve ⟨?_, hslice⟩
        simp only [cbufLoad, Ptr.offset, Cbuf.block]
        rw [length_slice (by omega)]
        omega
      · exact absurd rfl hp
  · cases hstep

theorem Inv.writerChecked (h : Inv k s) {fillLevel : ℕ} {op : WriteOp}
    (hlevel : s.published.length ≤ s.obtained.length + fillLevel) :
    Inv k (writerChecked s fillLevel op) := by
  have hfits := h.fits
  unfold Threads.writerChecked
  split_ifs with hsize
  · exact h.write_side h.reserve trivial
  · cases op with
    | write bytes =>
      simp only [WriteOp.size] at hsize
      exact h.write_side h.reserve (by simp only [WriterInv]; omega)
    | reserve alloc n =>
      simp only [WriteOp.size] at hsize
      exact h.write_side h.reserve (by simp only [WriterInv]; omega)

theorem Inv.locateReserve (h : Inv k s) {alloc : Alloc} {n : ℕ}
    (hn : s.published.length + n ≤ s.obtained.length + s.buf.size) :
    Inv k (locateReserve s alloc n) := by
  simp only [Threads.locateReserve, h.wr_cell]
  split_ifs with hwrap hfail
  · exact h.write_side ⟨hn, .inl ⟨rfl, hwrap⟩⟩ trivial
  · exact h.write_side trivial trivial
  · exact h.write_side ⟨hn, .inr ⟨rfl, by omega⟩⟩ trivial

theorem Inv.locateCommit (h : Inv k s) {n : ℕ}
    (hn : s.published.length + max n (s.buf.size - s.published.length % s.buf.size) ≤
      s.obtained.length + s.buf.size) (hstep : locateCommit s n = some s') : Inv k s' := by
  simp only [Threads.locateCommit, h.wr_cell] at hstep
  split_ifs at hstep with hblock
  obtain rfl := Option.some.inj hstep
  have hlen : (slice (s.buf.writeDataTmp.getD []) 0
      (max n (s.buf.size - s.published.length % s.buf.size))).length = _ :=
    length_slice (by omega)
  exact h.write_side h.reserve ⟨rfl, by simpa [hlen] using hn, by simp [hlen],
    by intro i hi; simp at hi⟩

theorem Inv.copyByte (h : Inv k s) {copied rest : List UInt8} {b : UInt8} {n : ℕ}
    (hfit : s.published.length + (copied.length + (b :: rest).length) ≤
      s.obtained.length + s.buf.size)
    (hn : n ≤ copied.length + (b :: rest).length)
    (hcopied : RingReads s.buf.data s.published.length copied) :
    Inv k { Threads.storeCell s (cell s.buf.size (s.published.length % s.buf.size) copied.length) b with
      writer := .copy (s.published.length % s.buf.size) (copied ++ [b]) rest n } := by
  have hlen := h.length_data
  have hreleased := h.released
  rw [List.length_cons] at hfit hn
  have hpos : 0 < s.buf.data.length := hlen.symm ▸ h.size_pos
  have hcell : (s.published.length + copied.length) % s.buf.size < s.buf.data.length :=
    hlen.symm ▸ Nat.mod_lt _ h.size_pos
  rw [cell_eq (by omega)]
  refine h.storeCell _ (by omega) ⟨rfl, ?_, ?_, ?_⟩
  · rw [List.length_append, List.length_singleton]
    omega
  · rw [List.length_append, List.length_singleton]
    omega
  · have hwrite : memcpy s.buf.data ((s.published.length + copied.length) % s.buf.size) [b] =
        ringWrite s.buf.data ((s.published.length + copied.length) % s.buf.size) [b] := by
      rw [ringWrite, if_pos (by simp; omega)]
    rw [hwrite]
    refine (hcopied.ringWrite 0 (by rw [hlen]; rfl) hpos
      (by simp only [List.length_singleton]; omega)).append ?_
    refine (ringReads_mod ?_).mpr (ringReads_ringWrite hcell (by simp; omega))
    rw [length_ringWrite hcell (by simp; omega), hlen, Nat.mod_mod]

/-! What the reader knows stays true when the writer publishes bytes. -/

theorem PeekInv.append {size R : ℕ} {published tmp bytes : List UInt8}
    {peeked : Option (Ptr × List (Option UInt8))} (h : PeekInv size R published tmp peeked)
    (hR : R ≤ published.length) : PeekInv size R (published ++ bytes) tmp peeked := by
  cases peeked with
  | none => trivial
  | some peeked =>
    obtain ⟨hlen, hagree, hptr⟩ := h
    refine ⟨by rw [List.length_append]; omega, ?_, ?_⟩
    · rw [List.drop_append_of_le_length hR]
      exact hagree.append_right bytes
    · rwa [slice_append_left hlen]

theorem ReaderInv.append {size R : ℕ} {published tmp bytes : List UInt8}
    {peeked : Option (Ptr × List (Option UInt8))} {pc : ReaderPc}
    (h : ReaderInv size R published tmp peeked pc) (hR : R ≤ published.length) :
    ReaderInv size R (published ++ bytes) tmp peeked pc := by
  have hP : published.length ≤ (published ++ bytes).length := by simp
  cases pc with
  | idle => trivial
  | level op pc => exact ReaderLevel.mono h hP
  | locateRead n | locatePeek alloc n => exact le_trans h hP
  | copy n pos got =>
    obtain ⟨hpos, hn, hle, hgot⟩ := h
    exact ⟨hpos, hn.trans hP, hle, by rwa [slice_append_left (by omega)]⟩
  | gather n pos got =>
    obtain ⟨hpos, hn, hle, hgot, hrest⟩ := h
    exact ⟨hpos, hn.trans hP, hle, by rwa [slice_append_left (by omega)], hrest⟩
  | load taken =>
    refine ⟨h.1.trans hP, ?_⟩
    rw [List.drop_append_of_le_length hR]
    exact h.2.append_right bytes
  | store rdPtr taken =>
    refine ⟨h.1.trans hP, ?_, h.2.2⟩
    rw [List.drop_append_of_le_length hR]
    exact h.2.1.append_right bytes

theorem Inv.publish (h : Inv k s) {wrPtr : ℕ} {bytes : List UInt8}
    (hfit : s.published.length + bytes.length ≤ s.obtained.length + s.buf.size)
    (hbytes : RingReads s.buf.data s.published.length bytes)
    (hwr : wrPtr = s.published.length % (2 * s.buf.size)) :
    Inv k { s with
      buf := { s.buf with wrPtr := cbufPtrAdd s.buf wrPtr bytes.length }
      writer := .idle
      reserved := none
      published := s.published ++ bytes } := by
  have hreleased := h.released
  refine ⟨⟨h.size_eq, h.length_data, ?_, h.rd_eq, ?_, ?_, ?_, h.agrees.append_right bytes, h.safe⟩,
    h.peek.append hreleased, h.reader.append hreleased, trivial, trivial⟩
  · simp only [cbufPtrAdd]
    rw [mask_pointer h.size_eq, hwr, mod_pointer_add, List.length_append]
  · exact hreleased.trans (by simp)
  · rw [List.length_append]
    exact hfit
  · rw [List.drop_append_of_le_length hreleased]
    refine h.reads.append ?_
    rwa [List.length_drop, Nat.add_sub_cancel' hreleased]

theorem Inv.writerStep (h : Inv k s) {p : Shared} (hstep : writerStep s p = some s') :
    Inv k s' := by
  have hwriter := h.writer
  unfold Threads.writerStep at hstep
  split at hstep <;> rename_i hpc <;> rw [hpc] at hwriter
  · cases hstep
  · obtain rfl := Option.some.inj hstep
    exact h.writerChecked hwriter
  · obtain ⟨pc', hload, rfl⟩ := Option.map_eq_some_iff.mp hstep
    exact h.write_side h.reserve
      ((WriterLevel.load hwriter h.wr_eq h.rd_eq h.released h.fits hload).next h.size_eq)
  · obtain rfl := Option.some.inj hstep
    exact h.write_side h.reserve
      ⟨h.wr_cell, by simpa [WriterInv] using hwriter, by simp, by intro i hi; simp at hi⟩
  · obtain rfl := Option.some.inj hstep
    exact h.locateReserve hwriter
  · exact h.locateCommit hwriter hstep
  · obtain rfl := Option.some.inj hstep
    obtain ⟨rfl, hfit, hn, hcopied⟩ := hwriter
    refine h.write_side h.reserve ⟨?_, hcopied.take _⟩
    rw [List.length_nil] at hfit
    rw [List.length_take]
    omega
  · obtain rfl := Option.some.inj hstep
    obtain ⟨rfl, hfit, hn, hcopied⟩ := hwriter
    exact h.copyByte hfit hn hcopied
  · obtain rfl := Option.some.inj hstep
    exact h.write_side h.reserve ⟨hwriter.1, hwriter.2, h.wr_eq⟩
  · obtain rfl := Option.some.inj hstep
    exact h.publish hwriter.1 hwriter.2.1 hwriter.2.2

end Writer

/-! ## Every interleaving -/

theorem inv_step (k : ℕ) : Stable step (Inv k) := by
  intro s l s' h hstep
  cases l with
  | read op => exact h.callReader hstep
  | look j => exact h.look hstep
  | reader p => exact h.readerStep hstep
  | write op => exact h.callWriter hstep
  | fill off b => exact h.fill hstep
  | commit n => exact h.callCommit hstep
  | writer p => exact h.writerStep hstep

/-- The bytes the reader has in hand: copied by a read in progress, or looked at behind a peek. -/
def State.inHand (s : State) : List (Option UInt8) :=
  match s.reader with
  | .copy _ _ got => got.map some
  | .load taken => taken
  | .store _ taken => taken
  | _ => (s.peeked.map Prod.snd).getD []

theorem Inv.inHand {k : ℕ} {s : State} (h : Inv k s) :
    Agrees s.inHand (s.published.drop s.obtained.length) := by
  have hreader := h.reader
  unfold State.inHand
  split <;> rename_i hpc <;> try rw [hpc] at hreader
  · rw [hreader.2.2.2]
    exact agrees_map_take _ _
  · exact hreader.2
  · exact hreader.2.1
  · have hpeek := h.peek
    cases hp : s.peeked with
    | none => intro i b hi; simp at hi
    | some peeked =>
      rw [hp] at hpeek
      exact hpeek.2.1

/-- **One reader and one writer are safe without a lock around the level checks.** In every state
of every interleaving: a level computed by the reader is at most the number of unread bytes, a free
level computed by the writer is at most the free space, no byte was ever stored over between its
publication and its release, and what the reader obtained (released or still in hand) are the
published bytes at the same positions; a reader that looks at everything it discards obtains a
prefix of what was published. -/
theorem levels_conservative_and_stream_intact (k : ℕ) (ls : List Label) (s : State)
    (hrun : runFrom step (initial k) ls = some s) :
    (∀ op fillLevel, s.reader = .level op (.done fillLevel) →
      fillLevel ≤ s.published.length - s.obtained.length) ∧
    (∀ op fillLevel, s.writer = .level op (.done fillLevel) →
      s.buf.size - fillLevel ≤ s.buf.size - (s.published.length - s.obtained.length)) ∧
    s.clobbered = false ∧
    Agrees (s.obtained ++ s.inHand) s.published ∧
    ∀ bytes : List UInt8, s.obtained ++ s.inHand = bytes.map some → bytes <+: s.published := by
  have h : Inv k s := (inv_step k).run (inv_initial k) hrun
  have hagree : Agrees (s.obtained ++ s.inHand) s.published := h.agrees.append h.inHand
  refine ⟨?_, ?_, h.safe, hagree, ?_⟩
  · intro op fillLevel hpc
    have hreader := h.reader
    rw [hpc] at hreader
    simp only [ReaderInv, ReaderLevel] at hreader
    omega
  · intro op fillLevel hpc
    have hwriter := h.writer
    rw [hpc] at hwriter
    simp only [WriterInv, WriterLevel] at hwriter
    omega
  · intro bytes hbytes
    rw [List.prefix_iff_getElem?]
    intro i hi
    refine hagree i _ ?_
    rw [hbytes, List.getElem?_map, List.getElem?_eq_getElem hi]
    rfl

def writeByte (b : UInt8) : List Label :=
  [.write (.write [b]), .writer .wrPtr, .writer .rdPtr, .writer .rdPtr, .writer .wrPtr] ++
    List.replicate 6 (.writer .wrPtr)

def fillsBetweenLoads : List Label :=
  writeByte 1 ++ [.read (.read 1), .reader .wrPtr] ++ writeByte 2 ++
    [.reader .rdPtr, .reader .wrPtr, .reader .rdPtr]

/-- The writer fills a buffer of two bytes between the loads of the reader, which then misses both
of them: the comparison saw one byte and the subtraction a wrapped difference. -/
theorem level_misses_bytes_when_filled :
    ∃ s, runFrom step (initial 1) fillsBetweenLoads = some s ∧
      s.reader = .level (.read 1) (.done 0) ∧ s.published = [1, 2] ∧ s.clobbered = false :=
  ⟨_, rfl, rfl, rfl,
    (levels_conservative_and_stream_intact 1 fillsBetweenLoads _ rfl).2.2.1⟩

end GlipOsd.CircularBuffer.Threads
