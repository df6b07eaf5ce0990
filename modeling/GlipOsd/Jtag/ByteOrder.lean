import GlipOsd.Jtag.Round

/-! # The order of the bytes of a word

`glip_write` and the documentation of the logic interface promise that the FIFOs are big endian: the first
byte of a word is the more significant one. Along the whole way it is the other one, in both directions.
-/

namespace GlipOsd.Jtag.ByteOrder
open Bytes WordStream
set_option autoImplicit false

/-- `w >> 8`, `w & 0xff` -/
def beBytes (w : BitVec 16) : List UInt8 := [UInt8.ofNat (w.toNat / 256), UInt8.ofNat (w.toNat % 256)]

section Promise
variable (oocd : List UInt8 → List (ℕ × ℕ))

/-- The words delivered are those of the bytes that `glip_write` has accepted, as long as these begin `b`. -/
def WritesBigEndian (b : List UInt8) : Prop :=
  ∀ s, Reachable oocd s → s.host.accepted <+: b → s.delivered <+: (pairs b).map beWord

/-- The bytes that `glip_read` returns are those of the words taken, as long as these begin `ws`. -/
def ReadsBigEndian (ws : List (BitVec 16)) : Prop :=
  ∀ s, Reachable oocd s → s.popped <+: ws → s.host.read <+: ws.flatMap beBytes

end Promise

/-! ## Little endian -/

theorem pairs_wordBytes (ws : List (BitVec 16)) : (pairs (ws.flatMap wordBytes)).map leWord = ws := by
  induction ws with
  | nil => rfl
  | cons w ws ih =>
    have heven : (wordBytes w).length % 2 = 0 := by rw [wordBytes, length_leBytes]
    rw [List.flatMap_cons, pairs_append _ heven, List.map_append, ih, wordBytes, pairs_leBytes, BitVec.ofNat_toNat,
      BitVec.setWidth_eq]
    rfl

theorem prefix_pairs {ws : List (BitVec 16)} {b : List UInt8} (h : ws.flatMap wordBytes <+: b) :
    ws <+: (pairs b).map leWord := by
  obtain ⟨rest, rfl⟩ := h
  have heven : (ws.flatMap wordBytes).length % 2 = 0 := by
    rw [length_flatMap_wordBytes]
    omega
  rw [pairs_append rest heven, List.map_append, pairs_wordBytes]
  exact List.prefix_append _ _

theorem prefix_flatMap {α β : Type*} (f : α → List β) {xs ys : List α} (h : xs <+: ys) :
    xs.flatMap f <+: ys.flatMap f := by
  obtain ⟨zs, rfl⟩ := h
  rw [List.flatMap_append]
  exact List.prefix_append _ _

section LittleEndian
variable {oocd : List UInt8 → List (ℕ × ℕ)} {s : State}

/-- The words delivered have the first byte as the less significant one. -/
theorem writes_little_endian (hoocd : ReadsFields oocd) (hs : Reachable oocd s) {b : List UInt8}
    (hb : s.host.accepted <+: b) : s.delivered <+: (pairs b).map leWord :=
  prefix_pairs ((hs.inv hoocd).delivered_isPrefix.trans hb)

theorem reads_little_endian (hoocd : ReadsFields oocd) (hs : Reachable oocd s) {ws : List (BitVec 16)}
    (hws : s.popped <+: ws) : s.host.read <+: ws.flatMap wordBytes :=
  (hs.inv hoocd).read_isPrefix.trans (prefix_flatMap wordBytes hws)

/-! ## Every stream passes -/

theorem exists_rounds (hoocd : ReadsFields oocd) (hs : Idle s) (xs : List ((UInt8 × UInt8) × BitVec 16)) :
    ∃ s', Relation.ReflTransGen (Step oocd) s s' ∧ Idle s' ∧
      s'.host.accepted = s.host.accepted ++ xs.flatMap (fun x => [x.1.1, x.1.2]) ∧
        s'.delivered = s.delivered ++ xs.map (fun x => leWord x.1) ∧ s'.popped = s.popped ++ xs.map Prod.snd ∧
          s'.host.read = s.host.read ++ (xs.map Prod.snd).flatMap wordBytes := by
  induction xs generalizing s with
  | nil =>
    refine ⟨s, .refl, hs, ?_, ?_, ?_, ?_⟩
    all_goals exact (List.append_nil _).symm
  | cons x xs ih =>
    obtain ⟨t, hround, ht, haccepted, hdelivered, hpopped, hread⟩ := exists_round hoocd hs x.1 x.2
    obtain ⟨s', hrest, hs', haccepted', hdelivered', hpopped', hread'⟩ := ih ht
    refine ⟨s', hround.trans hrest, hs', ?_, ?_, ?_, ?_⟩
    · rw [haccepted', haccepted, List.flatMap_cons, List.append_assoc]
    · rw [hdelivered', hdelivered, List.map_cons, List.append_assoc]
      rfl
    · rw [hpopped', hpopped, List.map_cons, List.append_assoc]
      rfl
    · rw [hread', hread, List.map_cons, List.flatMap_cons, List.append_assoc]

theorem flatMap_pairs_isPrefix (b : List UInt8) : ((pairs b).flatMap fun p => [p.1, p.2]) <+: b := by
  induction b using pairs.induct with
  | case1 x y b ih =>
    rw [pairs, List.flatMap_cons]
    exact (List.prefix_append_right_inj [x, y]).mpr ih
  | case2 b hb =>
    have hnil : pairs b = [] := by
      obtain rfl | ⟨x, rfl⟩ := nil_or_singleton hb
      · rfl
      · rfl
    rw [hnil]
    exact List.nil_prefix

theorem exists_written (hoocd : ReadsFields oocd) (b : List UInt8) :
    ∃ s, Reachable oocd s ∧ s.host.accepted <+: b ∧ s.delivered = (pairs b).map leWord := by
  obtain ⟨s, hrun, -, haccepted, hdelivered, -⟩ := exists_rounds hoocd idle_initial ((pairs b).map fun p => (p, 0))
  refine ⟨s, hrun, ?_, ?_⟩
  · rw [haccepted, List.flatMap_map]
    exact flatMap_pairs_isPrefix b
  · rw [hdelivered, List.map_map]
    rfl

theorem exists_read (hoocd : ReadsFields oocd) (ws : List (BitVec 16)) :
    ∃ s, Reachable oocd s ∧ s.popped = ws ∧ s.host.read = ws.flatMap wordBytes := by
  obtain ⟨s, hrun, -, -, -, hpopped, hread⟩ := exists_rounds hoocd idle_initial (ws.map fun w => ((0, 0), w))
  have hsnd : (ws.map fun w => (((0 : UInt8), (0 : UInt8)), w)).map Prod.snd = ws := by
    rw [List.map_map]
    exact List.map_id ws
  rw [hsnd] at hpopped hread
  exact ⟨s, hrun, hpopped, hread⟩

end LittleEndian

/-! ## The exact condition -/

theorem beBytes_eq (w : BitVec 16) : beBytes w = (wordBytes w).reverse := by
  have hmod : UInt8.ofNat (w.toNat % 256) = UInt8.ofNat w.toNat := by
    rw [← UInt8.toNat_inj, UInt8.toNat_ofNat', UInt8.toNat_ofNat']
    omega
  rw [beBytes, hmod]
  rfl

/-- The two bytes of a word are the same. -/
theorem wordBytes_eq_beBytes_iff (w : BitVec 16) : wordBytes w = beBytes w ↔ w.toNat / 256 = w.toNat % 256 := by
  have hlt := w.isLt
  constructor
  · intro h
    obtain ⟨hfst, -⟩ := List.cons.inj (h : [UInt8.ofNat w.toNat, UInt8.ofNat (w.toNat / 256)] = beBytes w)
    have hval := congrArg UInt8.toNat hfst
    rw [UInt8.toNat_ofNat', UInt8.toNat_ofNat'] at hval
    omega
  · intro h
    rw [beBytes_eq]
    have hval : UInt8.ofNat (w.toNat / 256) = UInt8.ofNat w.toNat := by
      rw [← UInt8.toNat_inj, UInt8.toNat_ofNat', UInt8.toNat_ofNat']
      omega
    show [UInt8.ofNat w.toNat, UInt8.ofNat (w.toNat / 256)] = [UInt8.ofNat (w.toNat / 256), UInt8.ofNat w.toNat]
    rw [hval]

theorem leWord_eq_beWord_iff (p : UInt8 × UInt8) : leWord p = beWord p ↔ p.1 = p.2 := by
  constructor
  · exact fun h => congrArg Prod.fst (leWord_injective h)
  · intro h
    rw [beWord]
    exact congrArg leWord (Prod.ext h h.symm)

section Exact
variable {oocd : List UInt8 → List (ℕ × ℕ)}

theorem writesBigEndian_iff (hoocd : ReadsFields oocd) (b : List UInt8) :
    WritesBigEndian oocd b ↔ ∀ p ∈ pairs b, p.1 = p.2 := by
  constructor
  · intro h
    obtain ⟨s, hs, haccepted, hdelivered⟩ := exists_written hoocd b
    have hprefix := h s hs haccepted
    rw [hdelivered] at hprefix
    have hwords := hprefix.eq_of_length (by rw [List.length_map, List.length_map])
    exact fun p hp => (leWord_eq_beWord_iff p).mp (List.map_inj_left.mp hwords p hp)
  · intro h s hs hb
    have hwords : (pairs b).map leWord = (pairs b).map beWord :=
      List.map_congr_left fun p hp => (leWord_eq_beWord_iff p).mpr (h p hp)
    rw [← hwords]
    exact writes_little_endian hoocd hs hb

theorem readsBigEndian_iff (hoocd : ReadsFields oocd) (ws : List (BitVec 16)) :
    ReadsBigEndian oocd ws ↔ ∀ w ∈ ws, w.toNat / 256 = w.toNat % 256 := by
  constructor
  · intro h
    obtain ⟨s, hs, hpopped, hread⟩ := exists_read hoocd ws
    have hprefix := h s hs (hpopped ▸ List.prefix_rfl)
    rw [hread] at hprefix
    -- word by word, by the lengths
    have hall (vs : List (BitVec 16)) (hvs : vs.flatMap wordBytes <+: vs.flatMap beBytes) :
        ∀ w ∈ vs, wordBytes w = beBytes w := by
      induction vs with
      | nil => exact fun w hw => absurd hw List.not_mem_nil
      | cons v vs ih =>
        obtain ⟨rest, hrest⟩ := hvs
        rw [List.flatMap_cons, List.flatMap_cons, List.append_assoc] at hrest
        obtain ⟨hfirst, hothers⟩ := List.append_inj hrest rfl
        intro w hw
        obtain rfl | hw := List.mem_cons.mp hw
        · exact hfirst
        · exact ih ⟨rest, hothers⟩ w hw
    exact fun w hw => (wordBytes_eq_beBytes_iff w).mp (hall ws hprefix w hw)
  · intro h s hs hws
    have hbytes : ws.flatMap wordBytes = ws.flatMap beBytes :=
      List.flatMap_congr fun w hw => (wordBytes_eq_beBytes_iff w).mpr (h w hw)
    rw [← hbytes]
    exact reads_little_endian hoocd hs hws

/-- **Big endian.** The promise is kept exactly for bytes that are the same in each word. -/
theorem bigEndian_iff (hoocd : ReadsFields oocd) (b : List UInt8) (ws : List (BitVec 16)) :
    (WritesBigEndian oocd b ∧ ReadsBigEndian oocd ws) ↔
      (∀ p ∈ pairs b, p.1 = p.2) ∧ ∀ w ∈ ws, w.toNat / 256 = w.toNat % 256 :=
  and_congr (writesBigEndian_iff hoocd b) (readsBigEndian_iff hoocd ws)

end Exact

/-! ## A reader of lines -/

def readDecimal (ds : List UInt8) : ℕ := ds.foldl (fun n c => 10 * n + (c.toNat - 0x30)) 0

def readTokens : List (List UInt8) → List (ℕ × ℕ)
  | size :: value :: tokens => (readDecimal size, leadingDigits 0 (value.drop 2)) :: readTokens tokens
  | _ => []

/-- The two words of the command are not looked at. -/
def readLine (line : List UInt8) : List (ℕ × ℕ) := readTokens ((line.splitOn 0x20).drop 2)

def ScanField.tokens (f : ScanField) : List (List UInt8) := [decimal f.numBits, ascii "0x" ++ f.digits]

theorem splitOn_fields {fs : List ScanField} (hfs : ∀ f ∈ fs, f.Valid) :
    (fs.flatMap ScanField.text ++ oocdCmdend).splitOn 0x20 = fs.flatMap ScanField.tokens ++ [oocdCmdend] := by
  induction fs with
  | nil => decide
  | cons f fs ih =>
    obtain ⟨⟨-, hnumBits⟩, ⟨-, hhex⟩, -⟩ := hfs f List.mem_cons_self
    have hdecimal : ∀ n ≤ 32, 0x20 ∉ decimal n := by decide
    have hvalue : 0x20 ∉ ascii "0x" ++ f.digits := by
      intro hmem
      obtain hmem | hmem := List.mem_append.mp hmem
      · exact absurd hmem (by decide)
      · exact absurd (hhex _ hmem).not_isSeparator (by decide)
    have htext : (f :: fs).flatMap ScanField.text ++ oocdCmdend = decimal f.numBits ++ 0x20 ::
        ((ascii "0x" ++ f.digits) ++ 0x20 :: (fs.flatMap ScanField.text ++ oocdCmdend)) := by
      rw [List.flatMap_cons, ScanField.text]
      simp only [List.append_assoc]
      rfl
    rw [htext, List.splitOn_append_cons_self_of_not_mem (hdecimal _ hnumBits),
      List.splitOn_append_cons_self_of_not_mem hvalue, ih fun g hg => hfs g (List.mem_cons_of_mem f hg)]
    rfl

theorem readTokens_fields {fs : List ScanField} (hfs : ∀ f ∈ fs, f.Valid) :
    readTokens (fs.flatMap ScanField.tokens ++ [oocdCmdend]) = fs.map fun f => (f.numBits, f.value) := by
  induction fs with
  | nil => rfl
  | cons f fs ih =>
    obtain ⟨⟨-, hnumBits⟩, -, -⟩ := hfs f List.mem_cons_self
    have hdecimal : ∀ n ≤ 32, readDecimal (decimal n) = n := by decide
    have hread : readTokens ((f :: fs).flatMap ScanField.tokens ++ [oocdCmdend]) =
        (readDecimal (decimal f.numBits), f.value) :: readTokens (fs.flatMap ScanField.tokens ++ [oocdCmdend]) := rfl
    rw [hread, hdecimal _ hnumBits, ih fun g hg => hfs g (List.mem_cons_of_mem f hg)]
    rfl

theorem readsFields_readLine : ReadsFields readLine := by
  intro fs hfs
  have hline : command fs = ascii "drscan" ++ 0x20 :: (ascii "or1k.fifo" ++ 0x20 ::
      (fs.flatMap ScanField.text ++ oocdCmdend)) := by
    rw [command, List.append_assoc]
    rfl
  rw [readLine, hline, List.splitOn_append_cons_self_of_not_mem (by decide),
    List.splitOn_append_cons_self_of_not_mem (by decide), splitOn_fields hfs]
  exact readTokens_fields hfs

theorem bigEndian_repeated : WritesBigEndian readLine [7, 7] ∧ ReadsBigEndian readLine [0x0505] :=
  (bigEndian_iff readsFields_readLine [7, 7] [0x0505]).mpr ⟨by simp [pairs], by simp⟩

/-- The bytes 1 and 0 are delivered as the word 1, and the word 1 is read as the bytes 1 and 0. -/
theorem not_bigEndian_one : ¬ WritesBigEndian readLine [1, 0] ∧ ¬ ReadsBigEndian readLine [1] := by
  constructor
  · intro h
    obtain ⟨s, hs, haccepted, hdelivered⟩ := exists_written readsFields_readLine [1, 0]
    have hprefix := h s hs haccepted
    rw [hdelivered] at hprefix
    exact absurd hprefix (by decide)
  · intro h
    obtain ⟨s, hs, hpopped, hread⟩ := exists_read readsFields_readLine [1]
    have hprefix := h s hs (hpopped ▸ List.prefix_rfl)
    rw [hread] at hprefix
    exact absurd hprefix (by decide)

end GlipOsd.Jtag.ByteOrder
