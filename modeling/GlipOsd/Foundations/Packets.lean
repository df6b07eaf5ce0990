import Mathlib.Data.List.Basic
import Mathlib.Tactic

/-! # Packets in a stream of flits

Packets follow each other without a gap, and a predicate `last` marks the final flit of each.

* `IsPacket last p`: `last` holds of the final flit of `p` and of no other one.
* `cut last xs`: the complete packets of the stream `xs`, and the flits behind them.
* `cut_flatten`: there is only one way to cut a stream.
-/

namespace GlipOsd.Packets
set_option autoImplicit false

variable {α : Type*} (last : α → Bool)

/-- No flit of `xs` ends a packet. -/
def Open (xs : List α) : Prop := ∀ x ∈ xs, last x = false

def IsPacket (p : List α) : Prop := ∃ body x, p = body ++ [x] ∧ Open last body ∧ last x = true

def cut : List α → List (List α) × List α
  | [] => ([], [])
  | x :: xs =>
    if last x then ([x] :: (cut xs).1, (cut xs).2)
    else
      match (cut xs).1 with
      | [] => ([], x :: (cut xs).2)
      | p :: ps => ((x :: p) :: ps, (cut xs).2)

variable {last}

theorem cut_open {xs : List α} (h : Open last xs) : cut last xs = ([], xs) := by
  induction xs with
  | nil => rfl
  | cons x xs ih =>
    have hrest := ih fun y hy => h y (List.mem_cons_of_mem x hy)
    have hx : ¬ last x = true := by
      rw [h x List.mem_cons_self]
      exact Bool.false_ne_true
    simp only [cut, hrest, if_neg hx]

theorem cut_packet_append {p : List α} (h : IsPacket last p) (xs : List α) :
    cut last (p ++ xs) = (p :: (cut last xs).1, (cut last xs).2) := by
  obtain ⟨body, x, rfl, hbody, hx⟩ := h
  induction body with
  | nil => simp only [List.nil_append, List.cons_append, cut, if_pos hx]
  | cons y body ih =>
    have hrest := ih fun z hz => hbody z (List.mem_cons_of_mem y hz)
    have hy : ¬ last y = true := by
      rw [hbody y List.mem_cons_self]
      exact Bool.false_ne_true
    simp only [List.cons_append, cut, if_neg hy, hrest]

/-- A stream begins with one packet only. -/
theorem IsPacket.unique {p q xs ys : List α} (hp : IsPacket last p) (hq : IsPacket last q) (h : p ++ xs = q ++ ys) :
    p = q := by
  have hcut := congrArg (fun s => (cut last s).1) h
  simp only [cut_packet_append hp, cut_packet_append hq] at hcut
  exact (List.cons.inj hcut).1

theorem cut_packets_append {ps : List (List α)} (hps : ∀ p ∈ ps, IsPacket last p) (xs : List α) :
    cut last (ps.flatten ++ xs) = (ps ++ (cut last xs).1, (cut last xs).2) := by
  induction ps with
  | nil => rfl
  | cons p ps ih =>
    rw [List.flatten_cons, List.append_assoc, cut_packet_append (hps p List.mem_cons_self),
      ih fun q hq => hps q (List.mem_cons_of_mem p hq)]
    rfl

theorem cut_flatten {ps : List (List α)} {rest : List α} (hps : ∀ p ∈ ps, IsPacket last p)
    (hrest : Open last rest) : cut last (ps.flatten ++ rest) = (ps, rest) := by
  rw [cut_packets_append hps, cut_open hrest, List.append_nil]

theorem cut_flatMap {β : Type*} {f : β → List α} {ys : List β} (h : ∀ p ∈ ys.map f, IsPacket last p) :
    cut last (ys.flatMap f) = (ys.map f, []) := by
  rw [List.flatMap_def, ← List.append_nil (ys.map f).flatten]
  exact cut_flatten h (by simp [Open])

variable (last)

theorem cut_spec (xs : List α) :
    xs = (cut last xs).1.flatten ++ (cut last xs).2 ∧ (∀ p ∈ (cut last xs).1, IsPacket last p) ∧
      Open last (cut last xs).2 := by
  induction xs with
  | nil => exact ⟨rfl, by simp [cut], by simp [cut, Open]⟩
  | cons x xs ih =>
    obtain ⟨hxs, hps, hrest⟩ := ih
    by_cases hx : last x = true
    · simp only [cut, if_pos hx]
      refine ⟨?_, ?_, hrest⟩
      · rw [List.flatten_cons, List.append_assoc, ← hxs]
        rfl
      · intro p hp
        obtain rfl | hp := List.mem_cons.mp hp
        · exact ⟨[], x, rfl, by simp [Open], hx⟩
        · exact hps p hp
    · simp only [cut, if_neg hx]
      cases hcut : (cut last xs).1 with
      | nil =>
        simp only
        refine ⟨?_, by simp, ?_⟩
        · rw [hcut] at hxs
          rw [List.flatten_nil, List.nil_append]
          rw [List.flatten_nil, List.nil_append] at hxs
          rw [← hxs]
        · intro y hy
          obtain rfl | hy := List.mem_cons.mp hy
          · exact Bool.eq_false_iff.mpr hx
          · exact hrest y hy
      | cons p ps =>
        rw [hcut] at hxs hps
        simp only
        refine ⟨?_, ?_, hrest⟩
        · rw [List.flatten_cons, List.append_assoc] at hxs ⊢
          rw [List.cons_append, ← hxs]
        · intro q hq
          obtain rfl | hq := List.mem_cons.mp hq
          · obtain ⟨body, z, rfl, hbody, hz⟩ := hps p List.mem_cons_self
            refine ⟨x :: body, z, rfl, ?_, hz⟩
            intro y hy
            obtain rfl | hy := List.mem_cons.mp hy
            · exact Bool.eq_false_iff.mpr hx
            · exact hbody y hy
          · exact hps q (List.mem_cons_of_mem p hq)

variable {last}

theorem cut_concat (xs : List α) (x : α) : cut last (xs ++ [x]) =
    if last x then ((cut last xs).1 ++ [(cut last xs).2 ++ [x]], [])
    else ((cut last xs).1, (cut last xs).2 ++ [x]) := by
  obtain ⟨hxs, hps, hrest⟩ := cut_spec last xs
  split_ifs with hx
  · have hpacket : IsPacket last ((cut last xs).2 ++ [x]) := ⟨_, x, rfl, hrest, hx⟩
    have hall : ∀ p ∈ (cut last xs).1 ++ [(cut last xs).2 ++ [x]], IsPacket last p := by
      intro p hp
      obtain hp | hp := List.mem_append.mp hp
      · exact hps p hp
      · exact List.mem_singleton.mp hp ▸ hpacket
    have hcut := cut_flatten hall (by simp [Open] : Open last [])
    rw [List.append_nil, List.flatten_append, List.flatten_singleton, ← List.append_assoc, ← hxs] at hcut
    exact hcut
  · have hopen : Open last ((cut last xs).2 ++ [x]) := by
      intro y hy
      obtain hy | hy := List.mem_append.mp hy
      · exact hrest y hy
      · exact List.mem_singleton.mp hy ▸ Bool.eq_false_iff.mpr hx
    have hcut := cut_flatten hps hopen
    rw [← List.append_assoc, ← hxs] at hcut
    exact hcut

theorem mem_of_mem_cut {xs p : List α} {x : α} (hp : p ∈ (cut last xs).1 ∨ p = (cut last xs).2)
    (hx : x ∈ p) : x ∈ xs := by
  rw [(cut_spec last xs).1]
  obtain hp | rfl := hp
  · exact List.mem_append_left _ (List.mem_flatten.mpr ⟨p, hp, hx⟩)
  · exact List.mem_append_right _ hx

/-- Behind the packets of the first part come those of the second, the first of which goes on with
the flits that are left over. -/
theorem cut_append (xs ys : List α) :
    (cut last (xs ++ ys)).1 = (cut last xs).1 ++ (cut last ((cut last xs).2 ++ ys)).1 := by
  obtain ⟨hxs, hps, -⟩ := cut_spec last xs
  obtain ⟨hys, hqs, hrest⟩ := cut_spec last ((cut last xs).2 ++ ys)
  have hall : ∀ p ∈ (cut last xs).1 ++ (cut last ((cut last xs).2 ++ ys)).1, IsPacket last p := by
    intro p hp
    obtain hp | hp := List.mem_append.mp hp
    · exact hps p hp
    · exact hqs p hp
  have hcut := cut_flatten hall hrest
  rw [List.flatten_append, List.append_assoc, ← hys, ← List.append_assoc, ← hxs] at hcut
  rw [hcut]

theorem cut_fst_prefix {xs ys : List α} (h : xs <+: ys) : (cut last xs).1 <+: (cut last ys).1 := by
  obtain ⟨zs, rfl⟩ := h
  rw [cut_append]
  exact List.prefix_append _ _

theorem cut_map {β : Type*} {last' : β → Bool} (f : α → β) (h : ∀ x, last' (f x) = last x)
    (xs : List α) :
    cut last' (xs.map f) = ((cut last xs).1.map (List.map f), (cut last xs).2.map f) := by
  induction xs with
  | nil => rfl
  | cons x xs ih =>
    rw [List.map_cons, cut, cut, ih, h]
    split_ifs
    · rfl
    · cases (cut last xs).1 <;> rfl

theorem cut_getLast (xs : List α) :
    (cut last xs).1.map List.getLast? = (xs.filter last).map some := by
  induction xs using List.reverseRecOn with
  | nil => rfl
  | append_singleton xs x ih =>
    rw [cut_concat, List.filter_append, List.map_append, ← ih]
    split_ifs with hx
    · rw [List.map_append, List.filter_singleton, hx]
      simp
    · rw [List.filter_singleton, Bool.eq_false_iff.mpr hx]
      simp

theorem cut_fst_eq_nil_iff (xs : List α) : (cut last xs).1 = [] ↔ xs.any last = false := by
  have h : ((cut last xs).1.map List.getLast?).length = _ := congrArg List.length (cut_getLast xs)
  rw [List.length_map, List.length_map] at h
  rw [← List.length_eq_zero_iff, h, List.length_eq_zero_iff, List.filter_eq_nil_iff, List.any_eq_false]

/-- The flits behind the last packet are fewer than those from any point before its end on. -/
theorem length_cut_snd_lt {xs ys : List α} (h : ys.any last = true) :
    (cut last (xs ++ ys)).2.length < ys.length := by
  obtain ⟨hxs, -, hopen⟩ := cut_spec last (xs ++ ys)
  by_contra hle
  have hsuffix : ys <:+ (cut last (xs ++ ys)).2 :=
    List.suffix_of_suffix_length_le ⟨xs, rfl⟩ ⟨_, hxs.symm⟩ (not_lt.mp hle)
  obtain ⟨y, hy, hlast⟩ := List.any_eq_true.mp h
  rw [hopen y (hsuffix.subset hy)] at hlast
  cases hlast

/-! ## The first packet -/

variable (last) in
/-- The first packet of a stream in which a packet is complete. -/
def first (xs : List α) : List α := (cut last xs).1.headD []

theorem first_packet_append {p : List α} (h : IsPacket last p) (xs : List α) :
    first last (p ++ xs) = p := by
  rw [first, cut_packet_append h]
  rfl

theorem cut_eq_first {xs : List α} (h : xs.any last = true) :
    ∃ ps, (cut last xs).1 = first last xs :: ps := by
  have hne : (cut last xs).1 ≠ [] := by
    rw [ne_eq, cut_fst_eq_nil_iff, h]
    exact Bool.noConfusion
  obtain ⟨p, ps, hcut⟩ := List.exists_cons_of_ne_nil hne
  exact ⟨ps, by rw [first, hcut, List.headD_cons]⟩

theorem first_append {xs : List α} (h : xs.any last = true) (ys : List α) :
    first last (xs ++ ys) = first last xs := by
  obtain ⟨ps, hcut⟩ := cut_eq_first h
  rw [first, cut_append, hcut]
  rfl

theorem first_spec {xs : List α} (h : xs.any last = true) :
    IsPacket last (first last xs) ∧ ∃ rest, xs = first last xs ++ rest := by
  obtain ⟨hxs, hps, -⟩ := cut_spec last xs
  obtain ⟨ps, hcut⟩ := cut_eq_first h
  rw [hcut] at hxs hps
  refine ⟨hps _ List.mem_cons_self, ps.flatten ++ (cut last xs).2, ?_⟩
  rw [← List.append_assoc, ← List.flatten_cons]
  exact hxs

theorem open_prefix_first {xs ys : List α} (hxs : Open last xs) (h : ys.any last = true) :
    xs <+: first last (xs ++ ys) := by
  have hany : (xs ++ ys).any last = true := by rw [List.any_append, h, Bool.or_true]
  obtain ⟨⟨body, x, hfirst, -, hx⟩, rest, heq⟩ := first_spec hany
  apply List.prefix_of_prefix_length_le (List.prefix_append xs ys) ⟨rest, heq.symm⟩
  by_contra hlt
  have hpre : first last (xs ++ ys) <+: xs :=
    List.prefix_of_prefix_length_le ⟨rest, heq.symm⟩ (List.prefix_append xs ys) (by omega)
  have hmem : x ∈ xs := hpre.subset (by rw [hfirst]; exact List.mem_append_right _ List.mem_cons_self)
  rw [hxs x hmem] at hx
  cases hx

/-- Flits without the end of a packet, in front of packets, are the front of the first packet. -/
theorem Open.prefix_head {xs : List α} {qs : List (List α)} (hxs : Open last xs) (hne : xs ≠ [])
    (hqs : ∀ q ∈ qs, IsPacket last q) (h : xs <+: qs.flatten) : ∃ q rest, qs = q :: rest ∧ xs <+: q := by
  cases qs with
  | nil => exact absurd (List.prefix_nil.mp h) hne
  | cons q rest =>
    obtain ⟨body, x, rfl, -, hx⟩ := hqs q List.mem_cons_self
    refine ⟨_, rest, rfl, ?_⟩
    rw [List.flatten_cons] at h
    by_contra hnot
    have hpre : body ++ [x] <+: xs :=
      (List.prefix_or_prefix_of_prefix (List.prefix_append _ _) h).resolve_right hnot
    rw [hxs x (hpre.subset (List.mem_append_right body List.mem_cons_self))] at hx
    cases hx

/-! ## Short packets -/

variable (last) in
/-- All packets of a stream, the one in progress included, have less than `n` flits. -/
def Shorter (n : ℕ) (xs : List α) : Prop :=
  (∀ p ∈ (cut last xs).1, p.length < n) ∧ (cut last xs).2.length < n

instance (n : ℕ) (xs : List α) : Decidable (Shorter last n xs) :=
  inferInstanceAs (Decidable ((∀ p ∈ (cut last xs).1, _) ∧ _))

theorem shorter_of_length {n : ℕ} {xs : List α} (h : xs.length < n) : Shorter last n xs := by
  obtain ⟨hsplit, -⟩ := cut_spec last xs
  have hlen := congrArg List.length hsplit
  rw [List.length_append] at hlen
  refine ⟨fun p hp => ?_, by omega⟩
  have hle := (List.sublist_flatten_of_mem hp).length_le
  omega

theorem Shorter.front {n : ℕ} {xs ys : List α} (h : Shorter last n ys) (hxs : xs <+: ys) :
    Shorter last n xs := by
  have hfst : (cut last xs).1 <+: (cut last ys).1 := cut_fst_prefix hxs
  obtain ⟨zs, rfl⟩ := hxs
  obtain ⟨hall, hrest⟩ := h
  refine ⟨fun p hp => hall p (hfst.subset hp), ?_⟩
  obtain ⟨hsplit, hpackets, hopen⟩ := cut_spec last xs
  have hcut := cut_packets_append hpackets ((cut last xs).2 ++ zs)
  rw [← List.append_assoc, ← hsplit] at hcut
  rw [hcut] at hall hrest
  -- the packet in progress is completed by what comes next, or not
  by_cases hany : zs.any last = true
  · have hfirst := open_prefix_first hopen hany
    have hany' : ((cut last xs).2 ++ zs).any last = true := by rw [List.any_append, hany, Bool.or_true]
    obtain ⟨qs, hqs⟩ := cut_eq_first hany'
    have hshort := hall (first last ((cut last xs).2 ++ zs))
      (List.mem_append_right _ (hqs ▸ List.mem_cons_self))
    exact hfirst.length_le.trans_lt hshort
  · have hopen' : Open last ((cut last xs).2 ++ zs) := by
      intro y hy
      obtain hy | hy := List.mem_append.mp hy
      · exact hopen y hy
      · exact Bool.eq_false_iff.mpr fun hlast => hany (List.any_eq_true.mpr ⟨y, hy, hlast⟩)
    rw [cut_open hopen', List.length_append] at hrest
    omega

end GlipOsd.Packets
