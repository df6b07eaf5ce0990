import GlipOsd.Foundations.Packets

/-! # Packets that carry a tag

Streams of flits whose packets are not interleaved: between the first and the last flit of a packet
every flit has the tag of the packet. The state between two flits is the tag of the packet in
progress, if there is one.

* `Worms u xs`: the stream `xs` goes on behind a packet in progress `u`.
* `opened u xs`: the packet in progress behind it.
* `worms_filter`: the packets with some of the tags are a stream of this kind.
* `cut_filter`: and are the same packets.
-/

namespace GlipOsd.Packets
set_option autoImplicit false

variable {α τ : Type*} (last : α → Bool) (tag : α → τ) (starts : α → Prop)

def after (x : α) : Option τ := if last x then none else some (tag x)

def opened (u : Option τ) (xs : List α) : Option τ := xs.foldl (fun _ x => after last tag x) u

/-- `x` may follow: it starts a packet, or goes on with the one in progress. -/
def Continues : Option τ → α → Prop
  | none, x => starts x
  | some t, x => tag x = t

def Worms : Option τ → List α → Prop
  | _, [] => True
  | u, x :: xs => Continues tag starts u x ∧ Worms (after last tag x) xs

variable {last tag starts}

@[simp] theorem opened_nil (u : Option τ) : opened last tag u [] = u := rfl

@[simp] theorem opened_cons (u : Option τ) (x : α) (xs : List α) :
    opened last tag u (x :: xs) = opened last tag (after last tag x) xs := rfl

theorem opened_append (u : Option τ) (xs ys : List α) :
    opened last tag u (xs ++ ys) = opened last tag (opened last tag u xs) ys := List.foldl_append

@[simp] theorem worms_nil (u : Option τ) : Worms last tag starts u [] := trivial

@[simp] theorem worms_cons (u : Option τ) (x : α) (xs : List α) :
    Worms last tag starts u (x :: xs) ↔
      Continues tag starts u x ∧ Worms last tag starts (after last tag x) xs := Iff.rfl

theorem worms_append (u : Option τ) (xs ys : List α) : Worms last tag starts u (xs ++ ys) ↔
    Worms last tag starts u xs ∧ Worms last tag starts (opened last tag u xs) ys := by
  induction xs generalizing u with
  | nil => simp
  | cons x xs ih => simp only [List.cons_append, worms_cons, ih, opened_cons, and_assoc]

theorem worms_singleton (u : Option τ) (x : α) :
    Worms last tag starts u [x] ↔ Continues tag starts u x := by simp

theorem opened_singleton (u : Option τ) (x : α) : opened last tag u [x] = after last tag x := rfl

/-! ## Some of the tags -/

theorem filter_after (p : τ → Bool) (x : α) : (after last tag x).filter p =
    if p (tag x) then after last tag x else none := by
  unfold after
  split_ifs with hl hp hp
  · rfl
  · rfl
  · rw [Option.filter_some, if_pos hp]
  · rw [Option.filter_some, if_neg hp]

/-- A flit that is left out belongs to no packet in progress that is kept. -/
theorem filter_of_continues {p : τ → Bool} {u : Option τ} {x : α} (h : Continues tag starts u x)
    (hx : ¬ p (tag x) = true) : u.filter p = none := by
  cases u with
  | none => rfl
  | some t =>
    obtain rfl : tag x = t := h
    rw [Option.filter_some, if_neg hx]

theorem continues_filter {p : τ → Bool} {u : Option τ} {x : α} (h : Continues tag starts u x)
    (hx : p (tag x) = true) : Continues tag starts (u.filter p) x := by
  cases u with
  | none => exact h
  | some t =>
    obtain rfl : tag x = t := h
    rw [Option.filter_some, if_pos hx]
    exact rfl

theorem worms_filter (p : τ → Bool) {u : Option τ} {xs : List α} (h : Worms last tag starts u xs) :
    Worms last tag starts (u.filter p) (xs.filter fun x => p (tag x)) ∧
      opened last tag (u.filter p) (xs.filter fun x => p (tag x)) =
        (opened last tag u xs).filter p := by
  induction xs generalizing u with
  | nil => exact ⟨trivial, rfl⟩
  | cons x xs ih =>
    obtain ⟨hx, hxs⟩ := h
    obtain ⟨hw, ho⟩ := ih hxs
    rw [filter_after] at hw ho
    by_cases hp : p (tag x) = true
    · rw [if_pos hp] at hw ho
      rw [List.filter_cons_of_pos (p := fun x => p (tag x)) hp]
      exact ⟨⟨continues_filter hx hp, hw⟩, ho⟩
    · rw [if_neg hp] at hw ho
      rw [List.filter_cons_of_neg (p := fun x => p (tag x)) hp, filter_of_continues hx hp]
      exact ⟨hw, ho⟩

/-! ## The packets of a stream -/

/-- All flits of a packet have the tag of the first one, which starts it. -/
def Tagged (tag : α → τ) (starts : α → Prop) (p : List α) : Prop :=
  ∃ x xs, p = x :: xs ∧ starts x ∧ ∀ y ∈ xs, tag y = tag x

theorem Tagged.append {p : List α} (h : Tagged tag starts p) {y : α}
    (hy : p.head?.map tag = some (tag y)) : Tagged tag starts (p ++ [y]) := by
  obtain ⟨x, xs, rfl, hx, hxs⟩ := h
  refine ⟨x, xs ++ [y], rfl, hx, fun z hz => ?_⟩
  obtain hz | hz := List.mem_append.mp hz
  · exact hxs z hz
  · rw [List.mem_singleton.mp hz]
    exact (Option.some.inj hy).symm

/-- The packets are not interleaved, and the flits behind them are those of the packet in progress. -/
theorem tagged_cut {xs : List α} (h : Worms last tag starts none xs) :
    (∀ p ∈ (cut last xs).1, Tagged tag starts p) ∧
      ((cut last xs).2 ≠ [] → Tagged tag starts (cut last xs).2) ∧
      opened last tag none xs = (cut last xs).2.head?.map tag := by
  induction xs using List.reverseRecOn with
  | nil => simp [cut]
  | append_singleton xs x ih =>
    obtain ⟨hxs, hx⟩ := (worms_append none xs [x]).mp h
    rw [worms_singleton] at hx
    obtain ⟨hps, hrest, hopen⟩ := ih hxs
    -- the packet in progress with the new flit
    have hnew : Tagged tag starts ((cut last xs).2 ++ [x]) := by
      rw [hopen] at hx
      cases hcut : (cut last xs).2 with
      | nil =>
        rw [hcut] at hx
        exact ⟨x, [], rfl, hx, by simp⟩
      | cons y ys =>
        rw [hcut] at hx hrest
        exact (hrest (by simp)).append (congrArg some (Eq.symm hx))
    rw [cut_concat, opened_append, opened_singleton, after]
    split_ifs with hl
    · refine ⟨fun p hp => ?_, fun hne => absurd rfl hne, rfl⟩
      obtain hp | hp := List.mem_append.mp hp
      · exact hps p hp
      · exact List.mem_singleton.mp hp ▸ hnew
    · refine ⟨hps, fun _ => hnew, ?_⟩
      obtain ⟨y, ys, heq, -, hys⟩ := hnew
      rw [heq, List.head?_cons, Option.map_some]
      have hmem : x ∈ y :: ys := heq ▸ List.mem_append_right _ List.mem_cons_self
      obtain rfl | hmem := List.mem_cons.mp hmem
      · rfl
      · rw [hys x hmem]

/-- The packets whose first flit satisfies `p`. -/
def packetsWith (last : α → Bool) (p : α → Bool) (xs : List α) : List (List α) :=
  (cut last xs).1.filter fun packet => packet.head?.any p

theorem Tagged.filter {packet : List α} (h : Tagged tag starts packet) (p : τ → Bool) :
    packet.filter (fun x => p (tag x)) =
      if packet.head?.any (fun x => p (tag x)) then packet else [] := by
  obtain ⟨x, xs, rfl, -, hxs⟩ := h
  rw [List.head?_cons, Option.any_some]
  split_ifs with hp
  · refine List.filter_eq_self.mpr fun y hy => ?_
    obtain rfl | hy := List.mem_cons.mp hy
    · exact hp
    · rw [hxs y hy]
      exact hp
  · refine List.filter_eq_nil_iff.mpr fun y hy => ?_
    obtain rfl | hy := List.mem_cons.mp hy
    · exact hp
    · rw [hxs y hy]
      exact hp

theorem cut_filter_eq {xs : List α} (h : Worms last tag starts none xs) (p : τ → Bool) :
    cut last (xs.filter fun x => p (tag x)) =
      (packetsWith last (fun x => p (tag x)) xs, (cut last xs).2.filter fun x => p (tag x)) := by
  obtain ⟨hps, hrest, -⟩ := tagged_cut h
  obtain ⟨hxs, hpackets, hopen⟩ := cut_spec last xs
  have hflatten : ∀ ps : List (List α), (∀ q ∈ ps, Tagged tag starts q) →
      ps.flatten.filter (fun x => p (tag x)) =
        (ps.filter fun q => q.head?.any fun x => p (tag x)).flatten := by
    intro ps hq
    induction ps with
    | nil => rfl
    | cons q ps ih =>
      rw [List.flatten_cons, List.filter_append, ih fun r hr => hq r (List.mem_cons_of_mem q hr),
        (hq q List.mem_cons_self).filter p, List.filter_cons]
      split_ifs <;> rfl
  have hsplit : xs.filter (fun x => p (tag x)) =
      ((cut last xs).1.filter fun q => q.head?.any fun x => p (tag x)).flatten ++
        (cut last xs).2.filter (fun x => p (tag x)) := by
    conv_lhs => rw [hxs]
    rw [List.filter_append, hflatten _ hps]
  rw [hsplit, cut_flatten (fun q hq => hpackets q (List.mem_of_mem_filter hq))
    (fun x hx => hopen x (List.mem_of_mem_filter hx))]
  rfl

theorem cut_filter {xs : List α} (h : Worms last tag starts none xs) (p : τ → Bool) :
    (cut last (xs.filter fun x => p (tag x))).1 = packetsWith last (fun x => p (tag x)) xs := by
  rw [cut_filter_eq h p]

section Images
variable {β : Type*} {last' : β → Bool} {f : α → β} {p : τ → Bool} {p' : β → Bool} {q : List α} {qs : List (List β)}

/-- The first flit of a packet tells whether the packet has one of the tags. -/
theorem Tagged.head_map (hq : Tagged tag starts q) (hp : ∀ x ∈ q, starts x → p' (f x) = p (tag x)) :
    (q.map f).head?.any p' = q.head?.any fun x => p (tag x) := by
  obtain ⟨x, ys, rfl, hx, -⟩ := hq
  exact hp x List.mem_cons_self hx

/-- The packet in progress. -/
theorem Tagged.filter_open (hq : Tagged tag starts q) (hf : ∀ x, last' (f x) = last x) (hopen : Open last q)
    (hp : ∀ x ∈ q, starts x → p' (f x) = p (tag x)) (hqs : ∀ r ∈ qs, IsPacket last' r) (hpre : q.map f <+: qs.flatten) :
    (q.filter fun x => p (tag x)).map f <+: (qs.filter fun r => r.head?.any p').flatten := by
  have hopen' : Open last' (q.map f) := by
    intro y hy
    obtain ⟨x, hx, rfl⟩ := List.mem_map.mp hy
    rw [hf]
    exact hopen x hx
  have hne : q.map f ≠ [] := by
    obtain ⟨x, xs, rfl, -⟩ := hq
    exact List.cons_ne_nil _ _
  obtain ⟨r, rest, rfl, hr⟩ := hopen'.prefix_head hne hqs hpre
  have hheads : r.head?.any p' = q.head?.any fun x => p (tag x) := by
    rw [← hq.head_map hp]
    obtain ⟨x, xs, rfl, -⟩ := hq
    obtain ⟨more, rfl⟩ := hr
    rfl
  rw [hq.filter p, List.filter_cons, hheads]
  split_ifs
  · rw [List.flatten_cons]
    exact hr.trans (List.prefix_append _ _)
  · exact List.nil_prefix

end Images

/-- What has arrived of a stream of packets, with some of the tags, has arrived of the packets with these tags. -/
theorem filter_prefix {β : Type*} {last' : β → Bool} {xs : List α} (h : Worms last tag starts none xs)
    (f : α → β) (hf : ∀ x, last' (f x) = last x) {p : τ → Bool} {p' : β → Bool}
    (hp : ∀ x ∈ xs, starts x → p' (f x) = p (tag x)) {qs : List (List β)}
    (hqs : ∀ q ∈ qs, IsPacket last' q) (hpre : xs.map f <+: qs.flatten) :
    (xs.filter fun x => p (tag x)).map f <+: (qs.filter fun q => q.head?.any p').flatten := by
  obtain ⟨hall, hrest, -⟩ := tagged_cut h
  obtain ⟨hxs, -, hopen⟩ := cut_spec last xs
  -- the whole packets, and the packet in progress
  obtain ⟨qs', hsplit⟩ : (cut last xs).1.map (List.map f) <+: qs := by
    have hcut : (cut last' (xs.map f)).1 <+: (cut last' qs.flatten).1 := cut_fst_prefix hpre
    have hnil : Open last' ([] : List β) := by simp [Open]
    have hflatten := cut_flatten hqs hnil
    rw [List.append_nil] at hflatten
    rwa [cut_map f hf, hflatten] at hcut
  have hbehind : ((cut last xs).2.map f) <+: qs'.flatten := by
    rw [← hsplit, List.flatten_append, ← List.map_flatten] at hpre
    conv at hpre => lhs; rw [hxs]
    rwa [List.map_append, List.prefix_append_right_inj] at hpre
  have hwhole : ((cut last xs).1.map (List.map f)).filter (fun q => q.head?.any p') =
      (packetsWith last (fun x => p (tag x)) xs).map (List.map f) := by
    rw [List.filter_map, packetsWith]
    congr 1
    exact List.filter_congr fun q hq => (hall q hq).head_map fun x hx => hp x (mem_of_mem_cut (.inl hq) hx)
  have hfilter : xs.filter (fun x => p (tag x)) = (packetsWith last (fun x => p (tag x)) xs).flatten ++
      (cut last xs).2.filter fun x => p (tag x) := by
    have heq := (cut_spec last (xs.filter fun x => p (tag x))).1
    rwa [cut_filter_eq h p] at heq
  rw [hfilter, List.map_append, List.map_flatten, ← hwhole, ← hsplit, List.filter_append, List.flatten_append,
    List.prefix_append_right_inj]
  by_cases hnone : (cut last xs).2 = []
  · rw [hnone]
    exact List.nil_prefix
  · exact (hrest hnone).filter_open hf hopen (fun x hx => hp x (mem_of_mem_cut (.inr rfl) hx))
      (fun q hq => hqs q (by rw [← hsplit]; exact List.mem_append_right _ hq)) hbehind

end GlipOsd.Packets
