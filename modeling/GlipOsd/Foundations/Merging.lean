import GlipOsd.Foundations.Packets

/-! # Streams that are merged packet by packet

`Merges last lock ins out` says that the stream `out` is made of the packets of the two streams `ins`: one whole
packet behind the other, those of each side complete and in order. Behind them is the packet in progress of the side
that holds the lock; without a lock there is none.

* `Merges.bind`: a side takes the lock.
* `Merges.take`: the next flit comes from the side that has the lock or takes it.
* `Merges.filter`: the packets of one side, when they can be told from those of the other one.
-/

namespace GlipOsd.Packets
set_option autoImplicit false

variable {α : Type*} (last : α → Bool)

/-- The packets of one side. -/
def ofSide (ms : List (Bool × List α)) (side : Bool) : List (List α) :=
  (ms.filter fun m => m.1 == side).map Prod.snd

structure Merges (lock : Option Bool) (ins : Bool → List α) (out : List α) : Prop where
  packets : ∃ ms : List (Bool × List α), (cut last out).1 = ms.map Prod.snd ∧
    ∀ side, (cut last (ins side)).1 = ofSide ms side
  others : ∀ side, lock ≠ some side → (cut last (ins side)).2 = []
  own : ∀ side, lock = some side → (cut last out).2 = (cut last (ins side)).2
  free : lock = none → (cut last out).2 = []

variable {last}

theorem merges_nil : Merges last none (fun _ => []) [] :=
  ⟨⟨[], rfl, fun _ => rfl⟩, fun _ _ => rfl, nofun, fun _ => rfl⟩

theorem ofSide_concat (ms : List (Bool × List α)) (own side : Bool) (p : List α) :
    ofSide (ms ++ [(own, p)]) side = if own = side then ofSide ms side ++ [p] else ofSide ms side := by
  unfold ofSide
  rw [List.filter_append, List.map_append]
  by_cases h : own = side
  · rw [if_pos h, List.filter_cons_of_pos (by simpa using h)]
    rfl
  · rw [if_neg h, List.filter_cons_of_neg (by simpa using h)]
    exact List.append_nil _

section Steps
variable {lock : Option Bool} {ins : Bool → List α} {out : List α} {side : Bool}

theorem Merges.bind (h : Merges last none ins out) (side : Bool) : Merges last (some side) ins out where
  packets := h.packets
  others other _ := h.others other nofun
  own other _ := by rw [h.free rfl, h.others other nofun]
  free := nofun

theorem Merges.open_eq (h : Merges last lock ins out) (hlock : lock = none ∨ lock = some side) :
    (cut last out).2 = (cut last (ins side)).2 := by
  obtain rfl | rfl := hlock
  · rw [h.free rfl, h.others side nofun]
  · exact h.own side rfl

theorem Merges.take (h : Merges last lock ins out) (hlock : lock = none ∨ lock = some side) (f : α) :
    Merges last (if last f then none else some side) (Function.update ins side (ins side ++ [f])) (out ++ [f]) := by
  obtain ⟨ms, hms, hsides⟩ := h.packets
  have hopen := h.open_eq hlock
  have hothers (other : Bool) (hne : other ≠ side) : (cut last (ins other)).2 = [] := by
    refine h.others other ?_
    rintro rfl
    obtain hlock | hlock := hlock
    · cases hlock
    · exact hne (Option.some.inj hlock)
  have hupdate (other : Bool) : Function.update ins side (ins side ++ [f]) other =
      if other = side then ins side ++ [f] else ins other := by
    by_cases hne : other = side
    · rw [if_pos hne, hne, Function.update_self]
    · rw [if_neg hne, Function.update_of_ne hne]
  by_cases hf : last f = true
  · -- the packet is complete on both ends
    rw [if_pos hf]
    refine ⟨⟨ms ++ [(side, (cut last (ins side)).2 ++ [f])], ?_, fun other => ?_⟩, fun other _ => ?_, nofun, fun _ => ?_⟩
    · rw [cut_concat, if_pos hf, List.map_append, hms, hopen]
      rfl
    · rw [hupdate, ofSide_concat]
      by_cases hne : other = side
      · rw [if_pos hne, if_pos hne.symm, cut_concat, if_pos hf, hsides side, hne]
      · rw [if_neg hne, if_neg fun e => hne e.symm, hsides other]
    · rw [hupdate]
      split_ifs with hne
      · rw [cut_concat, if_pos hf]
      · exact hothers other hne
    · rw [cut_concat, if_pos hf]
  · rw [if_neg hf]
    refine ⟨⟨ms, ?_, fun other => ?_⟩, fun other hne => ?_, fun other heq => ?_, nofun⟩
    · rw [cut_concat, if_neg hf, hms]
    · rw [hupdate]
      split_ifs with hne
      · rw [cut_concat, if_neg hf, hsides side, hne]
      · exact hsides other
    · have hne' : other ≠ side := fun e => hne (congrArg some e.symm)
      rw [hupdate, if_neg hne']
      exact hothers other hne'
    · obtain rfl := Option.some.inj heq
      rw [hupdate, if_pos rfl, cut_concat, cut_concat, if_neg hf, if_neg hf, hopen]

end Steps

theorem filter_ofSide (ms : List (Bool × List α)) {p : List α → Bool} {side : Bool}
    (hp : ∀ m ∈ ms, p m.2 = (m.1 == side)) : (ms.map Prod.snd).filter p = ofSide ms side := by
  rw [ofSide, List.filter_map]
  congr 1
  exact List.filter_congr fun m hm => hp m hm

theorem Merges.filter {lock : Option Bool} {ins : Bool → List α} {out : List α} (h : Merges last lock ins out)
    {p : List α → Bool} {side : Bool} (hp : ∀ other, ∀ q ∈ (cut last (ins other)).1, p q = (other == side)) :
    (cut last out).1.filter p = (cut last (ins side)).1 := by
  obtain ⟨ms, hms, hsides⟩ := h.packets
  rw [hms, hsides side]
  refine filter_ofSide ms fun m hm => hp m.1 m.2 ?_
  rw [hsides m.1]
  exact List.mem_map.mpr ⟨m, List.mem_filter.mpr ⟨hm, beq_self_eq_true m.1⟩, rfl⟩

end GlipOsd.Packets
