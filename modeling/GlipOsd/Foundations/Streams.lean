import GlipOsd.Foundations.Runs

/-! # Streams through a circuit

A circuit takes items in and gives items out, some in each cycle. `Flows held ins outs held'` says that nothing is
lost, doubled or put out of order: what leaves and what is held then is what was held before and what enters.

* `Flows.append`: one stretch of time behind another.
* `Flows.chain`: one circuit behind another.
* `Circuit.step`: a cycle, with all that has gone in and out so far.
* `Circuit.passes_flows`, `Circuit.passes_queue`: what flows in every cycle flows in every run.
* `Circuit.always_flows`, `Circuit.always_queue`: the same without a condition on the cycles.
-/

namespace GlipOsd.Streams
open Runs
set_option autoImplicit false

variable {σ ι α β γ : Type*}

def Flows (held ins outs held' : List γ) : Prop := outs ++ held' = held ++ ins

theorem Flows.append {held held' held'' xs xs' ys ys' : List γ} (h : Flows held xs ys held')
    (h' : Flows held' xs' ys' held'') : Flows held (xs ++ xs') (ys ++ ys') held'' := by
  unfold Flows at *
  rw [List.append_assoc, h', ← List.append_assoc, h, List.append_assoc]

theorem Flows.chain {held held' back back' xs ms ys : List γ} (h : Flows held xs ms held')
    (h' : Flows back ms ys back') : Flows (back ++ held) xs ys (back' ++ held') := by
  unfold Flows at *
  rw [← List.append_assoc, h', List.append_assoc, h, List.append_assoc]

/-- The registers, and what goes in and out in a cycle. -/
structure Circuit (σ ι α β : Type*) where
  next : σ → ι → σ
  ins : σ → ι → List α
  outs : σ → ι → List β

/-- The registers, and what has gone in and out so far. -/
structure Seen (σ α β : Type*) where
  state : σ
  ins : List α
  outs : List β

def start (s : σ) : Seen σ α β := ⟨s, [], []⟩

/-- What has gone in and not yet out, of a circuit that gives its items out as they are. -/
def Seen.inside (t : Seen σ α α) : List α := t.ins.drop t.outs.length

theorem Seen.inside_eq {t : Seen σ α α} {xs : List α} (h : t.ins = t.outs ++ xs) : t.inside = xs := by
  rw [inside, h, List.drop_left]

variable (c : Circuit σ ι α β)

def Circuit.step (t : Seen σ α β) (i : ι) : Option (Seen σ α β) :=
  some ⟨c.next t.state i, t.ins ++ c.ins t.state i, t.outs ++ c.outs t.state i⟩

/-- The run rule. `F` and `G` say what the items are made of that go in and come out. -/
theorem Circuit.passes_flows (Inv : σ → Prop) (C : σ → ι → Prop) (held : σ → List γ) (F : α → List γ) (G : β → List γ)
    (h : ∀ s i, Inv s → C s i → Inv (c.next s i) ∧
      Flows (held s) ((c.ins s i).flatMap F) ((c.outs s i).flatMap G) (held (c.next s i)))
    {t : Seen σ α β} (hinv : Inv t.state) (hflow : t.ins.flatMap F = t.outs.flatMap G ++ held t.state) {is : List ι}
    (hc : Takes c.step (fun t i => C t.state i) t is) :
    Passes c.step (fun t => Inv t.state ∧ t.ins.flatMap F = t.outs.flatMap G ++ held t.state) t is := by
  refine hc.passes ?_ ⟨hinv, hflow⟩
  rintro s i s' ⟨hs, hflow⟩ hc hstep
  obtain rfl := Option.some.inj hstep
  obtain ⟨hnext, hcycle⟩ := h s.state i hs hc
  refine ⟨hnext, ?_⟩
  have hso : Flows [] (s.ins.flatMap F) (s.outs.flatMap G) (held s.state) := hflow.symm
  simp only [List.flatMap_append]
  exact (hso.append hcycle).symm

/-- The run rule for a circuit that gives its items out as they are. -/
theorem Circuit.passes_queue (c : Circuit σ ι α α) (Inv : σ → Prop) (C : σ → ι → Prop) (held : σ → List α)
    (h : ∀ s i, Inv s → C s i → Inv (c.next s i) ∧ Flows (held s) (c.ins s i) (c.outs s i) (held (c.next s i)))
    {t : Seen σ α α} (hinv : Inv t.state) (hflow : t.ins = t.outs ++ held t.state) {is : List ι}
    (hc : Takes c.step (fun t i => C t.state i) t is) :
    Passes c.step (fun t => Inv t.state ∧ t.ins = t.outs ++ held t.state) t is := by
  have hruns := c.passes_flows Inv C held (fun x => [x]) (fun x => [x])
    (by simpa only [List.flatMap_singleton'] using h) hinv (by simpa only [List.flatMap_singleton'] using hflow) hc
  simpa only [List.flatMap_singleton'] using hruns

/-! Without a condition on the cycles, and from registers that hold nothing. -/

theorem Circuit.always_flows (Inv : σ → Prop) (held : σ → List γ) (F : α → List γ) (G : β → List γ)
    (h : ∀ s i, Inv s → Inv (c.next s i) ∧
      Flows (held s) ((c.ins s i).flatMap F) ((c.outs s i).flatMap G) (held (c.next s i)))
    {s : σ} (hinv : Inv s) (hheld : held s = []) (is : List ι) :
    Passes c.step (fun t => Inv t.state ∧ t.ins.flatMap F = t.outs.flatMap G ++ held t.state) (start s) is := by
  have hall : Takes c.step (fun _ _ => True) (start s) is := takes_of_labels (fun _ _ _ => trivial) _
  have hflow : (start s : Seen σ α β).ins.flatMap F = (start s : Seen σ α β).outs.flatMap G ++ held s := hheld.symm
  exact c.passes_flows Inv (fun _ _ => True) held F G (fun s i hs _ => h s i hs) hinv hflow hall

theorem Circuit.always_queue (c : Circuit σ ι α α) (Inv : σ → Prop) (held : σ → List α)
    (h : ∀ s i, Inv s → Inv (c.next s i) ∧ Flows (held s) (c.ins s i) (c.outs s i) (held (c.next s i)))
    {s : σ} (hinv : Inv s) (hheld : held s = []) (is : List ι) :
    Passes c.step (fun t => Inv t.state ∧ t.ins = t.outs ++ held t.state) (start s) is := by
  have hall : Takes c.step (fun _ _ => True) (start s) is := takes_of_labels (fun _ _ _ => trivial) _
  have hflow : (start s : Seen σ α α).ins = (start s : Seen σ α α).outs ++ held s := hheld.symm
  exact c.passes_queue Inv (fun _ _ => True) held (fun s i hs _ => h s i hs) hinv hflow hall

end GlipOsd.Streams
