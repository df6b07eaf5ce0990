import GlipOsd.Ring.Worms

/-! # Delivery

Every flit leaves the line at the first stage, behind the one it was injected at, whose router is the
destination of its packet. The flits of one source for one destination never overtake each other, so
that what was injected is what was delivered and, behind it, what is stored on the way.
-/

namespace GlipOsd.Ring
open Packets Runs
set_option autoImplicit false

/-- Where flits can be: not before the stage they were injected at, and not behind one they leave the
line at. -/
structure Located (PORTS : ℕ) (s : State) : Prop where
  stored : ∀ k < 2 * PORTS, ∀ f ∈ stored PORTS s k,
    f.source < PORTS ∧ f.source ≤ k ∧ ∀ m, f.source < m → m ≤ k → leaves PORTS m f.tag = false
  delivered : ∀ i < PORTS, ∀ f ∈ s.delivered i, f.source < PORTS ∧ f.dest = routerId i
  injected : ∀ i, ∀ f ∈ s.injected i, f.source = i

variable {PORTS BUFFER_SIZE : ℕ} {s : State} {inp : Input} {u : ℕ → Option Tag}

theorem stored_initial (data0 data1 : ℕ → List Flit) (k : ℕ) :
    stored PORTS (initial data0 data1) k = [] := by
  unfold stored stageBuffer
  split_ifs <;> rfl

theorem located_initial (data0 data1 : ℕ → List Flit) : Located PORTS (initial data0 data1) where
  stored k _ f hf := by
    rw [stored_initial] at hf
    cases hf
  delivered _ _ _ hf := nomatch hf
  injected _ _ hf := nomatch hf

theorem mem_flow_succ (h : Line PORTS BUFFER_SIZE s u) {k : ℕ} (hk : k < 2 * PORTS) {f : Flit}
    (hf : f ∈ flow PORTS BUFFER_SIZE s inp (k + 1)) : f ∈ stored PORTS s k := by
  obtain ⟨rfl, hv, -⟩ := Flit.mem_transfer hf
  rw [link_succ hk] at hv ⊢
  rw [stored, (h.wf k hk).queue_eq hv]
  exact List.mem_cons_self

section Located
variable (hl : Located PORTS s) (h : Line PORTS BUFFER_SIZE s u) (hP : 1 ≤ PORTS)
include hl h hP

/-- The flits on link `k` were injected before stage `k` and leave the line at no stage before it. -/
theorem Located.flow {k : ℕ} (hk : k < 2 * PORTS) {f : Flit}
    (hf : f ∈ flow PORTS BUFFER_SIZE s inp k) :
    f.source < PORTS ∧ f.source < k ∧ ∀ m, f.source < m → m < k → leaves PORTS m f.tag = false := by
  cases k with
  | zero =>
    rw [flow_zero hP] at hf
    cases hf
  | succ k =>
    obtain ⟨hsource, hle, hpast⟩ := hl.stored k (by omega) f (mem_flow_succ h (by omega) hf)
    exact ⟨hsource, by omega, fun m hm hmk => hpast m hm (by omega)⟩

theorem Located.entering {k : ℕ} (hk : k < 2 * PORTS) {f : Flit}
    (hf : f ∈ entering PORTS BUFFER_SIZE s inp k) :
    f.source < PORTS ∧ f.source ≤ k ∧ ∀ m, f.source < m → m ≤ k → leaves PORTS m f.tag = false := by
  have hpassing : f ∈ (Ring.flow PORTS BUFFER_SIZE s inp k).filter (fun f => !leaves PORTS k f.tag) →
      f.source < PORTS ∧ f.source ≤ k ∧
        ∀ m, f.source < m → m ≤ k → leaves PORTS m f.tag = false := by
    intro hf
    obtain ⟨hf, hk'⟩ := List.mem_filter.mp hf
    obtain ⟨hsource, hlt, hpast⟩ := hl.flow h hP hk hf
    refine ⟨hsource, hlt.le, fun m hm hmk => ?_⟩
    obtain hmk | rfl := Nat.lt_or_eq_of_le hmk
    · exact hpast m hm hmk
    · simpa using hk'
  obtain hk | ⟨i, hi, rfl⟩ := stage_cases hk
  · rw [h.entering_fst hP hk] at hf
    obtain hf | hf := List.mem_append.mp hf
    · exact hpassing hf
    · obtain ⟨rfl, -⟩ := Flit.mem_transfer hf
      exact ⟨hk, Nat.le_refl k, fun m hm hmk => absurd hm (Nat.not_lt.mpr hmk)⟩
  · rw [h.entering_snd hP hi] at hf
    exact hpassing hf

theorem Located.next (inp : Input) (hB : 2 ≤ BUFFER_SIZE) :
    Located PORTS (next PORTS BUFFER_SIZE s inp) where
  stored k hk f hf := by
    have hmem := List.mem_append_right (Ring.flow PORTS BUFFER_SIZE s inp (k + 1)) hf
    rw [(stored_next inp hB hk (h.wf k hk)).2] at hmem
    obtain hf | hf := List.mem_append.mp hmem
    · exact hl.stored k hk f hf
    · exact hl.entering h hP hk hf
  delivered i hi f hf := by
    rw [delivered_next, h.delivering_eq hP hi] at hf
    obtain hf | hf := List.mem_append.mp hf
    · exact hl.delivered i hi f hf
    obtain hf | hf := List.mem_append.mp hf
    · obtain ⟨hf, hleaves⟩ := List.mem_filter.mp hf
      rw [leaves, port_fst hi] at hleaves
      exact ⟨(hl.flow h hP (by omega) hf).1, beq_iff_eq.mp hleaves⟩
    · obtain ⟨hf, hleaves⟩ := List.mem_filter.mp hf
      rw [leaves, port_snd] at hleaves
      exact ⟨(hl.flow h hP (by omega) hf).1, beq_iff_eq.mp hleaves⟩
  injected i f hf := by
    rw [injected_next] at hf
    obtain hf | hf := List.mem_append.mp hf
    · exact hl.injected i f hf
    · obtain ⟨rfl, -⟩ := Flit.mem_transfer hf
      rfl

end Located

/-! ## One source and one destination -/

def ofTag (t : Tag) (xs : List Flit) : List Flit := xs.filter fun f => f.tag = t

theorem ofTag_append (t : Tag) (xs ys : List Flit) : ofTag t (xs ++ ys) = ofTag t xs ++ ofTag t ys :=
  List.filter_append xs ys

theorem ofTag_eq_nil {t : Tag} {xs : List Flit} (h : ∀ f ∈ xs, f.tag ≠ t) : ofTag t xs = [] :=
  List.filter_eq_nil_iff.mpr fun f hf => by simpa using h f hf

/-- All flits with tag `t` go a way that is open to this tag, and none a way that is not. -/
theorem ofTag_filter (t : Tag) (p : Tag → Bool) (xs : List Flit) :
    ofTag t (xs.filter fun f => p f.tag) = if p t then ofTag t xs else [] := by
  unfold ofTag
  rw [List.filter_filter]
  split_ifs with hp
  · refine List.filter_congr fun f _ => ?_
    by_cases hf : f.tag = t
    · simp [hf, hp]
    · simp [hf]
  · refine List.filter_eq_nil_iff.mpr fun f _ => ?_
    simp only [Bool.and_eq_true, decide_eq_true_eq]
    rintro ⟨rfl, h⟩
    exact hp h

/-- The flits with tag `t` in the stages before stage `n`, oldest first. -/
def onTheWay (PORTS : ℕ) (s : State) (t : Tag) : ℕ → List Flit
  | 0 => []
  | n + 1 => ofTag t (stored PORTS s n) ++ onTheWay PORTS s t n

/-- The stage where the packets from `j` to `i` leave the line. -/
def exitStage (PORTS j i : ℕ) : ℕ := if j < i then i else PORTS + i

theorem routerId_inj {i j : ℕ} (hi : i < 1024) (hj : j < 1024) (h : routerId i = routerId j) :
    i = j := by
  have hnat := congrArg BitVec.toNat h
  simp only [routerId, BitVec.toNat_ofNat] at hnat
  omega

theorem lt_exitStage {i j : ℕ} (hj : j < PORTS) : j < exitStage PORTS j i := by
  unfold exitStage
  split_ifs <;> omega

section Exit
variable {i j : ℕ} (hi : i < PORTS)
include hi

theorem exitStage_lt : exitStage PORTS j i < 2 * PORTS := by
  unfold exitStage
  split_ifs <;> omega

theorem port_exitStage : port PORTS (exitStage PORTS j i) = i := by
  unfold exitStage
  split_ifs
  · exact port_fst hi
  · exact port_snd

theorem leaves_exit : leaves PORTS (exitStage PORTS j i) (j, routerId i) = true := by
  rw [leaves, port_exitStage hi]
  exact beq_self_eq_true _

theorem not_leaves_of_lt (hmax : PORTS ≤ 1024) {k : ℕ} (hjk : j < k)
    (hk : k < exitStage PORTS j i) : leaves PORTS k (j, routerId i) = false := by
  have hexit := exitStage_lt (j := j) hi
  have hport : port PORTS k < PORTS ∧ port PORTS k ≠ i := by
    unfold exitStage at hk
    obtain h | ⟨m, hm, rfl⟩ := stage_cases (hk.trans hexit)
    · rw [port_fst h]
      split_ifs at hk <;> omega
    · rw [port_snd]
      split_ifs at hk <;> omega
  refine Bool.eq_false_iff.mpr fun h => hport.2 (routerId_inj (by omega) (by omega) ?_)
  exact (beq_iff_eq.mp h).symm

end Exit

section Conservation
variable {i j : ℕ} (hl : Located PORTS s) (h : Line PORTS BUFFER_SIZE s u) (hP : 1 ≤ PORTS)

include hl in
theorem onTheWay_before (d : BitVec 10) {n : ℕ} (hn : n ≤ 2 * PORTS) (hnj : n ≤ j) :
    onTheWay PORTS s (j, d) n = [] := by
  induction n with
  | zero => rfl
  | succ n ih =>
    rw [onTheWay, ih (by omega) (by omega), List.append_nil]
    refine ofTag_eq_nil fun f hf hftag => ?_
    have hsource : f.source = j := congrArg Prod.fst hftag
    have hle := (hl.stored n (by omega) f hf).2.1
    omega

include hl in
/-- No flit stays on the line behind the stage where its packet leaves. -/
theorem onTheWay_behind (hi : i < PORTS) {n : ℕ} (hn : exitStage PORTS j i ≤ n)
    (hn' : n ≤ 2 * PORTS) : onTheWay PORTS s (j, routerId i) n =
      onTheWay PORTS s (j, routerId i) (exitStage PORTS j i) := by
  induction n, hn using Nat.le_induction with
  | base => rfl
  | succ n hn ih =>
    rw [onTheWay, ih (by omega), ofTag_eq_nil, List.nil_append]
    intro f hf hftag
    have hsource : f.source = j := congrArg Prod.fst hftag
    obtain ⟨hlt, -, hpast⟩ := hl.stored n (by omega) f hf
    have hpast := hpast (exitStage PORTS j i) (by rw [hsource]; exact lt_exitStage (hsource ▸ hlt)) hn
    rw [hftag, leaves_exit hi] at hpast
    cases hpast

include hl h hP

theorem ofTag_flow_before (inp : Input) (d : BitVec 10) {k : ℕ} (hk : k < 2 * PORTS) (hkj : k ≤ j) :
    ofTag (j, d) (flow PORTS BUFFER_SIZE s inp k) = [] := by
  refine ofTag_eq_nil fun f hf hftag => ?_
  have hsource : f.source = j := congrArg Prod.fst hftag
  have hlt := (hl.flow h hP hk hf).2.1
  omega

theorem passing (hmax : PORTS ≤ 1024) (hB : 2 ≤ BUFFER_SIZE) (hi : i < PORTS) (hj : j < PORTS) {n : ℕ}
    (hjn : j + 1 ≤ n) (hn : n ≤ exitStage PORTS j i) :
    ofTag (j, routerId i) (flow PORTS BUFFER_SIZE s inp n) ++
        onTheWay PORTS (next PORTS BUFFER_SIZE s inp) (j, routerId i) n =
      onTheWay PORTS s (j, routerId i) n ++
        ofTag (j, routerId i) (injecting BUFFER_SIZE s inp j) := by
  have hexit := exitStage_lt (j := j) hi
  have hl' := hl.next h hP inp hB
  have hstage : ∀ k < 2 * PORTS, ofTag (j, routerId i) (flow PORTS BUFFER_SIZE s inp (k + 1)) ++
      ofTag (j, routerId i) (stored PORTS (next PORTS BUFFER_SIZE s inp) k) =
        ofTag (j, routerId i) (stored PORTS s k) ++
          ofTag (j, routerId i) (entering PORTS BUFFER_SIZE s inp k) := by
    intro k hk
    rw [← ofTag_append, (stored_next inp hB hk (h.wf k hk)).2, ofTag_append]
  induction n, hjn using Nat.le_induction with
  | base =>
    have hbefore := ofTag_flow_before hl h hP inp (routerId i) (j := j) (k := j) (by omega)
      (Nat.le_refl j)
    rw [onTheWay, onTheWay, onTheWay_before hl _ (by omega) (Nat.le_refl j),
      onTheWay_before hl' _ (by omega) (Nat.le_refl j), List.append_nil, List.append_nil,
      hstage j (by omega), h.entering_fst hP hj, ofTag_append,
      ofTag_filter _ fun t => !leaves PORTS j t, hbefore, ite_self, List.nil_append]
  | succ n hjn ih =>
    have hstay := not_leaves_of_lt hi hmax (by omega) (by omega : n < exitStage PORTS j i)
    have henter : ofTag (j, routerId i) (entering PORTS BUFFER_SIZE s inp n) =
        ofTag (j, routerId i) (flow PORTS BUFFER_SIZE s inp n) := by
      obtain hnP | ⟨m, hm, rfl⟩ := stage_cases (by omega : n < 2 * PORTS)
      · have hother : ofTag (j, routerId i) (injecting BUFFER_SIZE s inp n) = [] := by
          refine ofTag_eq_nil fun f hf hftag => ?_
          obtain ⟨rfl, -⟩ := Flit.mem_transfer hf
          have hsource : n = j := congrArg Prod.fst hftag
          omega
        rw [h.entering_fst hP hnP, ofTag_append, hother, List.append_nil,
          ofTag_filter _ fun t => !leaves PORTS n t, hstay]
        rfl
      · rw [h.entering_snd hP hm, ofTag_filter _ fun t => !leaves PORTS (PORTS + m) t, hstay]
        rfl
    rw [onTheWay, onTheWay, ← List.append_assoc, hstage n (by omega), henter, List.append_assoc,
      ih (by omega), List.append_assoc]

/-- The flits of one source are delivered from the stage where they leave the line. -/
theorem ofTag_delivering (hi : i < PORTS) (hj : j < PORTS) :
    ofTag (j, routerId i) (delivering PORTS s inp i) =
      ofTag (j, routerId i) (flow PORTS BUFFER_SIZE s inp (exitStage PORTS j i)) := by
  have hleaves0 : leaves PORTS i (j, routerId i) = true := by
    rw [leaves, port_fst hi]
    exact beq_self_eq_true _
  have hleaves1 : leaves PORTS (PORTS + i) (j, routerId i) = true := by
    rw [leaves, port_snd]
    exact beq_self_eq_true _
  rw [h.delivering_eq hP hi, ofTag_append, ofTag_filter _ (leaves PORTS i), if_pos hleaves0,
    ofTag_filter _ (leaves PORTS (PORTS + i)), if_pos hleaves1, exitStage]
  split_ifs with hji
  · -- it has left chain 0 at port `i`, and is not on chain 1
    have hgone : ofTag (j, routerId i) (flow PORTS BUFFER_SIZE s inp (PORTS + i)) = [] := by
      refine ofTag_eq_nil fun f hf hftag => ?_
      have hsource : f.source = j := congrArg Prod.fst hftag
      have hpast := (hl.flow h hP (by omega) hf).2.2 i (by omega) (by omega)
      rw [hftag, hleaves0] at hpast
      cases hpast
    rw [hgone, List.append_nil]
  · rw [ofTag_flow_before hl h hP inp (routerId i) (by omega) (Nat.le_of_not_lt hji), List.nil_append]

end Conservation

/-! ## Every run -/

structure Delivers (PORTS BUFFER_SIZE : ℕ) (s : State) : Prop where
  located : Located PORTS s
  line : ∃ u, Line PORTS BUFFER_SIZE s u
  conserved : ∀ i < PORTS, ∀ j < PORTS, ofTag (j, routerId i) (s.injected j) =
    ofTag (j, routerId i) (s.delivered i) ++
      onTheWay PORTS s (j, routerId i) (exitStage PORTS j i)

theorem delivers_initial (hB : 2 ≤ BUFFER_SIZE) (data0 data1 : ℕ → List Flit) :
    Delivers PORTS BUFFER_SIZE (initial data0 data1) := by
  refine ⟨located_initial data0 data1, ⟨_, line_initial (by omega) data0 data1⟩, fun i _ j _ => ?_⟩
  have hnone : ∀ n, onTheWay PORTS (initial data0 data1) (j, routerId i) n = [] := by
    intro n
    induction n with
    | zero => rfl
    | succ n ih =>
      rw [onTheWay, ih, stored_initial]
      rfl
  rw [hnone]
  rfl

theorem Delivers.next (hP : 1 ≤ PORTS) (hmax : PORTS ≤ 1024) (hB : 2 ≤ BUFFER_SIZE)
    (h : Delivers PORTS BUFFER_SIZE s) :
    Delivers PORTS BUFFER_SIZE (next PORTS BUFFER_SIZE s inp) := by
  obtain ⟨hl, ⟨u, hu⟩, hconserved⟩ := h
  refine ⟨hl.next hu hP inp hB, ⟨_, hu.next hP inp hB⟩, fun i hi j hj => ?_⟩
  rw [injected_next, delivered_next, ofTag_append, ofTag_append, hconserved i hi j hj,
    ofTag_delivering hl hu hP hi hj, List.append_assoc, List.append_assoc,
    passing hl hu hP hmax hB hi hj (lt_exitStage hj) (Nat.le_refl _)]

theorem Delivers.run (hP : 1 ≤ PORTS) (hmax : PORTS ≤ 1024) (hB : 2 ≤ BUFFER_SIZE)
    {data0 data1 : ℕ → List Flit} {inputs : List Input}
    (hrun : runFrom (step PORTS BUFFER_SIZE) (initial data0 data1) inputs = some s) :
    Delivers PORTS BUFFER_SIZE s := by
  have hstable : Stable (step PORTS BUFFER_SIZE) (Delivers PORTS BUFFER_SIZE) := by
    intro s inp s' h hstep
    unfold step at hstep
    split_ifs at hstep
    exact Option.some.inj hstep ▸ h.next hP hmax hB
  exact hstable.run (delivers_initial hB data0 data1) hrun

/-! ## Packets -/

structure FromTo (j i : ℕ) (packet : List Flit) : Prop where
  source : ∀ f ∈ packet, f.source = j
  dest : ∃ head ∈ packet.head?, (destOf head.toDiiFlit).toNat = i

def packetsTo (i : ℕ) (xs : List Flit) : List (List Flit) :=
  packetsWith Flit.ends (fun head => (destOf head.toDiiFlit).toNat == i) xs

def packetsFrom (j : ℕ) (xs : List Flit) : List (List Flit) :=
  packetsWith Flit.ends (fun head => head.source == j) xs

theorem toNat_routerId {i : ℕ} (hi : i < 1024) : (routerId i).toNat = i := by
  rw [routerId, BitVec.toNat_ofNat]
  exact Nat.mod_eq_of_lt hi

theorem eq_routerId_iff {d : BitVec 10} {i : ℕ} (hi : i < 1024) : d = routerId i ↔ d.toNat = i := by
  rw [BitVec.toNat_eq, toNat_routerId hi]

/-- The flits with the tag of a port and of a destination make up the packets from there to there. -/
theorem cut_ofTag {i j : ℕ} {xs : List Flit} (p : Flit → Bool) (hworms : FlitWorms none xs)
    (hp : ∀ f ∈ xs, f.starts → p f = decide (f.tag = (j, routerId i))) :
    (cut Flit.ends (ofTag (j, routerId i) xs)).1 = packetsWith Flit.ends p xs := by
  have hcut := cut_filter hworms fun t => decide (t = (j, routerId i))
  refine hcut.trans (List.filter_congr fun packet hpacket => ?_)
  obtain ⟨x, rest, rfl, hstart, -⟩ := (tagged_cut hworms).1 packet hpacket
  exact (hp x (mem_of_mem_cut (.inl hpacket) List.mem_cons_self) hstart).symm

section Packets
variable (h : Delivers PORTS BUFFER_SIZE s) (hmax : PORTS ≤ 1024) {i j : ℕ} (hi : i < PORTS)
include h hmax hi

theorem Delivers.packetsTo_eq (hj : j < PORTS) :
    (cut Flit.ends (ofTag (j, routerId i) (s.injected j))).1 = packetsTo i (s.injected j) := by
  obtain ⟨u, hu⟩ := h.line
  refine cut_ofTag _ (hu.injected j hj).1 fun f hf hstart => ?_
  have hsource := h.located.injected j f hf
  rw [Bool.eq_iff_iff, beq_iff_eq, decide_eq_true_eq, ← eq_routerId_iff (by omega), ← hstart,
    Flit.tag, Prod.mk.injEq]
  exact ⟨fun hd => ⟨hsource, hd⟩, And.right⟩

omit hmax in
theorem Delivers.packetsFrom_eq :
    (cut Flit.ends (ofTag (j, routerId i) (s.delivered i))).1 = packetsFrom j (s.delivered i) := by
  obtain ⟨u, hu⟩ := h.line
  refine cut_ofTag _ (hu.delivered i hi) fun f hf _ => ?_
  have hdest := (h.located.delivered i hi f hf).2
  rw [Bool.eq_iff_iff, beq_iff_eq, decide_eq_true_eq, Flit.tag, Prod.mk.injEq]
  exact ⟨fun hs => ⟨hs, hdest⟩, And.left⟩

theorem Delivers.packetsFrom_prefix (hj : j < PORTS) :
    packetsFrom j (s.delivered i) <+: packetsTo i (s.injected j) := by
  rw [← h.packetsFrom_eq hi, ← h.packetsTo_eq hmax hi hj, h.conserved i hi j hj]
  exact cut_fst_prefix (List.prefix_append _ _)

/-- Everything delivered at a port, the packet that is being delivered included, is for this port. -/
theorem Delivers.fromTo {packet : List Flit}
    (hpacket : packet ∈ (cut Flit.ends (s.delivered i)).1 ∨
      packet = (cut Flit.ends (s.delivered i)).2 ∧ packet ≠ []) :
    ∃ j < PORTS, FromTo j i packet := by
  obtain ⟨u, hu⟩ := h.line
  obtain ⟨hall, hrest, -⟩ := tagged_cut (hu.delivered i hi)
  have htagged : Tagged Flit.tag Flit.starts packet := by
    obtain hp | ⟨rfl, hne⟩ := hpacket
    · exact hall packet hp
    · exact hrest hne
  obtain ⟨x, xs, rfl, hstart, htags⟩ := htagged
  have hx := mem_of_mem_cut (hpacket.imp_right And.left) (List.mem_cons_self (a := x) (l := xs))
  obtain ⟨hsource, hdest⟩ := h.located.delivered i hi x hx
  refine ⟨x.source, hsource, fun f hf => ?_, x, rfl, ?_⟩
  · obtain rfl | hf := List.mem_cons.mp hf
    · rfl
    · exact congrArg Prod.fst (htags f hf)
  · rw [← hstart, hdest, toNat_routerId (by omega)]

end Packets

/-- The debug ring delivers, with at most 1024 ports: what comes out at a port is packets for this
port, one behind the other. Of the flits from one port to another, those delivered are the first ones
accepted, in their order, and the others are on the way. So it is for their packets, and of each
packet that is not delivered yet the last flit is on the way. -/
theorem ring_delivers (hP : 1 ≤ PORTS) (hmax : PORTS ≤ 1024) (hB : 2 ≤ BUFFER_SIZE)
    {data0 data1 : ℕ → List Flit} {inputs : List Input}
    (hrun : runFrom (step PORTS BUFFER_SIZE) (initial data0 data1) inputs = some s) :
    (∀ i < PORTS, ∀ packet, packet ∈ (cut Flit.ends (s.delivered i)).1 ∨
        packet = (cut Flit.ends (s.delivered i)).2 ∧ packet ≠ [] →
      ∃ j < PORTS, FromTo j i packet) ∧
    ∀ i < PORTS, ∀ j < PORTS,
      ofTag (j, routerId i) (s.injected j) = ofTag (j, routerId i) (s.delivered i) ++
        onTheWay PORTS s (j, routerId i) (2 * PORTS) ∧
      ∃ rest, packetsTo i (s.injected j) = packetsFrom j (s.delivered i) ++ rest ∧
        rest.map List.getLast? =
          ((onTheWay PORTS s (j, routerId i) (2 * PORTS)).filter Flit.ends).map some := by
  have h := Delivers.run hP hmax hB hrun
  refine ⟨fun i hi packet hpacket => h.fromTo hmax hi hpacket, fun i hi j hj => ?_⟩
  have hexit := exitStage_lt (j := j) hi
  have hflits := h.conserved i hi j hj
  rw [← onTheWay_behind h.located hi hexit.le (Nat.le_refl _)] at hflits
  have hpackets := h.packetsTo_eq hmax hi hj
  have hopen : (cut Flit.ends (ofTag (j, routerId i) (s.delivered i))).2.filter Flit.ends = [] :=
    List.filter_eq_nil_iff.mpr fun f hf => by simp [(cut_spec Flit.ends _).2.2 f hf]
  rw [hflits, cut_append, h.packetsFrom_eq hi] at hpackets
  refine ⟨hflits, _, hpackets.symm, ?_⟩
  rw [cut_getLast, List.filter_append, hopen, List.nil_append]

/-! Two cycles: a packet of one flit is accepted at a port, and then nothing more. -/

def oneFlit (port : ℕ) (data : BitVec 16) : Input :=
  ⟨fun i => if i = port then ⟨true, true, data⟩ else DiiFlit.idle, fun _ => true⟩

def quiet : Input := ⟨fun _ => DiiFlit.idle, fun _ => true⟩

def twoCycles (PORTS port : ℕ) (data : BitVec 16) : State :=
  next PORTS 2 (next PORTS 2 (initial (fun _ => []) fun _ => []) (oneFlit port data)) quiet

theorem run_twoCycles {PORTS port : ℕ} {data : BitVec 16}
    (haccepted : accepted 2 (initial (fun _ => []) fun _ => []) (oneFlit port data) port = true) :
    runFrom (step PORTS 2) (initial (fun _ => []) fun _ => []) [oneFlit port data, quiet] =
      some (twoCycles PORTS port data) := by
  have hfirst : Held PORTS (initial (fun _ => []) fun _ => []) (oneFlit port data) :=
    fun _ _ _ h => nomatch h
  have hsecond : Held PORTS (next PORTS 2 (initial (fun _ => []) fun _ => []) (oneFlit port data))
      quiet := by
    intro i _ flit hflit
    by_cases hi : i = port
    · subst hi
      simp [next, haccepted] at hflit
    · simp [next, localIn, oneFlit, hi, DiiFlit.idle] at hflit
  rw [runFrom_cons, step, if_pos hfirst, Option.bind_some, runFrom_cons, step, if_pos hsecond]
  rfl

theorem ring_delivers_one : (twoCycles 2 0 1).delivered 1 ≠ [] ∧
    ∃ rest, packetsTo 1 ((twoCycles 2 0 1).injected 0) =
        packetsFrom 0 ((twoCycles 2 0 1).delivered 1) ++ rest ∧
      rest.map List.getLast? =
        ((onTheWay 2 (twoCycles 2 0 1) (0, routerId 1) (2 * 2)).filter Flit.ends).map some :=
  ⟨by decide, ((ring_delivers (by decide) (by decide) (by decide) (run_twoCycles (by decide))).2 1
    (by decide) 0 (by decide)).2⟩

/-- With more than 1024 ports the identifiers of the routers are not distinct. -/
theorem delivered_elsewhere :
    runFrom (step 1025 2) (initial (fun _ => []) fun _ => []) [oneFlit 1023 0, quiet] =
        some (twoCycles 1025 1023 0) ∧
      packetsTo 0 ((twoCycles 1025 1023 0).injected 1023) ≠ [] ∧
      packetsTo 0 ((twoCycles 1025 1023 0).injected 1023) =
        packetsFrom 1023 ((twoCycles 1025 1023 0).delivered 1024) :=
  ⟨run_twoCycles (by decide), by decide, by decide⟩

end GlipOsd.Ring
