import SteinerSearch.Proofs.Network.Degrees

/-!
# The arcs of a node, one after the other

A search follows the chain of a node from arc to arc until there is no next one; nothing
bounds the number of its steps.  In a built network it meets every arc that leaves the node,
the newest first, and comes to an end.  So the first arc to a given node is the newest one.

## Main definitions

* `Network.Yields g a? as` — from `a?` on the chain has the arcs `as`, and ends.
* `Network.Leads g u v a` — the arc `a` leads from `u` to `v`.
* `Network.Consistent g` — the tables of `g` agree with each other.

## Main results

* `Network.Linked.yields_outArcs` — the chain of a node ends.
* `Network.Linked.pairwise_outArcs` — the arcs of a node, newest first.
* `Network.Linked.findArc_eq_some_iff`, `Network.Linked.findArc_eq_none_iff` — which arc is
  found.
* `Network.Built.prize_admissible` — prizes were checked.
* `Network.Built.consistent` — built networks are consistent.
-/

namespace SteinerSearch

namespace Network

variable {α : Type} {g : Network α} {u v a : Nat}

/-! ### Following a chain -/

/-- From `a?` on the chain has the arcs `as` and then ends.  There is an entry for every arc
at which the next one is looked up. -/
inductive Yields (g : Network α) : Option Nat → List Nat → Prop
  /-- There is no next arc. -/
  | nil : Yields g none []
  /-- The chain goes on behind the arc `a`. -/
  | cons {a : Nat} {as : List Nat} (ha : a < g.nextOut.size) (h : Yields g (g.nextOf a) as) :
      Yields g (some a) (a :: as)

theorem Linked.yields_newestBefore (hg : g.Linked) (v : Nat) {m : Nat} (hm : m ≤ g.arcCount) :
    g.Yields (g.newestBefore v m) (g.arcsBefore v m) := by
  -- the chain as it was when there were `m` arcs: later arcs are put before it
  induction m with
  | zero => exact .nil
  | succ m ih =>
    have hrest := ih (by omega)
    rw [newestBefore_succ, arcsBefore_succ]
    by_cases htail : g.tailOf m = v
    · simp only [htail, if_true]
      apply Yields.cons
      · rw [hg.next_size]
        omega
      · rw [hg.next m (by omega), htail]
        exact hrest
    · simp only [htail, if_false]
      exact hrest

/-- The chain of a node ends, and has the arcs that leave the node. -/
theorem Linked.yields_outArcs (hg : g.Linked) (v : Nat) :
    g.Yields (g.firstOf v) (g.outArcs v) := by
  rw [hg.first v, hg.outArcs_eq v]
  exact hg.yields_newestBefore v (Nat.le_refl _)

/-- Newer arcs come before older ones, so none comes twice. -/
theorem Linked.pairwise_outArcs (hg : g.Linked) (v : Nat) : (g.outArcs v).Pairwise (· > ·) := by
  rw [hg.outArcs_eq v]
  apply List.Pairwise.filter
  rw [List.pairwise_reverse]
  exact List.pairwise_lt_range

/-! ### Looking for an arc -/

/-- The arc `a` leads from `u` to `v`. -/
structure Leads (g : Network α) (u v a : Nat) : Prop where
  lt : a < g.arcCount
  tail : g.tailOf a = u
  head : g.headOf a = v

theorem Linked.leads_iff (hg : g.Linked) :
    g.Leads u v a ↔ a ∈ g.outArcs u ∧ (g.headOf a == v) = true := by
  rw [hg.mem_outArcs, beq_iff_eq]
  constructor
  · intro h
    exact ⟨⟨h.lt, h.tail⟩, h.head⟩
  · rintro ⟨⟨hlt, htail⟩, hhead⟩
    exact ⟨hlt, htail, hhead⟩

/-- No newer arc leads the same way. -/
theorem Linked.newest_of_findArc (hg : g.Linked) (h : g.findArc u v = some a) :
    g.Leads u v a ∧ ∀ b, g.Leads u v b → b ≤ a := by
  obtain ⟨hhead, newer, older, hsplit, hnewer⟩ := List.find?_eq_some_iff_append.mp h
  have hmem : a ∈ g.outArcs u := by simp [hsplit]
  refine ⟨hg.leads_iff.mpr ⟨hmem, hhead⟩, ?_⟩
  intro b hb
  obtain ⟨hmem, hhead⟩ := hg.leads_iff.mp hb
  have hsorted := hg.pairwise_outArcs u
  -- what comes before `a` leads elsewhere, and what comes behind it is older
  rw [hsplit] at hmem hsorted
  rcases List.mem_append.mp hmem with hb | hb
  · have hother := hnewer b hb
    simp [hhead] at hother
  · rcases List.mem_cons.mp hb with rfl | hb
    · exact Nat.le_refl b
    · have hrest := (List.pairwise_append.mp hsorted).2.1
      exact Nat.le_of_lt ((List.pairwise_cons.mp hrest).1 b hb)

theorem Linked.findArc_eq_none_iff (hg : g.Linked) :
    g.findArc u v = none ↔ ∀ a, ¬ g.Leads u v a := by
  unfold findArc
  rw [List.find?_eq_none]
  constructor
  · intro h a ha
    obtain ⟨hmem, hhead⟩ := hg.leads_iff.mp ha
    exact h a hmem hhead
  · intro h a hmem hhead
    exact h a (hg.leads_iff.mpr ⟨hmem, hhead⟩)

/-- The newest arc is found. -/
theorem Linked.findArc_eq_some_iff (hg : g.Linked) :
    g.findArc u v = some a ↔ g.Leads u v a ∧ ∀ b, g.Leads u v b → b ≤ a := by
  constructor
  · exact hg.newest_of_findArc
  · rintro ⟨ha, hnewest⟩
    cases hfound : g.findArc u v with
    | none => exact absurd ha (hg.findArc_eq_none_iff.mp hfound a)
    | some b =>
      obtain ⟨hb, hnewest'⟩ := hg.newest_of_findArc hfound
      rw [Nat.le_antisymm (hnewest b hb) (hnewest' a ha)]

/-! ### Prizes -/

/-- Prizes were checked, and where none was given it is zero. -/
theorem Built.prize_admissible [Weight α] (hzero : Weight.admissible (0 : α) = true)
    (hg : g.Built) (v : Nat) : Weight.admissible (g.prizeOf v) = true := by
  induction hg with
  | empty n =>
    have hprize : (Network.empty n : Network α).prizeOf v = 0 := Array.getD_replicate n v 0
    rw [hprize]
    exact hzero
  | addArcPair _ h ih =>
    obtain ⟨-, -, -, -, -, rfl⟩ := addArcPair_eq_ok h
    exact ih
  | setTerminal _ h ih =>
    unfold Network.setTerminal at h
    have h := requireNode_bind_eq_ok h
    obtain rfl := Except.ok.inj h
    exact ih
  | @setPrize g g' w prize hg h ih =>
    unfold Network.setPrize at h
    have hw := lt_of_requireNode_bind h
    rw [← hg.wellFormed.prize_size] at hw
    have h := requireNode_bind_eq_ok h
    split at h
    · next hprize =>
      obtain rfl := Except.ok.inj h
      show Weight.admissible ((g.prize.setIfInBounds w prize).getD v 0) = true
      by_cases hvw : v = w
      · rw [hvw, Array.getD_setIfInBounds_self hw]
        exact hprize
      · rw [Array.getD_setIfInBounds_of_ne hvw]
        exact ih
    · cases h
  | setRoot _ h ih =>
    unfold Network.setRoot at h
    have h := requireNode_bind_eq_ok h
    obtain rfl := Except.ok.inj h
    exact ih
  | setMark _ _ _ ih => exact ih

/-! ### All tables together -/

theorem admissible_iff [Weight α] {c : α} :
    Weight.admissible c = true ↔ Weight.isFinite c = true ∧ ¬ c < 0 := by
  simp [Weight.admissible]

/-- The tables of `g` agree with each other, and nothing in them is out of place. -/
structure Consistent [Weight α] (g : Network α) : Prop where
  /-- Tables of nodes have an entry for each node. -/
  nodeTables : g.kind.size = g.nodeCount ∧ g.prize.size = g.nodeCount ∧
    g.degree.size = g.nodeCount ∧ g.firstOut.size = g.nodeCount
  /-- Tables of arcs have an entry for each arc. -/
  arcTables : g.tail.size = g.arcCount ∧ g.cost.size = g.arcCount ∧ g.nextOut.size = g.arcCount
  /-- Whoever follows the chain of a node comes to its end. -/
  yields : ∀ v, g.Yields (g.firstOf v) (g.outArcs v)
  /-- On the way are all arcs that leave the node. -/
  mem_outArcs : ∀ v a, a ∈ g.outArcs v ↔ a < g.arcCount ∧ g.tailOf a = v
  /-- Newer arcs come first, and none comes twice. -/
  newest_first : ∀ v, (g.outArcs v).Pairwise (· > ·)
  /-- A node knows how many they are. -/
  degree : ∀ v, g.degreeOf v = (g.outArcs v).length
  /-- The opposite of an arc is an arc of the same edge, and the arc is opposite to it. -/
  rev : ∀ a, a < g.arcCount →
    Arc.rev a < g.arcCount ∧ Arc.rev (Arc.rev a) = a ∧ Arc.edge (Arc.rev a) = Arc.edge a
  /-- An arc leads to where its opposite starts. -/
  head_eq : ∀ a, a < g.arcCount → g.headOf a = g.tailOf (Arc.rev a)
  /-- Arcs lead between two nodes of the network. -/
  ends : ∀ a, a < g.arcCount →
    g.tailOf a < g.nodeCount ∧ g.headOf a < g.nodeCount ∧ g.headOf a ≠ g.tailOf a
  /-- Costs are numbers and not negative. -/
  cost : ∀ a, a < g.arcCount → Weight.isFinite (g.costOf a) = true ∧ ¬ g.costOf a < 0
  /-- So are prizes. -/
  prize : ∀ v, v < g.nodeCount → Weight.isFinite (g.prizeOf v) = true ∧ ¬ g.prizeOf v < 0
  /-- It is the newest arc that is found. -/
  findArc_some : ∀ u v a,
    g.findArc u v = some a ↔ g.Leads u v a ∧ ∀ b, g.Leads u v b → b ≤ a
  /-- No arc is found only if there is none. -/
  findArc_none : ∀ u v, g.findArc u v = none ↔ ∀ a, ¬ g.Leads u v a
  /-- With fewer than `2 ^ 31` edges, 32 bits hold the number of every arc and every count. -/
  narrow : g.edgeCount < UInt32.size / 2 →
    g.arcCount < UInt32.size ∧ ∀ v, g.degreeOf v < UInt32.size

theorem Linked.length_outArcs_le (hg : g.Linked) (v : Nat) :
    (g.outArcs v).length ≤ g.arcCount := by
  rw [hg.outArcs_eq v]
  simpa using List.length_filter_le (fun a => g.tailOf a == v) (List.range g.arcCount).reverse

theorem Built.consistent [Weight α] (hzero : Weight.admissible (0 : α) = true) (hg : g.Built) :
    g.Consistent := by
  have hwell := hg.wellFormed
  have hlinked := hwell.toLinked
  exact {
    nodeTables := ⟨hwell.kind_size, hwell.prize_size, hg.counted.size, hwell.first_size⟩
    arcTables := ⟨hwell.tail_size, hwell.cost_size, hwell.next_size⟩
    yields := hlinked.yields_outArcs
    mem_outArcs := fun v a => hlinked.mem_outArcs
    newest_first := hlinked.pairwise_outArcs
    degree := hg.degreeOf_eq
    rev := fun a ha => ⟨hwell.rev_lt ha, Arc.rev_rev a, Arc.edge_rev a⟩
    head_eq := fun a ha => (hwell.tail_rev ha).symm
    ends := fun a ha => ⟨hwell.tail_lt a ha, hwell.head_lt a ha, hwell.head_ne_tail a ha⟩
    cost := fun a ha => admissible_iff.mp (hwell.cost_admissible a ha)
    prize := fun v _ => admissible_iff.mp (hg.prize_admissible hzero v)
    findArc_some := fun u v a => hlinked.findArc_eq_some_iff
    findArc_none := fun u v => hlinked.findArc_eq_none_iff
    narrow := by
      intro hedges
      have harcs : g.arcCount < UInt32.size := by
        unfold edgeCount at hedges
        unfold arcCount
        omega
      refine ⟨harcs, fun v => ?_⟩
      rw [hg.degreeOf_eq]
      exact Nat.lt_of_le_of_lt (hlinked.length_outArcs_le v) harcs }

end Network

end SteinerSearch
