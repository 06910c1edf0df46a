import SteinerSearch.Proofs.Network.Tours
import SteinerSearch.Proofs.Tree.Nearest

/-!
# A tree of at most twice the least cost

Whatever edges join the required terminals, a tour over them falls into links that tie all
terminals to the start, at twice what the edges cost.  When a terminal joins the tree, a link that
leads out of the tree is given up.  It is no shorter than the branch that joins, since the
terminal is a nearest one.  So the tree and the links that are left never cost more than the tour.

## Main definitions

* `Growth.Tethered c total t links` — links tie the terminals to the tree, within a total.

## Main results

* `Growth.Tethered.join` — a terminal that joins keeps within the total.
* `Growth.growFrom_ensures` — what joins preserve holds of the tree that is grown.
* `Growth.growFrom_le_twice` — the tree costs at most twice what the edges cost.
-/

namespace SteinerSearch

namespace Growth

variable {c : Growth ℚ} {t t' : Tree} {start k : Nat} {d total : ℚ} {links : List Link}
  {w : Workspace ℚ}

/-- The links tie all marked required terminals to the tree.  Together with the tree they cost no
more than the total. -/
structure Tethered (c : Growth ℚ) (total : ℚ) (t : Tree) (links : List Link) : Prop where
  measured : ∀ l ∈ links, l.Measured c.network c.arcCost (· ∈ c.network.markedRequired)
  tied : ∀ v ∈ c.network.markedRequired, Tied links (fun u => t.contains u = true) v
  cost : Network.pathLength c.arcCost t.treeArcs + (links.map Link.length).sum ≤ total

/-- A terminal that is nearest to the tree is no farther than the end of a link out of it. -/
theorem NearestJoin.le_length (hc : Measured c) (h : NearestJoin c t k d t') {l : Link}
    (hl : l.Measured c.network c.arcCost (· ∈ c.network.markedRequired)) {x y : Nat}
    (hmeets : l.Meets x y) (hx : t.contains x = true) (hy : ¬ t.contains y = true) :
    d ≤ l.length := by
  obtain ⟨as, has, hle⟩ := hl.path x y hmeets
  have hnode : x ∈ t.nodes := Tree.mem_nodes.mpr hx
  obtain ⟨e, he⟩ := Network.exists_isDistance_of_mem (fun a ha => hc.isWhole ha) hnode has
  calc d ≤ e := h.nearest y (hl.stop_of_meets hmeets).2 (Bool.eq_false_iff.mpr hy) e he
    _ ≤ Network.pathLength c.arcCost as := he.least x hnode as has
    _ ≤ l.length := hle

/-- A link is given up for a terminal that joins. -/
theorem Tethered.join (hc : Measured c) (h : Tethered c total t links)
    (hjoin : NearestJoin c t k d t') (ht : t.Entering c.network) (ht' : t'.Entering c.network) :
    ∃ links', Tethered c total t' links' := by
  obtain ⟨as, hgraft, hlen, -⟩ := hjoin.branch
  have hout : ¬ t.contains k = true := Bool.eq_false_iff.mp hjoin.outside
  obtain ⟨l, hl, ⟨x, y, hmeets, hx, hy⟩, htied⟩ := (h.tied k hjoin.terminal).exchange hout
  have hd : d ≤ l.length := hjoin.le_length hc (h.measured l hl) hmeets hx hy
  refine ⟨links.erase l, ⟨fun l' hl' => h.measured l' (List.mem_of_mem_erase hl'),
    fun v hv => ?_, ?_⟩⟩
  · refine (htied v (h.tied v hv)).trans fun u hu => .of_mem ?_
    rcases hu with hu | rfl
    · exact (hgraft.contains u).mpr (Or.inr hu)
    · exact hgraft.contains_end
  · have harcs := (hgraft.perm_treeArcs ht ht').map c.arcCost
    have hlinks := (List.perm_cons_erase hl).map Link.length
    have hcost := h.cost
    rw [hlinks.sum_eq, List.map_cons, List.sum_cons] at hcost
    rw [Network.pathLength, harcs.sum_eq, ← Network.pathLength, Network.pathLength_append, hlen]
    linarith

/-- A tree with links costs no more than the total. -/
theorem Tethered.treeArcs_le (hc : Measured c) (h : Tethered c total t links) :
    Network.pathLength c.arcCost t.treeArcs ≤ total := by
  have hlinks := Link.sum_length_nonneg (fun a ha => hc.nonneg ha) h.measured
  linarith [h.cost]

/-- If edges join the terminals, links tie them to any one, at twice what the edges cost. -/
theorem exists_tethered (hc : Measured c) (hg : c.network.WellFormed)
    (hsym : ∀ a, a < c.network.arcCount → c.costs (Arc.rev a) = c.costs a)
    (hstart : start ∈ c.network.markedRequired) {edges : Finset Nat}
    (hjoins : c.network.Joins edges c.network.markedRequired) :
    ∃ links, Tethered c (2 * Network.edgesCost c.arcCost edges)
      ((Tree.empty c.network.nodeCount).connect start none) links := by
  have hnode : start < c.network.nodeCount := (mem_markedRequired.mp hstart).1
  have hnonneg : ∀ a, a < c.network.arcCount → 0 ≤ c.arcCost a := fun a ha => hc.nonneg ha
  obtain ⟨links, hmeasured, htied, hsum⟩ := hjoins.exists_links hg hnonneg
    (fun a ha => congrArg (·.getD 0) (hsym a ha))
    (fun v hv => (mem_markedRequired.mp hv).2.2) hstart
  refine ⟨links, hmeasured, fun v hv => ?_, ?_⟩
  · exact (htied v hv).trans fun u hu => .of_mem ((Tree.contains_start hnode).mpr hu)
  · rw [Tree.treeArcs_start hnode, Network.pathLength_nil, zero_add]
    exact hsum

/-! ### Runs -/

/-- What joins of nearest terminals preserve holds of the tree that is grown. -/
theorem growFrom_ensures {P : Tree → Prop} (hc : Measured c) (hrule : c.rule = .required)
    (hstart : start < c.network.nodeCount) (hw : w.Ready)
    (hroom : c.network.nodeCount ≤ w.capacity)
    (hfirst : P ((Tree.empty c.network.nodeCount).connect start none))
    (hnext : ∀ t k d t', t.RootedAt c.network start → t'.RootedAt c.network start →
      NearestJoin c t k d t' → P t → P t') :
    ∃ outcome t w', c.growFrom start w = .ok (outcome, t, w') ∧ t.RootedAt c.network start ∧
      P t := by
  obtain ⟨w₀, hseed, hfrontier⟩ := frontier_start hw hroom hstart
  obtain ⟨s, hends, hrun, -⟩ := hfrontier.toSound.ends hc
  have hlast := hends.ensures
    (I := fun s => Frontier c (fun _ => False) s ∧ s.tree.RootedAt c.network start ∧ P s.tree)
    ⟨hfrontier, Tree.rootedAt_start hstart, hfirst⟩ ?_
  · obtain ⟨s₁, ⟨hs₁, hrooted, hP⟩, hdone⟩ := hlast
    obtain ⟨rfl, -⟩ := hs₁.toSound.of_done hc hdone
    exact ⟨_, _, _, growFrom_eq hstart hseed hrun, hrooted, hP⟩
  · rintro s s' ⟨hs, hrooted, hP⟩ hstep
    obtain ⟨hrooted', htree | ⟨k, d, hjoin⟩⟩ := hs.settleNext_joins hc hrule hrooted hstep
    · exact ⟨hs.settleNext hc hstep, hrooted', htree ▸ hP⟩
    · exact ⟨hs.settleNext hc hstep, hrooted', hnext _ k d _ hrooted hrooted' hjoin hP⟩

/-- **The tree costs at most twice the least cost.**  A growth from a required terminal ends with
a tree that costs at most twice as much as any set of edges that joins the marked required
terminals over marked nodes. -/
theorem growFrom_le_twice (hrule : c.rule = .required) (hnet : c.network.Built)
    (hcost : ∀ a, a < c.network.arcCount → ∃ n : ℕ, c.costs a = some (n : ℚ))
    (hsym : ∀ a, a < c.network.arcCount → c.costs (Arc.rev a) = c.costs a)
    (hstart : start ∈ c.network.markedRequired) (hw : w.Ready)
    (hroom : c.network.nodeCount ≤ w.capacity) :
    ∃ outcome t w' x, c.growFrom start w = .ok (outcome, t, w') ∧ t.cost c.costs = .ok x ∧
      ∀ edges, c.network.Joins edges c.network.markedRequired →
        x ≤ 2 * Network.edgesCost c.arcCost edges := by
  have hc : Measured c := ⟨hnet.wellFormed.toLinked, hcost⟩
  obtain ⟨outcome, t, w', hgrow, hrooted, hbound⟩ := growFrom_ensures
    (P := fun t => ∀ edges, c.network.Joins edges c.network.markedRequired →
      ∃ links, Tethered c (2 * Network.edgesCost c.arcCost edges) t links)
    hc hrule (mem_markedRequired.mp hstart).1 hw hroom
    (fun edges hjoins => exists_tethered hc hnet.wellFormed hsym hstart hjoins)
    (fun t k d t' hrooted hrooted' hjoin h edges hjoins => by
      obtain ⟨links, htethered⟩ := h edges hjoins
      exact htethered.join hc hjoin hrooted.entering hrooted'.entering)
  refine ⟨outcome, t, w', _, hgrow, Tree.cost_eq hc hrooted.entering, fun edges hjoins => ?_⟩
  obtain ⟨links, htethered⟩ := hbound edges hjoins
  exact htethered.treeArcs_le hc

/-- Three required terminals around a center, at distance 1 each. -/
def tripod : Network ℚ :=
  let one := ((Network.empty 4).pushArc 0 3 (1 : ℚ)).pushArc 3 0 1
  let two := (one.pushArc 1 3 1).pushArc 3 1 1
  { (two.pushArc 2 3 1).pushArc 3 2 1 with kind := #[.proper, .proper, .proper, .steiner] }

theorem built_tripod : tripod.Built := by
  have hone := (Network.Built.empty 4).addArcPair
    (show Network.addArcPair _ 0 3 (1 : ℚ) 1 = .ok (0, _) from rfl)
  have htwo := hone.addArcPair (show Network.addArcPair _ 1 3 1 1 = .ok (1, _) from rfl)
  have hthree := htwo.addArcPair (show Network.addArcPair _ 2 3 1 1 = .ok (2, _) from rfl)
  have hkind₀ := hthree.setTerminal (show Network.setTerminal _ 0 .proper = .ok _ from rfl)
  have hkind₁ := hkind₀.setTerminal (show Network.setTerminal _ 1 .proper = .ok _ from rfl)
  exact hkind₁.setTerminal (show Network.setTerminal _ 2 .proper = .ok _ from rfl)

theorem costs_tripod : ∀ a, a < tripod.arcCount → CostView.ofArray tripod.cost a = some 1 := by
  intro a ha
  change a < 6 at ha
  obtain rfl | rfl | rfl | rfl | rfl | rfl :
      a = 0 ∨ a = 1 ∨ a = 2 ∨ a = 3 ∨ a = 4 ∨ a = 5 := by omega
  all_goals rfl

/-- All legs together join the terminals. -/
theorem joins_tripod : tripod.Joins {0, 1, 2} tripod.markedRequired := by
  have hleg : ∀ u ∈ tripod.markedRequired, 2 * u + 1 < tripod.arcCount ∧
      tripod.tailOf (2 * u) = u ∧ tripod.headOf (2 * u) = 3 ∧ tripod.tailOf (2 * u + 1) = 3 ∧
      tripod.headOf (2 * u + 1) = u ∧ tripod.isMarked u = true ∧
      Arc.edge (2 * u) ∈ ({0, 1, 2} : Finset Nat) ∧
      Arc.edge (2 * u + 1) ∈ ({0, 1, 2} : Finset Nat) := by decide
  refine ⟨by decide, fun u hu v hv => ?_⟩
  obtain ⟨hlt, htail, hhead, -, -, -, hedge, -⟩ := hleg u hu
  obtain ⟨hlt', -, -, htail', hhead', hmark', -, hedge'⟩ := hleg v hv
  have hback : tripod.IsMarkedPath 3 [2 * v + 1] v :=
    Network.isMarkedPath_cons.mpr ⟨⟨hlt', htail'⟩, hhead'.symm ▸ hmark',
      Network.isMarkedPath_nil.mpr hhead'⟩
  have hmark : tripod.isMarked (tripod.headOf (2 * u)) = true := by
    rw [hhead]
    rfl
  refine ⟨[2 * u, 2 * v + 1], Network.isMarkedPath_cons.mpr
    ⟨⟨Nat.lt_of_succ_lt hlt, htail⟩, hmark, hhead.symm ▸ hback⟩, ?_⟩
  exact List.forall_mem_cons.mpr ⟨hedge, List.forall_mem_singleton.mpr hedge'⟩

/-- The three legs cost 3. -/
theorem growFrom_le_twice_on_tripod :
    ∃ outcome t w' x, Growth.growFrom ⟨tripod, .ofArray tripod.cost, .required⟩ 0 (.fresh 4 0) =
        .ok (outcome, t, w') ∧ t.cost (.ofArray tripod.cost) = .ok x ∧ x ≤ 6 := by
  have hsym : ∀ a, a < tripod.arcCount → CostView.ofArray tripod.cost (Arc.rev a) =
      CostView.ofArray tripod.cost a := by
    intro a ha
    rw [costs_tripod a ha, costs_tripod _ (built_tripod.wellFormed.rev_lt ha)]
  have hstart : 0 ∈ tripod.markedRequired := by decide
  obtain ⟨outcome, t, w', x, hgrow, hx, hle⟩ := growFrom_le_twice
    (c := ⟨tripod, .ofArray tripod.cost, .required⟩) rfl built_tripod
    (fun a ha => ⟨1, costs_tripod a ha⟩) hsym hstart (Workspace.fresh_ready 4 0) (by decide)
  exact ⟨outcome, t, w', x, hgrow, hx, (hle _ joins_tripod).trans (by decide +kernel)⟩

end Growth

end SteinerSearch
