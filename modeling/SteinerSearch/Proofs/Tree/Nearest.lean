import SteinerSearch.Proofs.Tree.Grafts
import SteinerSearch.Proofs.Tree.Spanning

/-!
# The nearest terminal joins next

A growth that connects required terminals is one continued search, but every branch is what
a fresh search from the grown tree would find: the terminal that joins is nearest to the
tree among those that are left, and its branch is a shortest path.

## Main definitions

* `Growth.NearestJoin c t k d t'` — from `t` to `t'` a nearest terminal `k` joins, at the
  distance `d`.
* `Growth.Splits c s₀ joins s` — the steps from `s₀` to `s` join these terminals.
* `Growth.Account c start joins t` — what the joins say about the tree.

## Main results

* `Growth.Frontier.nearestJoin` — whatever joins is a nearest terminal.
* `Growth.Account.graft` — the tree costs the sum of the distances.
* `Growth.growFrom_joins_nearest` — a growth splits into such joins.
-/

namespace SteinerSearch

namespace Growth

/-- From the tree `t` to `t'` the terminal `k` joins, which is nearest to the tree among the
marked required terminals outside of it.  Its branch is a shortest path from the tree, and
it is the only required terminal on the branch. -/
structure NearestJoin (c : Growth ℚ) (t : Tree) (k : Nat) (d : ℚ) (t' : Tree) : Prop where
  terminal : k ∈ c.network.markedRequired
  outside : t.contains k = false
  distance : c.network.IsDistance c.arcCost t.nodes k d
  nearest : ∀ v ∈ c.network.markedRequired, t.contains v = false →
    ∀ e, c.network.IsDistance c.arcCost t.nodes v e → d ≤ e
  branch : ∃ as, t.Grafted c.network as k t' ∧ Network.pathLength c.arcCost as = d ∧
    ∀ a ∈ as, c.network.isRequired (c.network.headOf a) = true → c.network.headOf a = k

/-- The steps from `s₀` to `s` join these terminals in order, each at its distance, and the
other steps leave the tree as it is. -/
inductive Splits (c : Growth ℚ) (s₀ : State ℚ) : List (Nat × ℚ) → State ℚ → Prop
  /-- No step was made. -/
  | start : Splits c s₀ [] s₀
  /-- One more step left the tree as it is. -/
  | pass {joins : List (Nat × ℚ)} {s s' : State ℚ} (h : Splits c s₀ joins s)
      (hstep : c.settleNext s = .more s') (htree : s'.tree = s.tree) : Splits c s₀ joins s'
  /-- With one more step a terminal joined. -/
  | join {joins : List (Nat × ℚ)} {s s' : State ℚ} {k : Nat} {d : ℚ} (h : Splits c s₀ joins s)
      (hstep : c.settleNext s = .more s') (hjoin : NearestJoin c s.tree k d s'.tree) :
      Splits c s₀ (joins ++ [(k, d)]) s'

variable {c : Growth ℚ} {s s' s₀ : State ℚ} {t t' : Tree} {start k : Nat} {d : ℚ}
  {w : Workspace ℚ} {joins : List (Nat × ℚ)}

/-! ### One join -/

/-- No path out of the tree to a required terminal is shorter than the label of the node
that is extracted. -/
theorem Frontier.le_of_required (hc : Measured c) (h : Frontier c (fun _ => False) s)
    (hpop : s.space.popMin? = some (k, w)) {v : Nat} (hreq : c.network.isRequired v = true)
    (hout : s.tree.contains v = false) {u : Nat} (hu : s.tree.contains u = true)
    {as : List Nat} (hpath : c.network.IsMarkedPath u as v) :
    s.space.distOf k ≤ Network.pathLength c.arcCost as := by
  rcases h.popMin?_reaches hc hpop hu hpath with hv | hk
  · refine le_trans ?_ hv
    by_cases hvisited : s.space.isVisited v = true
    · -- a terminal with a label that is not connected still waits
      refine h.peekMin?_le (Workspace.peekMin?_of_popMin? hpop) ?_
      by_contra hwaits
      have hdeclined := (h.declined v hvisited hwaits hout).1
      rw [hreq] at hdeclined
      cases hdeclined
    · rw [(h.blank v (Bool.eq_false_iff.mpr hvisited)).1]
      exact h.near k
  · exact hk

/-- The branch of an extracted node is a path of new nodes that joins the tree. -/
theorem Sound.grafted (h : Sound c s) {vs : List Nat} (hbranch : Branch c.network s k vs)
    (hk : s.space.isVisited k = true) (hj : Joined vs s s') :
    ∃ as, s.tree.Grafted c.network as k s'.tree ∧
      Network.pathLength c.arcCost as ≤ s.space.distOf k ∧
      as.map c.network.headOf = vs.reverse := by
  obtain ⟨u, as, hu, hpath, hlen, hheads, hpreds⟩ := h.exists_path hbranch hk
  have hmem : ∀ v, v ∈ as.map c.network.headOf ↔ v ∈ vs := by
    intro v
    rw [hheads, List.mem_reverse]
  have hin : ∀ a ∈ as, c.network.headOf a ∈ vs := fun a ha =>
    (hmem _).mp (List.mem_map_of_mem ha)
  refine ⟨as, ⟨⟨u, hu, hpath⟩, fun a ha => ?_, ?_, fun v => ?_, fun a ha => ?_, fun v hv => ?_⟩,
    hlen, hheads⟩
  · exact Bool.eq_false_iff.mpr (hbranch.not_stop _ (hin a ha))
  · rw [hheads]
    exact List.nodup_reverse.mpr hbranch.nodup
  · rw [hj.contains, hmem]
  · rw [hj.entered _ (hin a ha), hpreds a ha]
  · exact hj.kept v (mt (hmem v).mpr hv)

/-- Whatever joins is a nearest terminal. -/
theorem Frontier.nearestJoin (hc : Measured c) (hrule : c.rule = .required)
    (h : Frontier c (fun _ => False) s) (hpop : s.space.popMin? = some (k, w))
    (hout : s.tree.contains k = false) (hworth : c.isWorth w s.tree k = true) :
    NearestJoin c s.tree k (s.space.distOf k) (c.connect k { s with space := w }).tree := by
  have hreq : c.network.isRequired k = true := by
    simpa [isWorth, hrule] using hworth
  have hleast : ∀ v, c.network.isRequired v = true → s.tree.contains v = false →
      ∀ u ∈ s.tree.nodes, ∀ as, c.network.IsMarkedPath u as v →
        s.space.distOf k ≤ Network.pathLength c.arcCost as :=
    fun v hv hvout u hu as hpath =>
      h.le_of_required hc hpop hv hvout (Tree.mem_nodes.mp hu) hpath
  obtain ⟨hsound, hk, q, rfl, -⟩ := h.toSound.popMin? hpop
  obtain ⟨vs, hbranch, -, -, hj, -⟩ := hsound.connect hk hout
  obtain ⟨as, hgraft, hlen, hheads⟩ := hsound.grafted hbranch hk hj
  obtain ⟨u, hu, hpath⟩ := hgraft.path
  have hlength : Network.pathLength c.arcCost as = s.space.distOf k :=
    le_antisymm hlen (hleast k hreq hout u (Tree.mem_nodes.mpr hu) as hpath)
  exact
    { terminal := mem_markedRequired.mpr ⟨hsound.node k hk, hreq, hsound.isMarked hk hout⟩
      outside := hout
      distance := ⟨⟨u, Tree.mem_nodes.mpr hu, as, hpath, hlength⟩, hleast k hreq hout⟩
      nearest := fun v hv hvout e he => by
        obtain ⟨x, hx, bs, hbs, rfl⟩ := he.attained
        exact hleast v (mem_markedRequired.mp hv).2.1 hvout x hx bs hbs
      branch := ⟨as, hgraft, hlength, fun a ha hra => by
        have hmem : c.network.headOf a ∈ vs := by
          rw [← List.mem_reverse, ← hheads]
          exact List.mem_map_of_mem ha
        exact h.eq_of_isRequired hbranch hk hmem hra⟩ }

/-! ### The account of a growth -/

/-- What the joins of a growth from `start` say about its tree. -/
structure Account (c : Growth ℚ) (start : Nat) (joins : List (Nat × ℚ)) (t : Tree) : Prop where
  rooted : t.RootedAt c.network start
  /-- The tree costs the sum of the distances. -/
  cost : Network.pathLength c.arcCost t.treeArcs = (joins.map Prod.snd).sum
  /-- No terminal joined twice. -/
  nodup : (joins.map Prod.fst).Nodup
  /-- Each is in the tree, and was no farther from it than it is from the start. -/
  joined : ∀ j ∈ joins, t.contains j.1 = true ∧ c.network.isRequired j.1 = true ∧
    ∀ e, c.network.IsDistance c.arcCost [start] j.1 e → j.2 ≤ e
  useful : t.Useful c.network

/-- With one more branch the tree costs its length more. -/
theorem Account.graft (h : Account c start joins t) (hjoin : NearestJoin c t k d t')
    (hrooted : t'.RootedAt c.network start) : Account c start (joins ++ [(k, d)]) t' := by
  obtain ⟨as, hgraft, hlen, -⟩ := hjoin.branch
  have hentering := h.rooted.entering
  have hreq := (mem_markedRequired.mp hjoin.terminal).2.1
  refine ⟨hrooted, ?_, ?_, fun j hj => ?_, hgraft.useful hentering h.useful hreq⟩
  · have hperm := (hgraft.perm_treeArcs hentering hrooted.entering).map c.arcCost
    rw [Network.pathLength, hperm.sum_eq, ← Network.pathLength, Network.pathLength_append, h.cost,
      hlen]
    simp
  · rw [List.map_append, List.map_singleton]
    refine List.nodup_append.mpr ⟨h.nodup, List.nodup_singleton _, ?_⟩
    intro v hv x hx
    obtain ⟨j, hj, rfl⟩ := List.mem_map.mp hv
    rw [List.mem_singleton.mp hx]
    -- a terminal that joined before is in the tree
    rintro rfl
    have hin := (h.joined j hj).1
    rw [hjoin.outside] at hin
    cases hin
  · rcases List.mem_append.mp hj with hj | hj
    · obtain ⟨hin, hrest⟩ := h.joined j hj
      exact ⟨(hgraft.contains _).mpr (Or.inr hin), hrest⟩
    · rw [List.mem_singleton.mp hj]
      refine ⟨hgraft.contains_end, hreq, fun e he => ?_⟩
      obtain ⟨x, hx, bs, hbs, rfl⟩ := he.attained
      rw [List.mem_singleton] at hx
      exact hjoin.distance.least x (Tree.mem_nodes.mpr (hx ▸ h.rooted.root.1)) bs hbs

/-- The tree of a start alone has no arcs. -/
theorem account_start (hstart : start < c.network.nodeCount) :
    Account c start [] ((Tree.empty c.network.nodeCount).connect start none) := by
  refine ⟨Tree.rootedAt_start hstart, ?_, List.nodup_nil, fun j hj => absurd hj List.not_mem_nil,
    fun v a hpred => ?_⟩
  · rw [Tree.treeArcs_start hstart]
    rfl
  · rw [Tree.predOf_start hstart] at hpred
    cases hpred

/-- The distances of the joins are together no more than those of the required terminals
from the start. -/
theorem Account.exists_distances (hc : Measured c) (h : Account c start joins t) :
    ∃ δ : Nat → ℚ, (∀ v ∈ t.nodes, c.network.isRequired v = true →
        c.network.IsDistance c.arcCost [start] v (δ v)) ∧
      (joins.map Prod.snd).sum ≤ ((t.nodes.filter c.network.isRequired).map δ).sum := by
  have hex : ∀ v, ∃ e, t.contains v = true → c.network.IsDistance c.arcCost [start] v e := by
    intro v
    by_cases hv : t.contains v = true
    · obtain ⟨as, has⟩ := h.rooted.isReachable hv
      obtain ⟨e, he⟩ := Network.exists_isDistance (fun a ha => hc.isWhole ha) has
      exact ⟨e, fun _ => he⟩
    · exact ⟨0, fun hin => absurd hin hv⟩
  choose δ hδ using hex
  refine ⟨δ, fun v hv _ => hδ v (Tree.mem_nodes.mp hv), ?_⟩
  have hmem : joins.map Prod.fst ⊆ t.nodes.filter c.network.isRequired := by
    intro v hv
    obtain ⟨j, hj, rfl⟩ := List.mem_map.mp hv
    obtain ⟨hin, hreq, -⟩ := h.joined j hj
    exact List.mem_filter.mpr ⟨Tree.mem_nodes.mpr hin, hreq⟩
  obtain ⟨l, hperm, hsub⟩ := h.nodup.subperm hmem
  calc (joins.map Prod.snd).sum
      ≤ (joins.map fun j => δ j.1).sum := List.sum_le_sum fun j hj => by
        obtain ⟨hin, -, hle⟩ := h.joined j hj
        exact hle _ (hδ j.1 hin)
    _ = (l.map δ).sum := by
        rw [(hperm.map δ).sum_eq, List.map_map]
        rfl
    _ ≤ ((t.nodes.filter c.network.isRequired).map δ).sum := by
        refine List.Sublist.sum_le_sum (hsub.map δ) fun x hx => ?_
        obtain ⟨v, hv, rfl⟩ := List.mem_map.mp hx
        have hin := Tree.mem_nodes.mp (List.mem_filter.mp hv).1
        obtain ⟨u, -, as, has, hlen⟩ := (hδ v hin).attained
        rw [← hlen]
        exact Network.pathLength_nonneg fun a ha => hc.nonneg (has.path.lt_arcCount a ha)

/-! ### Runs -/

/-- With every step a nearest terminal joins, or the tree is left as it is. -/
theorem Frontier.settleNext_joins (hc : Measured c) (hrule : c.rule = .required)
    (hs : Frontier c (fun _ => False) s) (hrooted : s.tree.RootedAt c.network start)
    (hstep : c.settleNext s = .more s') :
    s'.tree.RootedAt c.network start ∧
      (s'.tree = s.tree ∨ ∃ k d, NearestJoin c s.tree k d s'.tree) := by
  have hmove := settleNext_cases c s
  rw [hstep] at hmove
  cases hmove with
  | @joins k w hpop _ hout hworth =>
    have hjoin := hs.nearestJoin hc hrule hpop hout hworth
    obtain ⟨hsound, hk, -⟩ := hs.toSound.popMin? hpop
    obtain ⟨vs, hbranch, -, hs', hj, -⟩ := hsound.connect hk hout
    exact ⟨Tree.RootedAt.joined (s := { s with space := w }) hrooted hsound hs' hbranch hk hj,
      Or.inr ⟨k, _, hjoin⟩⟩
  | expands hpop _ _ hexpand =>
    obtain ⟨hsound, hk, -⟩ := hs.toSound.popMin? hpop
    obtain ⟨s₁, hs₁, -, htree, -⟩ := hsound.expand_frame hc hk
    rw [hs₁, Progress.more.injEq] at hexpand
    subst hexpand
    exact ⟨htree ▸ hrooted, Or.inl htree⟩

theorem Splits.step (hc : Measured c) (hrule : c.rule = .required) (h : Splits c s₀ joins s)
    (hs : Frontier c (fun _ => False) s) (haccount : Account c start joins s.tree)
    (hstep : c.settleNext s = .more s') :
    ∃ joins', Splits c s₀ joins' s' ∧ Account c start joins' s'.tree := by
  obtain ⟨hrooted, htree | ⟨k, d, hjoin⟩⟩ := hs.settleNext_joins hc hrule haccount.rooted hstep
  · exact ⟨joins, h.pass hstep htree, htree ▸ haccount⟩
  · exact ⟨_, h.join hstep hjoin, haccount.graft hjoin hrooted⟩

/-- **The nearest terminal joins next.**  A growth that connects required terminals splits into
joins of terminals, each of which is nearest to the tree at that time and comes with a
shortest path that meets no other required terminal.  So the tree costs the sum of these
distances, which is at most the sum of the distances of its required terminals from the
start, and pruning removes nothing. -/
theorem growFrom_joins_nearest (hrule : c.rule = .required) (hnet : c.network.Built)
    (hcost : ∀ a, a < c.network.arcCount → ∃ n : ℕ, c.costs a = some (n : ℚ))
    (hstart : start < c.network.nodeCount) (hw : w.Ready)
    (hroom : c.network.nodeCount ≤ w.capacity) :
    ∃ w₀ s outcome joins, seed w start = .ok w₀ ∧
      Splits c (c.initial ((Tree.empty c.network.nodeCount).connect start none) w₀) joins s ∧
      c.settleNext s = .done () s ∧
      c.growFrom start w = .ok (outcome, s.tree, s.space.reset) ∧
      s.tree.cost c.costs = .ok (joins.map Prod.snd).sum ∧
      (∃ δ : Nat → ℚ, (∀ v ∈ s.tree.nodes, c.network.isRequired v = true →
          c.network.IsDistance c.arcCost [start] v (δ v)) ∧
        (joins.map Prod.snd).sum ≤ ((s.tree.nodes.filter c.network.isRequired).map δ).sum) ∧
      s.tree.prune c.network c.costs = .ok (0, s.tree) := by
  have hc : Measured c := ⟨hnet.wellFormed.toLinked, hcost⟩
  obtain ⟨w₀, hseed, hfrontier⟩ := frontier_start hw hroom hstart
  obtain ⟨s, hends, hrun, -⟩ := hfrontier.toSound.ends hc
  have hlast := hends.ensures
    (I := fun s => Frontier c (fun _ => False) s ∧ ∃ joins,
      Splits c (c.initial ((Tree.empty c.network.nodeCount).connect start none) w₀) joins s ∧
        Account c start joins s.tree)
    ⟨hfrontier, [], .start, account_start hstart⟩ fun s s' ⟨hs, joins, hsplits, haccount⟩ hstep =>
      ⟨hs.settleNext hc hstep, hsplits.step hc hrule hs haccount hstep⟩
  obtain ⟨s₁, ⟨hs₁, joins, hsplits, haccount⟩, hdone⟩ := hlast
  obtain ⟨rfl, -⟩ := hs₁.toSound.of_done hc hdone
  have hentering := haccount.rooted.entering
  refine ⟨w₀, s, .ofMissing s.openRequired, joins, hseed, hsplits, hdone,
    growFrom_eq hstart hseed hrun, ?_, haccount.exists_distances hc,
    Tree.prune_eq_self hc.linked hentering haccount.useful⟩
  rw [Tree.cost_eq hc hentering, haccount.cost]

/-- From node 0 over an edge of length 2 to the terminal 1, and from there over an edge of
length 3 to the terminal 2. -/
theorem growFrom_joins_nearest_on_chain :
    let chain := (((Network.empty 3).pushArc 0 1 (2 : ℚ)).pushArc 1 0 2).pushArc 1 2 3
    let g := { chain.pushArc 2 1 3 with kind := #[.steiner, .proper, .proper] }
    let c : Growth ℚ := ⟨g, .ofArray g.cost, .required⟩
    ∃ (outcome : GrowthOutcome) (s : State ℚ) (joins : List (Nat × ℚ)),
      c.growFrom 0 (.fresh 3 0) = .ok (outcome, s.tree, s.space.reset) ∧
      s.tree.cost c.costs = .ok (joins.map Prod.snd).sum ∧
      s.tree.prune g c.costs = .ok (0, s.tree) := by
  intro chain g c
  have hone : (Network.empty 3).addArcPair 0 1 (2 : ℚ) 2 =
      .ok (0, ((Network.empty 3).pushArc 0 1 2).pushArc 1 0 2) := rfl
  have htwo : (((Network.empty 3).pushArc 0 1 (2 : ℚ)).pushArc 1 0 2).addArcPair 1 2 3 3 =
      .ok (1, chain.pushArc 2 1 3) := rfl
  have hkind₁ : (chain.pushArc 2 1 3).setTerminal 1 .proper =
      .ok { chain.pushArc 2 1 3 with kind := #[.steiner, .proper, .steiner] } := rfl
  have hkind₂ : { chain.pushArc 2 1 3 with
      kind := #[.steiner, .proper, .steiner] }.setTerminal 2 .proper = .ok g := rfl
  have hbuilt : c.network.Built :=
    ((((Network.Built.empty 3).addArcPair hone).addArcPair htwo).setTerminal hkind₁).setTerminal
      hkind₂
  have hcost : ∀ a, a < c.network.arcCount → ∃ n : ℕ, c.costs a = some (n : ℚ) := by
    intro a ha
    change a < 4 at ha
    obtain rfl | rfl | rfl | rfl : a = 0 ∨ a = 1 ∨ a = 2 ∨ a = 3 := by omega
    · exact ⟨2, rfl⟩
    · exact ⟨2, rfl⟩
    · exact ⟨3, rfl⟩
    · exact ⟨3, rfl⟩
  have hstart : 0 < c.network.nodeCount := by decide
  obtain ⟨w₀, s, outcome, joins, -, -, -, hgrow, htotal, -, hprune⟩ :=
    growFrom_joins_nearest rfl hbuilt hcost hstart (Workspace.fresh_ready 3 0) (by decide)
  exact ⟨outcome, s, joins, hgrow, htotal, hprune⟩

end Growth

end SteinerSearch
