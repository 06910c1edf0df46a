import SteinerSearch.Proofs.Tree.Exhaustion
import SteinerSearch.Proofs.Tree.Nearest
import SteinerSearch.Proofs.Tree.Values

/-!
# Extended trees

An optional terminal is connected if prizes pay for its branch.  They are the prizes of optional
terminals on this very branch, so joining it does not raise the value of the tree: the length of
the branch is no more than the label, and the label no more than the prizes.  A tree with all
required terminals can only be extended in this way.  It need not have one root: what was in it
keeps its arc, and each new branch hangs from it.

## Main definitions

* `Tree.Enlarged g cost t added t'` — `t'` is `t` with `added` more nodes, and no worse.

## Main results

* `Growth.creditedPrize_le` — only prizes on the branch are credited.
* `Growth.Sound.connect_enlarged` — a branch that is paid for makes the tree no worse.
* `Growth.growFrom_noWorse` — nor is a tree that is grown worse than its start alone.
* `Growth.extend_noWorse` — an extended tree is no worse.
* `Growth.extend_conservative` — what an extension keeps and what it counts.
-/

namespace SteinerSearch

/-- As many numbers satisfy `p` as are listed in `vs`, which has each of them once. -/
theorem countP_eq_length {p : Nat → Bool} {l vs : List Nat} (hl : l.Nodup) (hvs : vs.Nodup)
    (hp : ∀ v, v ∈ l ∧ p v = true ↔ v ∈ vs) : l.countP p = vs.length := by
  rw [List.countP_eq_length_filter]
  refine List.Perm.length_eq ((List.perm_ext_iff_of_nodup (hl.filter p) hvs).mpr fun v => ?_)
  rw [List.mem_filter, hp]

namespace Tree

variable {g : Network ℚ} {cost : Nat → ℚ} {t t' t'' : Tree} {start m n : Nat}

/-- `t'` is `t` with `added` more nodes.  They are marked and hang from `t`, and the value of the
tree is no larger with them. -/
structure Enlarged (g : Network ℚ) (cost : Nat → ℚ) (t : Tree) (added : Nat) (t' : Tree) :
    Prop where
  forest : t'.IsForest g
  /-- Every node stays, with its arc. -/
  kept : ∀ v, t.contains v = true → t'.contains v = true ∧ t'.predOf v = t.predOf v
  /-- No new node is a root. -/
  fresh : ∀ v, t'.contains v = true → t.contains v = false →
    g.isMarked v = true ∧ t'.predOf v ≠ none
  count : g.nodes.countP (fun v => t'.contains v && !t.contains v) = added
  value_le : t'.value g cost ≤ t.value g cost

theorem Enlarged.refl (h : t.IsForest g) : Enlarged g cost t 0 t where
  forest := h
  kept _ hv := ⟨hv, rfl⟩
  fresh _ hv hout := absurd (hout.symm.trans hv) Bool.false_ne_true
  count := by simp
  value_le := le_rfl

theorem Enlarged.trans (h : Enlarged g cost t m t') (h' : Enlarged g cost t' n t'') :
    Enlarged g cost t (m + n) t'' where
  forest := h'.forest
  kept v hv := by
    obtain ⟨hv', hpred⟩ := h.kept v hv
    exact ⟨(h'.kept v hv').1, (h'.kept v hv').2.trans hpred⟩
  fresh v hv hout := by
    by_cases hv' : t'.contains v = true
    · rw [(h'.kept v hv').2]
      exact h.fresh v hv' hout
    · exact h'.fresh v hv (Bool.eq_false_iff.mpr hv')
  count := by
    -- a new node is new in the one tree or in the other
    rw [List.countP_eq_countP_filter_add _ _ t'.contains, List.countP_filter, List.countP_filter,
      ← h.count, ← h'.count]
    congr 1
    · refine List.countP_congr fun v _ => ?_
      have hin := fun hv => (h'.kept v hv).1
      simp only [Bool.and_eq_true]
      tauto
    · refine List.countP_congr fun v _ => ?_
      have hin := fun hv => (h.kept v hv).1
      simp only [Bool.and_eq_true, Bool.not_eq_true', ← Bool.not_eq_true]
      tauto
  value_le := h'.value_le.trans h.value_le

/-- The root stays the only one. -/
theorem Enlarged.noWorse (h : Enlarged g cost t n t') (hrooted : t.RootedAt g start) :
    NoWorse g cost start t t' where
  sized := h.forest.sized
  rooted := by
    refine h.forest.rootedAt (h.kept start hrooted.root.1).1 (fun v hv => ?_) fun v hv hne => ?_
    · by_cases hold : t.contains v = true
      · rw [(h.kept v hold).2]
        exact hrooted.predOf_eq_none_iff hold
      · refine iff_of_false (h.fresh v hv (Bool.eq_false_iff.mpr hold)).2 ?_
        rintro rfl
        exact hold hrooted.root.1
    · by_cases hold : t.contains v = true
      · exact (hrooted.entered v hold hne).1
      · exact (h.fresh v hv (Bool.eq_false_iff.mpr hold)).1
  required v _ hv := (h.kept v hv).1
  value_le := h.value_le

end Tree

namespace Growth

variable {c : Growth ℚ} {credit : Credit} {s s' : State ℚ} {t : Tree} {start k v : Nat}
  {vs : List Nat} {w : Workspace ℚ}

/-! ### Credited prizes -/

/-- The prizes along a labeled path are those of the optional terminals on its branch. -/
theorem prizeAlong_eq {g : Network ℚ} (hbranch : Branch g s v vs) :
    ∀ {fuel : Nat} (prize : ℚ), s.tree.contains v = false → vs.length ≤ fuel →
      prizeAlong g s.space s.tree fuel v prize = prize + g.optionalPrizes vs.tail := by
  induction hbranch with
  | stop hv =>
    intro fuel prize hout
    exact absurd (hout.symm.trans hv) Bool.false_ne_true
  | @cons v u vs hv hnext hrest ih =>
    intro fuel prize _ hfuel
    rw [List.length_cons] at hfuel
    obtain ⟨fuel, rfl⟩ : ∃ n, fuel = n + 1 := ⟨fuel - 1, by omega⟩
    obtain ⟨a, hpred, rfl⟩ := Option.map_eq_some_iff.mp hnext
    rw [prizeAlong, hpred, List.tail_cons]
    dsimp only
    cases hrest with
    | stop hu => rw [if_pos hu, Network.optionalPrizes_nil, add_zero]
    | cons hu hnext' hrest' =>
      rw [if_neg hu, ih _ (Bool.eq_false_iff.mpr hu) (by omega), Network.optionalPrizes_cons,
        List.tail_cons]
      split <;> linarith

/-- Only prizes of optional terminals on the branch are credited. -/
theorem creditedPrize_le
    (hprize : ∀ v, v < c.network.nodeCount → Weight.IsWhole (c.network.prizeOf v))
    (h : Sound c s) (hk : s.space.isVisited k = true) (hout : s.tree.contains k = false)
    (hpseudo : c.network.isPseudo k = true) (hbranch : Branch c.network s k vs) :
    c.creditedPrize credit s.space s.tree k ≤ c.network.optionalPrizes vs := by
  have hnode : ∀ u ∈ vs, u < c.network.nodeCount := fun u hu =>
    h.node u (h.isVisited_of_branch hbranch hk u hu)
  have hlen : vs.length ≤ c.network.nodeCount := hbranch.length_le hnode
  have hvs : vs = k :: vs.tail := by
    cases hbranch with
    | stop hin => exact absurd (hout.symm.trans hin) Bool.false_ne_true
    | cons _ _ _ => rfl
  have hsum : c.network.optionalPrizes vs =
      c.network.prizeOf k + c.network.optionalPrizes vs.tail := by
    conv_lhs => rw [hvs]
    rw [Network.optionalPrizes_cons, if_pos hpseudo]
  rw [hsum]
  cases credit with
  | targetOnly =>
    have hrest : Weight.IsWhole (c.network.optionalPrizes vs.tail) :=
      Network.isWhole_optionalPrizes fun u hu => hprize u (hnode u (List.mem_of_mem_tail hu))
    have hnonneg := hrest.nonneg
    show c.network.prizeOf k ≤ _
    linarith
  | alongPath => exact (prizeAlong_eq hbranch _ hout hlen).le

/-! ### A branch that is paid for -/

/-- A terminal that is not required only joins if its credits pay for its branch. -/
theorem exists_credit_of_isWorth (hreq : c.network.isRequired k = false)
    (hworth : c.isWorth w t k = true) :
    ∃ credit, c.rule = .profitable credit ∧ c.network.isPseudo k = true ∧
      Weight.atLeast (c.creditedPrize credit w t k) (w.distOf k) = true := by
  unfold isWorth at hworth
  rw [hreq, Bool.false_or] at hworth
  cases hrule : c.rule with
  | required =>
    rw [hrule] at hworth
    cases hworth
  | profitable credit =>
    rw [hrule] at hworth
    exact ⟨credit, rfl, Bool.and_eq_true_iff.mp hworth⟩

/-- When no required terminal is open, a branch that joins is paid for by prizes on it. -/
theorem Sound.dist_le_optionalPrizes
    (hprize : ∀ v, v < c.network.nodeCount → Weight.IsWhole (c.network.prizeOf v))
    (h : Sound c s) (hall : ∀ v ∈ c.network.markedRequired, s.tree.contains v = true)
    (hk : s.space.isVisited k = true) (hout : s.tree.contains k = false)
    (hworth : c.isWorth s.space s.tree k = true) (hbranch : Branch c.network s k vs) :
    s.space.distOf k ≤ c.network.optionalPrizes vs := by
  have hnode := h.isVisited_of_branch hbranch hk
  have hreq : c.network.isRequired k = false := by
    by_contra hreq
    rw [Bool.not_eq_false] at hreq
    have hin := hall k (mem_markedRequired.mpr ⟨h.node k hk, hreq, h.isMarked hk hout⟩)
    rw [hout] at hin
    cases hin
  obtain ⟨credit, -, hpseudo, hpaid⟩ := exists_credit_of_isWorth hreq hworth
  have hwhole : Weight.IsWhole (c.network.optionalPrizes vs) :=
    Network.isWhole_optionalPrizes fun u hu => hprize u (h.node u (hnode u hu))
  have hle : c.creditedPrize credit s.space s.tree k ≤ c.network.optionalPrizes vs :=
    creditedPrize_le hprize h hk hout hpseudo hbranch
  exact (Weight.atLeast_iff (hwhole.apart (h.whole k))).mp (Weight.atLeast_mono hle hpaid)

/-- A branch that is paid for makes the tree no worse. -/
theorem Sound.connect_enlarged (hc : Measured c)
    (hprize : ∀ v, v < c.network.nodeCount → Weight.IsWhole (c.network.prizeOf v))
    (h : Sound c s) (hforest : s.tree.IsForest c.network)
    (hall : ∀ v ∈ c.network.markedRequired, s.tree.contains v = true)
    (hk : s.space.isVisited k = true) (hout : s.tree.contains k = false)
    (hworth : c.isWorth s.space s.tree k = true) :
    ∃ n, (c.connect k s).added = s.added + n ∧
      Tree.Enlarged c.network c.arcCost s.tree n (c.connect k s).tree := by
  obtain ⟨vs, hbranch, -, hs', hj, -⟩ := h.connect hk hout
  obtain ⟨as, hgraft, hlen, hheads⟩ := h.grafted hbranch hk hj
  have hforest' := hforest.joined h hs' hbranch hk hj
  have hpaid := h.dist_le_optionalPrizes hprize hall hk hout hworth hbranch
  have hvalue := Tree.Grafted.value_eq c.arcCost hc.linked hgraft hforest.entering
    hforest'.entering
  rw [hheads, Network.optionalPrizes_perm vs.reverse_perm] at hvalue
  have hnew : ∀ v, (c.connect k s).tree.contains v = true ∧ s.tree.contains v = false ↔ v ∈ vs := by
    intro v
    rw [hj.contains, ← Bool.not_eq_true]
    have hopen := hbranch.not_stop v
    tauto
  refine ⟨vs.length, h.added_connect hk hbranch, hforest', fun v => Tree.kept_joined hbranch hj,
    fun v hv hopen => ?_, countP_eq_length List.nodup_range hbranch.nodup fun v => ?_, by linarith⟩
  · obtain ⟨hmark, a, hpred, -⟩ :=
      Tree.entered_joined h hbranch hk hj ((hnew v).mp ⟨hv, hopen⟩)
    exact ⟨hmark, by rw [hpred]; exact Option.some_ne_none a⟩
  · rw [Bool.and_eq_true, Bool.not_eq_true', hnew]
    exact and_iff_right_of_imp fun hv => List.mem_range.mpr
      (hs'.treeSized.lt_of_contains ((hj.contains v).mpr (Or.inl hv)))

/-! ### Runs -/

section Runs

variable (hc : Measured c)
  (hprize : ∀ v, v < c.network.nodeCount → Weight.IsWhole (c.network.prizeOf v))

include hc hprize

/-- Every step of a growth leaves the tree no worse, if no required terminal is open. -/
theorem Sound.settleNext_enlarged (h : Sound c s)
    (hall : ∀ v ∈ c.network.markedRequired, s.tree.contains v = true)
    (hforest : s.tree.IsForest c.network) (hstep : c.settleNext s = .more s') :
    Sound c s' ∧ ∃ n, s'.added = s.added + n ∧
      Tree.Enlarged c.network c.arcCost s.tree n s'.tree := by
  have hmove := settleNext_cases c s
  rw [hstep] at hmove
  cases hmove with
  | @joins k w hpop _ hout hworth =>
    obtain ⟨hsound, hk, -⟩ := h.popMin? hpop
    obtain ⟨-, -, -, hs', -⟩ := hsound.connect hk hout
    exact ⟨hs', hsound.connect_enlarged hc hprize hforest hall hk hout hworth⟩
  | expands hpop _ _ hexpand =>
    obtain ⟨hsound, hk, -⟩ := h.popMin? hpop
    obtain ⟨s₁, hs₁, hsound₁, htree, hadded, -⟩ := hsound.expand_frame hc hk
    rw [hs₁, Progress.more.injEq] at hexpand
    subst hexpand
    rw [htree]
    exact ⟨hsound₁, 0, hadded, .refl hforest⟩

/-- A run from the nodes of a tree with all required terminals leaves it no worse, and counts the
nodes that it adds. -/
theorem Sound.run_enlarged (h : Sound c (c.initial t w))
    (hall : ∀ v ∈ c.network.markedRequired, t.contains v = true)
    (hforest : t.IsForest c.network) :
    ∃ s, Progress.run c.settleNext () (fuel c.network) (c.initial t w) = .ok ((), s) ∧
      Tree.Enlarged c.network c.arcCost t s.added s.tree := by
  obtain ⟨s, hends, hrun, -⟩ := h.ends hc
  have hlast := hends.ensures
    (I := fun s => Sound c s ∧ Tree.Enlarged c.network c.arcCost t s.added s.tree)
    ⟨h, .refl hforest⟩ ?_
  · obtain ⟨s₁, ⟨hs₁, hlarger⟩, hdone⟩ := hlast
    obtain ⟨rfl, -⟩ := hs₁.of_done hc hdone
    exact ⟨s, hrun, hlarger⟩
  · rintro s s' ⟨hs, hlarger⟩ hstep
    have hkeeps : ∀ v ∈ c.network.markedRequired, s.tree.contains v = true := fun v hv =>
      (hlarger.kept v (hall v hv)).1
    obtain ⟨hs', n, hadded, hstep'⟩ := hs.settleNext_enlarged hc hprize hkeeps hlarger.forest hstep
    rw [hadded]
    exact ⟨hs', hlarger.trans hstep'⟩

/-- A growth from a start with all required terminals is no worse than the start alone. -/
theorem growFrom_noWorse (hall : ∀ v ∈ c.network.markedRequired, v = start)
    (hstart : start < c.network.nodeCount) (hw : w.Ready)
    (hroom : c.network.nodeCount ≤ w.capacity) :
    ∃ outcome t w', c.growFrom start w = .ok (outcome, t, w') ∧
      Tree.NoWorse c.network c.arcCost start
        ((Tree.empty c.network.nodeCount).connect start none) t := by
  obtain ⟨w₀, hseed, hfrontier⟩ := frontier_start hw hroom hstart
  have hrooted := Tree.rootedAt_start (g := c.network) hstart
  obtain ⟨s, hrun, hlarger⟩ := hfrontier.toSound.run_enlarged hc hprize
    (fun v hv => hall v hv ▸ hrooted.root.1) (hrooted.isForest hfrontier.treeSized)
  exact ⟨_, _, _, growFrom_eq hstart hseed hrun, hlarger.noWorse hrooted⟩

/-- Rounds of extensions of a forest with all required terminals leave it no worse. -/
theorem extendRounds_enlarged (rounds : Nat) :
    ∀ {t : Tree} {w : Workspace ℚ}, (∀ v ∈ c.network.markedRequired, t.contains v = true) →
      t.IsForest c.network → w.Ready → c.network.nodeCount ≤ w.capacity →
      ∃ added t' w', c.extendRounds rounds t w = .ok (added, t', w') ∧
        Tree.Enlarged c.network c.arcCost t added t' := by
  induction rounds with
  | zero => exact fun _ hforest _ _ => ⟨0, _, _, rfl, .refl hforest⟩
  | succ rounds ih =>
    intro t w hall hforest hw hroom
    have hnode : ∀ v ∈ t.nodes, v < w.capacity := fun v hv =>
      lt_of_lt_of_le (hforest.sized.lt_of_contains (Tree.mem_nodes.mp hv)) hroom
    obtain ⟨w₀, hseed, hsources⟩ := seeds_ok hw hnode
    have hstart : Frontier c (fun _ => False) (c.initial t w₀) :=
      frontier_initial hforest.sized hroom hsources fun v => Tree.mem_nodes
    obtain ⟨s₁, hrun, hlarger⟩ := hstart.toSound.run_enlarged hc hprize hall hforest
    obtain ⟨s, hgrow, htree, hadded⟩ :
        ∃ s, c.grow t w₀ = .ok s ∧ s.tree = s₁.tree ∧ s.added = s₁.added :=
      ⟨_, grow_eq hrun, rfl, rfl⟩
    rw [← htree, ← hadded] at hlarger
    obtain ⟨hready, hcap⟩ :=
      grow_ready hc hw hroom hforest.sized (fun v hv => Tree.mem_nodes.mp hv) hseed hgrow
    rw [extendRounds, hseed, ok_bind, hgrow, ok_bind]
    split
    · next hnone =>
      rw [hnone] at hlarger
      exact ⟨0, s.tree, s.space, rfl, hlarger⟩
    · have hkeeps : ∀ v ∈ c.network.markedRequired, s.tree.contains v = true := fun v hv =>
        (hlarger.kept v (hall v hv)).1
      obtain ⟨added, t', w', hmore, hlarger'⟩ :=
        ih hkeeps hlarger.forest hready (hroom.trans_eq hcap.symm)
      rw [hmore]
      exact ⟨_, t', w', rfl, hlarger.trans hlarger'⟩

/-- An extended tree is no worse, if it had all required terminals. -/
theorem extend_noWorse (rounds : Nat)
    (hall : ∀ v ∈ c.network.markedRequired, t.contains v = true)
    (hsized : t.Sized c.network.nodeCount) (hrooted : t.RootedAt c.network start) (hw : w.Ready)
    (hroom : c.network.nodeCount ≤ w.capacity) :
    ∃ added t' w', c.extend rounds t w = .ok (added, t', w') ∧
      Tree.NoWorse c.network c.arcCost start t t' := by
  obtain ⟨added, t', w', hextend, hlarger⟩ :=
    extendRounds_enlarged hc hprize _ hall (hrooted.isForest hsized) hw hroom
  exact ⟨added, t', w', hextend, hlarger.noWorse hrooted⟩

end Runs

/-- **An extension is conservative.**  A forest with all marked required terminals is extended to
a forest that keeps its nodes and their arcs.  The nodes that join are counted, and the objective
does not rise, whatever prizes are credited and however many rounds are asked for. -/
theorem extend_conservative {g : Network ℚ} {costs : CostView ℚ} (credit : Credit) (rounds : Nat)
    (hnet : g.Built) (hcost : ∀ a, a < g.arcCount → ∃ n : ℕ, costs a = some (n : ℚ))
    (hprize : ∀ v, v < g.nodeCount → ∃ n : ℕ, g.prizeOf v = n) (ht : t.IsForest g)
    (hall : ∀ v ∈ g.markedRequired, t.contains v = true) (hw : w.Ready)
    (hroom : g.nodeCount ≤ w.capacity) :
    ∃ added t' w' x x', extend ⟨g, costs, .profitable credit⟩ rounds t w = .ok (added, t', w') ∧
      t'.IsForest g ∧
      (∀ v, t.contains v = true → t'.contains v = true ∧ t'.predOf v = t.predOf v) ∧
      added = g.nodes.countP (fun v => t'.contains v && !t.contains v) ∧
      t.objective g costs = .ok x ∧ t'.objective g costs = .ok x' ∧ x' ≤ x := by
  have hc : Measured ⟨g, costs, .profitable credit⟩ := ⟨hnet.wellFormed.toLinked, hcost⟩
  obtain ⟨added, t', w', hextend, hlarger⟩ :=
    extendRounds_enlarged hc hprize _ hall ht hw hroom
  exact ⟨added, t', w', _, _, hextend, hlarger.forest, hlarger.kept, hlarger.count.symm,
    Tree.objective_eq hc ht.entering, Tree.objective_eq hc hlarger.forest.entering,
    hlarger.value_le⟩

/-- Two roots, with a prize of 3 between them at distance 2 from each. -/
theorem extend_conservative_between_roots :
    let chain := (((Network.empty 3).pushArc 0 1 (2 : ℚ)).pushArc 1 0 2).pushArc 1 2 2
    let g := { chain.pushArc 2 1 2 with
      kind := #[.steiner, .pseudo, .steiner], prize := #[0, 3, 0] }
    let t : Tree := ⟨#[true, false, true], #[none, none, none]⟩
    ∃ added t' w x x',
      extend ⟨g, .ofArray g.cost, .profitable .alongPath⟩ 1 t (.fresh 3 0) = .ok (added, t', w) ∧
      t'.IsForest g ∧ t'.contains 0 = true ∧ t'.contains 2 = true ∧
      added = g.nodes.countP (fun v => t'.contains v && !t.contains v) ∧
      t.objective g (.ofArray g.cost) = .ok x ∧ t'.objective g (.ofArray g.cost) = .ok x' ∧
      x' ≤ x := by
  intro chain g t
  have hone : (Network.empty 3).addArcPair 0 1 (2 : ℚ) 2 =
      .ok (0, ((Network.empty 3).pushArc 0 1 2).pushArc 1 0 2) := rfl
  have htwo : (((Network.empty 3).pushArc 0 1 (2 : ℚ)).pushArc 1 0 2).addArcPair 1 2 2 2 =
      .ok (1, chain.pushArc 2 1 2) := rfl
  have hkind : (chain.pushArc 2 1 2).setTerminal 1 .pseudo =
      .ok { chain.pushArc 2 1 2 with kind := #[.steiner, .pseudo, .steiner] } := rfl
  have hset : { chain.pushArc 2 1 2 with
      kind := #[.steiner, .pseudo, .steiner] }.setPrize 1 3 = .ok g := rfl
  have hbuilt : g.Built :=
    ((((Network.Built.empty 3).addArcPair hone).addArcPair htwo).setTerminal hkind).setPrize hset
  have hcost : ∀ a, a < g.arcCount → ∃ n : ℕ, CostView.ofArray g.cost a = some (n : ℚ) := by
    intro a ha
    change a < 4 at ha
    refine ⟨2, ?_⟩
    obtain rfl | rfl | rfl | rfl : a = 0 ∨ a = 1 ∨ a = 2 ∨ a = 3 := by omega
    all_goals rfl
  have hprize : ∀ v, v < g.nodeCount → ∃ n : ℕ, g.prizeOf v = n := by
    intro v hv
    change v < 3 at hv
    obtain rfl | rfl | rfl : v = 0 ∨ v = 1 ∨ v = 2 := by omega
    · exact ⟨0, rfl⟩
    · exact ⟨3, rfl⟩
    · exact ⟨0, rfl⟩
  have hroots : ∀ v, t.predOf v = none := by
    intro v
    by_cases hv : v < 3
    · obtain rfl | rfl | rfl : v = 0 ∨ v = 1 ∨ v = 2 := by omega
      all_goals rfl
    · exact Array.getD_of_size_le (Nat.le_of_not_lt hv) _
  have hforest : t.IsForest g := by
    refine Tree.isForest_of_chains ⟨rfl, rfl⟩ (fun v a hpred => ?_) fun v _ =>
      ⟨[], .stop (hroots v)⟩
    rw [hroots v] at hpred
    cases hpred
  have hnone : g.markedRequired = [] := rfl
  obtain ⟨added, t', w, x, x', hextend, hforest', hkept, hcount, hx, hx', hle⟩ :=
    extend_conservative .alongPath 1 hbuilt hcost hprize hforest
      (fun v hv => absurd (hnone ▸ hv) List.not_mem_nil) (Workspace.fresh_ready 3 0) (by decide)
  exact ⟨added, t', w, x, x', hextend, hforest', (hkept 0 rfl).1, (hkept 2 rfl).1, hcount, hx, hx',
    hle⟩

end Growth

end SteinerSearch
