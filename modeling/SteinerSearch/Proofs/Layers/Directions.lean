import SteinerSearch.Proofs.Layers.Completeness

/-!
# Labels of a directed root

The designated root counts as far from a node as the way from the root to the node is
long, and every other terminal as the way from the node to the terminal.  A node keeps as
many labels as there are layers, the nearest of those that came to it.  A label of the
root may be dropped at one node for a terminal that is nearer there, although over the
next arc the root is nearer again, because the arc costs less ahead than back.  So the
layers need not hold the nearest terminals; but they never make one nearer than it is.

## Main definitions

* `Network.IsLabelDistance g v b d` — the terminal `b` counts `d` from `v`.
* `Network.IsLabelRanking g v near` — `near` lists the terminals of the component of `v`,
  nearest first.

## Main results

* `TerminalLayers.compute_ge_nearest` — **no layer is nearer than the nearest terminals.**
* `TerminalLayers.compute_misses_root` — a layer that is further away.
-/

namespace SteinerSearch

namespace Network

/-- The terminal `b` counts `d` from `v`: the designated root by the way from it to `v`, any
other by the way from `v` to it. -/
def IsLabelDistance (g : Network ℚ) (v b : Nat) (d : ℚ) : Prop :=
  if g.root = some b then g.IsDistance g.costOf [b] v d else g.IsDistance g.costOf [v] b d

/-- The terminals of the component of `v` with what they count, nearest first. -/
structure IsLabelRanking (g : Network ℚ) (v : Nat) (near : List (Nat × ℚ)) : Prop where
  mem_iff : ∀ b d, (b, d) ∈ near ↔ g.IsGoal b ∧ g.IsLabelDistance v b d
  nodup : (near.map Prod.fst).Nodup
  sorted : near.Pairwise fun x y => x.2 ≤ y.2

variable {g : Network ℚ} {v b : Nat} {d e : ℚ} {near : List (Nat × ℚ)}

theorem IsLabelDistance.unique (hd : g.IsLabelDistance v b d) (he : g.IsLabelDistance v b e) :
    d = e := by
  unfold IsLabelDistance at hd he
  split at hd
  · next hr =>
    rw [if_pos hr] at he
    exact hd.unique he
  · next hr =>
    rw [if_neg hr] at he
    exact hd.unique he

/-- The terminals that count are those of the component. -/
theorem exists_isLabelDistance_iff (hg : g.WellFormed)
    (hcost : ∀ a, a < g.arcCount → Weight.IsWhole (g.costOf a)) (hv : g.isMarked v = true)
    (hgoal : g.IsGoal b) : (∃ d, g.IsLabelDistance v b d) ↔ g.IsReachable v b := by
  have hpath : ∀ {u w}, (∃ d, g.IsDistance g.costOf [u] w d) ↔ g.IsReachable u w := by
    intro u w
    constructor
    · rintro ⟨d, hd⟩
      obtain ⟨x, hx, as, has, -⟩ := hd.attained
      rw [List.mem_singleton.mp hx] at has
      exact ⟨as, has⟩
    · rintro ⟨as, has⟩
      exact exists_isDistance hcost has
  unfold IsLabelDistance
  split
  · rw [hpath]
    exact ⟨fun h => h.symm hg hgoal.2, fun h => h.symm hg hv⟩
  · exact hpath

theorem exists_isLabelRanking (g : Network ℚ) (v : Nat) : ∃ near, g.IsLabelRanking v near := by
  obtain ⟨near, hmem, hnodup, hsorted⟩ := exists_sorted_listing (n := g.nodeCount)
    (P := fun b d => g.IsGoal b ∧ g.IsLabelDistance v b d) (fun b d h => h.1.lt_nodeCount)
    fun b d e hd he => hd.2.unique he.2
  exact ⟨near, hmem, hnodup, hsorted⟩

/-- A ranking lists every terminal of the component once. -/
theorem IsLabelRanking.length_eq (h : g.IsLabelRanking v near) (hg : g.WellFormed)
    (hcost : ∀ a, a < g.arcCount → Weight.IsWhole (g.costOf a)) (hv : g.isMarked v = true) :
    near.length = {b | g.IsGoal b ∧ g.IsReachable v b}.ncard := by
  have hset : {b | g.IsGoal b ∧ g.IsReachable v b} = ((near.map Prod.fst).toFinset : Set Nat) := by
    ext b
    simp only [Set.mem_ofPred_eq, List.coe_toFinset, List.mem_map]
    constructor
    · rintro ⟨hgoal, hreach⟩
      obtain ⟨d, hd⟩ := (exists_isLabelDistance_iff hg hcost hv hgoal).mpr hreach
      exact ⟨(b, d), (h.mem_iff b d).mpr ⟨hgoal, hd⟩, rfl⟩
    · rintro ⟨⟨c, d⟩, hmem, rfl⟩
      obtain ⟨hgoal, hd⟩ := (h.mem_iff c d).mp hmem
      exact ⟨hgoal, (exists_isLabelDistance_iff hg hcost hv hgoal).mp ⟨d, hd⟩⟩
  rw [hset, Set.ncard_coe_finset, List.toFinset_card_of_nodup h.nodup, List.length_map]

end Network

namespace TerminalLayers

variable {g : Network ℚ} {t : TerminalLayers ℚ} {v b l L : Nat} {as : List Nat}

/-- A label is at least as far as its terminal counts. -/
theorem Trail.exists_isLabelDistance (h : Trail g t b v l as) (hg : g.WellFormed)
    (hcost : ∀ a, a < g.arcCount → Weight.IsWhole (g.costOf a)) :
    ∃ d, g.IsLabelDistance v b d ∧ d ≤ t.distOf v l := by
  have hmeasures := h.measures hg
  unfold Network.IsLabelDistance
  split at hmeasures
  · next hr =>
    obtain ⟨hpath, hlen⟩ := hmeasures
    obtain ⟨d, hd⟩ := Network.exists_isDistance hcost hpath
    exact ⟨d, by rwa [if_pos hr], hlen ▸ hd.least b List.mem_cons_self _ hpath⟩
  · next hr =>
    obtain ⟨hpath, hlen⟩ := hmeasures
    obtain ⟨d, hd⟩ := Network.exists_isDistance hcost hpath
    exact ⟨d, by rwa [if_neg hr], hlen ▸ hd.least v List.mem_cons_self _ hpath⟩

/-- **No layer is nearer than the nearest terminals.**  With a designated root among the
terminals and edges that cost differently each way, the layers of a marked node are as many as
there are layers or terminals in its component, and each is at least as far away as the
ranking of these terminals says. -/
theorem compute_ge_nearest (hg : g.Built)
    (hcost : ∀ a, a < g.arcCount → Weight.IsWhole (g.costOf a))
    (hsum : Network.pathLength g.costOf (List.range g.arcCount) < Weight.faraway)
    (hL : 1 ≤ L) (hmax : L ≤ maxLayers) (v : Nat) (hmark : g.isMarked v = true) :
    ∃ near, g.IsLabelRanking v near ∧ (compute g L).filledOf v = min L near.length ∧
      ∀ l, l < (compute g L).filledOf v →
        ∃ b d, near[l]? = some (b, d) ∧ d ≤ (compute g L).distOf v l := by
  have hwf := hg.wellFormed
  obtain ⟨s, hcompute, hs, hlayers, hsize⟩ := compute_stemmed hwf hcost hL hmax
  obtain ⟨near, hnear⟩ := Network.exists_isLabelRanking g v
  rw [hcompute]
  refine ⟨near, hnear, ?_, fun l hl => ?_⟩
  · rw [hnear.length_eq hwf hcost hmark, hs.filledOf_eq hwf hcost hsum hsize hmark, hlayers]
  -- the labels up to layer `l` are different terminals that count no more than its distance
  have hlayered := hs.holds.layered
  have hlabel : ∀ k, k ≤ l → ∃ b, s.labels.baseIn (s.labels.slot k v) = some b ∧
      ∃ d, (b, d) ∈ near ∧ d ≤ s.labels.distOf v l := by
    intro k hk
    have hk' : k < s.labels.filledOf v := lt_of_le_of_lt hk hl
    obtain ⟨b, hb⟩ := hlayered.held v k hk'
    obtain ⟨as, has⟩ := hs.holds.trail v k b ((baseOf_of_lt hk').trans hb)
    obtain ⟨d, hd, hle⟩ := has.exists_isLabelDistance hwf hcost
    refine ⟨b, hb, d, (hnear.mem_iff b d).mpr ⟨has.goal, hd⟩, hle.trans ?_⟩
    rcases Nat.lt_or_eq_of_le hk with hlt | rfl
    · exact hs.ascending.sorted v k l hlt hl
    · exact le_rfl
  choose! base hbase hcount using hlabel
  have hnodup : ((List.range (l + 1)).map base).Nodup := by
    refine List.Nodup.map_on (fun i hi j hj heq => ?_) List.nodup_range
    rw [List.mem_range, Nat.lt_succ_iff] at hi hj
    have hv := hlayered.sized.lt_nodeCount hl
    rcases Nat.lt_trichotomy i j with hij | hij | hij
    · exact absurd (heq ▸ hbase j hj) (hlayered.distinct v i j _ hv hij (hbase i hi))
    · exact hij
    · exact absurd (heq ▸ hbase i hi) (hlayered.distinct v j i _ hv hij (hbase j hj))
  have hle : ∀ b ∈ (List.range (l + 1)).map base, ∃ d, (b, d) ∈ near ∧ d ≤ s.labels.distOf v l := by
    intro b hb
    obtain ⟨k, hk, rfl⟩ := List.mem_map.mp hb
    exact hcount k (Nat.lt_succ_iff.mp (List.mem_range.mp hk))
  obtain ⟨⟨b, d⟩, hmem, hd⟩ :=
    Network.exists_le_of_many_le hnear.sorted hnodup hle (l := l) (by simp)
  exact ⟨b, d, hmem, hd⟩

/-! ### A label that is dropped -/

/-- The designated root 0, another terminal next to it, and a node behind that, from where the
way back is long. -/
def rootedLine : Network ℚ :=
  { ((((Network.empty 3).pushArc 0 1 1).pushArc 1 0 1).pushArc 1 2 1).pushArc 2 1 100 with
    kind := #[.proper, .proper, .steiner], root := some 0 }

theorem rootedLine_built : rootedLine.Built := by
  have hone : (Network.empty 3).addArcPair 0 1 (1 : ℚ) 1 =
      .ok (0, ((Network.empty 3).pushArc 0 1 1).pushArc 1 0 1) := rfl
  have htwo : (((Network.empty 3).pushArc 0 1 (1 : ℚ)).pushArc 1 0 1).addArcPair 1 2 1 100 =
      .ok (1, { rootedLine with kind := #[.steiner, .steiner, .steiner], root := none }) := rfl
  have hroot : { rootedLine with
      kind := #[.steiner, .steiner, .steiner], root := none }.setTerminal 0 .proper =
        .ok { rootedLine with kind := #[.proper, .steiner, .steiner], root := none } := rfl
  have hother : { rootedLine with kind := #[.proper, .steiner, .steiner], root := none }.setTerminal
      1 .proper = .ok { rootedLine with root := none } := rfl
  have hset : { rootedLine with root := none }.setRoot 0 = .ok rootedLine := rfl
  exact (((((Network.Built.empty 3).addArcPair hone).addArcPair htwo).setTerminal hroot).setTerminal
    hother).setRoot hset

theorem rootedLine_arcs {a : Nat} (ha : a < rootedLine.arcCount) :
    a = 0 ∨ a = 1 ∨ a = 2 ∨ a = 3 := by
  change a < 4 at ha
  omega

theorem rootedLine_costs : ∀ a, a < rootedLine.arcCount → Weight.IsWhole (rootedLine.costOf a) := by
  intro a ha
  obtain rfl | rfl | rfl | rfl := rootedLine_arcs ha
  · exact ⟨1, rfl⟩
  · exact ⟨1, rfl⟩
  · exact ⟨1, rfl⟩
  · exact ⟨100, rfl⟩

theorem rootedLine_goal {b : Nat} : rootedLine.IsGoal b ↔ b = 0 ∨ b = 1 := by
  constructor
  · intro h
    have hb := h.lt_nodeCount
    change b < 3 at hb
    obtain rfl | rfl | rfl : b = 0 ∨ b = 1 ∨ b = 2 := by omega
    · exact Or.inl rfl
    · exact Or.inr rfl
    · exact absurd h.1 (by decide)
  · rintro (rfl | rfl)
    · exact ⟨rfl, rfl⟩
    · exact ⟨rfl, rfl⟩

/-- From the root to node 2 it is two steps. -/
theorem rootedLine_from_root : rootedLine.IsLabelDistance 2 0 2 := by
  refine ⟨⟨0, by simp, [0, 2], ⟨⟨by decide, rfl, by decide, rfl, rfl⟩, by decide⟩, ?_⟩,
    fun u hu as has => ?_⟩
  · change (1 : ℚ) + (1 + 0) = 2
    norm_num
  · rw [List.mem_singleton.mp hu] at has
    have hle := has.path.le_pathLength (c := rootedLine.costOf) (x := fun v => v) fun a ha => ?_
    · push_cast at hle
      linarith
    · obtain rfl | rfl | rfl | rfl := rootedLine_arcs ha
      · change ((1 : ℕ) : ℚ) ≤ (0 : ℕ) + 1
        norm_num
      · change ((0 : ℕ) : ℚ) ≤ (1 : ℕ) + 1
        norm_num
      · change ((2 : ℕ) : ℚ) ≤ (1 : ℕ) + 1
        norm_num
      · change ((1 : ℕ) : ℚ) ≤ (2 : ℕ) + 100
        norm_num

/-- From node 2 to the other terminal it is far. -/
theorem rootedLine_to_terminal : rootedLine.IsLabelDistance 2 1 100 := by
  refine ⟨⟨2, by simp, [3], ⟨⟨by decide, rfl, rfl⟩, by decide⟩, ?_⟩, fun u hu as has => ?_⟩
  · change (100 : ℚ) + 0 = 100
    norm_num
  · rw [List.mem_singleton.mp hu] at has
    have hle := has.path.le_pathLength (c := rootedLine.costOf)
      (x := fun v => if v = 2 then -100 else 0) fun a ha => ?_
    · change (0 : ℚ) ≤ -100 + _ at hle
      linarith
    · obtain rfl | rfl | rfl | rfl := rootedLine_arcs ha
      · change (0 : ℚ) ≤ 0 + 1
        norm_num
      · change (0 : ℚ) ≤ 0 + 1
        norm_num
      · change (-100 : ℚ) ≤ 0 + 1
        norm_num
      · change (0 : ℚ) ≤ -100 + 100
        norm_num

theorem rootedLine_ranking : rootedLine.IsLabelRanking 2 [(0, 2), (1, 100)] := by
  refine ⟨fun b d => ?_, by decide, by norm_num⟩
  rw [List.mem_cons, List.mem_singleton, Prod.mk.injEq, Prod.mk.injEq, rootedLine_goal]
  constructor
  · rintro (⟨rfl, rfl⟩ | ⟨rfl, rfl⟩)
    · exact ⟨Or.inl rfl, rootedLine_from_root⟩
    · exact ⟨Or.inr rfl, rootedLine_to_terminal⟩
  · rintro ⟨rfl | rfl, hd⟩
    · exact Or.inl ⟨rfl, hd.unique rootedLine_from_root⟩
    · exact Or.inr ⟨rfl, hd.unique rootedLine_to_terminal⟩

/-- Node 2 of the line, with one layer. -/
theorem compute_ge_nearest_on_line :
    ∃ near, rootedLine.IsLabelRanking 2 near ∧
      (compute rootedLine 1).filledOf 2 = min 1 near.length ∧
      ∀ l, l < (compute rootedLine 1).filledOf 2 →
        ∃ b d, near[l]? = some (b, d) ∧ d ≤ (compute rootedLine 1).distOf 2 l := by
  have hsum : Network.pathLength rootedLine.costOf (List.range rootedLine.arcCount) <
      Weight.faraway := by
    change (1 : ℚ) + (1 + (1 + (100 + 0))) < 1000000000000000
    norm_num
  exact compute_ge_nearest rootedLine_built rootedLine_costs hsum (by decide) (by decide) 2 rfl

/-- **A layer that is further away.**  At node 2 the root is nearest, at distance 2, but its label
was dropped at node 1, which is a terminal itself.  The only layer holds the other terminal, at
distance 100. -/
theorem compute_misses_root :
    rootedLine.Built ∧ rootedLine.root = some 0 ∧ rootedLine.IsGoal 0 ∧
      rootedLine.isMarked 2 = true ∧ rootedLine.IsLabelRanking 2 [(0, 2), (1, 100)] ∧
      (compute rootedLine 1).baseOf 2 0 = some 1 ∧ (compute rootedLine 1).distOf 2 0 = 100 := by
  refine ⟨rootedLine_built, rfl, rootedLine_goal.mpr (Or.inl rfl), rfl, rootedLine_ranking, ?_, ?_⟩
  · decide +kernel
  · decide +kernel

end TerminalLayers

end SteinerSearch
