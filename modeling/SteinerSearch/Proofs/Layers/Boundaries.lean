import SteinerSearch.Proofs.Layers.Exactness
import SteinerSearch.Proofs.Layers.PairBounds
import SteinerSearch.Proofs.Layers.Trails
import SteinerSearch.Proofs.Network.Tours

/-!
# Bounds from the edges between regions

The region of a terminal is made of the nodes that have it in their first layer.  Only edges
between different regions are looked at, and each of them offers a bound for every two labels at
its ends.  An offer is the length of a walk between the two terminals, so that no bound is too low.

A shortest path from a terminal to its nearest other terminal leaves the region of the terminal
over some edge.  Along the path, the first layers of the ends of this edge are no further away
than the two ends of the path.  So the edge offers no more than the length of the path, maybe for a
third terminal that is just as near.

## Main definitions

* `TerminalLayers.offers t g` — what the edges offer.

## Main results

* `TerminalLayers.boundaryBounds_eq` — the bounds are made of the offers.
* `TerminalLayers.Sound.exists_path_of_offer` — an offer is the length of a walk.
* `TerminalLayers.boundaryBounds_exact` — bounds are sound, and exact for nearest terminals.
-/

namespace SteinerSearch

namespace TerminalLayers

/-! ### Offers -/

section Offers

variable {α : Type} [Weight α]

/-- What two labels at the ends of an edge offer. -/
def labelOffers (t : TerminalLayers α) (u v : Nat) (cost : α) (labels : Nat × Nat) :
    List ((Nat × Nat) × α) :=
  match t.baseOf u labels.1, t.baseOf v labels.2 with
  | some x, some y =>
      if x = y then [] else [((x, y), t.distOf u labels.1 + cost + t.distOf v labels.2)]
  | _, _ => []

/-- What an edge offers, if it joins two regions. -/
def edgeOffers (t : TerminalLayers α) (g : Network α) (e : Nat) : List ((Nat × Nat) × α) :=
  let a := Edge.forward e
  let u := g.tailOf a
  let v := g.headOf a
  if !g.isMarked u || !g.isMarked v then []
  else
    match t.baseOf u 0, t.baseOf v 0 with
    | some x, some y =>
        if x = y then []
        else
          ((List.range (t.filledOf u)).flatMap fun i =>
            (List.range (t.filledOf v)).map fun j => (i, j)).flatMap
              (t.labelOffers u v (Weight.max (g.costOf a) (g.costOf (Arc.rev a))))
    | _, _ => []

/-- What all edges offer. -/
def offers (t : TerminalLayers α) (g : Network α) : List ((Nat × Nat) × α) :=
  (List.range g.edgeCount).flatMap (t.edgeOffers g)

variable {t : TerminalLayers α} {g : Network α} {u v e x y : Nat} {c d : α}

theorem joinLabels_eq (b : PairBounds α) (labels : Nat × Nat) :
    t.joinLabels u v c b labels = b.lowerAll (t.labelOffers u v c labels) := by
  obtain ⟨i, j⟩ := labels
  simp only [joinLabels, labelOffers]
  cases t.baseOf u i with
  | none => rfl
  | some x =>
    cases t.baseOf v j with
    | none => rfl
    | some y =>
      simp only
      split <;> rfl

theorem joinEdge_eq (b : PairBounds α) (e : Nat) :
    joinEdge g t b e = b.lowerAll (t.edgeOffers g e) := by
  simp only [joinEdge, edgeOffers]
  split
  · rfl
  · cases t.baseOf (g.tailOf (Edge.forward e)) 0 with
    | none => rfl
    | some x =>
      cases t.baseOf (g.headOf (Edge.forward e)) 0 with
      | none => rfl
      | some y =>
        simp only
        split
        · rfl
        · exact PairBounds.foldl_eq_lowerAll joinLabels_eq _ b

/-- The bounds are made of the offers of all edges. -/
theorem boundaryBounds_eq (t : TerminalLayers α) (g : Network α) :
    t.boundaryBounds g = PairBounds.lowerAll .empty (t.offers g) :=
  PairBounds.foldl_eq_lowerAll joinEdge_eq _ _

theorem mem_labelOffers {labels : Nat × Nat} : ((x, y), d) ∈ t.labelOffers u v c labels ↔
    t.baseOf u labels.1 = some x ∧ t.baseOf v labels.2 = some y ∧ x ≠ y ∧
      d = t.distOf u labels.1 + c + t.distOf v labels.2 := by
  unfold labelOffers
  split
  · next hx hy =>
    rw [hx, hy]
    split
    · next heq =>
      simp only [Option.some.injEq, List.not_mem_nil, false_iff]
      rintro ⟨rfl, rfl, hne, -⟩
      exact hne heq
    · next hne =>
      simp only [List.mem_singleton, Prod.mk.injEq, Option.some.injEq]
      constructor
      · rintro ⟨⟨rfl, rfl⟩, rfl⟩
        exact ⟨rfl, rfl, hne, rfl⟩
      · rintro ⟨rfl, rfl, -, rfl⟩
        exact ⟨⟨rfl, rfl⟩, rfl⟩
  · next hnone =>
    simp only [List.not_mem_nil, false_iff]
    rintro ⟨hx, hy, -⟩
    exact hnone _ _ hx hy

/-- The offers of an edge between two regions. -/
theorem mem_edgeOffers : ((x, y), d) ∈ t.edgeOffers g e ↔
    (g.isMarked (g.tailOf (Edge.forward e)) = true ∧
      g.isMarked (g.headOf (Edge.forward e)) = true ∧
      ∃ p q, t.baseOf (g.tailOf (Edge.forward e)) 0 = some p ∧
        t.baseOf (g.headOf (Edge.forward e)) 0 = some q ∧ p ≠ q) ∧
    ∃ i j, t.baseOf (g.tailOf (Edge.forward e)) i = some x ∧
      t.baseOf (g.headOf (Edge.forward e)) j = some y ∧ x ≠ y ∧
      d = t.distOf (g.tailOf (Edge.forward e)) i +
        Weight.max (g.costOf (Edge.forward e)) (g.costOf (Arc.rev (Edge.forward e))) +
        t.distOf (g.headOf (Edge.forward e)) j := by
  simp only [edgeOffers]
  split
  · next hmark =>
    simp only [List.not_mem_nil, false_iff]
    rintro ⟨⟨hu, hv, -⟩, -⟩
    simp [hu, hv] at hmark
  · next hmark =>
    simp only [Bool.or_eq_true, Bool.not_eq_true', not_or, Bool.not_eq_false] at hmark
    split
    · next p q hp hq =>
      split
      · next heq =>
        simp only [List.not_mem_nil, false_iff]
        rintro ⟨⟨-, -, p', q', hp', hq', hne⟩, -⟩
        rw [hp] at hp'
        rw [hq] at hq'
        cases hp'
        cases hq'
        exact hne heq
      · next hne =>
        simp only [List.mem_flatMap, List.mem_map, List.mem_range, mem_labelOffers]
        constructor
        · rintro ⟨-, ⟨i, -, j, -, rfl⟩, hoffer⟩
          exact ⟨⟨hmark.1, hmark.2, p, q, hp, hq, hne⟩, i, j, hoffer⟩
        · rintro ⟨-, i, j, hx, hy, hoffer⟩
          exact ⟨(i, j), ⟨i, lt_filledOf_of_baseOf hx, j, lt_filledOf_of_baseOf hy, rfl⟩, hx, hy,
            hoffer⟩
    · next hnone =>
      simp only [List.not_mem_nil, false_iff]
      rintro ⟨⟨-, -, p, q, hp, hq, -⟩, -⟩
      exact hnone p q hp hq

end Offers

variable {g : Network ℚ} {t : TerminalLayers ℚ} {s : State ℚ} {as : List Nat}
  {a b v p q x y L : Nat} {d : ℚ}

section Symmetric

variable (hg : g.WellFormed) (hsym : ∀ a, a < g.arcCount → g.costOf (Arc.rev a) = g.costOf a)

include hg hsym

omit hg in
/-- Both arcs of an edge cost what the edge costs. -/
theorem max_cost (ha : a < g.arcCount) :
    Weight.max (g.costOf a) (g.costOf (Arc.rev a)) = g.costOf a := by
  rw [hsym a ha, Weight.max_rat, sup_idem]

/-! ### Offers are lengths of walks -/

/-- An offer is the length of the walk from one terminal over the edge to the other one. -/
theorem Sound.exists_path_of_offer (h : Sound g t) (hmem : ((x, y), d) ∈ t.offers g) :
    x ≠ y ∧ g.IsGoal x ∧ g.IsGoal y ∧
      ∃ as, g.IsMarkedPath x as y ∧ Network.pathLength g.costOf as = d := by
  obtain ⟨e, he, hoffer⟩ := List.mem_flatMap.mp hmem
  obtain ⟨⟨htail, hhead, -⟩, i, j, hx, hy, hne, rfl⟩ := mem_edgeOffers.mp hoffer
  have ha := hg.forward_lt (List.mem_range.mp he)
  obtain ⟨-, hgoalx, as, has, hlas⟩ :=
    h.path _ i x (h.sized.lt_nodeCount (lt_filledOf_of_baseOf hx)) (baseIn_of_baseOf hx)
  obtain ⟨-, hgoaly, bs, hbs, hlbs⟩ :=
    h.path _ j y (h.sized.lt_nodeCount (lt_filledOf_of_baseOf hy)) (baseIn_of_baseOf hy)
  refine ⟨hne, hgoalx, hgoaly, as.reverse.map Arc.rev ++ Edge.forward e :: bs,
    (has.reversed hg htail).append
      (Network.isMarkedPath_cons.mpr ⟨⟨ha, rfl⟩, hhead, hbs⟩), ?_⟩
  rw [Network.pathLength_append, Network.pathLength_cons,
    Network.pathLength_reversed hsym has.path.lt_arcCount, hlas, hlbs, max_cost hsym ha,
    distOf, distOf, add_assoc]

theorem Sound.isWhole_offer (h : Sound g t)
    (hcost : ∀ a, a < g.arcCount → Weight.IsWhole (g.costOf a))
    (hmem : ((x, y), d) ∈ t.offers g) : Weight.IsWhole d := by
  obtain ⟨-, -, -, as, has, rfl⟩ := h.exists_path_of_offer hg hsym hmem
  exact Network.isWhole_pathLength fun a ha => hcost a (has.path.lt_arcCount a ha)

/-- A bound is the length of a walk in either direction. -/
theorem Sound.exists_path_of_bound (h : Sound g t) {bounds : PairBounds ℚ}
    (hleast : PairBounds.Least (t.offers g) bounds) (hbound : bounds.bound? p q = some d) :
    p ≠ q ∧ g.IsGoal p ∧ g.IsGoal q ∧
      ∃ as, g.IsMarkedPath p as q ∧ Network.pathLength g.costOf as = d := by
  obtain ⟨⟨⟨x, y⟩, d⟩, hmem, hpair, rfl⟩ := hleast.offered _ d hbound
  obtain ⟨hne, hgoalx, hgoaly, as, has, hlen⟩ := h.exists_path_of_offer hg hsym hmem
  rcases PairBounds.pair_eq_iff.mp hpair with ⟨rfl, rfl⟩ | ⟨rfl, rfl⟩
  · exact ⟨hne, hgoalx, hgoaly, as, has, hlen⟩
  · exact ⟨hne.symm, hgoaly, hgoalx, _, has.reversed hg hgoalx.2,
      (Network.pathLength_reversed hsym has.path.lt_arcCount).trans hlen⟩

/-! ### The edge where a path leaves a region -/

/-- An arc between two regions offers a bound for their terminals. -/
theorem exists_offer_of_arc (ha : a < g.arcCount) (htail : g.isMarked (g.tailOf a) = true)
    (hhead : g.isMarked (g.headOf a) = true) (hp : t.baseOf (g.tailOf a) 0 = some p)
    (hq : t.baseOf (g.headOf a) 0 = some q) (hne : p ≠ q) :
    ∃ o ∈ t.offers g, PairBounds.pair o.1.1 o.1.2 = PairBounds.pair p q ∧
      o.2 = t.distOf (g.tailOf a) 0 + g.costOf a + t.distOf (g.headOf a) 0 := by
  have hedge : Arc.edge a < g.edgeCount := by
    unfold Arc.edge Network.edgeCount
    have := hg.even
    unfold Network.arcCount at this ha
    omega
  have hmem : ∀ {o}, o ∈ t.edgeOffers g (Arc.edge a) → o ∈ t.offers g := fun ho =>
    List.mem_flatMap.mpr ⟨_, List.mem_range.mpr hedge, ho⟩
  rcases Arc.eq_or_eq_rev_of_edge (Arc.edge_forward (Arc.edge a)) with hsame | hopposite
  · refine ⟨((p, q), _), hmem (mem_edgeOffers.mpr ?_), rfl, rfl⟩
    rw [hsame]
    exact ⟨⟨htail, hhead, p, q, hp, hq, hne⟩, 0, 0, hp, hq, hne, by rw [max_cost hsym ha]⟩
  · refine ⟨((q, p), _), hmem (mem_edgeOffers.mpr ?_), PairBounds.pair_comm q p, rfl⟩
    rw [hopposite, hg.tail_rev ha, hg.head_rev a ha]
    refine ⟨⟨hhead, htail, q, p, hq, hp, hne.symm⟩, 0, 0, hq, hp, hne.symm, ?_⟩
    rw [max_cost hsym (hg.rev_lt ha), hsym a ha]
    linarith

end Symmetric

/-- A node that can reach a goal has one in its first layer, no further away. -/
theorem Searching.exists_first (h : Searching g (fun _ _ => False) s) (hg : Proper g)
    (hreach : g.DistancesInReach g.costOf) (hsize : s.queue.size = 0) (hL : 0 < s.labels.layers)
    (hmark : g.isMarked v = true) (hgoal : g.IsGoal b) (has : g.IsMarkedPath v as b) :
    ∃ c, s.labels.baseOf v 0 = some c ∧ s.labels.distOf v 0 ≤ Network.pathLength g.costOf as := by
  have hpos : 0 < s.labels.filledOf v := by
    by_contra hzero
    obtain ⟨d, hd⟩ := Network.exists_isDistance hg.whole has
    have hheld := h.holds_of_isDistance hg hreach hsize hmark (by omega) hgoal hd
    obtain ⟨l, hl, -⟩ := holds_iff.mp hheld
    omega
  obtain ⟨c, hc⟩ := h.valid.sound.held v 0 hpos
  exact ⟨c, (baseOf_of_lt hpos).trans hc,
    h.valid.nearest v 0 hpos b hgoal (fun k hk => absurd hk (Nat.not_lt_zero k)) as has⟩

/-- A goal lies in its own region. -/
theorem Searching.baseOf_goal (h : Searching g (fun _ _ => False) s) (hg : Proper g)
    (hreach : g.DistancesInReach g.costOf) (hsize : s.queue.size = 0) (hL : 0 < s.labels.layers)
    (hgoal : g.IsGoal b) : s.labels.baseOf b 0 = some b := by
  obtain ⟨c, hc, -⟩ := h.exists_first hg hreach hsize hL hgoal.2 hgoal
    (Network.isMarkedPath_nil.mpr rfl)
  have hown := (h.valid.seeded b hgoal).1
  have hin := baseIn_of_baseOf hc
  rw [slot_zero, hown] at hin
  obtain rfl := Option.some.inj hin
  exact hc

/-- A path from a goal to another one leaves the region of the goal over an edge that offers no
more than the length of the path. -/
theorem Searching.exists_offer_le (h : Searching g (fun _ _ => False) s) (hg : Proper g)
    (hsym : ∀ a, a < g.arcCount → g.costOf (Arc.rev a) = g.costOf a)
    (hreach : g.DistancesInReach g.costOf) (hsize : s.queue.size = 0) (hL : 0 < s.labels.layers)
    (hp : g.IsGoal p) (hb : g.IsGoal b) (hne : b ≠ p) (has : g.IsMarkedPath p as b) :
    ∃ q, ∃ o ∈ s.labels.offers g, PairBounds.pair o.1.1 o.1.2 = PairBounds.pair p q ∧
      o.2 ≤ Network.pathLength g.costOf as := by
  have hwf := hg.wellFormed
  obtain ⟨a, ha, htail, hhead⟩ := has.path.exists_leaving
    (S := fun v => s.labels.baseOf v 0 = some p) (h.baseOf_goal hg hreach hsize hL hp) (by
      rw [h.baseOf_goal hg hreach hsize hL hb, Option.some.injEq]
      exact hne)
  -- the parts of the path before and after this arc
  have hmark := has.isMarked_of_visits hp.2 (has.path.visits_tail ha)
  obtain ⟨before, after, rfl⟩ := List.append_of_mem ha
  obtain ⟨w, hbefore, halt, rfl, -⟩ := Network.isPath_append.mp has.path
  have hto : g.IsMarkedPath p before (g.tailOf a) :=
    ⟨hbefore, fun c hc => has.marked c (List.mem_append_left _ hc)⟩
  obtain ⟨-, hmark', hfrom⟩ := Network.isMarkedPath_cons.mp has.suffix
  obtain ⟨_, -, hnear⟩ := h.exists_first hg hreach hsize hL hmark hp (hto.reversed hwf hp.2)
  obtain ⟨q, hq, hnear'⟩ := h.exists_first hg hreach hsize hL hmark' hb hfrom
  have hpq : p ≠ q := fun heq => hhead (heq ▸ hq)
  obtain ⟨o, hmem, hpair, hlen⟩ :=
    exists_offer_of_arc hwf hsym halt hmark hmark' htail hq hpq
  refine ⟨q, o, hmem, hpair, ?_⟩
  rw [Network.pathLength_reversed hsym hto.path.lt_arcCount] at hnear
  rw [hlen, Network.pathLength_append, Network.pathLength_cons]
  linarith

/-- **Bounds are sound, and exact for nearest terminals.**  Edges cost the same in both directions,
a whole number.  Every entry is for two marked terminals, the smaller one first, and is found in
either order.  It is no lower than their distance.  A marked terminal that reaches another one has
a bound, and the lowest of its bounds is the distance to its nearest other terminal. -/
theorem boundaryBounds_exact (hg : g.Built)
    (hcost : ∀ a, a < g.arcCount → Weight.IsWhole (g.costOf a))
    (hsym : ∀ a, a < g.arcCount → g.costOf (Arc.rev a) = g.costOf a)
    (hreach : g.DistancesInReach g.costOf) (hL : 1 ≤ L) (hmax : L ≤ maxLayers) :
    let bounds := (compute g L).boundaryBounds g
    (∀ k x, (k, x) ∈ bounds.toList → k.1 < k.2 ∧ bounds.bound? k.1 k.2 = some x) ∧
    (∀ p q, bounds.bound? p q = bounds.bound? q p) ∧
    (∀ p q x, bounds.bound? p q = some x → p ≠ q ∧ g.IsGoal p ∧ g.IsGoal q ∧
      ∃ d, g.IsDistance g.costOf [p] q d ∧ d ≤ x) ∧
    ∀ p, g.IsGoal p → (∃ q, g.IsGoal q ∧ q ≠ p ∧ g.IsReachable p q) →
      ∃ d, (∃ q, g.IsGoal q ∧ q ≠ p ∧ g.IsDistance g.costOf [p] q d) ∧
        (∀ q e, g.IsGoal q → q ≠ p → g.IsDistance g.costOf [p] q e → d ≤ e) ∧
        (∃ q, bounds.bound? p q = some d) ∧ ∀ q x, bounds.bound? p q = some x → d ≤ x := by
  intro bounds
  have hwf := hg.wellFormed
  have hproper := proper_of_built hg hcost (Or.inr hsym)
  obtain ⟨s, hcompute, hs, hlayers, hsize⟩ := compute_ends hproper hL hmax
  have hsound := hs.valid.sound
  have hleast : PairBounds.Least (s.labels.offers g) bounds := by
    have hbounds : bounds = PairBounds.lowerAll .empty (s.labels.offers g) := by
      rw [← boundaryBounds_eq, ← hcompute]
    rw [hbounds]
    exact PairBounds.least_lowerAll fun o ho => hsound.isWhole_offer hwf hsym hcost ho
  have hwalk := fun {p q x} =>
    hsound.exists_path_of_bound hwf hsym hleast (p := p) (q := q) (d := x)
  refine ⟨fun k x hmem => ?_, bounds.bound?_comm, fun p q x hbound => ?_, fun p hp hother => ?_⟩
  · have hkey := PairBounds.mem_toList_iff.mp hmem
    obtain ⟨⟨⟨x', y'⟩, d⟩, hoffer, rfl, rfl⟩ := hleast.offered k x hkey
    have hlt := PairBounds.pair_fst_lt_snd (hsound.exists_path_of_offer hwf hsym hoffer).1
    refine ⟨hlt, ?_⟩
    rw [PairBounds.bound?, PairBounds.pair_of_lt hlt]
    exact hkey
  · obtain ⟨hne, hp, hq, as, has, rfl⟩ := hwalk hbound
    obtain ⟨d, hd⟩ := Network.exists_isDistance hcost has
    exact ⟨hne, hp, hq, d, hd, hd.least p (List.mem_singleton_self p) as has⟩
  · obtain ⟨q, hq, hqp, as, has⟩ := hother
    -- a shortest path to another terminal
    obtain ⟨⟨b, bs⟩, ⟨hb, hbp, hbs⟩, hshort⟩ := Weight.exists_least_of_isWhole
      (P := fun z : Nat × List Nat => g.IsGoal z.1 ∧ z.1 ≠ p ∧ g.IsMarkedPath p z.2 z.1)
      (f := fun z => Network.pathLength g.costOf z.2)
      (fun z hz => Network.isWhole_pathLength fun a ha => hcost a (hz.2.2.path.lt_arcCount a ha))
      (i := (q, as)) ⟨hq, hqp, has⟩
    have hle : ∀ q x, bounds.bound? p q = some x → Network.pathLength g.costOf bs ≤ x := by
      intro q x hbound
      obtain ⟨hne, -, hq, cs, hcs, rfl⟩ := hwalk hbound
      exact hshort (q, cs) ⟨hq, hne.symm, hcs⟩
    refine ⟨_, ⟨b, hb, hbp, ⟨p, List.mem_singleton_self p, bs, hbs, rfl⟩, fun r hr cs hcs => ?_⟩,
      fun q e hq hqp he => ?_, ?_, hle⟩
    · rw [List.mem_singleton.mp hr] at hcs
      exact hshort (b, cs) ⟨hb, hbp, hcs⟩
    · obtain ⟨r, hr, cs, hcs, rfl⟩ := he.attained
      rw [List.mem_singleton.mp hr] at hcs
      exact hshort (q, cs) ⟨hq, hqp, hcs⟩
    · obtain ⟨r, o, hmem, hpair, hlen⟩ :=
        hs.exists_offer_le hproper hsym hreach hsize (hlayers ▸ hL) hp hb hbp hbs
      obtain ⟨x, hbound, hxo⟩ := hleast.le o hmem
      rw [PairBounds.bound?_congr hpair] at hbound
      exact ⟨r, hbound.trans (congrArg some (le_antisymm (hxo.trans hlen) (hle r x hbound)))⟩

/-- Two terminals at the ends of an edge of length 5. -/
theorem boundaryBounds_exact_on_edge :
    let g := { ((Network.empty 2).pushArc 0 1 (5 : ℚ)).pushArc 1 0 5 with
      kind := #[.proper, .pseudo] }
    ∃ d, (∃ q, g.IsGoal q ∧ q ≠ 0 ∧ g.IsDistance g.costOf [0] q d) ∧
      ∃ q, ((compute g 2).boundaryBounds g).bound? 0 q = some d := by
  intro g
  have hadd : (Network.empty 2).addArcPair 0 1 (5 : ℚ) 5 =
      .ok (0, ((Network.empty 2).pushArc 0 1 5).pushArc 1 0 5) := rfl
  have hproper : (((Network.empty 2).pushArc 0 1 (5 : ℚ)).pushArc 1 0 5).setTerminal 0 .proper =
      .ok { ((Network.empty 2).pushArc 0 1 (5 : ℚ)).pushArc 1 0 5 with
        kind := #[.proper, .steiner] } := rfl
  have hpseudo : { ((Network.empty 2).pushArc 0 1 (5 : ℚ)).pushArc 1 0 5 with
      kind := #[.proper, .steiner] }.setTerminal 1 .pseudo = .ok g := rfl
  have hg : g.Built := (((Network.Built.empty 2).addArcPair hadd).setTerminal hproper).setTerminal
    hpseudo
  have hcost : ∀ a, a < g.arcCount → g.costOf a = 5 := by
    intro a ha
    change a < 2 at ha
    obtain rfl | rfl : a = 0 ∨ a = 1 := by omega
    · rfl
    · rfl
  have hwhole : ∀ a, a < g.arcCount → Weight.IsWhole (g.costOf a) := fun a ha =>
    ⟨5, by rw [hcost a ha]; norm_num⟩
  have hsym : ∀ a, a < g.arcCount → g.costOf (Arc.rev a) = g.costOf a := fun a ha =>
    (hcost _ (hg.wellFormed.rev_lt ha)).trans (hcost a ha).symm
  have hreach : g.DistancesInReach g.costOf := by
    refine Network.distancesInReach_of_sum (fun a ha => (hwhole a ha).nonneg) ?_
    change (5 : ℚ) + (5 + 0) < 1000000000000000
    norm_num
  have hother : ∃ q, g.IsGoal q ∧ q ≠ 0 ∧ g.IsReachable 0 q :=
    ⟨1, ⟨rfl, rfl⟩, by decide, [0], ⟨by decide, rfl, rfl⟩, by decide⟩
  have hlayers : 1 ≤ 2 ∧ 2 ≤ maxLayers := by decide
  obtain ⟨d, hnearest, -, hbound, -⟩ :=
    (boundaryBounds_exact hg hwhole hsym hreach hlayers.1 hlayers.2).2.2.2 0 ⟨rfl, rfl⟩ hother
  exact ⟨d, hnearest, hbound⟩

end TerminalLayers

end SteinerSearch
