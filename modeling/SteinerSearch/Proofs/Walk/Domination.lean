import SteinerSearch.Proofs.Network.Degrees
import SteinerSearch.Proofs.Walk.Refusals
import SteinerSearch.Proofs.Walk.Runs

/-!
# Walks against plain paths

A walk may collect prizes on its way, so it should never be worse than a plain path.  It is
not, as long as nothing that the ledger refuses matters.

With prizes a node may be labeled and settled again whenever a credit makes it cheaper, and
only its label limits how often.  So the number of scans is bounded, but the bound is large:
the largest distance for each arc.  A smaller limit may cut a search short.

## Main definitions

* `Walk.Bounds g costs query bound o` — what an outcome says of passages.
* `Walk.Lenient g query w ledger` — nothing that the ledger refuses matters.

## Main results

* `Walk.run_bounds` — what searches with a harmless ledger say of passages.
* `Walk.run_le_passage` — walks are no longer than passages.
-/

namespace SteinerSearch

namespace Walk

/-- What an outcome says of passages from the start to the goal. -/
structure Bounds (g : Network ℚ) (costs : CostView ℚ) (query : WalkQuery ℚ) (bound : ℚ)
    (o : WalkOutcome ℚ) : Prop where
  /-- No passage within the limit is shorter than the answer. -/
  reached : ∀ d, o = .reached d → ∀ as, g.IsPassage query.start as query.goal →
    Network.pathLength (priceOf costs) as < Weight.faraway →
    Weight.above (Network.pathLength (priceOf costs) as) query.maxDistance = false →
      d ≤ Network.pathLength (priceOf costs) as
  /-- No passage is within the limit. -/
  notFound : o = .notFound → ∀ as, g.IsPassage query.start as query.goal →
    Network.pathLength (priceOf costs) as < Weight.faraway →
      Weight.above (Network.pathLength (priceOf costs) as) query.maxDistance = true
  overBudget : o = .overBudget → query.isLimited = true ∧ (query.arcLimit : ℚ) < bound

section Run

variable {g : Network ℚ} {costs : CostView ℚ} {ledger : Ledger} {query : WalkQuery ℚ}
  {w : Workspace ℚ} {J : Workspace ℚ → Prop} {load : Workspace ℚ → Nat → ℚ} {b bound : ℚ}

theorem measured_masked (hg : g.Built)
    (hcosts : ∀ a, a < g.arcCount → ∃ n : ℕ, costs a = some (n : ℚ))
    (hprizes : ∀ v, g.isTerminal v = true → v ≠ query.start → v ≠ query.goal →
      Weight.IsWhole (g.prizeOf v))
    (hstart : query.start < g.nodeCount) (hne : query.start ≠ query.goal) :
    Measured ⟨g.masked query.start query.goal, costs, ledger, query⟩ := by
  have hex : ∀ a, a < g.arcCount → ∃ c, costs a = some c := by
    intro a ha
    obtain ⟨n, hn⟩ := hcosts a ha
    exact ⟨n, hn⟩
  refine { proper_masked hg hex hstart hne with
    whole := fun a ha => ?_
    prize := hprizes }
  obtain ⟨n, hn⟩ := hcosts a ha
  refine ⟨n, ?_⟩
  change (costs a).getD 0 = n
  rw [hn, Option.getD_some]

/-- A passage between different nodes has arcs at both ends. -/
theorem degreeOf_ne_zero_of_isPassage (hg : g.Built) (hne : query.start ≠ query.goal)
    {as : List Nat} (h : g.IsPassage query.start as query.goal) :
    ¬ (g.degreeOf query.start = 0 ∨ g.degreeOf query.goal = 0) := by
  rw [not_or]
  constructor
  · cases as with
    | nil => exact absurd h.path hne
    | cons a as =>
      obtain ⟨ha, htail, -⟩ := h.path
      exact htail ▸ hg.degreeOf_tail_ne_zero ha
  · induction as using List.reverseRecOn with
    | nil => exact absurd h.path hne
    | append_singleton as a _ =>
      obtain ⟨-, ha, hhead⟩ := Network.isPath_concat.mp h.path
      exact hhead ▸ hg.degreeOf_head_ne_zero ha

/-- What plain paths say of passages. -/
theorem Ended.bounds {o : WalkOutcome ℚ}
    (h : Ended ⟨g.masked query.start query.goal, costs, ledger, query⟩ bound o)
    (ht : Measured ⟨g.masked query.start query.goal, costs, ledger, query⟩) :
    Bounds g costs query bound o := by
  have hnonneg : ∀ a, a < g.arcCount → 0 ≤ priceOf costs a := fun a ha => (ht.whole a ha).nonneg
  have hfits : ∀ {as bs : List Nat},
      Network.pathLength (priceOf costs) bs ≤ Network.pathLength (priceOf costs) as →
      Network.pathLength (priceOf costs) as < Weight.faraway →
      Weight.above (Network.pathLength (priceOf costs) as) query.maxDistance = false →
        Fits ⟨g.masked query.start query.goal, costs, ledger, query⟩
          (Network.pathLength (priceOf costs) bs) := by
    intro as bs hle hfar hlimit
    exact Fits.mono ⟨hfar, hlimit⟩ hle
  have hdirect : ∀ {as : List Nat}, g.IsPassage query.start as query.goal →
      ∃ bs, Plain ⟨g.masked query.start query.goal, costs, ledger, query⟩ bs query.goal ∧
        Network.pathLength (priceOf costs) bs ≤ Network.pathLength (priceOf costs) as :=
    exists_plain hnonneg ht.ne
  refine ⟨fun d hd as has hfar hlimit => ?_, fun hnone as has hfar => ?_, h.overBudget⟩
  · obtain ⟨bs, hplain, hle⟩ := hdirect has
    exact (h.reached d hd bs hplain (hfits hle hfar hlimit)).trans hle
  · obtain ⟨bs, hplain, hle⟩ := hdirect has
    by_contra hlimit
    rw [Bool.not_eq_true] at hlimit
    exact h.notFound hnone bs hplain (hfits hle hfar hlimit)

/-- Searches with a harmless ledger end as passages demand, and an answer is what a credited
walk is worth. -/
theorem run_bounds (hg : g.Built)
    (ht : Measured ⟨g.masked query.start query.goal, costs, ledger, query⟩)
    (hgoal : query.goal < g.nodeCount) (hw : w.Ready) (hroom : g.nodeCount ≤ w.capacity)
    (hharm : Harmless ⟨g.masked query.start query.goal, costs, ledger, query⟩ J)
    (hwears : Wears ⟨g.masked query.start query.goal, costs, ledger, query⟩ J load)
    (hJ : J ((w.setLabel query.start 0 none).enqueue query.start))
    (hload : ∀ v, load ((w.setLabel query.start 0 none).enqueue query.start) v ≤ b)
    (hb : b ≤ Weight.faraway) :
    ∃ outcome w', run g costs ledger query w = .ok (outcome, w') ∧
      Bounds g costs query (g.arcCount * b) outcome ∧
      ∀ d, outcome = .reached d → Weight.above d query.maxDistance = false ∧ ∃ steps,
        (g.masked query.start query.goal).IsCreditedWalk query.start query.goal steps query.goal ∧
          (g.masked query.start query.goal).creditedLength costs steps = d := by
  have hstart : query.start < g.nodeCount := by
    have hlt := ht.start_lt
    rwa [Network.nodeCount_masked] at hlt
  have hroom' : (g.masked query.start query.goal).nodeCount ≤ w.capacity := by
    rwa [Network.nodeCount_masked]
  by_cases hdeg : g.degreeOf query.start = 0 ∨ g.degreeOf query.goal = 0
  · refine ⟨_, _, run_of_runOn (runOn_of_isolated hstart hgoal hdeg), ⟨?_, ?_, ?_⟩, ?_⟩
    · intro d hd
      cases hd
    · intro _ as has
      exact absurd hdeg (degreeOf_ne_zero_of_isPassage hg ht.ne has)
    · intro hover
      cases hover
    · intro d hd
      cases hd
  · obtain ⟨o, s, hrun, hended⟩ := search_ends ht hharm hwears hw hroom' hJ hload hb
    obtain ⟨o', s', hrun', hanswer⟩ := search_answers ht.toProper hw hroom'
    -- both speak of the same run
    rw [hrun, Except.ok.injEq, Prod.mk.injEq] at hrun'
    obtain ⟨rfl, rfl⟩ := hrun'
    refine ⟨o, s.space, run_of_runOn (runOn_of_search hstart hgoal hdeg hrun), hended.bounds ht,
      fun d hd => ?_⟩
    obtain ⟨hvisited, hdist⟩ := hanswer.reached d hd
    obtain ⟨steps, hwalk, hlen, -⟩ := hanswer.backed.walk _ hvisited
    have hlimit := (hanswer.backed.within _ hvisited).2.resolve_left (Ne.symm ht.ne)
    rw [hdist] at hlen hlimit
    exact ⟨hlimit, steps, hwalk, hlen⟩

end Run

/-! ### Labels as loads -/

/-- What a node can still cost: its label may fall, one at a time, and it may be extracted. -/
def distanceLoad (w : Workspace ℚ) (v : Nat) : ℚ :=
  w.distOf v + if v ∈ w.queue.waiting then 1 else 0

/-- A label that falls pays for one extraction. -/
theorem wears_distanceLoad {t : Walk ℚ} {J : Workspace ℚ → Prop} (ht : Measured t) :
    Wears t J distanceLoad where
  nonneg hs v := add_nonneg (hs.whole v).nonneg (NodeQueue.waiting_load_nonneg _ v)
  extracted := by
    intro w k q _ hd
    have hout : k ∉ q.waiting := fun hmem =>
      ((hd.waits k).mp (NodeQueue.mem_waiting.mp hmem)).2 rfl
    unfold distanceLoad
    rw [if_pos (NodeQueue.mem_waiting.mpr hd.waited), if_neg hout, add_zero]
    rfl
  others := by
    intro w k q _ hd v hv
    have hwaits : q.Waits v ↔ w.queue.Waits v := (hd.waits v).trans (and_iff_left hv)
    exact add_le_add_right (NodeQueue.waiting_load_congr hwaits).le _
  improve := by
    intro due w a d h _ hi v
    have hr := h.relabeled_improve ht hi
    unfold distanceLoad
    by_cases hv : v = t.network.headOf a
    · have hlower := (h.isWhole_label ht hi).add_one_le (h.whole _) hi.lower
      have hnew := NodeQueue.waiting_load_le (t.improve a d w).queue v
      have hold := NodeQueue.waiting_load_nonneg w.queue v
      rw [hv, hr.dist_self]
      rw [hv] at hnew hold
      linarith
    · have hwaits : (t.improve a d w).queue.Waits v ↔ w.queue.Waits v :=
        (hr.queued.waits v).trans (or_iff_left hv)
      rw [hr.dist_ne v hv, NodeQueue.waiting_load_congr hwaits]

/-- At the start no load is larger than the distance of an unreached node. -/
theorem distanceLoad_start_le {w : Workspace ℚ} (hw : w.Ready) {m : Nat} (hm : m < w.capacity)
    (v : Nat) : distanceLoad ((w.setLabel m 0 none).enqueue m) v ≤ Weight.faraway := by
  have hr := hw.relabeled (d := 0) (p := none) hm
  have hfar := Weight.faraway_rat
  unfold distanceLoad
  by_cases hv : v = m
  · have hone := NodeQueue.waiting_load_le ((w.setLabel m 0 none).enqueue m).queue v
    rw [hv] at hone ⊢
    rw [hr.dist_self]
    linarith
  · have hnot : v ∉ ((w.setLabel m 0 none).enqueue m).queue.waiting := fun hmem =>
      hv ((hr.waits_iff hw).mp (NodeQueue.mem_waiting.mp hmem))
    rw [if_neg hnot, add_zero, hr.dist_ne v hv, hw.distOf_eq]

/-! ### Lenient ledgers -/

/-- Nothing that the ledger refuses matters: no required node in between has a prize, or the
traces have room for all prizes, or there is no required node in between. -/
def Lenient (g : Network ℚ) (query : WalkQuery ℚ) (w : Workspace ℚ) : Ledger → Prop
  | .firstVisit => ∀ v, g.isRequired v = true → v ≠ query.start → v ≠ query.goal →
      g.prizeOf v = 0
  | .combined => (g.prizeNodes query.start query.goal).length ≤ w.traceCapacity ∨
      ∀ v, g.isRequired v = true → v = query.start ∨ v = query.goal
  | .split => False

section Lenient

variable {g : Network ℚ} {costs : CostView ℚ} {ledger : Ledger} {query : WalkQuery ℚ}
  {w : Workspace ℚ}

theorem Lenient.exists_harmless (h : Lenient g query w ledger) (hw : w.Ready)
    (ht : Measured ⟨g.masked query.start query.goal, costs, ledger, query⟩) :
    ∃ J, Harmless ⟨g.masked query.start query.goal, costs, ledger, query⟩ J ∧
      J ((w.setLabel query.start 0 none).enqueue query.start) := by
  cases ledger with
  | firstVisit =>
    refine ⟨_, harmless_firstVisit ht rfl h, fun v hv => ?_⟩
    rw [not_claimed_start hw] at hv
    cases hv
  | combined =>
    rcases h with hcount | hfree
    · rw [← Network.prizeNodes_masked (c := query.start) (d := query.goal)] at hcount
      exact ⟨_, harmless_combined ht rfl hcount, listed_start hw⟩
    · exact ⟨_, harmless_of_required ht rfl hfree, trivial⟩
  | split => exact h.elim

/-- **Walks are no longer than plain paths.**  Costs and prizes are natural numbers, and
nothing that the ledger refuses matters.  If there is a passage within the limit, an answer is
at most as far as the nearest one, and the search does not miss the goal.  If it does not find
the goal, there is no passage within the limit.  A search without a scan limit does not give up;
one with a limit can only exceed it if that is less than the largest distance for each arc. -/
theorem run_le_passage (hg : g.Built)
    (hcosts : ∀ a, a < g.arcCount → ∃ n : ℕ, costs a = some (n : ℚ))
    (hprizes : ∀ v, v < g.nodeCount → ∃ n : ℕ, g.prizeOf v = n)
    (hstart : query.start < g.nodeCount) (hgoal : query.goal < g.nodeCount)
    (hne : query.start ≠ query.goal) (hlenient : Lenient g query w ledger) (hw : w.Ready)
    (hroom : g.nodeCount ≤ w.capacity) :
    ∃ outcome w', run g costs ledger query w = .ok (outcome, w') ∧
      (outcome = .overBudget →
        query.isLimited = true ∧ (query.arcLimit : ℚ) < g.arcCount * Weight.faraway) ∧
      (∀ D, g.IsPassageDistance (priceOf costs) query.start query.goal D → D < Weight.faraway →
        D ≤ query.maxDistance → outcome = .overBudget ∨ ∃ d, outcome = .reached d ∧ d ≤ D) ∧
      (outcome = .notFound → ∀ as, g.IsPassage query.start as query.goal →
        Network.pathLength (priceOf costs) as < Weight.faraway →
          ¬ Network.pathLength (priceOf costs) as ≤ query.maxDistance) := by
  have hlimit : ∀ {x : ℚ}, x ≤ query.maxDistance → Weight.above x query.maxDistance = false := by
    intro x hx
    have htol := Weight.tolerance_pos
    exact Weight.above_eq_false_iff.mpr (by linarith)
  have hwhole : ∀ v, g.isTerminal v = true → v ≠ query.start → v ≠ query.goal →
      Weight.IsWhole (g.prizeOf v) := by
    intro v _ _ _
    by_cases hv : v < g.nodeCount
    · exact hprizes v hv
    · have hsize := hg.wellFormed.prize_size
      rw [Network.prizeOf, Array.getD_of_size_le (by omega)]
      exact Weight.isWhole_zero
  have ht : Measured ⟨g.masked query.start query.goal, costs, ledger, query⟩ :=
    measured_masked hg hcosts hwhole hstart hne
  obtain ⟨J, hharm, hJ⟩ := hlenient.exists_harmless hw ht
  obtain ⟨o, w', hrun, hbounds, -⟩ := run_bounds hg ht hgoal hw hroom hharm (wears_distanceLoad ht)
    hJ (distanceLoad_start_le hw (lt_of_lt_of_le hstart hroom)) le_rfl
  refine ⟨o, w', hrun, hbounds.overBudget, fun D hD hfar hle => ?_, fun hnone as has hfar hle => ?_⟩
  · obtain ⟨as, has, rfl⟩ := hD.attained
    cases ho : o with
    | reached d => exact Or.inr ⟨d, rfl, hbounds.reached d ho as has hfar (hlimit hle)⟩
    | notFound =>
      have habove := hbounds.notFound ho as has hfar
      rw [hlimit hle] at habove
      cases habove
    | overBudget => exact Or.inl rfl
  · have habove := hbounds.notFound hnone as has hfar
    rw [hlimit hle] at habove
    cases habove

/-- From node 0 to node 2, which are 8 apart over the required node 1 with its prize of 4,
without a scan limit. -/
theorem run_le_passage_on_chain :
    let chain := (((Network.empty 3).pushArc 0 1 (5 : ℚ)).pushArc 1 0 5).pushArc 1 2 3
    let g := { chain.pushArc 2 1 3 with
      kind := #[.steiner, .proper, .steiner], prize := #[0, 4, 0] }
    let query : WalkQuery ℚ := ⟨0, 2, 8, 18446744073709551615⟩
    g.IsPassageDistance (priceOf (.ofArray g.cost)) 0 2 8 ∧
      ∃ d w', run g (.ofArray g.cost) .combined query (.fresh 3 1) = .ok (.reached d, w') ∧
        d ≤ 8 := by
  intro chain g query
  have hone : (Network.empty 3).addArcPair 0 1 (5 : ℚ) 5 =
      .ok (0, ((Network.empty 3).pushArc 0 1 5).pushArc 1 0 5) := rfl
  have htwo : (((Network.empty 3).pushArc 0 1 (5 : ℚ)).pushArc 1 0 5).addArcPair 1 2 3 3 =
      .ok (1, chain.pushArc 2 1 3) := rfl
  have hkind : (chain.pushArc 2 1 3).setTerminal 1 .proper =
      .ok { chain.pushArc 2 1 3 with kind := #[.steiner, .proper, .steiner] } := rfl
  have hprize : { chain.pushArc 2 1 3 with kind := #[.steiner, .proper, .steiner] }.setPrize 1 4 =
      .ok g := rfl
  have hg : g.Built :=
    ((((Network.Built.empty 3).addArcPair hone).addArcPair htwo).setTerminal hkind).setPrize hprize
  have harcs : ∀ {a}, a < g.arcCount → a = 0 ∨ a = 1 ∨ a = 2 ∨ a = 3 := by
    intro a ha
    change a < 4 at ha
    omega
  have hcosts : ∀ a, a < g.arcCount → ∃ n : ℕ, CostView.ofArray g.cost a = some (n : ℚ) := by
    intro a ha
    obtain rfl | rfl | rfl | rfl := harcs ha
    · exact ⟨5, rfl⟩
    · exact ⟨5, rfl⟩
    · exact ⟨3, rfl⟩
    · exact ⟨3, rfl⟩
  have hprizes : ∀ v, v < g.nodeCount → ∃ n : ℕ, g.prizeOf v = n := by
    intro v hv
    change v < 3 at hv
    obtain rfl | rfl | rfl : v = 0 ∨ v = 1 ∨ v = 2 := by omega
    · exact ⟨0, rfl⟩
    · exact ⟨4, rfl⟩
    · exact ⟨0, rfl⟩
  have hdistance : g.IsPassageDistance (priceOf (.ofArray g.cost)) 0 2 8 := by
    refine ⟨⟨[0, 2], ⟨⟨by decide, rfl, by decide, rfl, rfl⟩, by decide⟩, ?_⟩, fun as has => ?_⟩
    · change (5 : ℚ) + (3 + 0) = 8
      norm_num
    · -- nodes at their distances from node 0
      have hle := has.path.le_pathLength (c := priceOf (.ofArray g.cost))
        (x := fun v => if v = 0 then 0 else if v = 1 then 5 else 8) fun a ha => ?_
      · change (8 : ℚ) ≤ 0 + _ at hle
        linarith
      · obtain rfl | rfl | rfl | rfl := harcs ha
        · change (5 : ℚ) ≤ 0 + 5
          norm_num
        · change (0 : ℚ) ≤ 5 + 5
          norm_num
        · change (8 : ℚ) ≤ 5 + 3
          norm_num
        · change (5 : ℚ) ≤ 8 + 3
          norm_num
  have hlenient : Lenient g query (.fresh 3 1) .combined := Or.inl (by decide)
  obtain ⟨o, w', hrun, hover, hreached, -⟩ := run_le_passage hg hcosts hprizes (by decide)
    (by decide) (by decide) hlenient (Workspace.fresh_ready 3 1) (by decide)
  refine ⟨hdistance, ?_⟩
  have hfar : (8 : ℚ) < Weight.faraway := by
    rw [Weight.faraway_rat]
    norm_num
  rcases hreached 8 hdistance hfar le_rfl with rfl | ⟨d, rfl, hd⟩
  · have hlimited : query.isLimited = false := by decide
    exact absurd (hlimited.symm.trans (hover rfl).1) Bool.false_ne_true
  · exact ⟨d, w', hrun, hd⟩

end Lenient

end Walk

end SteinerSearch
