import SteinerSearch.Proofs.Walk.Domination

/-!
# Walks without prizes

If no terminal between start and goal has a prize, a walk search is a search for a shortest
passage, whatever the ledger is, whatever kinds the nodes have, and however short the traces
are.  No label is credited, so every label is the length of a plain path.  A node that was
extracted is never labeled again, since no plain path to it is shorter than its label; so no
arc is scanned twice.

The distance limit is checked up to the tolerance: a goal that is further than the limit by no
more than rounding is still reached.

## Main definitions

* `Walk.openLoad w v` — one, until `v` is extracted.

## Main results

* `Walk.run_unpaid` — answers are lengths of passages, and no passage is shorter.
* `Walk.run_eq_reached`, `Walk.run_shortest` — a search finds the distance of the goal if it is
  within the limit.
-/

namespace SteinerSearch

namespace Walk

variable {t : Walk ℚ} {w : Workspace ℚ} {steps : List Network.WalkStep} {a v : Nat} {d : ℚ}

/-! ### Walks without credits -/

/-- The arcs of a credited walk may be taken. -/
theorem plain_of_isCreditedWalk
    (h : t.network.IsCreditedWalk t.query.start t.query.goal steps v) :
    t.Plain (steps.map Network.WalkStep.arc) v := by
  refine ⟨h.path, fun a ha => ?_⟩
  obtain ⟨s, hs, rfl⟩ := List.mem_map.mp ha
  exact ⟨h.leaves s hs, (h.enters s hs).2⟩

/-- Without credits a walk is worth its length. -/
theorem creditedLength_eq_pathLength {g : Network ℚ} {costs : CostView ℚ}
    (h : ∀ s ∈ steps, s.credited = false) : g.creditedLength costs steps =
      Network.pathLength (priceOf costs) (steps.map Network.WalkStep.arc) := by
  induction steps using List.reverseRecOn with
  | nil => rfl
  | append_singleton steps s ih =>
    have hlast := h s (by simp)
    rw [Network.creditedLength_concat, ih fun x hx => h x (List.mem_append_left _ hx),
      List.map_append, List.map_singleton, Network.pathLength_concat]
    simp only [Network.extendLength, hlast, priceOf]
    rfl

/-- Where there are no prizes there are no credits. -/
theorem not_credited_of_unpaid (hfree : t.network.Unpaid t.query.start t.query.goal)
    (h : t.network.IsCreditedWalk t.query.start t.query.goal steps v) :
    ∀ s ∈ steps, s.credited = false := by
  intro s hs
  rw [Bool.eq_false_iff]
  intro hcredited
  obtain ⟨hgoal, hterminal, hprize⟩ := h.credits s hs hcredited
  rw [hfree _ hterminal (h.enters s hs).1 hgoal, Weight.negligible_zero] at hprize
  cases hprize

/-- A label is the length of a plain path. -/
theorem Sound.exists_plain (h : Sound t w) (hfree : t.network.Unpaid t.query.start t.query.goal)
    (hv : w.isVisited v = true) :
    ∃ as, t.Plain as v ∧ Network.pathLength t.arcCost as = w.distOf v := by
  obtain ⟨steps, hwalk, hlen, -⟩ := h.walk v hv
  rw [creditedLength_eq_pathLength (not_credited_of_unpaid hfree hwalk)] at hlen
  exact ⟨_, plain_of_isCreditedWalk hwalk, hlen⟩

/-! ### Extracted nodes keep their labels -/

/-- The head of an arc that gives a better label was not extracted: the label is the length of
a plain path, and none is shorter than the label of an extracted node. -/
theorem Frontier.not_extracted {due : Nat → Prop} (h : Frontier t due w) (ht : Measured t)
    (hfree : t.network.Unpaid t.query.start t.query.goal) (hi : Improves t w a d) :
    ¬ (w.isVisited (t.network.headOf a) = true ∧ ¬ w.queue.Waits (t.network.headOf a)) := by
  rintro ⟨hvisited, hextracted⟩
  obtain ⟨as, hplain, hlen⟩ := h.toSound.exists_plain hfree hi.tail
  have hlength : Network.pathLength t.arcCost (as ++ [a]) = d := by
    rw [Network.pathLength_concat, hlen, hi.eq_of_unpaid ht hfree]
  have hfits : t.Fits (Network.pathLength t.arcCost (as ++ [a])) := by
    rw [hlength]
    exact ⟨hi.lower.trans_le (h.near _), hi.limit⟩
  have hle := h.exact _ hvisited hextracted _
    (plain_concat.mpr ⟨hplain, hi.arc, hi.passable, rfl⟩) hfits
  rw [hlength] at hle
  exact absurd hi.lower (not_lt.mpr hle)

/-- One, until the node is extracted. -/
def openLoad (w : Workspace ℚ) (v : Nat) : ℚ :=
  if w.isVisited v = true ∧ v ∉ w.queue.waiting then 0 else 1

theorem openLoad_nonneg (w : Workspace ℚ) (v : Nat) : 0 ≤ openLoad w v := by
  unfold openLoad
  split <;> norm_num

theorem openLoad_le (w : Workspace ℚ) (v : Nat) : openLoad w v ≤ 1 := by
  unfold openLoad
  split <;> norm_num

theorem wears_openLoad {J : Workspace ℚ → Prop} (ht : Measured t)
    (hfree : t.network.Unpaid t.query.start t.query.goal) : Wears t J openLoad where
  nonneg _ v := openLoad_nonneg _ v
  extracted := by
    intro w k q hs hd
    have hin : k ∈ w.queue.waiting := NodeQueue.mem_waiting.mpr hd.waited
    have hout : k ∉ q.waiting := fun hmem =>
      ((hd.waits k).mp (NodeQueue.mem_waiting.mp hmem)).2 rfl
    have hvisited := hs.waiting k hd.waited
    unfold openLoad
    rw [if_pos ⟨hvisited, hout⟩, if_neg fun h => h.2 hin, zero_add]
  others := by
    intro w k q _ hd v hv
    have hwaits : v ∈ q.waiting ↔ v ∈ w.queue.waiting := by
      rw [NodeQueue.mem_waiting, NodeQueue.mem_waiting, hd.waits]
      exact and_iff_left hv
    exact (if_congr (and_congr_right fun _ => not_congr hwaits) rfl rfl).le
  improve := by
    intro due w a d h _ hi v
    have hr := h.relabeled_improve ht hi
    by_cases hv : v = t.network.headOf a
    · have hopen : openLoad w v = 1 := by
        rw [openLoad, hv, if_neg]
        rw [NodeQueue.mem_waiting]
        exact h.not_extracted ht hfree hi
      rw [hopen]
      exact openLoad_le _ v
    · have hwaits : v ∈ (t.improve a d w).queue.waiting ↔ v ∈ w.queue.waiting := by
        rw [NodeQueue.mem_waiting, NodeQueue.mem_waiting, hr.queued.waits]
        exact or_iff_left hv
      refine (if_congr ?_ rfl rfl).le
      rw [hr.visited_ne v hv, hwaits]

/-! ### Shortest passages -/

section Run

variable {g : Network ℚ} {costs : CostView ℚ} {ledger : Ledger} {query : WalkQuery ℚ}

/-- An answer is the length of a passage, within the limit up to rounding, and the outcome is
as passages demand. -/
theorem run_unpaid (ledger : Ledger) (hg : g.Built)
    (hcosts : ∀ a, a < g.arcCount → ∃ n : ℕ, costs a = some (n : ℚ))
    (hfree : g.Unpaid query.start query.goal) (hstart : query.start < g.nodeCount)
    (hgoal : query.goal < g.nodeCount) (hne : query.start ≠ query.goal) (hw : w.Ready)
    (hroom : g.nodeCount ≤ w.capacity) :
    ∃ outcome w', run g costs ledger query w = .ok (outcome, w') ∧
      Bounds g costs query g.arcCount outcome ∧
      ∀ d, outcome = .reached d → Weight.above d query.maxDistance = false ∧
        ∃ as, g.IsPassage query.start as query.goal ∧
          Network.pathLength (priceOf costs) as = d := by
  have hwhole : ∀ v, g.isTerminal v = true → v ≠ query.start → v ≠ query.goal →
      Weight.IsWhole (g.prizeOf v) := by
    intro v hterminal hs hv
    rw [hfree v hterminal hs hv]
    exact Weight.isWhole_zero
  have ht : Measured ⟨g.masked query.start query.goal, costs, ledger, query⟩ :=
    measured_masked hg hcosts hwhole hstart hne
  have hfree' : (g.masked query.start query.goal).Unpaid query.start query.goal := hfree
  obtain ⟨J, hharm, hJ⟩ := exists_harmless_of_unpaid ht (hg.masked _ _).wellFormed hfree' hw
  have hone : (1 : ℚ) ≤ Weight.faraway := by
    rw [Weight.faraway_rat]
    norm_num
  obtain ⟨o, w', hrun, hbounds, hanswer⟩ := run_bounds hg ht hgoal hw hroom hharm
    (wears_openLoad ht hfree') hJ (openLoad_le _) hone
  rw [mul_one] at hbounds
  refine ⟨o, w', hrun, hbounds, fun d hd => ?_⟩
  obtain ⟨hlimit, steps, hwalk, hlen⟩ := hanswer d hd
  have hplain : Plain ⟨g.masked query.start query.goal, costs, ledger, query⟩
      (steps.map Network.WalkStep.arc) query.goal := plain_of_isCreditedWalk hwalk
  refine ⟨hlimit, _, hplain.isPassage, ?_⟩
  rw [← hlen, creditedLength_eq_pathLength]
  exact not_credited_of_unpaid
    (t := ⟨g.masked query.start query.goal, costs, ledger, query⟩) hfree' hwalk

/-- A goal within the limit, up to rounding, is found at its distance. -/
theorem run_eq_reached (ledger : Ledger) {D : ℚ} (hg : g.Built)
    (hcosts : ∀ a, a < g.arcCount → ∃ n : ℕ, costs a = some (n : ℚ))
    (hfree : g.Unpaid query.start query.goal) (hstart : query.start < g.nodeCount)
    (hgoal : query.goal < g.nodeCount) (hne : query.start ≠ query.goal) (hw : w.Ready)
    (hroom : g.nodeCount ≤ w.capacity)
    (harcs : query.isLimited = true → g.arcCount ≤ query.arcLimit)
    (hD : g.IsPassageDistance (priceOf costs) query.start query.goal D)
    (hfar : D < Weight.faraway) (hlimit : Weight.above D query.maxDistance = false) :
    ∃ w', run g costs ledger query w = .ok (.reached D, w') := by
  obtain ⟨o, w', hrun, hbounds, hanswer⟩ :=
    run_unpaid ledger hg hcosts hfree hstart hgoal hne hw hroom
  obtain ⟨as, has, hlen⟩ := hD.attained
  rw [← hlen] at hfar hlimit
  cases ho : o with
  | reached d =>
    obtain ⟨-, bs, hbs, hd⟩ := hanswer d ho
    have hge := hD.least bs hbs
    have hle := hbounds.reached d ho as has hfar hlimit
    rw [hd] at hge
    rw [hlen] at hle
    obtain rfl := le_antisymm hge hle
    exact ⟨w', ho ▸ hrun⟩
  | notFound =>
    have habove := hbounds.notFound ho as has hfar
    rw [hlimit] at habove
    cases habove
  | overBudget =>
    obtain ⟨hlimited, hlt⟩ := hbounds.overBudget ho
    exact absurd (Nat.cast_lt.mp hlt) (Nat.not_lt.mpr (harcs hlimited))

/-- **Without prizes walks are shortest paths.**  Costs are natural numbers, and no terminal
other than start and goal has a prize.  Then with every ledger and whatever the capacity of the
traces, a search that may scan each arc once finds the length of a shortest passage, if that is
not above the limit by more than rounding, and otherwise it does not find the goal. -/
theorem run_shortest (ledger : Ledger) (hg : g.Built)
    (hcosts : ∀ a, a < g.arcCount → ∃ n : ℕ, costs a = some (n : ℚ))
    (hreach : ∀ D, g.IsPassageDistance (priceOf costs) query.start query.goal D →
      D < Weight.faraway)
    (hfree : g.Unpaid query.start query.goal) (hstart : query.start < g.nodeCount)
    (hgoal : query.goal < g.nodeCount) (hne : query.start ≠ query.goal) (hw : w.Ready)
    (hroom : g.nodeCount ≤ w.capacity)
    (harcs : query.isLimited = true → g.arcCount ≤ query.arcLimit) :
    ∃ outcome w', run g costs ledger query w = .ok (outcome, w') ∧
      (∀ D, g.IsPassageDistance (priceOf costs) query.start query.goal D →
        Weight.above D query.maxDistance = false → outcome = .reached D) ∧
      ((∀ D, g.IsPassageDistance (priceOf costs) query.start query.goal D →
        Weight.above D query.maxDistance = true) → outcome = .notFound) := by
  obtain ⟨o, w', hrun, hbounds, hanswer⟩ :=
    run_unpaid ledger hg hcosts hfree hstart hgoal hne hw hroom
  refine ⟨o, w', hrun, fun D hD hlimit => ?_, fun hbeyond => ?_⟩
  · obtain ⟨w'', hreached⟩ := run_eq_reached ledger hg hcosts hfree hstart hgoal hne hw hroom harcs
      hD (hreach D hD) hlimit
    rw [hrun, Except.ok.injEq, Prod.mk.injEq] at hreached
    exact hreached.1
  · cases ho : o with
    | notFound => rfl
    | reached d =>
      -- the passage that was found is no shorter than a shortest one
      obtain ⟨hlimit, as, has, rfl⟩ := hanswer d ho
      have hwhole : ∀ a, a < g.arcCount → Weight.IsWhole (priceOf costs a) := by
        intro a ha
        obtain ⟨n, hn⟩ := hcosts a ha
        exact ⟨n, by rw [priceOf, hn, Option.getD_some]⟩
      obtain ⟨D, hD⟩ := Network.exists_isPassageDistance hwhole has
      have habove := Weight.above_mono (hD.least as has) (hbeyond D hD)
      rw [hlimit] at habove
      cases habove
    | overBudget =>
      obtain ⟨hlimited, hlt⟩ := hbounds.overBudget ho
      exact absurd (Nat.cast_lt.mp hlt) (Nat.not_lt.mpr (harcs hlimited))

end Run

/-- Three nodes in a row, 5 and 3 apart.  The one in between is required and has no prize. -/
def row : Network ℚ :=
  { ((((Network.empty 3).pushArc 0 1 5).pushArc 1 0 5).pushArc 1 2 3).pushArc 2 1 3 with
    kind := #[.steiner, .proper, .steiner] }

theorem row_built : row.Built := by
  have hone : (Network.empty 3).addArcPair 0 1 (5 : ℚ) 5 =
      .ok (0, ((Network.empty 3).pushArc 0 1 5).pushArc 1 0 5) := rfl
  have htwo : (((Network.empty 3).pushArc 0 1 (5 : ℚ)).pushArc 1 0 5).addArcPair 1 2 3 3 =
      .ok (1, ((((Network.empty 3).pushArc 0 1 5).pushArc 1 0 5).pushArc 1 2 3).pushArc 2 1 3) :=
    rfl
  have hkind : Network.setTerminal (((((Network.empty 3).pushArc 0 1 (5 : ℚ)).pushArc 1 0 5).pushArc
      1 2 3).pushArc 2 1 3) 1 .proper = .ok row := rfl
  exact (((Network.Built.empty 3).addArcPair hone).addArcPair htwo).setTerminal hkind

theorem row_arcs {a : Nat} (ha : a < row.arcCount) : a = 0 ∨ a = 1 ∨ a = 2 ∨ a = 3 := by
  change a < 4 at ha
  omega

theorem row_costs (a : Nat) (ha : a < row.arcCount) :
    ∃ n : ℕ, CostView.ofArray row.cost a = some (n : ℚ) := by
  obtain rfl | rfl | rfl | rfl := row_arcs ha
  · exact ⟨5, rfl⟩
  · exact ⟨5, rfl⟩
  · exact ⟨3, rfl⟩
  · exact ⟨3, rfl⟩

theorem row_unpaid : row.Unpaid 0 2 := by
  intro v _ _ _
  exact Array.getD_replicate 3 v 0

theorem row_distance : row.IsPassageDistance (priceOf (.ofArray row.cost)) 0 2 8 := by
  refine ⟨⟨[0, 2], ⟨⟨by decide, rfl, by decide, rfl, rfl⟩, by decide⟩, ?_⟩, fun as has => ?_⟩
  · change (5 : ℚ) + (3 + 0) = 8
    norm_num
  · -- the nodes at their distances from node 0
    have hle := has.path.le_pathLength (c := priceOf (.ofArray row.cost))
      (x := fun v => if v = 0 then 0 else if v = 1 then 5 else 8) fun a ha => ?_
    · change (8 : ℚ) ≤ 0 + _ at hle
      linarith
    · obtain rfl | rfl | rfl | rfl := row_arcs ha
      · change (5 : ℚ) ≤ 0 + 5
        norm_num
      · change (0 : ℚ) ≤ 5 + 5
        norm_num
      · change (8 : ℚ) ≤ 5 + 3
        norm_num
      · change (5 : ℚ) ≤ 8 + 3
        norm_num

/-- From end to end of the row, with traces that hold nothing and a limit that is just met. -/
theorem run_shortest_on_row : let query : WalkQuery ℚ := ⟨0, 2, 8, 18446744073709551615⟩
    ∃ w', run row (.ofArray row.cost) .split query (.fresh 3 0) = .ok (.reached 8, w') := by
  intro query
  have hreach : ∀ D, row.IsPassageDistance (priceOf (.ofArray row.cost)) query.start query.goal D →
      D < Weight.faraway := by
    intro D hD
    obtain ⟨as, has, hlen⟩ := row_distance.attained
    have hle := hD.least as has
    rw [hlen] at hle
    rw [Weight.faraway_rat]
    linarith
  have hfree : row.Unpaid query.start query.goal := row_unpaid
  have hlimit : Weight.above (8 : ℚ) query.maxDistance = false := by
    rw [Weight.above_eq_false_iff, Weight.tolerance_rat]
    change (8 : ℚ) - 8 ≤ _
    norm_num
  obtain ⟨o, w', hrun, hreached, -⟩ := run_shortest .split row_built row_costs hreach hfree
    (by decide) (by decide) (by decide) (Workspace.fresh_ready 3 0) (by decide) (by decide)
  rw [hreached 8 row_distance hlimit] at hrun
  exact ⟨w', hrun⟩

/-- **A goal just beyond the limit is found.**  It is 8 away, which is more than the limit, but
by half the tolerance only. -/
theorem run_reaches_beyond_limit :
    let query : WalkQuery ℚ := ⟨0, 2, 8 - 1 / 2000000000, 18446744073709551615⟩
    row.Built ∧ row.Unpaid 0 2 ∧ row.IsPassageDistance (priceOf (.ofArray row.cost)) 0 2 8 ∧
      ¬ (8 : ℚ) ≤ query.maxDistance ∧
      (∃ w', run row (.ofArray row.cost) .firstVisit query (.fresh 3 0) =
        .ok (.reached 8, w')) ∧
      (∃ w', run row (.ofArray row.cost) .combined query (.fresh 3 0) = .ok (.reached 8, w')) ∧
      ∃ w', run row (.ofArray row.cost) .split query (.fresh 3 0) = .ok (.reached 8, w') := by
  intro query
  have hfar : (8 : ℚ) < Weight.faraway := by
    rw [Weight.faraway_rat]
    norm_num
  have hlimit : Weight.above (8 : ℚ) query.maxDistance = false := by
    rw [Weight.above_eq_false_iff, Weight.tolerance_rat]
    simp only [query]
    norm_num
  have hfree : row.Unpaid query.start query.goal := row_unpaid
  have hfound : ∀ ledger, ∃ w', run row (.ofArray row.cost) ledger query (.fresh 3 0) =
      .ok (.reached 8, w') := by
    intro ledger
    exact run_eq_reached ledger row_built row_costs hfree (by decide) (by decide) (by decide)
      (Workspace.fresh_ready 3 0) (by decide) (by decide) row_distance hfar hlimit
  have hbeyond : ¬ (8 : ℚ) ≤ query.maxDistance := by
    simp only [query]
    norm_num
  exact ⟨row_built, row_unpaid, row_distance, hbeyond, hfound _, hfound _, hfound _⟩

end Walk

end SteinerSearch
