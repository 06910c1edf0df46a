import SteinerSearch.Proofs.Walk.Frontier

/-!
# Runs of a walk search

Nodes that are not required may be settled any number of times, so settled nodes do not
measure how far a search has got.  What does is a load of each node that pays for its
extractions: each extraction uses up one of it, and a better label adds nothing.  So the loads
of all nodes bound the number of steps.  A node that is extracted has all its arcs scanned, so
the loads of the tails of all arcs bound the number of scans.

## Main definitions

* `Walk.burden nodes load` — the loads of `nodes`.
* `Walk.Wears t J load` — what makes `load` a load.
* `Walk.Ended t bound o` — what an outcome says of plain paths to the goal.

## Main results

* `Walk.Running.settleNext` — what one step of a search keeps.
* `Walk.search_ends` — a search with a harmless ledger ends as the plain paths demand.
-/

namespace SteinerSearch

namespace Walk

variable {t : Walk ℚ} {J : Workspace ℚ → Prop} {load : Workspace ℚ → Nat → ℚ} {bound : ℚ}
  {s s' : State ℚ} {w : Workspace ℚ} {q : NodeQueue} {k a fuel : Nat} {d : ℚ}
  {done : List Nat}

/-! ### Loads -/

/-- The loads of `nodes`, as often as each is listed. -/
def burden (nodes : List Nat) (load : Nat → ℚ) : ℚ := (nodes.map load).sum

theorem burden_le (nodes : List Nat) {load load' : Nat → ℚ} (h : ∀ v, load' v ≤ load v) :
    burden nodes load' ≤ burden nodes load :=
  List.sum_le_sum fun _ _ => h _

theorem burden_nonneg (nodes : List Nat) {load : Nat → ℚ} (h : ∀ v, 0 ≤ load v) :
    0 ≤ burden nodes load := by
  refine List.sum_nonneg fun x hx => ?_
  obtain ⟨v, -, rfl⟩ := List.mem_map.mp hx
  exact h v

/-- Loads of at most `b` are `b` for each node together. -/
theorem burden_le_mul (nodes : List Nat) {load : Nat → ℚ} {b : ℚ} (h : ∀ v, load v ≤ b) :
    burden nodes load ≤ nodes.length * b := by
  have hle := List.sum_le_card_nsmul (nodes.map load) b fun x hx => by
    obtain ⟨v, -, rfl⟩ := List.mem_map.mp hx
    exact h v
  rwa [List.length_map, nsmul_eq_mul] at hle

/-- If one node uses up one of its load, it counts as often as it is listed. -/
theorem burden_add_count_le (nodes : List Nat) {load load' : Nat → ℚ}
    (hself : load' k + 1 ≤ load k) (hother : ∀ v, v ≠ k → load' v ≤ load v) :
    burden nodes load' + (nodes.count k : ℚ) ≤ burden nodes load := by
  induction nodes with
  | nil => simp [burden]
  | cons v nodes ih =>
    simp only [burden, List.map_cons, List.sum_cons] at ih ⊢
    by_cases hv : v = k
    · rw [hv, List.count_cons_self]
      push_cast
      linarith
    · have hle := hother v hv
      rw [List.count_cons_of_ne hv]
      linarith

/-- The tails of all arcs. -/
def tails (t : Walk ℚ) : List Nat := (List.range t.network.arcCount).map t.network.tailOf

theorem length_outArcs (ht : Measured t) : (t.network.outArcs k).length = t.tails.count k := by
  rw [ht.linked.outArcs_eq, List.filter_reverse, List.length_reverse, tails, List.count_eq_countP,
    List.countP_map, List.countP_eq_length_filter]
  rfl

/-- An extraction uses up one of the load of the node, and better labels add nothing. -/
structure Wears (t : Walk ℚ) (J : Workspace ℚ → Prop) (load : Workspace ℚ → Nat → ℚ) :
    Prop where
  nonneg : ∀ {w}, Sound t w → ∀ v, 0 ≤ load w v
  extracted : ∀ {w k q}, Sound t w → Departed t w k q → load { w with queue := q } k + 1 ≤ load w k
  others : ∀ {w k q}, Sound t w → Departed t w k q →
    ∀ v, v ≠ k → load { w with queue := q } v ≤ load w v
  improve : ∀ {due w a d}, Frontier t due w → J w → Improves t w a d →
    ∀ v, load (t.improve a d w) v ≤ load w v

/-- The loads of all nodes fall by one with an extraction. -/
theorem Wears.burden_add_one_le (h : Wears t J load) (hs : Sound t w) (hd : Departed t w k q) :
    burden (List.range t.network.nodeCount) (load { w with queue := q }) + 1 ≤
      burden (List.range t.network.nodeCount) (load w) := by
  have hcount : 1 ≤ (List.range t.network.nodeCount).count k :=
    List.count_pos_iff.mpr (List.mem_range.mpr (hs.within k (hs.waiting k hd.waited)).1)
  have hcount : (1 : ℚ) ≤ (List.range t.network.nodeCount).count k := by exact_mod_cast hcount
  have hle := burden_add_count_le (List.range t.network.nodeCount) (h.extracted hs hd)
    (h.others hs hd)
  linarith

/-! ### Steps -/

/-- What holds between two steps, with fuel for more steps. -/
structure Running (t : Walk ℚ) (J : Workspace ℚ → Prop) (load : Workspace ℚ → Nat → ℚ)
    (bound : ℚ) (fuel : Nat) (s : State ℚ) : Prop where
  frontier : Frontier t (fun _ => False) s.space
  guarded : J s.space
  fuel_lt : burden (List.range t.network.nodeCount) (load s.space) < fuel
  budget : s.scanned + burden t.tails (load s.space) ≤ bound

/-- What holds while the arcs out of `k`, which was extracted, are scanned. -/
structure Scanned (t : Walk ℚ) (J : Workspace ℚ → Prop) (load : Workspace ℚ → Nat → ℚ)
    (bound : ℚ) (fuel k : Nat) (base : ℚ) (done : List Nat) (s : State ℚ) : Prop where
  frontier : Frontier t (fun a => t.network.tailOf a = k ∧ a ∉ done) s.space
  guarded : J s.space
  visited : s.space.isVisited k = true
  extracted : ¬ s.space.queue.Waits k
  base : s.space.distOf k = base
  required : t.network.isRequired k = true → s.space.isSettled k = true
  fuel_lt : burden (List.range t.network.nodeCount) (load s.space) < fuel
  budget : s.scanned + (t.network.outArcs k).length + burden t.tails (load s.space) ≤
    bound + done.length

/-- What an outcome says of plain paths to the goal. -/
structure Ended (t : Walk ℚ) (bound : ℚ) (o : WalkOutcome ℚ) : Prop where
  reached : ∀ d, o = .reached d → ∀ as, t.Plain as t.query.goal →
    t.Fits (Network.pathLength t.arcCost as) → d ≤ Network.pathLength t.arcCost as
  notFound : o = .notFound → ∀ as, t.Plain as t.query.goal →
    ¬ t.Fits (Network.pathLength t.arcCost as)
  overBudget : o = .overBudget → t.query.isLimited = true ∧ (t.query.arcLimit : ℚ) < bound

theorem ended_reached (ht : Measured t) (h : Frontier t (fun _ => False) w)
    (hleast : ∀ v, w.queue.Waits v → w.distOf t.query.goal ≤ w.distOf v) :
    Ended t bound (.reached (w.distOf t.query.goal)) where
  reached d hd as hplain hfits := by
    cases hd
    exact h.dominates_of_least ht hleast as hplain hfits
  notFound h := by cases h
  overBudget h := by cases h

theorem ended_notFound (ht : Measured t) (h : Frontier t (fun _ => False) w)
    (hempty : ∀ v, ¬ w.queue.Waits v) : Ended t bound .notFound where
  reached d hd := by cases hd
  notFound _ as hplain := h.not_fits_of_empty ht hempty hplain
  overBudget h := by cases h

theorem ended_overBudget (h : t.query.isLimited = true ∧ (t.query.arcLimit : ℚ) < bound) :
    Ended t bound .overBudget where
  reached d hd := by cases hd
  notFound h := by cases h
  overBudget _ := h

theorem length_concat_cast : ((done ++ [a]).length : ℚ) = done.length + 1 := by
  rw [List.length_append, List.length_singleton]
  push_cast
  rfl

/-- An arc whose head gets a better label has been scanned. -/
theorem Scanned.label {base : ℚ} (h : Scanned t J load bound fuel (t.network.tailOf a) base done s)
    (ht : Measured t) (hharm : Harmless t J) (hwears : Wears t J load)
    (hi : Improves t s.space a d)
    (hfrontier : Frontier t (fun b => t.network.tailOf b = t.network.tailOf a ∧ b ∉ done ++ [a])
      (t.improve a d s.space)) :
    Scanned t J load bound fuel (t.network.tailOf a) base (done ++ [a])
      ⟨t.improve a d s.space, s.scanned + 1⟩ := by
  have hsound := h.frontier.toSound
  have hr := hsound.relabeled_improve ht hi
  have hne := (ht.linked.head_ne_tail a hi.arc).symm
  have hload := hwears.improve h.frontier h.guarded hi
  have htails := burden_le t.tails hload
  have hbudget := h.budget
  exact
    { frontier := hfrontier
      guarded := hharm.improve hsound h.guarded h.required hi
      visited := (hr.visited_ne _ hne).trans h.visited
      extracted := fun hw => ((hr.queued.waits _).mp hw).elim h.extracted hne
      base := (hr.dist_ne _ hne).trans h.base
      required := fun hreq => (hr.settled _).trans (h.required hreq)
      fuel_lt := (burden_le _ hload).trans_lt h.fuel_lt
      budget := by
        rw [length_concat_cast]
        push_cast
        linarith }

/-- One arc that is scanned. -/
theorem Scanned.scan {base : ℚ} (h : Scanned t J load bound fuel k base done s) (ht : Measured t)
    (hharm : Harmless t J) (hwears : Wears t J load) (hk : k ≠ t.query.goal)
    (hdone : done ++ [a] <+: t.network.outArcs k) :
    (∃ s', t.scan k base s a = .ok s' ∧
      Scanned t J load bound fuel k base (done ++ [a]) s') ∨
    ∃ s', t.scan k base s a = .error (.overBudget s') ∧
      t.query.isLimited = true ∧ (t.query.arcLimit : ℚ) < bound := by
  obtain ⟨ha, rfl⟩ := ht.linked.mem_outArcs.mp (mem_of_appended hdone)
  obtain rfl := h.base
  have hscan := h.frontier.toSound.scan ht ha h.visited hk fun hpass hopen hgoal hrefuses =>
    hharm.refused h.guarded ha h.visited hpass hopen hgoal hrefuses
  have hbudget := h.budget
  rcases hscan with ⟨s', hs', htook⟩ | ⟨s', hs', hlimited, hover⟩
  · refine Or.inl ⟨s', hs', ?_⟩
    -- the arc itself is due no longer
    have hfrontier : Frontier t
        (fun b => t.network.tailOf b = t.network.tailOf a ∧ b ∉ done ++ [a]) s'.space :=
      (h.frontier.take ht ha h.visited h.extracted htook).mono fun b _ hb =>
        ⟨hb.1.1, by simpa using ⟨hb.1.2, hb.2⟩⟩
    cases htook with
    | skipped _ =>
      exact
        { h with
          frontier := hfrontier
          budget := by
            rw [length_concat_cast]
            linarith }
    | kept _ =>
      exact
        { h with
          frontier := hfrontier
          budget := by
            rw [length_concat_cast]
            push_cast
            linarith }
    | labeled hi => exact h.label ht hharm hwears hi hfrontier
  · refine Or.inr ⟨s', hs', hlimited, ?_⟩
    have hlen : (done.length : ℚ) + 1 ≤ (t.network.outArcs (t.network.tailOf a)).length := by
      rw [← length_concat_cast (a := a)]
      exact_mod_cast hdone.length_le
    have hover : (t.query.arcLimit : ℚ) < s.scanned + 1 := by exact_mod_cast hover
    have hrest := burden_nonneg t.tails (hwears.nonneg h.frontier.toSound)
    linarith

/-- After the extraction of a node none of its arcs has been scanned. -/
theorem Running.depart (h : Running t J load bound (fuel + 1) s) (ht : Measured t)
    (hharm : Harmless t J) (hwears : Wears t J load) (hk : k ≠ t.query.goal)
    (hd : Departed t s.space k q) :
    Scanned t J load bound fuel k (s.space.distOf k) []
      { s with space := { s.space with queue := q } } := by
  have hsound := h.frontier.toSound
  have hfuel := h.fuel_lt
  have hload := hwears.burden_add_one_le hsound hd
  have htails := burden_add_count_le t.tails (hwears.extracted hsound hd)
    (hwears.others hsound hd)
  have hbudget := h.budget
  push_cast at hfuel
  exact
    { frontier := (h.frontier.depart ht hk hd).mono fun _ _ htail => ⟨htail, List.not_mem_nil⟩
      guarded := hharm.depart h.guarded hd
      visited := hsound.waiting k hd.waited
      extracted := fun hw => ((hd.waits k).mp hw).2 rfl
      base := rfl
      required := hd.settled_self
      fuel_lt := by
        dsimp only
        linarith
      budget := by
        rw [List.length_nil, Nat.cast_zero, add_zero, length_outArcs ht]
        dsimp only
        linarith }

/-- Once all arcs of a node were scanned, nothing is due. -/
theorem Scanned.running {base : ℚ}
    (h : Scanned t J load bound fuel k base (t.network.outArcs k) s) (ht : Measured t) :
    Running t J load bound fuel s where
  frontier := h.frontier.mono fun _ ha hdue =>
    hdue.2 (ht.linked.mem_outArcs.mpr ⟨ha, hdue.1⟩)
  guarded := h.guarded
  fuel_lt := h.fuel_lt
  budget := by
    have hbudget := h.budget
    linarith

/-- One step of a search. -/
theorem Running.settleNext (h : Running t J load bound (fuel + 1) s) (ht : Measured t)
    (hharm : Harmless t J) (hwears : Wears t J load) :
    (∃ s', t.settleNext s = .more s' ∧ Running t J load bound fuel s') ∨
      ∃ o s', t.settleNext s = .done o s' ∧ Ended t bound o := by
  have hmove := h.frontier.toSound.settleNext_cases
  generalize t.settleNext s = p at hmove ⊢
  cases hmove with
  | idle hempty => exact Or.inr ⟨_, _, rfl, ended_notFound ht h.frontier hempty⟩
  | arrives hwaited hleast => exact Or.inr ⟨_, _, rfl, ended_reached ht h.frontier hleast⟩
  | @scans k q hk hd =>
    rcases Progress.ofScan_ensures_of_appended
      (J := Scanned t J load bound fuel k (s.space.distOf k))
      (B := fun _ => t.query.isLimited = true ∧ (t.query.arcLimit : ℚ) < bound)
      WalkOutcome.overBudget (t.network.outArcs k)
      (fun done a s₁ hdone hs₁ => hs₁.scan ht hharm hwears hk hdone)
      (h.depart ht hharm hwears hk hd) with ⟨s', hs', hscanned⟩ | ⟨s', hs', hover⟩
    · exact Or.inl ⟨s', hs', hscanned.running ht⟩
    · exact Or.inr ⟨_, s', hs', ended_overBudget hover⟩

/-- Loads that are no larger than the distance of an unreached node are not more than a search
has fuel for. -/
theorem burden_lt_fuel {load : Nat → ℚ} (h : ∀ v, load v ≤ Weight.faraway) :
    burden (List.range t.network.nodeCount) load < (Walk.fuel t.network : Nat) := by
  have hle := burden_le_mul (List.range t.network.nodeCount) h
  have hcount : (0 : ℚ) ≤ t.network.nodeCount := Nat.cast_nonneg _
  rw [List.length_range, Weight.faraway_rat] at hle
  unfold Walk.fuel
  push_cast
  norm_num
  linarith

/-- A search with a harmless ledger ends as the plain paths to the goal demand.  It can only be
over its budget if that is less than the loads of the tails of all arcs. -/
theorem search_ends {b : ℚ} (ht : Measured t) (hharm : Harmless t J) (hwears : Wears t J load)
    (hw : w.Ready) (hroom : t.network.nodeCount ≤ w.capacity)
    (hstart : J ((w.setLabel t.query.start 0 none).enqueue t.query.start))
    (hload : ∀ v, load ((w.setLabel t.query.start 0 none).enqueue t.query.start) v ≤ b)
    (hb : b ≤ Weight.faraway) :
    ∃ o s, Progress.run t.settleNext .notFound (Walk.fuel t.network)
      ⟨(w.setLabel t.query.start 0 none).enqueue t.query.start, 0⟩ = .ok (o, s) ∧
        Ended t (t.network.arcCount * b) o := by
  have hrunning : Running t J load (t.network.arcCount * b) (Walk.fuel t.network)
      ⟨(w.setLabel t.query.start 0 none).enqueue t.query.start, 0⟩ := by
    refine ⟨frontier_start ht hw hroom, hstart, burden_lt_fuel fun v => (hload v).trans hb, ?_⟩
    have htails := burden_le_mul t.tails hload
    rw [tails, List.length_map, List.length_range] at htails
    rwa [Nat.cast_zero, zero_add]
  refine Progress.run_ensures (I := Running t J load (t.network.arcCount * b))
    (Q := fun o _ => Ended t (t.network.arcCount * b) o) (fun s hs => ?_)
    (fun n s hs => hs.settleNext ht hharm hwears) _ _ hrunning
  have hfuel := hs.fuel_lt
  have hnonneg := burden_nonneg (List.range t.network.nodeCount)
    (hwears.nonneg hs.frontier.toSound)
  rw [Nat.cast_zero] at hfuel
  linarith

end Walk

end SteinerSearch
