import SteinerSearch.Proofs.Reuse.Walks
import SteinerSearch.Proofs.Walk.Spelling

/-!
# Traces of a walk search

Whenever a search with traces ends, the traces of each labeled node spell out a walk that its label
is worth.  On the way no trace outgrows its bound, and a trace that was given up is not taken up
again.

## Main definitions

* `Workspace.TracesLater w w'` — the traces of `w'` were written after those of `w`.
* `Walk.Passes t w u`, `Walk.Passed g costs ledger query w u` — the tables are `u` at some time of
  the search.

## Main results

* `Walk.run_traces` — traces are exact, bounded and saturated for good.
-/

namespace SteinerSearch

/-- The traces of `w'` were written after those of `w`. -/
structure Workspace.TracesLater {α : Type} (w w' : Workspace α) : Prop where
  credited : w.credited.Later w'.credited
  creditedOther : w.creditedOther.Later w'.creditedOther
  traversed : w.traversed.Later w'.traversed

namespace Workspace.TracesLater

variable {α : Type} {w w' w'' : Workspace α}

theorem of_eq (hcredited : w'.credited = w.credited) (hother : w'.creditedOther = w.creditedOther)
    (htraversed : w'.traversed = w.traversed) : w.TracesLater w' :=
  ⟨hcredited ▸ .refl _, hother ▸ .refl _, htraversed ▸ .refl _⟩

theorem trans (h : w.TracesLater w') (h' : w'.TracesLater w'') : w.TracesLater w'' :=
  ⟨h.credited.trans h'.credited, h.creditedOther.trans h'.creditedOther,
    h.traversed.trans h'.traversed⟩

theorem setLabel (w : Workspace α) (v : Nat) (d : α) (p : Option Nat) :
    w.TracesLater (w.setLabel v d p) :=
  .of_eq credited_setLabel creditedOther_setLabel traversed_setLabel

/-- What is written later in one of the traces. -/
theorem later (h : w.TracesLater w') {lists : Workspace α → TraceLists}
    (hlists : lists ∈ [Workspace.credited, Workspace.creditedOther, Workspace.traversed]) :
    (lists w).Later (lists w') := by
  simp only [List.mem_cons, List.not_mem_nil, or_false] at hlists
  obtain rfl | rfl | rfl := hlists
  · exact h.credited
  · exact h.creditedOther
  · exact h.traversed

end Workspace.TracesLater

namespace Ledger

theorem later_extended (ls : TraceLists) (k m x : Nat) (grow : Bool) :
    ls.Later (extended ls k m x grow) := by
  have hcopy := ls.later_copy k m
  unfold extended
  split
  · exact hcopy.trans (TraceLists.later_push _ m x)
  · exact hcopy

theorem tracesLater_record {α : Type} (l : Ledger) (g : Network α) (w : Workspace α) (k m a : Nat)
    (credit : Bool) : w.TracesLater (l.record g w k m a credit) := by
  cases l with
  | firstVisit =>
    cases credit with
    | false => exact .of_eq rfl rfl rfl
    | true => exact .of_eq rfl rfl rfl
  | combined => exact ⟨later_extended _ k m m credit, .refl _, .refl _⟩
  | split =>
    exact ⟨later_extended _ k m m _, later_extended _ k m m _,
      later_extended _ k m (Arc.edge a) true⟩

end Ledger

namespace Walk

variable {α : Type} [Weight α] {t : Walk α} {w₀ w u : Workspace α}

/-! ### Steps -/

theorem tracesLater_take (t : Walk α) (k m a : Nat) (base c : α) (w : Workspace α) :
    w.TracesLater (t.take k m a base c w) := by
  have hrecord : ∀ d credit, w.TracesLater (t.relabeled k m a d credit w) := by
    intro d credit
    have hlater := t.ledger.tracesLater_record t.network (w.setLabel m d (some a)) k m a credit
    exact ((Workspace.TracesLater.setLabel w m d (some a)).trans hlater).trans (.of_eq rfl rfl rfl)
  simp only [Walk.take]
  split
  · exact .of_eq rfl rfl rfl
  · split
    · exact hrecord _ _
    · exact .of_eq rfl rfl rfl

theorem later_scan_leads (ht : Proper t) {k a : Nat} (base : α) (ha : a < t.network.arcCount)
    (s : State α) (h : w₀.TracesLater s.space) :
    Halt.Leads (fun s' => w₀.TracesLater s'.space) (t.scan k base s a) :=
  scan_keeps (ht.cost a ha) (fun _ => h) fun c _ _ _ _ _ =>
    h.trans (t.tracesLater_take k _ a base c _)

/-- The rest of a scan writes to the traces only as a ledger does. -/
theorem later_foldlM_leads (ht : Proper t) {k : Nat} (base : α) {as : List Nat}
    (has : as ⊆ t.network.outArcs k) (s : State α) (h : w₀.TracesLater s.space) :
    Halt.Leads (fun s' => w₀.TracesLater s'.space) (as.foldlM (t.scan k base) s) :=
  Halt.foldlM_leads as (fun _ ha s hs =>
    later_scan_leads ht base (ht.linked.mem_outArcs.mp (has ha)).1 s hs) s h

theorem tracesLater_opened {s : State α} {k : Nat} (hpop : s.space.popMin? = some (k, w)) :
    s.space.TracesLater w ∧ s.space.TracesLater (t.opened k w s.scanned).space := by
  obtain ⟨q, -, rfl⟩ := Workspace.popMin?_eq_some hpop
  refine ⟨.of_eq rfl rfl rfl, ?_⟩
  unfold opened
  split <;> exact .of_eq rfl rfl rfl

theorem later_settleNext_leads (ht : Proper t) (s : State α) (h : w₀.TracesLater s.space) :
    Progress.Leads (fun s' => w₀.TracesLater s'.space) (t.settleNext s) := by
  cases hpop : s.space.popMin? with
  | none =>
    simp only [Walk.settleNext, hpop]
    exact h
  | some kw =>
    obtain ⟨k, w⟩ := kw
    obtain ⟨hpopped, hopened⟩ := tracesLater_opened (t := t) hpop
    by_cases hkg : k = t.query.goal
    · simp only [Walk.settleNext, hpop, if_pos hkg]
      exact h.trans hpopped
    · rw [settleNext_of_popMin? hpop hkg]
      exact Progress.ofScan_leads
        (later_foldlM_leads ht _ (List.Subset.refl _) _ (h.trans hopened))

/-! ### Runs -/

/-- The tables are `u` at some time of the search that is begun in `w`. -/
inductive Passes (t : Walk α) (w : Workspace α) : Workspace α → Prop
  /-- The next node is to be extracted. -/
  | between {s : State α} {m : Nat}
      (hs : Progress.Passes t.settleNext (fuel t.network) (t.initial w) m s) :
      Passes t w s.space
  /-- Some arcs of an extracted node were scanned. -/
  | scanning {s s' : State α} {m k : Nat} {v : Workspace α} {done : List Nat}
      (hs : Progress.Passes t.settleNext (fuel t.network) (t.initial w) (m + 1) s)
      (hpop : s.space.popMin? = some (k, v)) (hk : k ≠ t.query.goal)
      (hdone : done <+: t.network.outArcs k)
      (hscan : done.foldlM (t.scan k (v.distOf k)) (t.opened k v s.scanned) = .ok s') :
      Passes t w s'.space

theorem initial_later (t : Walk α) (w : Workspace α) :
    w.TracesLater (t.initial w).space :=
  (Workspace.TracesLater.setLabel w t.query.start 0 none).trans (.of_eq rfl rfl rfl)

/-- A search goes on from all that it passes. -/
theorem Passes.tracesLater (ht : Proper t) (h : t.Passes w u) : w.TracesLater u ∧
    ∃ o s, Progress.run t.settleNext .notFound (fuel t.network) (t.initial w) = .ok (o, s) ∧
      u.TracesLater s.space := by
  have hkept : ∀ {m s}, Progress.Passes t.settleNext (fuel t.network) (t.initial w) m s →
      w.TracesLater s.space := by
    intro m s hs
    refine hs.reached.ensures (I := fun s => w.TracesLater s.space) (t.initial_later w)
      fun s₁ s₂ hs₁ hstep => ?_
    have hleads := later_settleNext_leads ht s₁ hs₁
    rwa [hstep] at hleads
  cases h with
  | @between s m hs =>
    rw [← hs.run_eq]
    exact ⟨hkept hs, Progress.run_leads (later_settleNext_leads ht) m s (.of_eq rfl rfl rfl)⟩
  | @scanning s s₁ m k v done hs hpop hk hdone hscan =>
    obtain ⟨rest, hrest⟩ := hdone
    have hdone : done ⊆ t.network.outArcs k := hrest ▸ List.subset_append_left done rest
    have hleft : rest ⊆ t.network.outArcs k := hrest ▸ List.subset_append_right done rest
    constructor
    · have hleads := later_foldlM_leads ht (v.distOf k) hdone (t.opened k v s.scanned)
        ((hkept hs).trans (tracesLater_opened hpop).2)
      rwa [hscan] at hleads
    · -- the step goes on with the arcs that are left
      rw [← hs.run_eq]
      refine Progress.run_succ_leads (later_settleNext_leads ht) ?_
      rw [settleNext_of_popMin? hpop hk, ← hrest, List.foldlM_append, hscan]
      exact Progress.ofScan_leads
        (later_foldlM_leads ht (v.distOf k) hleft s₁ (.of_eq rfl rfl rfl))

section Run

variable {g : Network α} {costs : CostView α} {ledger : Ledger} {query : WalkQuery α}

/-- The tables are `u` at some time of a search for a walk, or at its end.  From or for a node
without arcs nothing is searched. -/
inductive Passed (g : Network α) (costs : CostView α) (ledger : Ledger) (query : WalkQuery α)
    (w u : Workspace α) : Prop
  /-- The search is going on. -/
  | searching (hdeg : ¬ (g.degreeOf query.start = 0 ∨ g.degreeOf query.goal = 0))
      (h : Passes ⟨g.masked query.start query.goal, costs, ledger, query⟩ w u)
  /-- The search has ended. -/
  | ended {outcome : WalkOutcome α} (h : run g costs ledger query w = .ok (outcome, u))

theorem traceable_masked (hg : g.Built) (hcosts : ∀ a, a < g.arcCount → ∃ c, costs a = some c)
    (hledger : ledger ≠ .firstVisit) (hstart : query.start < g.nodeCount)
    (hne : query.start ≠ query.goal) :
    Traceable ⟨g.masked query.start query.goal, costs, ledger, query⟩ :=
  ⟨proper_masked hg hcosts hstart hne, (hg.masked _ _).wellFormed, hledger⟩

/-- **Traces are exact.**  In whatever way a search with traces ends, behind the label of every
node there is one credited walk from the start that the label is worth, and that the traces of the
node spell out.  With one trace, this lists the nodes credited, unless it is saturated.  With three
traces, those that are not saturated list the required terminals credited, the other nodes credited
and the edges taken, and no edge is taken twice.  At all times no trace is longer than its bound,
and one that is saturated stays so until the end. -/
theorem run_traces (hg : g.Built) (hcosts : ∀ a, a < g.arcCount → ∃ c, costs a = some c)
    (hledger : ledger ≠ .firstVisit) (hstart : query.start < g.nodeCount)
    (hgoal : query.goal < g.nodeCount) (hne : query.start ≠ query.goal) (hw : w.Ready)
    (hroom : g.nodeCount ≤ w.capacity) :
    ∃ outcome w', run g costs ledger query w = .ok (outcome, w') ∧
      (∀ v, w'.isVisited v = true → ∃ steps,
        g.IsCreditedWalk query.start query.goal steps v ∧
          g.creditedLength costs steps = w'.distOf v ∧ ledger.Spells g w' v steps) ∧
      ∀ u, Passed g costs ledger query w u →
        ∀ lists ∈ [Workspace.credited, Workspace.creditedOther, Workspace.traversed], ∀ v,
          (∀ ids, (lists u).get? v = some ids → ids.length ≤ (lists w).capacity) ∧
            ((lists u).fillOf v = .saturated → (lists w').fillOf v = .saturated) := by
  have hbounded : ∀ lists ∈ [Workspace.credited, Workspace.creditedOther, Workspace.traversed],
      TraceLists.Bounded (lists w) := by
    simp only [List.forall_mem_cons]
    exact ⟨hw.traced.credited.bounded, hw.traced.creditedOther.bounded,
      hw.traced.traversed.bounded, fun _ h => absurd h List.not_mem_nil⟩
  -- what was written on the way, and what is written from there on
  have hlater : ∀ {u w' : Workspace α}, w.TracesLater u → u.TracesLater w' →
      ∀ lists ∈ [Workspace.credited, Workspace.creditedOther, Workspace.traversed], ∀ v,
        (∀ ids, (lists u).get? v = some ids → ids.length ≤ (lists w).capacity) ∧
          ((lists u).fillOf v = .saturated → (lists w').fillOf v = .saturated) := by
    intro u w' hu hw' lists hlists v
    refine ⟨fun ids hids => ?_, (hw'.later hlists).saturated v⟩
    rw [← (hu.later hlists).capacity]
    exact ((hu.later hlists).bounded (hbounded lists hlists)).length_le hids
  by_cases hdeg : g.degreeOf query.start = 0 ∨ g.degreeOf query.goal = 0
  · have hrun : run g costs ledger query w = .ok (.notFound, w) :=
      run_of_runOn (runOn_of_isolated hstart hgoal hdeg)
    refine ⟨_, _, hrun, fun v hv => ?_, fun u hu => ?_⟩
    · rw [hw.isVisited_eq] at hv
      cases hv
    · cases hu with
      | searching hsearch => exact absurd hdeg hsearch
      | ended h =>
        rw [hrun] at h
        cases h
        exact hlater (.of_eq rfl rfl rfl) (.of_eq rfl rfl rfl)
  · have ht : Traceable ⟨g.masked query.start query.goal, costs, ledger, query⟩ :=
      traceable_masked hg hcosts hledger hstart hne
    obtain ⟨o, s, hrun, hspelled, hall⟩ := Progress.run_leads (e := .notFound)
      (Q := fun s => Spelled _ s.space ∧ w.TracesLater s.space)
      (fun s hs => (hs.1.settleNext_leads ht s).and (later_settleNext_leads ht.toProper s hs.2))
      (fuel (g.masked query.start query.goal)) (initial _ w)
      ⟨spelled_start ht hw (by rwa [Network.nodeCount_masked]), initial_later _ w⟩
    have hanswer := run_of_runOn (runOn_of_search hstart hgoal hdeg hrun)
    refine ⟨o, s.space, hanswer, fun v hv => ?_, fun u hu => ?_⟩
    · obtain ⟨steps, hwalk, hlen, hspells⟩ := hspelled.spelled v hv
      exact ⟨steps, hwalk.of_masked, hlen, hspells⟩
    · cases hu with
      | searching _ hpasses =>
        obtain ⟨hbefore, o', s', hrun', hafter⟩ := hpasses.tracesLater ht.toProper
        rw [hrun] at hrun'
        cases hrun'
        exact hlater hbefore hafter
      | ended h =>
        rw [hanswer] at h
        cases h
        exact hlater hall (.of_eq rfl rfl rfl)

/-- From node 0 to node 2 over node 1, which carries a prize of 4, with traces of two ids.  The
traces of node 2 list the prize and both edges. -/
theorem run_traces_on_chain :
    ∃ outcome w', run prizedChain (.ofArray prizedChain.cost) .split ⟨0, 2, 100, 10⟩
        (.fresh 3 2) = .ok (outcome, w') ∧
      (∀ v, w'.isVisited v = true → ∃ steps, prizedChain.IsCreditedWalk 0 2 steps v ∧
        prizedChain.creditedLength (.ofArray prizedChain.cost) steps = w'.distOf v ∧
          Ledger.split.Spells prizedChain w' v steps) ∧
      ∃ steps, prizedChain.IsCreditedWalk 0 2 steps 2 ∧ 1 ∈ prizedChain.creditedNodes steps ∧
        Network.takenEdges steps = [0, 1] := by
  let query : WalkQuery ℚ := ⟨0, 2, 100, 10⟩
  have hledger : Ledger.split ≠ .firstVisit := by decide
  have hstart : query.start < prizedChain.nodeCount := by decide
  have hgoal : query.goal < prizedChain.nodeCount := by decide
  have hne : query.start ≠ query.goal := by decide
  obtain ⟨o, w', hrun, hlabels, -⟩ := run_traces built_prizedChain costs_prizedChain hledger
    hstart hgoal hne (Workspace.fresh_ready 3 2) (by decide)
  have hread : (run prizedChain (.ofArray prizedChain.cost) .split query (.fresh 3 2)).map
      (fun x => (x.2.isVisited 2, x.2.creditedOther.get? 2, x.2.traversed.get? 2)) =
        .ok (true, some [1], some [0, 1]) := by decide +kernel
  rw [hrun] at hread
  simp only [Except.map, Except.ok.injEq, Prod.mk.injEq] at hread
  obtain ⟨hvisited, hother, htraversed⟩ := hread
  obtain ⟨steps, hwalk, -, -, hcredits, hedges, -⟩ := hlabels 2 hvisited
  have hcredited : 1 ∈ prizedChain.creditedNodes steps := by
    have hmem : 1 ∈ [1] := List.mem_singleton_self 1
    rw [hcredits _ hother] at hmem
    exact List.mem_of_mem_filter hmem
  exact ⟨o, w', hrun, hlabels, steps, hwalk, hcredited, (hedges _ htraversed).symm⟩

end Run

end Walk

end SteinerSearch
