import Mathlib.Data.List.Nodup
import SteinerSearch.Proofs.Network.Paths
import SteinerSearch.Proofs.Walk.Ledger
import SteinerSearch.Walk.Search

/-!
# Credits of walks

Nodes of a walk search are settled and labeled again, so the arcs over which nodes
got their labels do not spell out the walk behind a label.  Still there is one: each
label is worth a walk from the start on which no prize is credited twice.  The ledger
of the node knows of every prize the walk was credited.

Nothing here depends on the arithmetic of labels, so it all holds in floating point.

## Main definitions

* `Network.WalkStep` — an arc, and whether the prize at its end is credited.
* `Network.creditedLength` — what a walk with credits is worth.
* `Network.IsCreditedWalk g start goal steps v` — a walk from `start` to `v` that passes
  through neither `start` nor `goal` and is credited no prize twice.
* `Walk.Backed t w` — every label is worth a walk that the ledger knows.
* `Walk.opened t k w scanned` — the state after `k` was extracted.

## Main results

* `Walk.scan_keeps` — what a scan keeps is kept where an arc is taken.
* `Walk.Backed.take` — labeling a node keeps all labels backed.
* `Walk.run_backed` — every label at the end of a search is worth a credited walk.
-/

namespace SteinerSearch

namespace Network

variable {α : Type}

/-- A step of a walk. -/
structure WalkStep where
  /-- The arc that is taken. -/
  arc : Nat
  /-- Whether the prize of the node it leads to is credited. -/
  credited : Bool
  deriving DecidableEq, Repr

/-- The nodes whose prizes are credited. -/
def creditedNodes (g : Network α) (steps : List WalkStep) : List Nat :=
  (steps.filter WalkStep.credited).map fun s => g.headOf s.arc

/-- A length that goes on over one more step.  A credit never pulls it below zero. -/
def extendLength [Weight α] (g : Network α) (costs : CostView α) (d : α) (s : WalkStep) : α :=
  let d := d + (costs s.arc).getD 0
  if s.credited then Weight.max (d - g.prizeOf (g.headOf s.arc)) 0 else d

/-- What a walk with credits is worth. -/
def creditedLength [Weight α] (g : Network α) (costs : CostView α) (steps : List WalkStep) : α :=
  steps.foldl (g.extendLength costs) 0

/-- A walk from `start` to `v` that passes through neither `start` nor `goal`, with
credits for the prizes of different nodes in between. -/
structure IsCreditedWalk [Weight α] (g : Network α) (start goal : Nat) (steps : List WalkStep)
    (v : Nat) : Prop where
  /-- The arcs lead from `start` to `v`. -/
  path : g.IsPath start (steps.map WalkStep.arc) v
  /-- No arc leads back to `start`, and apart from `goal` only marked nodes are entered. -/
  enters : ∀ s ∈ steps, g.headOf s.arc ≠ start ∧
    (g.headOf s.arc = goal ∨ g.isMarked (g.headOf s.arc) = true)
  /-- No arc leaves `goal`. -/
  leaves : ∀ s ∈ steps, g.tailOf s.arc ≠ goal
  /-- Credits are for terminals with a prize. -/
  credits : ∀ s ∈ steps, s.credited = true → g.headOf s.arc ≠ goal ∧
    g.isTerminal (g.headOf s.arc) = true ∧
      Weight.negligible (g.prizeOf (g.headOf s.arc)) = false
  /-- No node is credited twice. -/
  once : (g.creditedNodes steps).Nodup

variable [Weight α] {g : Network α} {costs : CostView α} {start goal : Nat}
  {steps : List WalkStep} {v : Nat}

omit [Weight α] in
theorem creditedNodes_concat (s : WalkStep) : g.creditedNodes (steps ++ [s]) =
    g.creditedNodes steps ++ if s.credited then [g.headOf s.arc] else [] := by
  cases h : s.credited <;> simp [creditedNodes, List.filter_append, h]

theorem creditedLength_concat (s : WalkStep) : g.creditedLength costs (steps ++ [s]) =
    g.extendLength costs (g.creditedLength costs steps) s := by
  rw [creditedLength, List.foldl_append, List.foldl_cons, List.foldl_nil, ← creditedLength]

theorem isCreditedWalk_nil : g.IsCreditedWalk start goal [] start :=
  ⟨rfl, by simp, by simp, by simp, List.nodup_nil⟩

/-- A walk goes on over an arc to a node that it was not credited yet. -/
theorem IsCreditedWalk.concat {k a : Nat} {credit : Bool} (h : g.IsCreditedWalk start goal steps k)
    (ha : a < g.arcCount) (htail : g.tailOf a = k) (hk : k ≠ goal) (hstart : g.headOf a ≠ start)
    (hmark : g.headOf a = goal ∨ g.isMarked (g.headOf a) = true)
    (hcredit : credit = true → g.headOf a ≠ goal ∧ g.isTerminal (g.headOf a) = true ∧
      Weight.negligible (g.prizeOf (g.headOf a)) = false)
    (honce : credit = true → g.headOf a ∉ g.creditedNodes steps) :
    g.IsCreditedWalk start goal (steps ++ [⟨a, credit⟩]) (g.headOf a) := by
  have hsplit : ∀ {P : WalkStep → Prop}, (∀ s ∈ steps, P s) → P ⟨a, credit⟩ →
      ∀ s ∈ steps ++ [⟨a, credit⟩], P s := by
    intro P hsteps hlast s hs
    rcases List.mem_append.mp hs with hs | hs
    · exact hsteps s hs
    · rwa [List.mem_singleton.mp hs]
  refine ⟨?_, hsplit h.enters ⟨hstart, hmark⟩, hsplit h.leaves (htail ▸ hk),
    hsplit h.credits hcredit, ?_⟩
  · rw [List.map_append]
    exact isPath_concat.mpr ⟨htail ▸ h.path, ha, rfl⟩
  · rw [creditedNodes_concat]
    cases credit with
    | false => simpa using h.once
    | true =>
      simp only [if_true]
      refine List.nodup_append.mpr ⟨h.once, List.nodup_singleton _, fun u hu v hv huv => ?_⟩
      rw [List.mem_singleton.mp hv] at huv
      exact honce rfl (huv ▸ hu)

/-! ### Masked networks -/

omit [Weight α] in
@[simp] theorem nodeCount_masked {a b : Nat} : (g.masked a b).nodeCount = g.nodeCount := by
  simp [masked, setMark, nodeCount]

omit [Weight α] in
/-- Unmarked nodes are not marked, and the others keep their marks. -/
theorem isMarked_masked {a b : Nat} :
    (g.masked a b).isMarked v = true ↔ v ≠ a ∧ v ≠ b ∧ g.isMarked v = true := by
  simp only [masked, setMark, isMarked, Array.getD_setIfInBounds_default]
  by_cases hb : v = b
  · simp [hb]
  · by_cases ha : v = a <;> simp [ha, hb]

omit [Weight α] in
/-- Putting the noted marks back undoes the masking. -/
theorem restoreMarks_masked (a b : Nat) :
    (g.masked a b).restoreMarks (g.marksOf [a, b]) = g := by
  have hmark : (((g.mark.setIfInBounds a false).setIfInBounds b false).setIfInBounds b
      (g.isMarked b)).setIfInBounds a (g.isMarked a) = g.mark := by
    apply Array.ext_getElem?
    intro i
    simp only [Array.getElem?_setIfInBounds, Array.size_setIfInBounds, isMarked,
      Array.getD_eq_getD_getElem?]
    by_cases ha : a = i
    · subst ha
      by_cases h : a < g.mark.size <;> simp [h]
    · by_cases hb : b = i
      · subst hb
        by_cases h : b < g.mark.size <;> simp [ha, h]
      · simp [ha, hb]
  simp only [restoreMarks, marksOf, masked, setMark, List.map_cons, List.map_nil,
    List.reverse_cons, List.reverse_nil, List.nil_append, List.singleton_append, List.foldl_cons,
    List.foldl_nil, hmark]

omit [Weight α] in
/-- Marks do not matter for what is a path. -/
theorem isPath_masked {a b u : Nat} {as : List Nat} :
    (g.masked a b).IsPath u as v ↔ g.IsPath u as v := by
  induction as generalizing u with
  | nil => exact Iff.rfl
  | cons x xs ih =>
    rw [isPath_cons, isPath_cons]
    exact and_congr_right fun _ => and_congr_right fun _ => ih

/-- A walk that enters marked nodes of the masked network does so in the network. -/
theorem IsCreditedWalk.of_masked {a b : Nat}
    (h : (g.masked a b).IsCreditedWalk start goal steps v) :
    g.IsCreditedWalk start goal steps v := by
  refine ⟨isPath_masked.mp h.path, fun s hs => ?_, h.leaves, h.credits, h.once⟩
  obtain ⟨hne, hmark⟩ := h.enters s hs
  exact ⟨hne, hmark.imp_right fun hm => (isMarked_masked.mp hm).2.2⟩

end Network

namespace Walk

variable {α : Type} [Weight α] {t : Walk α} {w w' : Workspace α}

/-- A search between two unmarked nodes over arcs that all have costs. -/
structure Proper (t : Walk α) : Prop where
  linked : t.network.Linked
  cost : ∀ a, a < t.network.arcCount → ∃ c, t.costs a = some c
  start_lt : t.query.start < t.network.nodeCount
  ne : t.query.start ≠ t.query.goal
  start_unmarked : t.network.isMarked t.query.start = false

/-- Every label is worth a walk whose credits the ledger knows. -/
structure Backed (t : Walk α) (w : Workspace α) : Prop where
  sized : w.Sized
  traced : w.Traced
  room : t.network.nodeCount ≤ w.capacity
  consistent : w.queue.Consistent
  /-- Nodes that wait are labeled. -/
  waiting : ∀ v, w.queue.Waits v → w.isVisited v = true
  /-- Labels are within the limit, and nodes within the network. -/
  within : ∀ v, w.isVisited v = true → v < t.network.nodeCount ∧
    (v = t.query.start ∨ Weight.above (w.distOf v) t.query.maxDistance = false)
  /-- The walk, and what the ledger knows of it. -/
  walk : ∀ v, w.isVisited v = true → ∃ steps,
    t.network.IsCreditedWalk t.query.start t.query.goal steps v ∧
      t.network.creditedLength t.costs steps = w.distOf v ∧
        ∀ u ∈ t.network.creditedNodes steps, t.ledger.mayCredit t.network w v u = false

/-- What happens to the queue does not matter as long as labeled nodes wait. -/
theorem Backed.withQueue {q : NodeQueue} (h : Backed t w) (hcap : q.capacity = w.queue.capacity)
    (hq : q.Consistent) (hwaits : ∀ v, q.Waits v → w.queue.Waits v) :
    Backed t { w with queue := q } where
  sized := h.sized.withQueue hcap
  traced := ⟨h.traced.credited, h.traced.creditedOther, h.traced.traversed⟩
  room := h.room
  consistent := hq
  waiting v hv := h.waiting v (hwaits v hv)
  within := h.within
  walk v hv := by
    obtain ⟨steps, hwalk, hlen, hknown⟩ := h.walk v hv
    exact ⟨steps, hwalk, hlen, fun u hu => Ledger.mayCredit_mono rfl rfl id (hknown u hu)⟩

/-! ### One label -/

section Take

variable {k a : Nat} {d c : α} {credit : Bool}

/-- The tables after a label of the head of `a` was recorded. -/
def relabeled (t : Walk α) (k m a : Nat) (d : α) (credit : Bool) (w : Workspace α) : Workspace α :=
  (t.ledger.record t.network (w.setLabel m d (some a)) k m a credit).enqueue m

/-- Whatever the ledger records, the label is seen in the tables. -/
theorem relabeled_relabeled (hsized : w.Sized) (htraced : w.Traced) (hq : w.queue.Consistent)
    {m : Nat} (hne : k ≠ m) (hm : m < w.capacity) (hopen : w.isSettled m = false) :
    w.Relabeled m d (some a) (t.relabeled k m a d credit w) := by
  have hr := Workspace.relabeled_enqueue (d := d) (p := some a) hsized hq hm hopen
  have hqueue : (t.relabeled k m a d credit w).queue =
      ((w.setLabel m d (some a)).enqueue m).queue := by
    simp only [Walk.relabeled, Workspace.enqueue, Ledger.queue_record, Ledger.dist_record]
  have hsized : (t.relabeled k m a d credit w).Sized := by
    refine (Ledger.sized_record hsized.setLabel htraced.setLabel ?_ hne).enqueue ?_
    · rwa [Workspace.capacity_setLabel]
    · rw [Ledger.queue_record, Workspace.queue_setLabel]
      exact (congrArg NodeQueue.capacity hqueue).trans hr.queued.capacity
  exact hr.congr hsized Ledger.dist_record Ledger.pred_record Ledger.visited_record hqueue

theorem Backed.relabeled (h : Backed t w) {m : Nat} (hne : k ≠ m) (hm : m < w.capacity)
    (hopen : w.isSettled m = false) :
    w.Relabeled m d (some a) (t.relabeled k m a d credit w) :=
  relabeled_relabeled h.sized h.traced h.consistent hne hm hopen

/-- A walk to `k` goes on over an arc to its next node, and is then worth the label that this
gives.  A ledger that knows the credits of the walk rules out that one is given twice. -/
theorem extend_walk (ht : Proper t) {steps : List Network.WalkStep}
    (hwalk : t.network.IsCreditedWalk t.query.start t.query.goal steps k)
    (hlen : t.network.creditedLength t.costs steps = w.distOf k)
    (hknown : ∀ u ∈ t.network.creditedNodes steps, t.ledger.mayCredit t.network w k u = false)
    (hkg : k ≠ t.query.goal) (ha : a < t.network.arcCount) (htail : t.network.tailOf a = k)
    (hmark : t.network.headOf a = t.query.goal ∨ t.network.isMarked (t.network.headOf a) = true)
    (hc : t.costs a = some c) (hcredit : t.credits w k (t.network.headOf a) = credit) :
    t.network.IsCreditedWalk t.query.start t.query.goal (steps ++ [⟨a, credit⟩])
        (t.network.headOf a) ∧
      t.network.creditedLength t.costs (steps ++ [⟨a, credit⟩]) =
        t.labelOf (w.distOf k) c (t.network.headOf a) credit := by
  have hstart : t.network.headOf a ≠ t.query.start := by
    rcases hmark with hm | hm
    · exact hm ▸ ht.ne.symm
    · intro heq
      rw [heq, ht.start_unmarked] at hm
      cases hm
  have hrules : credit = true → t.network.headOf a ≠ t.query.goal ∧
      t.network.isTerminal (t.network.headOf a) = true ∧
      Weight.negligible (t.network.prizeOf (t.network.headOf a)) = false ∧
      t.ledger.mayCredit t.network w k (t.network.headOf a) = true := by
    rintro rfl
    simpa [Walk.credits, and_assoc] using hcredit
  refine ⟨hwalk.concat ha htail hkg hstart hmark ?_ ?_, ?_⟩
  · intro hcr
    obtain ⟨hg, hterm, hprize, -⟩ := hrules hcr
    exact ⟨hg, hterm, hprize⟩
  · -- the ledger would have ruled out a second credit
    intro hcr hmem
    have := hknown _ hmem
    rw [(hrules hcr).2.2.2] at this
    cases this
  · rw [Network.creditedLength_concat, hlen]
    simp only [Network.extendLength, hc, Option.getD_some, labelOf]

/-- A walk to `k`, with the arc to its next node, backs the label that this gives. -/
theorem Backed.extend (h : Backed t w) (ht : Proper t) (hk : w.isVisited k = true)
    (hkg : k ≠ t.query.goal) (ha : a < t.network.arcCount) (htail : t.network.tailOf a = k)
    (hmark : t.network.headOf a = t.query.goal ∨ t.network.isMarked (t.network.headOf a) = true)
    (hc : t.costs a = some c) (hcredit : t.credits w k (t.network.headOf a) = credit) :
    ∃ steps, t.network.IsCreditedWalk t.query.start t.query.goal steps (t.network.headOf a) ∧
      t.network.creditedLength t.costs steps =
        t.labelOf (w.distOf k) c (t.network.headOf a) credit ∧
      ∀ u ∈ t.network.creditedNodes steps, t.ledger.mayCredit t.network w k u = false ∨
        u = t.network.headOf a ∧ credit = true := by
  obtain ⟨steps, hwalk, hlen, hknown⟩ := h.walk k hk
  obtain ⟨hnext, hlabel⟩ := extend_walk ht hwalk hlen hknown hkg ha htail hmark hc hcredit
  refine ⟨_, hnext, hlabel, fun u hu => ?_⟩
  rw [Network.creditedNodes_concat] at hu
  rcases List.mem_append.mp hu with hu | hu
  · exact Or.inl (hknown u hu)
  · cases credit with
    | false => exact absurd hu List.not_mem_nil
    | true => exact Or.inr ⟨List.mem_singleton.mp hu, rfl⟩

/-- A label that is worth a walk from `k` over one more arc keeps all labels backed. -/
theorem Backed.label (h : Backed t w) {m : Nat} (hm : m < t.network.nodeCount) (hne : k ≠ m)
    (hopen : w.isSettled m = false) (hlimit : Weight.above d t.query.maxDistance = false)
    {steps : List Network.WalkStep}
    (hwalk : t.network.IsCreditedWalk t.query.start t.query.goal steps m)
    (hlen : t.network.creditedLength t.costs steps = d)
    (hknown : ∀ u ∈ t.network.creditedNodes steps,
      t.ledger.mayCredit t.network w k u = false ∨ u = m ∧ credit = true) :
    Backed t (t.relabeled k m a d credit w) := by
  have hmc : m < w.capacity := lt_of_lt_of_le hm h.room
  have hr : w.Relabeled m d (some a) (t.relabeled k m a d credit w) := h.relabeled hne hmc hopen
  have hcap : m < (w.setLabel m d (some a)).capacity := by rwa [Workspace.capacity_setLabel]
  have htraced : (t.ledger.record t.network (w.setLabel m d (some a)) k m a credit).Traced :=
    Ledger.traced_record h.traced.setLabel hcap hne
  -- the ledger knows no less once the node is touched, and nothing else after it waits
  have hold : ∀ {v u}, t.ledger.mayCredit t.network w v u = false →
      t.ledger.mayCredit t.network (w.setLabel m d (some a)) v u = false := fun hu =>
    Ledger.mayCredit_mono Workspace.credited_setLabel Workspace.creditedOther_setLabel
      Workspace.isVisited_setLabel_of_visited hu
  have hnew : ∀ {v u}, t.ledger.mayCredit t.network
      (t.ledger.record t.network (w.setLabel m d (some a)) k m a credit) v u = false →
      t.ledger.mayCredit t.network (t.relabeled k m a d credit w) v u = false := fun hu =>
    Ledger.mayCredit_mono rfl rfl id hu
  refine ⟨hr.sized, ⟨htraced.credited, htraced.creditedOther, htraced.traversed⟩,
    hr.capacity ▸ h.room, hr.queued.consistent, fun v hv => ?_, fun v hv => ?_, fun v hv => ?_⟩
  all_goals by_cases hvm : v = m
  · exact hvm ▸ hr.visited_self
  · rw [hr.visited_ne v hvm]
    exact h.waiting v (((hr.queued.waits v).mp hv).resolve_right hvm)
  · rw [hvm, hr.dist_self]
    exact ⟨hm, Or.inr hlimit⟩
  · rw [hr.visited_ne v hvm] at hv
    rw [hr.dist_ne v hvm]
    exact h.within v hv
  · rw [hvm]
    refine ⟨steps, hwalk, hlen.trans hr.dist_self.symm, fun u hu => hnew ?_⟩
    rcases hknown u hu with hu | ⟨rfl, rfl⟩
    · exact Ledger.mayCredit_record h.traced.setLabel hcap hne (hold hu)
    · exact Ledger.mayCredit_record_self h.traced.setLabel hcap hne
        (Workspace.isVisited_setLabel_self h.sized hmc)
  · rw [hr.visited_ne v hvm] at hv
    obtain ⟨steps', hwalk', hlen', hknown'⟩ := h.walk v hv
    exact ⟨steps', hwalk', hlen'.trans (hr.dist_ne v hvm).symm, fun u hu =>
      hnew (Ledger.mayCredit_record_of_ne h.traced.setLabel hcap hne hvm (hold (hknown' u hu)))⟩

/-- Taking an arc out of a labeled node keeps all labels backed, and the label of the
node as it is. -/
theorem Backed.take (h : Backed t w) (ht : Proper t) (hk : w.isVisited k = true)
    (hkg : k ≠ t.query.goal) (ha : a < t.network.arcCount) (htail : t.network.tailOf a = k)
    (hmark : t.network.headOf a = t.query.goal ∨ t.network.isMarked (t.network.headOf a) = true)
    (hopen : w.isSettled (t.network.headOf a) = false) (hc : t.costs a = some c) :
    Backed t (t.take k (t.network.headOf a) a (w.distOf k) c w) ∧
      (t.take k (t.network.headOf a) a (w.distOf k) c w).isVisited k = true ∧
      (t.take k (t.network.headOf a) a (w.distOf k) c w).distOf k = w.distOf k := by
  have hm := ht.linked.head_lt a ha
  have hne : k ≠ t.network.headOf a := htail ▸ (ht.linked.head_ne_tail a ha).symm
  simp only [Walk.take]
  split
  · exact ⟨h, hk, rfl⟩
  · next hlimit =>
    split
    · obtain ⟨steps, hwalk, hlen, hknown⟩ := h.extend ht hk hkg ha htail hmark hc rfl
      have hr : w.Relabeled (t.network.headOf a) _ (some a) (t.relabeled k (t.network.headOf a) a
          (t.labelOf (w.distOf k) c (t.network.headOf a) (t.credits w k (t.network.headOf a)))
          (t.credits w k (t.network.headOf a)) w) :=
        h.relabeled hne (lt_of_lt_of_le hm h.room) hopen
      exact ⟨h.label hm hne hopen (Bool.not_eq_true _ ▸ hlimit) hwalk hlen hknown,
        (hr.visited_ne k hne).trans hk, hr.dist_ne k hne⟩
    · exact ⟨h, hk, rfl⟩

end Take

/-! ### Runs -/

/-- A scan keeps what does not depend on the number of scans, if it is kept where the arc is taken.
That is an arc to an open node, and the ledger does not refuse it. -/
theorem scan_keeps {Q : State α → Prop} {k a : Nat} {base : α} {s : State α}
    (hcost : ∃ c, t.costs a = some c) (hs : ∀ n, Q ⟨s.space, n⟩)
    (htake : ∀ c n, t.costs a = some c →
      t.network.headOf a = t.query.goal ∨ t.network.isMarked (t.network.headOf a) = true →
      s.space.isSettled (t.network.headOf a) = false →
      (t.network.headOf a ≠ t.query.goal →
        t.ledger.refuses t.network s.space k (t.network.headOf a) a = false) →
      Q ⟨t.take k (t.network.headOf a) a base c s.space, n⟩) :
    Halt.Leads Q (t.scan k base s a) := by
  obtain ⟨c, hc⟩ := hcost
  simp only [Walk.scan, hc]
  split
  · exact hs _
  · next hmark =>
    split
    · exact hs _
    · next hopen =>
      split
      · exact hs _
      · split
        · exact hs _
        · next hrefuses =>
          rw [Bool.not_eq_true] at hopen
          refine htake c _ hc ?_ hopen fun hne =>
            Bool.eq_false_iff.mpr fun href => hrefuses ⟨hne, href⟩
          by_contra hnot
          rw [not_or] at hnot
          exact hmark ⟨hnot.1, by simpa using hnot.2⟩

/-- The scan of the arcs out of `k`, which is labeled `base`. -/
structure Scanning (t : Walk α) (k : Nat) (base : α) (s : State α) : Prop where
  backed : Backed t s.space
  visited : s.space.isVisited k = true
  base : s.space.distOf k = base

theorem Scanning.scan {k a : Nat} {base : α} {s : State α} (h : Scanning t k base s)
    (ht : Proper t) (hkg : k ≠ t.query.goal) (ha : a < t.network.arcCount)
    (htail : t.network.tailOf a = k) :
    (∃ s', t.scan k base s a = .ok s' ∧ Scanning t k base s') ∨
      ∃ s', t.scan k base s a = .error (.overBudget s') ∧ Backed t s'.space := by
  have hleads : Halt.Leads (Scanning t k base) (t.scan k base s a) := by
    refine scan_keeps (ht.cost a ha) (fun n => ⟨h.backed, h.visited, h.base⟩)
      fun c n hc hmark hopen _ => ?_
    obtain ⟨hbacked, hvisited, hdist⟩ := h.backed.take ht h.visited hkg ha htail hmark hopen hc
    rw [h.base] at hbacked hvisited hdist
    exact ⟨hbacked, hvisited, hdist⟩
  exact hleads.cases.imp_right fun ⟨s', hscan, hs'⟩ => ⟨s', hscan, hs'.backed⟩

/-- The state after `k` was extracted, which leaves the tables `w`.  A node that is no required
terminal may wait again. -/
def opened (t : Walk α) (k : Nat) (w : Workspace α) (scanned : Nat) : State α :=
  if t.network.isRequired k then ⟨w, scanned⟩ else ⟨w.unsettle k, scanned⟩

/-- A step extracts a node and scans its arcs. -/
theorem settleNext_of_popMin? {s : State α} {k : Nat} {w : Workspace α}
    (hpop : s.space.popMin? = some (k, w)) (hkg : k ≠ t.query.goal) :
    t.settleNext s = .ofScan .overBudget ((t.network.outArcs k).foldlM (t.scan k (w.distOf k))
      (t.opened k w s.scanned)) := by
  simp only [Walk.settleNext, hpop, if_neg hkg]
  rfl

/-- An extraction changes nothing but the queue, in which no other nodes wait afterwards. -/
theorem opened_queues {k : Nat} (hq : w.queue.Consistent) (hpop : w.popMin? = some (k, w'))
    (scanned : Nat) :
    w.queue.Waits k ∧ ∃ q, (q.capacity = w.queue.capacity ∧ q.Consistent ∧
        ∀ v, q.Waits v → w.queue.Waits v) ∧ w' = { w with queue := q } ∧
      ∃ q', (q'.capacity = w.queue.capacity ∧ q'.Consistent ∧
        ∀ v, q'.Waits v → w.queue.Waits v) ∧
        t.opened k w' scanned = ⟨{ w with queue := q' }, scanned⟩ := by
  obtain ⟨q, hmin, rfl⟩ := Workspace.popMin?_eq_some hpop
  have hex := NodeQueue.extracted_popMin? hq hmin
  have hsub : ∀ v, q.Waits v → w.queue.Waits v := fun v hv => ((hex.waits v).mp hv).1
  have hnot : ¬ q.Waits k := fun hw => ((hex.waits k).mp hw).2 rfl
  refine ⟨hex.waited, q, ⟨hex.capacity, hex.consistent, hsub⟩, rfl, ?_⟩
  unfold opened
  split
  · exact ⟨q, ⟨hex.capacity, hex.consistent, hsub⟩, rfl⟩
  · refine ⟨q.setState k .unknown, ⟨?_, hex.consistent.setState_unknown hnot, fun v hv =>
      hsub v (NodeQueue.waits_setState.mp hv)⟩, rfl⟩
    rw [NodeQueue.capacity_setState, hex.capacity]

/-- The state at the end: every label is backed, and an answer is a label of the goal. -/
structure Answered (t : Walk α) (o : WalkOutcome α) (s : State α) : Prop where
  backed : Backed t s.space
  reached : ∀ d, o = .reached d → s.space.isVisited t.query.goal = true ∧
    s.space.distOf t.query.goal = d

/-- One step of a run. -/
theorem Backed.settleNext {s : State α} (h : Backed t s.space) (ht : Proper t) :
    (∃ s', t.settleNext s = .more s' ∧ Backed t s'.space) ∨
      ∃ o s', t.settleNext s = .done o s' ∧ Answered t o s' := by
  cases hpop : s.space.popMin? with
  | none =>
    simp only [Walk.settleNext, hpop]
    exact Or.inr ⟨_, s, rfl, h, fun d hd => by cases hd⟩
  | some kw =>
    obtain ⟨k, w'⟩ := kw
    obtain ⟨hwaits, q, ⟨hcap, hq, hsub⟩, rfl, q', ⟨hcap', hq', hsub'⟩, hopened⟩ :=
      opened_queues (t := t) h.consistent hpop s.scanned
    have hk := h.waiting k hwaits
    by_cases hgoal : k = t.query.goal
    · simp only [Walk.settleNext, hpop, if_pos hgoal]
      refine Or.inr ⟨_, _, rfl, h.withQueue hcap hq hsub, fun d hd => ?_⟩
      cases hd
      exact hgoal ▸ ⟨hk, rfl⟩
    · rw [settleNext_of_popMin? hpop hgoal, hopened]
      have hstart : Scanning t k (s.space.distOf k) ⟨{ s.space with queue := q' }, s.scanned⟩ :=
        ⟨h.withQueue hcap' hq' hsub', hk, rfl⟩
      rcases Progress.ofScan_ensures (J := fun _ => Scanning t k (s.space.distOf k))
        (B := fun s' => Backed t s'.space) WalkOutcome.overBudget (t.network.outArcs k)
        (fun done a s₁ ha hs₁ => by
          obtain ⟨ha, htail⟩ := ht.linked.mem_outArcs.mp ha
          exact hs₁.scan ht hgoal ha htail) hstart
        with ⟨s', hs', hJ⟩ | ⟨s', hs', hB⟩
      · exact Or.inl ⟨s', hs', hJ.backed⟩
      · exact Or.inr ⟨_, s', hs', hB, fun d hd => by cases hd⟩

/-- At the start, the start is labeled with the empty walk. -/
theorem backed_start (hw : w.Ready) (hroom : t.network.nodeCount ≤ w.capacity)
    (hstart : t.query.start < t.network.nodeCount) :
    Backed t ((w.setLabel t.query.start 0 none).enqueue t.query.start) := by
  have hr := hw.relabeled (d := 0) (p := none) (lt_of_lt_of_le hstart hroom)
  have honly : ∀ {v}, ((w.setLabel t.query.start 0 none).enqueue t.query.start).isVisited v = true →
      v = t.query.start := (hr.isVisited_iff hw).mp
  have htraced : (w.setLabel t.query.start 0 none).Traced := hw.traced.setLabel
  refine ⟨hr.sized, ⟨htraced.credited, htraced.creditedOther, htraced.traversed⟩,
    hr.capacity ▸ hroom, hr.queued.consistent, fun v hv => ?_,
    fun v hv => ⟨honly hv ▸ hstart, Or.inl (honly hv)⟩, fun v hv => ?_⟩
  · exact (hr.isVisited_iff hw).mpr ((hr.waits_iff hw).mp hv)
  · rw [honly hv, hr.dist_self]
    exact ⟨[], Network.isCreditedWalk_nil, rfl, fun u hu => absurd hu List.not_mem_nil⟩

/-- A search between nodes with arcs runs to its end. -/
theorem search_answers (ht : Proper t) (hw : w.Ready) (hroom : t.network.nodeCount ≤ w.capacity) :
    ∃ o s, Progress.run t.settleNext .notFound (fuel t.network)
      ⟨(w.setLabel t.query.start 0 none).enqueue t.query.start, 0⟩ = .ok (o, s) ∧
        Answered t o s := by
  refine Progress.run_ensures (I := fun _ s => Backed t s.space) (fun s hs => ?_)
    (fun n s hs => hs.settleNext ht) _ _ (backed_start hw hroom ht.start_lt)
  exact ⟨hs, fun d hd => by cases hd⟩

section Run

variable {g : Network α} {costs : CostView α} {ledger : Ledger} {query : WalkQuery α}

/-- A node without arcs is not searched from or for. -/
theorem runOn_of_isolated (hstart : query.start < g.nodeCount) (hgoal : query.goal < g.nodeCount)
    (hdeg : g.degreeOf query.start = 0 ∨ g.degreeOf query.goal = 0) :
    runOn g costs ledger query w = .ok (.notFound, g, w) := by
  rw [runOn, checkNode, if_pos hstart, ok_bind]
  split
  · rfl
  · next hs =>
    rw [checkNode, if_pos hgoal, ok_bind, if_pos (hdeg.resolve_left hs)]
    rfl

/-- A search leaves the marks as they were. -/
theorem runOn_of_search (hstart : query.start < g.nodeCount) (hgoal : query.goal < g.nodeCount)
    (hdeg : ¬ (g.degreeOf query.start = 0 ∨ g.degreeOf query.goal = 0)) {o : WalkOutcome α}
    {s : State α}
    (h : Progress.run (settleNext ⟨g.masked query.start query.goal, costs, ledger, query⟩)
      .notFound (fuel (g.masked query.start query.goal))
      ⟨(w.setLabel query.start 0 none).enqueue query.start, 0⟩ = .ok (o, s)) :
    runOn g costs ledger query w = .ok (o, g, s.space) := by
  rw [not_or] at hdeg
  rw [runOn, checkNode, if_pos hstart, ok_bind, if_neg hdeg.1, checkNode, if_pos hgoal, ok_bind,
    if_neg hdeg.2]
  -- the fuel is a number that must not be computed, so the run is rewritten and not reduced
  dsimp only
  rw [h, ok_bind, Network.restoreMarks_masked]
  rfl

theorem run_of_runOn {o : WalkOutcome α} {g' : Network α}
    (h : runOn g costs ledger query w = .ok (o, g', w')) :
    run g costs ledger query w = .ok (o, w') := by
  unfold run
  rw [h]
  rfl

theorem proper_masked (hg : g.Built) (hcosts : ∀ a, a < g.arcCount → ∃ c, costs a = some c)
    (hstart : query.start < g.nodeCount) (hne : query.start ≠ query.goal) :
    Proper ⟨g.masked query.start query.goal, costs, ledger, query⟩ := by
  refine ⟨(hg.masked _ _).wellFormed.toLinked, hcosts, ?_, hne, ?_⟩
  · rwa [Network.nodeCount_masked]
  · rw [← Bool.not_eq_true, Network.isMarked_masked]
    exact fun h => h.1 rfl

/-- **No prize is credited twice.**  In whatever way a search ends, every label is exactly
what some walk from the start is worth that passes through marked nodes other than start
and goal, and is credited prizes of different nodes only.  An answer is therefore not below
what the best such walk is worth, and not above the distance limit. -/
theorem run_backed (hg : g.Built) (hcosts : ∀ a, a < g.arcCount → ∃ c, costs a = some c)
    (hstart : query.start < g.nodeCount) (hgoal : query.goal < g.nodeCount)
    (hne : query.start ≠ query.goal) (hw : w.Ready) (hroom : g.nodeCount ≤ w.capacity) :
    ∃ outcome w', run g costs ledger query w = .ok (outcome, w') ∧
      (∀ v, w'.isVisited v = true → ∃ steps,
        g.IsCreditedWalk query.start query.goal steps v ∧
          g.creditedLength costs steps = w'.distOf v) ∧
      ∀ d, outcome = .reached d → Weight.above d query.maxDistance = false ∧
        (∃ steps, g.IsCreditedWalk query.start query.goal steps query.goal ∧
          g.creditedLength costs steps = d) ∧
        ∀ bound, (∀ steps, g.IsCreditedWalk query.start query.goal steps query.goal →
          bound ≤ g.creditedLength costs steps) → bound ≤ d := by
  by_cases hdeg : g.degreeOf query.start = 0 ∨ g.degreeOf query.goal = 0
  · refine ⟨_, _, run_of_runOn (runOn_of_isolated hstart hgoal hdeg), fun v hv => ?_,
      fun d hd => by cases hd⟩
    rw [hw.isVisited_eq] at hv
    cases hv
  · have hproper : Proper ⟨g.masked query.start query.goal, costs, ledger, query⟩ :=
      proper_masked hg hcosts hstart hne
    obtain ⟨o, s, hrun, hend⟩ := search_answers hproper hw (by rwa [Network.nodeCount_masked])
    have hlabels : ∀ v, s.space.isVisited v = true → ∃ steps,
        g.IsCreditedWalk query.start query.goal steps v ∧
          g.creditedLength costs steps = s.space.distOf v := by
      intro v hv
      obtain ⟨steps, hwalk, hlen, -⟩ := hend.backed.walk v hv
      exact ⟨steps, hwalk.of_masked, hlen⟩
    refine ⟨o, s.space, run_of_runOn (runOn_of_search hstart hgoal hdeg hrun), hlabels,
      fun d hd => ?_⟩
    obtain ⟨hvisited, hdist⟩ := hend.reached d hd
    obtain ⟨steps, hwalk, hlen⟩ := hlabels _ hvisited
    rw [hdist] at hlen
    refine ⟨?_, ⟨steps, hwalk, hlen⟩, fun bound hbound => hlen ▸ hbound steps hwalk⟩
    have hlimit := (hend.backed.within _ hvisited).2.resolve_left hne.symm
    rwa [hdist] at hlimit

/-- A chain of three nodes, with a prize of 4 on the way. -/
def prizedChain : Network ℚ :=
  let chain := (((Network.empty 3).pushArc 0 1 (5 : ℚ)).pushArc 1 0 5).pushArc 1 2 3
  { chain.pushArc 2 1 3 with kind := #[.steiner, .pseudo, .steiner], prize := #[0, 4, 0] }

theorem built_prizedChain : prizedChain.Built := by
  have hone := (Network.Built.empty 3).addArcPair
    (show Network.addArcPair _ 0 1 (5 : ℚ) 5 = .ok (0, _) from rfl)
  have htwo := hone.addArcPair (show Network.addArcPair _ 1 2 3 3 = .ok (1, _) from rfl)
  have hkind := htwo.setTerminal (show Network.setTerminal _ 1 .pseudo = .ok _ from rfl)
  exact hkind.setPrize (show Network.setPrize _ 1 4 = .ok _ from rfl)

theorem costs_prizedChain :
    ∀ a, a < prizedChain.arcCount → ∃ c, CostView.ofArray prizedChain.cost a = some c := fun a ha =>
  ⟨_, Array.getElem?_eq_getElem (show a < prizedChain.cost.size from ha)⟩

/-- From node 0 to node 2 over node 1, which carries a prize of 4. -/
theorem run_backed_on_chain :
    let chain := (((Network.empty 3).pushArc 0 1 (5 : ℚ)).pushArc 1 0 5).pushArc 1 2 3
    let g := { chain.pushArc 2 1 3 with
      kind := #[.steiner, .pseudo, .steiner], prize := #[0, 4, 0] }
    let query : WalkQuery ℚ := ⟨0, 2, 100, 10⟩
    ∃ outcome w', run g (.ofArray g.cost) .combined query (.fresh 3 2) = .ok (outcome, w') ∧
      ∀ v, w'.isVisited v = true → ∃ steps, g.IsCreditedWalk 0 2 steps v ∧
        g.creditedLength (.ofArray g.cost) steps = w'.distOf v := by
  intro chain g query
  have hg : g.Built := built_prizedChain
  have hstart : query.start < g.nodeCount := by decide
  have hgoal : query.goal < g.nodeCount := by decide
  have hne : query.start ≠ query.goal := by decide
  obtain ⟨o, w', hrun, hlabels, -⟩ := run_backed hg costs_prizedChain hstart hgoal hne
    (Workspace.fresh_ready 3 2) (by decide)
  exact ⟨o, w', hrun, hlabels⟩

end Run

end Walk

end SteinerSearch
