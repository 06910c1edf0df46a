import SteinerSearch.Proofs.Layers.Labels
import SteinerSearch.Proofs.Network.Paths
import SteinerSearch.Proofs.Queue.Operations
import SteinerSearch.Proofs.Stepping

/-!
# Spreading labels

The queue holds the open slots that have a label.  An extraction fills the layer of the
nearest one.  The label is then due over all arcs from its node, and the layer above it is
due to get the labels of the neighbours; the two scans of a step deliver what is due.

A label only ever takes an open slot, and only if it is new to the node.  What this keeps
of the labels depends on the costs; it is a parameter here, and so are the two ways in
which labels change.  What no costs can break is proved once: the distances of filled
layers ascend, and between extractions every filled label was passed over all arcs.

## Main definitions

* `TerminalLayers.Queues s` — the open labels wait, nothing else does.
* `TerminalLayers.Passed g t a l` — layer `l` was passed over the arc `a`.
* `TerminalLayers.Arrival g t a l b` — layer `l` may be passed over the arc `a`.
* `TerminalLayers.Closed g J` — `J` survives passing and filling.
* `TerminalLayers.Spreading g J due s` — `J` holds and all labels were passed on but the due
  ones.
* `TerminalLayers.Kept s s'` — `s'` has the filled layers of `s`.

## Main results

* `TerminalLayers.Spreading.offers` — the first scan delivers the new label.
* `TerminalLayers.Spreading.openLayer` — the second scan fetches the other labels.
* `TerminalLayers.Spreading.settleNext` — a step keeps the invariant.
* `TerminalLayers.compute_spreads` — the search ends with nothing waiting.
-/

namespace SteinerSearch

namespace TerminalLayers

/-- What waits are the open slots with a label, and what is settled is filled. -/
structure Queues (s : State ℚ) : Prop where
  consistent : s.queue.Consistent
  capacity : s.queue.capacity = s.labels.layers * s.labels.nodeCount
  ordered : NodeQueue.Ordered s.labels.distIn s.queue
  waits : ∀ x, s.queue.Waits x ↔ ∃ v, v < s.labels.nodeCount ∧
    s.labels.filledOf v < s.labels.layers ∧ s.labels.openSlot v = x ∧
      (s.labels.baseIn x).isSome = true
  settled : ∀ v l, v < s.labels.nodeCount → s.queue.isSettled (s.labels.slot l v) = true →
    l < s.labels.filledOf v

/-- Both states have the same filled layers and have settled as many slots. -/
structure Kept (s s' : State ℚ) : Prop where
  nodeCount : s'.labels.nodeCount = s.labels.nodeCount
  layers : s'.labels.layers = s.labels.layers
  filled : s'.labels.filled = s.labels.filled
  base : ∀ v l, l < s.labels.filledOf v →
    s'.labels.baseIn (s.labels.slot l v) = s.labels.baseIn (s.labels.slot l v)
  dist : ∀ v l, l < s.labels.filledOf v →
    s'.labels.distIn (s.labels.slot l v) = s.labels.distIn (s.labels.slot l v)
  count : ∀ n, s'.queue.settledCount n = s.queue.settledCount n

/-- `t'` has the filled layers of `t`. -/
structure SameFilled (t t' : TerminalLayers ℚ) : Prop where
  nodeCount : t'.nodeCount = t.nodeCount
  layers : t'.layers = t.layers
  filled : t'.filled = t.filled
  base : ∀ v l, l < t.filledOf v → t'.baseIn (t.slot l v) = t.baseIn (t.slot l v)
  dist : ∀ v l, l < t.filledOf v → t'.distIn (t.slot l v) = t.distIn (t.slot l v)

/-- How far the terminal `b` in layer `l` of the node that `a` leaves is from the node that
`a` leads to. -/
def arrivalDist (g : Network ℚ) (t : TerminalLayers ℚ) (a l b : Nat) : ℚ :=
  t.distIn (t.slot l (g.tailOf a)) + stepCost g a b

/-- The label in layer `l` of the node that `a` leaves was passed to the open layer of the
node that `a` leads to. -/
def Passed (g : Network ℚ) (t : TerminalLayers ℚ) (a l : Nat) : Prop :=
  g.isMarked (g.headOf a) = true → ∀ b, t.baseIn (t.slot l (g.tailOf a)) = some b →
    t.Vacant (g.headOf a) b → t.distIn (t.openSlot (g.headOf a)) ≤ arrivalDist g t a l b

/-- The terminal `b` in layer `l` of the node that `a` leaves may be passed over `a`. -/
structure Arrival (g : Network ℚ) (t : TerminalLayers ℚ) (a l b : Nat) : Prop where
  lt : a < g.arcCount
  marked : g.isMarked (g.headOf a) = true
  vacant : t.Vacant (g.headOf a) b
  filled : l < t.filledOf (g.tailOf a)
  base : t.baseIn (t.slot l (g.tailOf a)) = some b

/-- Filled layers do not decrease, and no open layer is below a filled one. -/
structure Ascending (t : TerminalLayers ℚ) : Prop where
  sorted : ∀ v k l, k < l → l < t.filledOf v → t.distIn (t.slot k v) ≤ t.distIn (t.slot l v)
  le_open : ∀ u k v, k < t.filledOf u → v < t.nodeCount → t.filledOf v < t.layers →
    t.distIn (t.slot k u) ≤ t.distIn (t.openSlot v)

/-- `J` survives the two ways in which labels change: one that arrives takes an open slot, and
a nearest open layer is filled after all labels were passed on. -/
structure Closed (g : Network ℚ) (J : TerminalLayers ℚ → Prop) : Prop where
  layered : ∀ {t}, J t → Layered t
  nodeCount : ∀ {t}, J t → t.nodeCount = g.nodeCount
  /-- Only marked nodes have labels. -/
  marked : ∀ {t v l b}, J t → v < t.nodeCount → t.baseIn (t.slot l v) = some b →
    g.isMarked v = true
  setLabel : ∀ {t a l b}, J t → Arrival g t a l b →
    arrivalDist g t a l b < t.distIn (t.openSlot (g.headOf a)) →
      J (t.setLabel (t.openSlot (g.headOf a)) (arrivalDist g t a l b) b (some a))
  fill : ∀ {t v b}, J t → (∀ a l, a < g.arcCount → l < t.filledOf (g.tailOf a) → Passed g t a l) →
    v < t.nodeCount → t.filledOf v < t.layers → t.baseIn (t.openSlot v) = some b →
      (∀ u, u < t.nodeCount → t.filledOf u < t.layers →
        t.distIn (t.openSlot v) ≤ t.distIn (t.openSlot u)) → J (t.fill v)

/-- The labels have the property `J` and were passed over all arcs, but for those that are
due. -/
structure Spreading (g : Network ℚ) (J : TerminalLayers ℚ → Prop) (due : Nat → Nat → Prop)
    (s : State ℚ) : Prop where
  holds : J s.labels
  queues : Queues s
  ascending : Ascending s.labels
  passed : ∀ a l, a < g.arcCount → l < s.labels.filledOf (g.tailOf a) → ¬ due a l →
    Passed g s.labels a l

variable {g : Network ℚ} {J : TerminalLayers ℚ → Prop} {due due' : Nat → Nat → Prop}
  {s s' s'' : State ℚ} {t t' : TerminalLayers ℚ} {q : NodeQueue} {u v a b l x : Nat} {d θ : ℚ}

namespace Kept

theorem refl (s : State ℚ) : Kept s s :=
  ⟨rfl, rfl, rfl, fun _ _ _ => rfl, fun _ _ _ => rfl, fun _ => rfl⟩

theorem slot_eq (h : Kept s s') (l v : Nat) : s'.labels.slot l v = s.labels.slot l v := by
  rw [slot, h.nodeCount, slot]

theorem filledOf_eq (h : Kept s s') (v : Nat) : s'.labels.filledOf v = s.labels.filledOf v := by
  rw [filledOf, h.filled, filledOf]

theorem trans (h : Kept s s') (h' : Kept s' s'') : Kept s s'' where
  nodeCount := h'.nodeCount.trans h.nodeCount
  layers := h'.layers.trans h.layers
  filled := h'.filled.trans h.filled
  base v l hl := by
    have hbase := h'.base v l (by rwa [h.filledOf_eq])
    rw [h.slot_eq] at hbase
    exact hbase.trans (h.base v l hl)
  dist v l hl := by
    have hdist := h'.dist v l (by rwa [h.filledOf_eq])
    rw [h.slot_eq] at hdist
    exact hdist.trans (h.dist v l hl)
  count n := (h'.count n).trans (h.count n)

end Kept

/-! ### Waiting slots -/

/-- An open slot is not settled yet. -/
theorem Queues.stateOf_openSlot (h : Queues s) (hv : v < s.labels.nodeCount) :
    s.queue.stateOf (s.labels.openSlot v) ≠ .settled := by
  intro hset
  have := h.settled v _ hv (NodeQueue.isSettled_iff.mpr hset)
  exact absurd this (lt_irrefl _)

/-- Where no label got lower, none has to wait. -/
theorem Queues.keep (h : Queues s) (hlow : Lowered s.labels x t') (hx : t'.baseIn x = none) :
    Queues ⟨t', s.queue⟩ := by
  have hdist : t'.distIn = s.labels.distIn := funext fun y => (hlow.unchanged hx y).2
  refine ⟨h.consistent, ?_, ?_, fun y => ?_, fun v l hv hset => ?_⟩
  · change s.queue.capacity = t'.layers * t'.nodeCount
    rw [hlow.layers, hlow.nodeCount, h.capacity]
  · change NodeQueue.Ordered t'.distIn s.queue
    rw [hdist]
    exact h.ordered
  · change s.queue.Waits y ↔ ∃ v, v < t'.nodeCount ∧ t'.filledOf v < t'.layers ∧
      t'.openSlot v = y ∧ (t'.baseIn y).isSome = true
    rw [h.waits, hlow.nodeCount, hlow.layers, (hlow.unchanged hx y).1]
    simp only [hlow.filledOf_eq, hlow.openSlot_eq]
  · change l < t'.filledOf v
    rw [hlow.filledOf_eq]
    refine h.settled v l ?_ ?_
    · rwa [← hlow.nodeCount]
    · rwa [← hlow.slot_eq]

/-- A lower label in an open slot makes the slot wait. -/
theorem Queues.enqueue (h : Queues s) (hv : v < s.labels.nodeCount)
    (hfull : s.labels.filledOf v < s.labels.layers)
    (hlow : Lowered s.labels (s.labels.openSlot v) t')
    (hwhole : ∀ x, Weight.IsWhole (t'.distIn x))
    (hb : (t'.baseIn (s.labels.openSlot v)).isSome = true) :
    Queues (State.enqueue ⟨t', s.queue⟩ (s.labels.openSlot v)) ∧
      ∀ n, (State.enqueue ⟨t', s.queue⟩ (s.labels.openSlot v)).queue.settledCount n =
        s.queue.settledCount n := by
  have hcap : s.labels.openSlot v < s.queue.capacity := by
    rw [h.capacity]
    exact slot_lt hfull hv
  have hopen := h.stateOf_openSlot hv
  have hq := NodeQueue.queued_insert (keyIn t'.dist) h.consistent hcap hopen
  have hord : NodeQueue.Ordered t'.distIn (s.queue.insert t'.distIn (s.labels.openSlot v)) :=
    NodeQueue.ordered_insert h.consistent hcap hopen
      (fun u w _ _ => (hwhole u).apart (hwhole w)) hlow.dist_ne (fun _ => hlow.le _) h.ordered
  refine ⟨⟨hq.consistent, ?_, hord, fun y => ?_, fun u l hu hset => ?_⟩,
    hq.settledCount_eq h.consistent hopen⟩
  · change _ = t'.layers * t'.nodeCount
    rw [hlow.layers, hlow.nodeCount, ← h.capacity]
    exact hq.capacity
  · refine (hq.waits y).trans ?_
    change _ ↔ ∃ u, u < t'.nodeCount ∧ t'.filledOf u < t'.layers ∧ t'.openSlot u = y ∧
      (t'.baseIn y).isSome = true
    simp only [hlow.nodeCount, hlow.layers, hlow.filledOf_eq, hlow.openSlot_eq]
    by_cases hy : y = s.labels.openSlot v
    · rw [hy]
      exact iff_of_true (Or.inr rfl) ⟨v, hv, hfull, rfl, hb⟩
    · rw [hlow.base_ne y hy, h.waits, or_iff_left hy]
  · change l < t'.filledOf u
    rw [hlow.filledOf_eq]
    have hset' : s.queue.isSettled (t'.slot l u) = true := by
      rw [← hq.isSettled_eq h.consistent hopen]
      exact hset
    refine h.settled u l ?_ ?_
    · exact hlow.nodeCount ▸ hu
    · rwa [← hlow.slot_eq]

/-- The extracted label is not above any open one. -/
theorem Queues.popMin?_le (h : Queues s) (hs : Layered s.labels)
    (hpop : s.queue.popMin? s.labels.distIn = some (x, q)) (hu : u < s.labels.nodeCount)
    (hfull : s.labels.filledOf u < s.labels.layers) :
    s.labels.distIn x ≤ s.labels.distIn (s.labels.openSlot u) := by
  cases hb : s.labels.baseIn (s.labels.openSlot u) with
  | none =>
    rw [hs.blank _ hb]
    exact hs.reach x
  | some b =>
    apply NodeQueue.popMin?_le h.ordered hpop
    rw [h.waits, hb]
    exact ⟨u, hu, hfull, rfl, rfl⟩

/-- Filling the layer of an extracted slot leaves the other open slots waiting. -/
theorem Queues.fill (h : Queues s) (hs : Layered s.labels) (hv : v < s.labels.nodeCount)
    (hq : NodeQueue.Extracted s.queue (s.labels.openSlot v) q)
    (hord : NodeQueue.Ordered s.labels.distIn q) : Queues ⟨s.labels.fill v, q⟩ := by
  have hself := filledOf_fill_self hs.sized hv
  refine ⟨hq.consistent, hq.capacity.trans h.capacity, hord, fun y => ?_, fun u l hu hset => ?_⟩
  · refine (hq.waits y).trans ?_
    rw [h.waits]
    constructor
    · rintro ⟨⟨u, hu, hfull, rfl, hb⟩, hne⟩
      have huv : u ≠ v := by
        rintro rfl
        exact hne rfl
      refine ⟨u, hu, ?_, openSlot_fill_of_ne huv, hb⟩
      rwa [filledOf_fill_of_ne huv]
    · rintro ⟨u, hu, hfull, hslot, hb⟩
      by_cases huv : u = v
      · -- the layer that is open now has no label
        have habove := hs.above v (s.labels.filledOf v + 1) hv (Nat.lt_succ_self _)
        rw [← hslot, huv, openSlot, hself, slot_fill, baseIn_fill, habove] at hb
        cases hb
      · rw [filledOf_fill_of_ne huv] at hfull
        rw [openSlot_fill_of_ne huv] at hslot
        refine ⟨⟨u, hu, hfull, hslot, hb⟩, ?_⟩
        rintro rfl
        exact huv (openSlot_injective (t := s.labels) hu hv hslot)
  · change l < (s.labels.fill v).filledOf u
    rcases (hq.isSettled_iff h.consistent _).mp hset with hold | hnew
    · exact (lt_filledOf_fill hs.sized hv).mpr (Or.inl (h.settled u l hu hold))
    · obtain ⟨rfl, rfl⟩ := slot_injective hu hv hnew
      exact (lt_filledOf_fill hs.sized hu).mpr (Or.inr ⟨rfl, rfl⟩)

/-! ### Ascending layers -/

theorem Ascending.lowered (h : Ascending t) (hs : Layered t) (hv : v < t.nodeCount)
    (hlow : Lowered t (t.openSlot v) t')
    (hlate : ∀ u k, k < t.filledOf u → t.distIn (t.slot k u) ≤ t'.distIn (t.openSlot v)) :
    Ascending t' := by
  have hheld : ∀ {u k}, k < t.filledOf u → t'.distIn (t.slot k u) = t.distIn (t.slot k u) :=
    fun hk => hlow.dist_ne _ (slot_ne_openSlot (hs.sized.lt_nodeCount hk) hv hk)
  refine ⟨fun w k l hkl hl => ?_, fun u k w hk hw hfull => ?_⟩
  · rw [hlow.filledOf_eq] at hl
    rw [hlow.slot_eq, hlow.slot_eq, hheld (hkl.trans hl), hheld hl]
    exact h.sorted w k l hkl hl
  · rw [hlow.filledOf_eq] at hk hfull
    rw [hlow.nodeCount] at hw
    rw [hlow.layers] at hfull
    rw [hlow.slot_eq, hlow.openSlot_eq, hheld hk]
    by_cases hslot : t.openSlot w = t.openSlot v
    · rw [hslot]
      exact hlate u k hk
    · rw [hlow.dist_ne _ hslot]
      exact h.le_open u k w hk hw hfull

/-- The filled layer is a nearest open one. -/
theorem Ascending.fill (h : Ascending t) (hs : Layered t) (hv : v < t.nodeCount)
    (hfull : t.filledOf v < t.layers)
    (hmin : ∀ u, u < t.nodeCount → t.filledOf u < t.layers →
      t.distIn (t.openSlot v) ≤ t.distIn (t.openSlot u)) : Ascending (t.fill v) := by
  refine ⟨fun w k l hkl hl => ?_, fun u k w hk hw hfull' => ?_⟩
  · rcases (lt_filledOf_fill hs.sized hv).mp hl with hold | ⟨rfl, rfl⟩
    · exact h.sorted w k l hkl hold
    · exact h.le_open w k w hkl hv hfull
  · by_cases hwv : w = v
    · -- the new open layer has no label yet
      have habove := hs.above v (t.filledOf v + 1) hv (Nat.lt_succ_self _)
      change t.distIn _ ≤ t.distIn _
      rw [hwv, openSlot, filledOf_fill_self hs.sized hv, slot_fill, slot_fill, hs.blank _ habove]
      exact hs.reach _
    · rw [filledOf_fill_of_ne hwv] at hfull'
      rw [openSlot_fill_of_ne hwv]
      rcases (lt_filledOf_fill hs.sized hv).mp hk with hold | ⟨rfl, rfl⟩
      · exact h.le_open u k w hold hw hfull'
      · exact hmin w hw hfull'

/-! ### Passing labels on -/

theorem Kept.sameFilled (h : Kept s s') : SameFilled s.labels s'.labels :=
  ⟨h.nodeCount, h.layers, h.filled, h.base, h.dist⟩

theorem Lowered.sameFilled (h : Lowered t (t.openSlot v) t') (ht : t.Sized)
    (hv : v < t.nodeCount) : SameFilled t t' := by
  have hheld : ∀ {u l}, l < t.filledOf u → t.slot l u ≠ t.openSlot v := fun hl =>
    slot_ne_openSlot (ht.lt_nodeCount hl) hv hl
  exact ⟨h.nodeCount, h.layers, h.filled, fun _ _ hl => h.base_ne _ (hheld hl),
    fun _ _ hl => h.dist_ne _ (hheld hl)⟩

namespace SameFilled

theorem slot_eq (h : SameFilled t t') (l v : Nat) : t'.slot l v = t.slot l v := by
  rw [slot, h.nodeCount, slot]

theorem filledOf_eq (h : SameFilled t t') (v : Nat) : t'.filledOf v = t.filledOf v := by
  rw [filledOf, h.filled, filledOf]

theorem holds_eq (h : SameFilled t t') (v b : Nat) : t'.holds v b = t.holds v b := by
  rw [Bool.eq_iff_iff, holds_iff, holds_iff, h.filledOf_eq]
  refine exists_congr fun l => and_congr_right fun hl => ?_
  rw [h.slot_eq, h.base v l hl]

theorem vacant (h : SameFilled t t') (hv : t'.Vacant v b) : t.Vacant v b := by
  obtain ⟨hlt, hfull, hnew⟩ := hv
  rw [h.nodeCount] at hlt
  rw [h.filledOf_eq, h.layers] at hfull
  rw [h.holds_eq] at hnew
  exact ⟨hlt, hfull, hnew⟩

theorem arrivalDist_eq (h : SameFilled t t') (hl : l < t.filledOf (g.tailOf a)) :
    arrivalDist g t' a l b = arrivalDist g t a l b := by
  rw [arrivalDist, h.slot_eq, h.dist _ l hl, arrivalDist]

theorem arrival (h : SameFilled t t') (harr : Arrival g t' a l b) : Arrival g t a l b := by
  have hl : l < t.filledOf (g.tailOf a) := h.filledOf_eq _ ▸ harr.filled
  refine ⟨harr.lt, harr.marked, h.vacant harr.vacant, hl, ?_⟩
  rw [← h.base _ l hl, ← h.slot_eq]
  exact harr.base

end SameFilled

/-- A label is passed on by making the open one as low. -/
theorem Passed.of_le (hs : Layered t) (hhead : g.headOf a < t.nodeCount)
    (hlow : Lowered t (t.openSlot (g.headOf a)) t') (hl : l < t.filledOf (g.tailOf a))
    (hb : t.baseIn (t.slot l (g.tailOf a)) = some b)
    (hle : t'.distIn (t.openSlot (g.headOf a)) ≤ arrivalDist g t a l b) : Passed g t' a l := by
  have hsame := hlow.sameFilled hs.sized hhead
  intro _ c hc _
  rw [hlow.slot_eq, hsame.base _ l hl, hb] at hc
  obtain rfl := Option.some.inj hc
  rwa [hlow.openSlot_eq, hsame.arrivalDist_eq hl]

/-- Nothing is to be passed to a node that may not take the terminal. -/
theorem Passed.of_not_vacant (hb : t.baseIn (t.slot l (g.tailOf a)) = some b)
    (hnot : ¬ t.Vacant (g.headOf a) b) : Passed g t a l := by
  intro _ c hc hnew
  rw [hb] at hc
  obtain rfl := Option.some.inj hc
  exact absurd hnew hnot

/-- A label that was passed on still is when open labels get lower. -/
theorem Passed.lowered (h : Passed g t a l) (hs : Layered t) (hv : v < t.nodeCount)
    (hlow : Lowered t (t.openSlot v) t') (hl : l < t.filledOf (g.tailOf a)) : Passed g t' a l := by
  have hsame := hlow.sameFilled hs.sized hv
  intro hmark b hb hnew
  rw [hlow.slot_eq, hsame.base _ l hl] at hb
  rw [hlow.openSlot_eq, hsame.arrivalDist_eq hl]
  exact (hlow.le _).trans (h hmark b hb (hsame.vacant hnew))

/-- Filling the open layer of another node does not undo it. -/
theorem Passed.fill (h : Passed g t a l) (hne : g.headOf a ≠ v) : Passed g (t.fill v) a l := by
  intro hmark b hb hnew
  obtain ⟨hlt, hfull, hnew⟩ := hnew
  rw [filledOf_fill_of_ne hne] at hfull
  rw [holds_fill_of_ne hne] at hnew
  rw [openSlot_fill_of_ne hne]
  exact h hmark b hb ⟨hlt, hfull, hnew⟩

theorem stepCost_isWhole (hg : g.WellFormed)
    (hcost : ∀ a, a < g.arcCount → Weight.IsWhole (g.costOf a)) (ha : a < g.arcCount) :
    Weight.IsWhole (stepCost g a b) := by
  unfold stepCost
  split
  · exact hcost a ha
  · exact hcost _ (hg.rev_lt ha)

section Arriving

variable (hJ : Closed g J)

include hJ

/-- An arriving label keeps the property, and the open label is then as low as it. -/
theorem Closed.improve (hg : g.WellFormed)
    (hcost : ∀ a, a < g.arcCount → Weight.IsWhole (g.costOf a)) (h : J t) (hasc : Ascending t)
    (harr : Arrival g t a l b)
    (hlate : ∀ u k, k < t.filledOf u → t.distIn (t.slot k u) ≤ arrivalDist g t a l b) :
    let x := t.openSlot (g.headOf a)
    let t' := t.improve x (arrivalDist g t a l b) b (some a)
    (J t' ∧ Ascending t') ∧ Lowered t x t' ∧ t'.distIn x ≤ arrivalDist g t a l b := by
  intro x t'
  have hs := hJ.layered h
  have hwhole : Weight.IsWhole (arrivalDist g t a l b) :=
    (hs.whole _).add (stepCost_isWhole hg hcost harr.lt)
  have hbelow : Weight.below (arrivalDist g t a l b) (t.distIn x) = true ↔
      arrivalDist g t a l b < t.distIn x := Weight.below_iff (hwhole.apart (hs.whole _))
  by_cases hlt : arrivalDist g t a l b < t.distIn x
  · have ht' : t' = t.setLabel x (arrivalDist g t a l b) b (some a) := if_pos (hbelow.mpr hlt)
    have hlow : Lowered t x t' := ht' ▸ lowered_setLabel hs.sized harr.vacant.openSlot_lt hlt
    have hdist : t'.distIn x = arrivalDist g t a l b := by
      rw [ht']
      exact harr.vacant.distIn_setLabel hs.sized _ _
    refine ⟨⟨ht' ▸ hJ.setLabel h harr hlt, hasc.lowered hs harr.vacant.lt hlow ?_⟩, hlow, hdist.le⟩
    rw [hdist]
    exact hlate
  · have ht' : t' = t := if_neg fun hb => hlt (hbelow.mp hb)
    rw [ht']
    exact ⟨⟨h, hasc⟩, Lowered.refl t _, not_lt.mp hlt⟩

/-- Lowering an open label does not undo what was passed on. -/
theorem Spreading.lowered (h : Spreading g J due s) (hv : v < s.labels.nodeCount)
    (hlow : Lowered s.labels (s.labels.openSlot v) t') (ht' : J t' ∧ Ascending t')
    (hqueues : Queues ⟨t', q⟩) (hcount : ∀ n, q.settledCount n = s.queue.settledCount n) :
    Spreading g J due ⟨t', q⟩ ∧ Kept s ⟨t', q⟩ := by
  have hs := hJ.layered h.holds
  have hheld : ∀ {u l}, l < s.labels.filledOf u → s.labels.slot l u ≠ s.labels.openSlot v :=
    fun hl => slot_ne_openSlot (hs.sized.lt_nodeCount hl) hv hl
  constructor
  · refine ⟨ht'.1, hqueues, ht'.2, fun a l ha hl hdue => ?_⟩
    have hl : l < s.labels.filledOf (g.tailOf a) := by
      rw [← hlow.filledOf_eq]
      exact hl
    exact (h.passed a l ha hl hdue).lowered hs hv hlow hl
  · exact ⟨hlow.nodeCount, hlow.layers, hlow.filled, fun u l hl => hlow.base_ne _ (hheld hl),
      fun u l hl => hlow.dist_ne _ (hheld hl), hcount⟩

end Arriving

/-! ### Passing on the new label -/

/-- Nothing is offered to unmarked and to full nodes, nor what a node has already. -/
theorem offer_of_skip (h : g.isMarked (g.headOf a) = false ∨
    s.labels.filledOf (g.headOf a) = s.labels.layers ∨ s.labels.holds (g.headOf a) b = true) :
    TerminalLayers.offer g b d s a = s := by
  unfold TerminalLayers.offer
  dsimp only
  rcases h with h | h
  · rw [h]
    rfl
  · rw [if_pos h, ite_self]

/-- Other offers may make the open label of the node lower. -/
theorem offer_of_open (hmark : g.isMarked (g.headOf a) = true)
    (hfull : s.labels.filledOf (g.headOf a) ≠ s.labels.layers)
    (hnew : s.labels.holds (g.headOf a) b = false) :
    let x := s.labels.openSlot (g.headOf a)
    let t := s.labels.improve x (d + stepCost g a b) b (some a)
    TerminalLayers.offer g b d s a =
      if Weight.below (d + stepCost g a b) (s.labels.distIn x) then State.enqueue ⟨t, s.queue⟩ x
      else ⟨t, s.queue⟩ := by
  intro x t
  have hskip : ¬ (s.labels.filledOf (g.headOf a) = s.labels.layers ∨
      s.labels.holds (g.headOf a) b = true) := by
    rw [hnew, not_or]
    exact ⟨hfull, Bool.false_ne_true⟩
  unfold TerminalLayers.offer
  dsimp only
  rw [hmark, if_neg hskip, ← openSlot]
  change (if Weight.below _ (s.labels.distIn x) = true then _ else s) = _
  by_cases hlt : Weight.below (d + stepCost g a b) (s.labels.distIn x) = true
  · have ht : t = s.labels.setLabel x (d + stepCost g a b) b (some a) := if_pos hlt
    rw [if_pos hlt, if_pos hlt, ht]
  · have ht : t = s.labels := if_neg hlt
    rw [if_neg hlt, if_neg hlt, ht]

/-- What was delivered is no longer due. -/
theorem Spreading.deliver (h : Spreading g J due s)
    (hnew : ∀ a l, a < g.arcCount → l < s.labels.filledOf (g.tailOf a) → due a l → ¬ due' a l →
      Passed g s.labels a l) : Spreading g J due' s where
  holds := h.holds
  queues := h.queues
  ascending := h.ascending
  passed a l ha hl hdue' := by
    by_cases hdue : due a l
    · exact hnew a l ha hl hdue hdue'
    · exact h.passed a l ha hl hdue

section Offering

variable (hJ : Closed g J) (hg : g.WellFormed)
  (hcost : ∀ a, a < g.arcCount → Weight.IsWhole (g.costOf a))

include hJ hg hcost

/-- An arriving label that makes the open label lower makes its slot wait. -/
theorem Spreading.improve (h : Spreading g J due s) (harr : Arrival g s.labels a l b)
    (hlate : ∀ u k, k < s.labels.filledOf u →
      s.labels.distIn (s.labels.slot k u) ≤ arrivalDist g s.labels a l b) :
    let d := arrivalDist g s.labels a l b
    let x := s.labels.openSlot (g.headOf a)
    let t := s.labels.improve x d b (some a)
    let s' := if Weight.below d (s.labels.distIn x) then State.enqueue ⟨t, s.queue⟩ x
      else ⟨t, s.queue⟩
    Spreading g J due s' ∧ Kept s s' ∧ s'.labels = t := by
  intro d x t s'
  obtain ⟨ht, hlow, -⟩ := hJ.improve hg hcost h.holds h.ascending harr hlate
  by_cases hbelow : Weight.below d (s.labels.distIn x) = true
  · have ht' : t = s.labels.setLabel x d b (some a) := if_pos hbelow
    have hs' : s' = State.enqueue ⟨t, s.queue⟩ x := if_pos hbelow
    have hsome : (t.baseIn x).isSome = true := by
      rw [ht', harr.vacant.baseIn_setLabel (hJ.layered h.holds).sized]
      rfl
    obtain ⟨hqueues, hcount⟩ := h.queues.enqueue harr.vacant.lt harr.vacant.notFull hlow
      (hJ.layered ht.1).whole hsome
    obtain ⟨hs, hkept⟩ := h.lowered hJ harr.vacant.lt hlow ht hqueues hcount
    rw [hs']
    exact ⟨hs, hkept, rfl⟩
  · have ht' : t = s.labels := if_neg hbelow
    have hs' : s' = s := by
      rw [show s' = ⟨t, s.queue⟩ from if_neg hbelow, ht']
    rw [hs', ht']
    exact ⟨h, Kept.refl s, rfl⟩

/-- One offer of the last label, in layer `l` of the node that `a` leaves. -/
theorem Spreading.offer (h : Spreading g J due s) (ha : a < g.arcCount)
    (hl : l < s.labels.filledOf (g.tailOf a))
    (hb : s.labels.baseIn (s.labels.slot l (g.tailOf a)) = some b)
    (hd : s.labels.distIn (s.labels.slot l (g.tailOf a)) = d)
    (hlast : ∀ u k, k < s.labels.filledOf u → s.labels.distIn (s.labels.slot k u) ≤ d) :
    Spreading g J due (offer g b d s a) ∧ Kept s (offer g b d s a) ∧
      Passed g (offer g b d s a).labels a l := by
  have hs := hJ.layered h.holds
  by_cases hmark : g.isMarked (g.headOf a) = true
  swap
  · rw [offer_of_skip (Or.inl ((Bool.not_eq_true _).mp hmark))]
    exact ⟨h, Kept.refl s, fun hm => absurd hm hmark⟩
  by_cases hfull : s.labels.filledOf (g.headOf a) = s.labels.layers
  · rw [offer_of_skip (Or.inr (Or.inl hfull))]
    exact ⟨h, Kept.refl s, Passed.of_not_vacant hb fun hv => hv.notFull.ne hfull⟩
  cases hnew : s.labels.holds (g.headOf a) b with
  | true =>
    rw [offer_of_skip (Or.inr (Or.inr hnew))]
    refine ⟨h, Kept.refl s, Passed.of_not_vacant hb fun hv => ?_⟩
    rw [hv.new] at hnew
    cases hnew
  | false =>
    have hhead : g.headOf a < s.labels.nodeCount := by
      rw [hJ.nodeCount h.holds]
      exact hg.head_lt a ha
    have harr : Arrival g s.labels a l b :=
      ⟨ha, hmark, ⟨hhead, lt_of_le_of_ne (hs.filled_le _) hfull, hnew⟩, hl, hb⟩
    have hdist : d + stepCost g a b = arrivalDist g s.labels a l b := by rw [arrivalDist, hd]
    have hlate : ∀ u k, k < s.labels.filledOf u →
        s.labels.distIn (s.labels.slot k u) ≤ arrivalDist g s.labels a l b := by
      intro u k hk
      rw [← hdist]
      linarith [hlast u k hk, (stepCost_isWhole (b := b) hg hcost ha).nonneg]
    obtain ⟨-, hlow, hle⟩ := hJ.improve hg hcost h.holds h.ascending harr hlate
    obtain ⟨hs', hkept, hlabels⟩ := h.improve hJ hg hcost harr hlate
    rw [offer_of_open hmark hfull hnew, hdist]
    refine ⟨hs', hkept, ?_⟩
    rw [hlabels]
    exact Passed.of_le hs hhead hlow hl hb hle

/-- The last label, in layer `l` of `v`, is offered over all arcs from `v`. -/
theorem Spreading.offers (hl : l < s.labels.filledOf v)
    (hb : s.labels.baseIn (s.labels.slot l v) = some b)
    (hd : s.labels.distIn (s.labels.slot l v) = d)
    (hlast : ∀ u k, k < s.labels.filledOf u → s.labels.distIn (s.labels.slot k u) ≤ d)
    (h : Spreading g J (fun a k => g.headOf a = v ∨ g.tailOf a = v ∧ k = l) s) :
    Spreading g J (fun a _ => g.headOf a = v) ((g.outArcs v).foldl (TerminalLayers.offer g b d) s) ∧
      Kept s ((g.outArcs v).foldl (TerminalLayers.offer g b d) s) := by
  -- due are the offers over arcs that are not in the scanned part
  have hall := foldl_ensures (f := TerminalLayers.offer g b d) (J := fun done s' =>
    Spreading g J (fun a k => g.headOf a = v ∨ g.tailOf a = v ∧ k = l ∧ a ∉ done) s' ∧
      Kept s s') (g.outArcs v) (fun done e s' hdone => ?_) ⟨?_, Kept.refl s⟩
  · obtain ⟨hs, hkept⟩ := hall
    refine ⟨hs.deliver fun a k ha _ hdue hhead => ?_, hkept⟩
    rcases hdue with hdue | ⟨htail, -, hnot⟩
    · exact absurd hdue hhead
    · exact absurd (hg.mem_outArcs.mpr ⟨ha, htail⟩) hnot
  · rintro ⟨hs, hkept⟩
    obtain ⟨he, rfl⟩ := hg.mem_outArcs.mp (mem_of_appended hdone)
    have hl' : l < s'.labels.filledOf (g.tailOf e) := by rwa [hkept.filledOf_eq]
    have hlast' : ∀ u k, k < s'.labels.filledOf u → s'.labels.distIn (s'.labels.slot k u) ≤ d := by
      intro u k hk
      rw [hkept.filledOf_eq] at hk
      rw [hkept.slot_eq, hkept.dist u k hk]
      exact hlast u k hk
    obtain ⟨hs', hkept', hpassed⟩ := hs.offer hJ hg hcost he hl'
      (by rw [hkept.slot_eq, hkept.base _ _ hl, hb]) (by rw [hkept.slot_eq, hkept.dist _ _ hl, hd])
      hlast'
    refine ⟨hs'.deliver fun a k ha _ hdue hdue' => ?_, hkept.trans hkept'⟩
    rcases hdue with hdue | ⟨htail, rfl, hnot⟩
    · exact absurd (Or.inl hdue) hdue'
    · have hae : a = e := by
        by_contra hne
        refine hdue' (Or.inr ⟨htail, rfl, fun hmem => ?_⟩)
        rcases List.mem_append.mp hmem with hmem | hmem
        · exact hnot hmem
        · exact hne (List.mem_singleton.mp hmem)
      rw [hae]
      exact hpassed
  · refine h.deliver fun a k _ _ hdue hdue' => absurd ?_ hdue'
    rcases hdue with hdue | ⟨htail, hk⟩
    · exact Or.inl hdue
    · exact Or.inr ⟨htail, hk, List.not_mem_nil⟩

end Offering

/-! ### Fetching the labels of the neighbours -/

/-- A scan that only lowers the label of an open slot collects what its steps deliver. -/
theorem lowered_foldl {P : TerminalLayers ℚ → Prop} (h : P t) (x : Nat)
    (f : TerminalLayers ℚ → Nat → TerminalLayers ℚ)
    (delivered : TerminalLayers ℚ → Nat → Prop) (is : List Nat)
    (hstep : ∀ r i, i ∈ is → P r → Lowered t x r →
      P (f r i) ∧ Lowered r x (f r i) ∧ delivered (f r i) i)
    (hmono : ∀ r r' i, i ∈ is → P r → Lowered t x r → Lowered r x r' → delivered r i →
      delivered r' i) :
    P (is.foldl f t) ∧ Lowered t x (is.foldl f t) ∧ ∀ i ∈ is, delivered (is.foldl f t) i := by
  refine foldl_ensures (J := fun done r => P r ∧ Lowered t x r ∧ ∀ i ∈ done, delivered r i)
    is (fun done i r hdone => ?_) ⟨h, Lowered.refl t x, fun i hi => absurd hi List.not_mem_nil⟩
  rintro ⟨hr, hlow, hall⟩
  obtain ⟨hr', hlow', hi⟩ := hstep r i (mem_of_appended hdone) hr hlow
  refine ⟨hr', hlow.trans hlow', fun k hk => ?_⟩
  rcases List.mem_append.mp hk with hold | hnew
  · exact hmono r _ k (hdone.subset hk) hr hlow hlow' (hall k hold)
  · rw [List.mem_singleton.mp hnew]
    exact hi

/-- No label that may be passed to `v` is below a filled one. -/
def Late (g : Network ℚ) (t : TerminalLayers ℚ) (v : Nat) : Prop :=
  ∀ a l b, g.headOf a = v → Arrival g t a l b → ∀ u k, k < t.filledOf u →
    t.distIn (t.slot k u) ≤ arrivalDist g t a l b

theorem SameFilled.late (h : SameFilled t t') (ht : Late g t v) : Late g t' v := by
  intro a l b hav harr u k hk
  have harr' := h.arrival harr
  rw [h.filledOf_eq] at hk
  rw [h.slot_eq, h.dist u k hk, h.arrivalDist_eq harr'.filled]
  exact ht a l b hav harr' u k hk

/-- What a scan for the open layer of `v` relies on. -/
structure Fetching (g : Network ℚ) (J : TerminalLayers ℚ → Prop) (v : Nat)
    (t : TerminalLayers ℚ) : Prop where
  holds : J t
  ascending : Ascending t
  late : Late g t v
  lt : v < t.nodeCount
  notFull : t.filledOf v < t.layers

section Fetch

variable (hJ : Closed g J) (hg : g.WellFormed)
  (hcost : ∀ a, a < g.arcCount → Weight.IsWhole (g.costOf a))

include hJ hg hcost

/-- The label in layer `l` of the node that `a` leaves is taken if it may arrive. -/
theorem Fetching.takeLabel (h : Fetching g J (g.headOf a) t) (ha : a < g.arcCount)
    (hmark : g.isMarked (g.headOf a) = true) (hl : l < t.filledOf (g.tailOf a)) :
    let t' := takeLabel g (g.headOf a) (t.openSlot (g.headOf a)) (g.tailOf a) a t l
    Fetching g J (g.headOf a) t' ∧ Lowered t (t.openSlot (g.headOf a)) t' ∧ Passed g t' a l := by
  intro t'
  have hs := hJ.layered h.holds
  obtain ⟨b, hb⟩ := hs.held _ l hl
  cases hnew : t.holds (g.headOf a) b with
  | true =>
    have ht' : t' = t := by simp [t', TerminalLayers.takeLabel, hb, hnew]
    rw [ht']
    refine ⟨h, Lowered.refl t _, Passed.of_not_vacant hb fun hv => ?_⟩
    rw [hv.new] at hnew
    cases hnew
  | false =>
    have harr : Arrival g t a l b := ⟨ha, hmark, ⟨h.lt, h.notFull, hnew⟩, hl, hb⟩
    have ht' : t' = t.improve (t.openSlot (g.headOf a)) (arrivalDist g t a l b) b (some a) := by
      simp only [t', TerminalLayers.takeLabel, hb, hnew, Bool.false_eq_true, if_false]
      rfl
    obtain ⟨⟨hholds, hasc⟩, hlow, hle⟩ := hJ.improve hg hcost h.holds h.ascending harr
      (h.late a l b rfl harr)
    rw [← ht'] at hholds hasc hlow hle
    refine ⟨⟨hholds, hasc, (hlow.sameFilled hs.sized h.lt).late h.late, ?_, ?_⟩, hlow,
      Passed.of_le hs h.lt hlow hl hb hle⟩
    · rw [hlow.nodeCount]
      exact h.lt
    · rw [hlow.filledOf_eq, hlow.layers]
      exact h.notFull

/-- All labels of the node that `a` leaves are taken that may arrive. -/
theorem Fetching.takeFrom (h : Fetching g J (g.headOf a) t) (ha : a < g.arcCount)
    (hmark : g.isMarked (g.headOf a) = true) :
    let t' := takeFrom g (g.headOf a) (t.openSlot (g.headOf a)) t (Arc.rev a)
    Fetching g J (g.headOf a) t' ∧ Lowered t (t.openSlot (g.headOf a)) t' ∧
      ∀ l, l < t.filledOf (g.tailOf a) → Passed g t' a l := by
  intro t'
  by_cases htail : g.isMarked (g.tailOf a) = true
  · have ht' : t' = (List.range (t.filledOf (g.tailOf a))).foldl
        (TerminalLayers.takeLabel g (g.headOf a) (t.openSlot (g.headOf a)) (g.tailOf a) a) t := by
      simp only [t', TerminalLayers.takeFrom, hg.head_rev a ha, htail, Arc.rev_rev, if_true]
    have hheld : ∀ {r l}, Lowered t (t.openSlot (g.headOf a)) r →
        l ∈ List.range (t.filledOf (g.tailOf a)) → l < r.filledOf (g.tailOf a) := by
      intro r l hlow hl
      rw [hlow.filledOf_eq]
      exact List.mem_range.mp hl
    obtain ⟨hfetch, hlow, hpassed⟩ := lowered_foldl h (t.openSlot (g.headOf a)) _
      (fun r l => Passed g r a l) _
      (fun r l hl hr hlow => by
        have hr' := hr.takeLabel hJ hg hcost ha hmark (hheld hlow hl)
        rwa [hlow.openSlot_eq] at hr')
      (fun r r' l hl hr hlow hlow' hl' => by
        rw [← hlow.openSlot_eq] at hlow'
        exact hl'.lowered (hJ.layered hr.holds) hr.lt hlow' (hheld hlow hl))
    rw [ht']
    exact ⟨hfetch, hlow, fun l hl => hpassed l (List.mem_range.mpr hl)⟩
  · -- only marked nodes have labels
    have ht' : t' = t := by
      simp only [t', TerminalLayers.takeFrom, hg.head_rev a ha, htail, Bool.false_eq_true, if_false]
    rw [ht']
    refine ⟨h, Lowered.refl t _, fun l hl => ?_⟩
    have hs := hJ.layered h.holds
    obtain ⟨b, hb⟩ := hs.held _ l hl
    exact absurd (hJ.marked h.holds (hs.sized.lt_nodeCount hl) hb) htail

/-- All labels of all neighbours of `v` are taken that may arrive. -/
theorem Fetching.takeAll (h : Fetching g J v t) (hmark : g.isMarked v = true) :
    let t' := (g.outArcs v).foldl (TerminalLayers.takeFrom g v (t.openSlot v)) t
    Fetching g J v t' ∧ Lowered t (t.openSlot v) t' ∧
      ∀ a l, a < g.arcCount → g.headOf a = v → l < t.filledOf (g.tailOf a) → Passed g t' a l := by
  intro t'
  obtain ⟨hfetch, hlow, hpassed⟩ := lowered_foldl h (t.openSlot v)
    (TerminalLayers.takeFrom g v (t.openSlot v))
    (fun r a => ∀ l, l < t.filledOf (g.headOf a) → Passed g r (Arc.rev a) l) (g.outArcs v)
    (fun r a hav hr hlow => by
      obtain ⟨ha, rfl⟩ := hg.mem_outArcs.mp hav
      rw [← hg.head_rev a ha] at hr hmark hlow ⊢
      have hr' := hr.takeFrom hJ hg hcost (hg.rev_lt ha) hmark
      rw [hlow.openSlot_eq, hlow.filledOf_eq, Arc.rev_rev, hg.tail_rev ha] at hr'
      exact hr')
    (fun r r' a hav hr hlow hlow' hall l hl => by
      obtain ⟨ha, -⟩ := hg.mem_outArcs.mp hav
      rw [← hlow.openSlot_eq] at hlow'
      refine (hall l hl).lowered (hJ.layered hr.holds) hr.lt hlow' ?_
      rwa [hlow.filledOf_eq, hg.tail_rev ha])
  refine ⟨hfetch, hlow, fun a l ha hav hl => ?_⟩
  have hmem : Arc.rev a ∈ g.outArcs v :=
    hg.mem_outArcs.mpr ⟨hg.rev_lt ha, by rw [hg.tail_rev ha, hav]⟩
  have hpassed' := hpassed _ hmem l (by rwa [hg.head_rev a ha])
  rwa [Arc.rev_rev] at hpassed'

/-- Opening a layer delivers what is due over the arcs to its node. -/
theorem Spreading.openLayer (h : Spreading g J (fun a _ => g.headOf a = v) s)
    (hv : v < s.labels.nodeCount) (hmark : g.isMarked v = true)
    (hfull : s.labels.filledOf v < s.labels.layers) (hlate : Late g s.labels v) :
    Spreading g J (fun _ _ => False) (openLayer g v (s.labels.openSlot v) s) ∧
      Kept s (openLayer g v (s.labels.openSlot v) s) := by
  have hfetch : Fetching g J v s.labels := ⟨h.holds, h.ascending, hlate, hv, hfull⟩
  obtain ⟨hfetch', hlow, hpassed⟩ := hfetch.takeAll hJ hg hcost hmark
  unfold TerminalLayers.openLayer
  dsimp only
  have hfinish : ∀ {q}, Queues ⟨_, q⟩ → (∀ n, q.settledCount n = s.queue.settledCount n) →
      Spreading g J (fun _ _ => False) ⟨_, q⟩ ∧ Kept s ⟨_, q⟩ := fun hqueues hcount =>
    have ⟨hs, hkept⟩ := h.lowered hJ hv hlow ⟨hfetch'.holds, hfetch'.ascending⟩ hqueues hcount
    ⟨hs.deliver fun a l ha hl hdue _ => hpassed a l ha hdue (by rwa [← hlow.filledOf_eq]), hkept⟩
  split
  · next hb =>
    obtain ⟨hqueues, hcount⟩ := h.queues.enqueue hv hfull hlow (hJ.layered hfetch'.holds).whole hb
    exact hfinish hqueues hcount
  · next hb =>
    rw [Bool.not_eq_true, Option.isSome_eq_false_iff, Option.isNone_iff_eq_none] at hb
    exact hfinish (h.queues.keep hlow hb) fun _ => rfl

end Fetch

/-- Nothing is due to a full node. -/
theorem Spreading.of_full (h : Spreading g J (fun a _ => g.headOf a = v) s)
    (hfull : s.labels.filledOf v = s.labels.layers) : Spreading g J (fun _ _ => False) s := by
  refine h.deliver fun a l _ _ hdue _ _ b _ hvacant => ?_
  have hlt := hvacant.notFull
  rw [hdue, hfull] at hlt
  exact absurd hlt (lt_irrefl _)

/-! ### A step -/

/-- The nearest open label is filled.  It is the last one, and due to the neighbours of its
node; what they pass back is not below it. -/
theorem Spreading.fill (h : Spreading g J (fun _ _ => False) s) (hJ : Closed g J)
    (hpop : s.queue.popMin? s.labels.distIn = some (s.labels.openSlot v, q))
    (hv : v < s.labels.nodeCount) (hfull : s.labels.filledOf v < s.labels.layers)
    (hb : s.labels.baseIn (s.labels.openSlot v) = some b) :
    let t := s.labels.fill v
    Spreading g J (fun a l => g.headOf a = v ∨ g.tailOf a = v ∧ l = s.labels.filledOf v) ⟨t, q⟩ ∧
      (∀ u k, k < t.filledOf u → t.distIn (t.slot k u) ≤ s.labels.distIn (s.labels.openSlot v)) ∧
      Late g t v := by
  intro t
  have hs := hJ.layered h.holds
  have hpassed : ∀ a l, a < g.arcCount → l < s.labels.filledOf (g.tailOf a) →
      Passed g s.labels a l := fun a l ha hl => h.passed a l ha hl not_false
  have hq := NodeQueue.extracted_popMin? h.queues.consistent hpop
  have hord := NodeQueue.ordered_popMin? h.queues.consistent
    (fun x y _ _ => (hs.whole x).apart (hs.whole y)) h.queues.ordered hpop
  have hmin : ∀ u, u < s.labels.nodeCount → s.labels.filledOf u < s.labels.layers →
      s.labels.distIn (s.labels.openSlot v) ≤ s.labels.distIn (s.labels.openSlot u) :=
    fun u hu hopen => h.queues.popMin?_le hs hpop hu hopen
  have hlast : ∀ u k, k < t.filledOf u →
      t.distIn (t.slot k u) ≤ s.labels.distIn (s.labels.openSlot v) := by
    intro u k hk
    rcases (lt_filledOf_fill hs.sized hv).mp hk with hold | ⟨rfl, rfl⟩
    · exact h.ascending.le_open u k v hold hv hfull
    · exact le_rfl
  refine ⟨⟨hJ.fill h.holds hpassed hv hfull hb hmin, h.queues.fill hs hv hq hord,
    h.ascending.fill hs hv hfull hmin, fun a l ha hl hdue => ?_⟩, hlast, ?_⟩
  · obtain ⟨hhead, htail⟩ := not_or.mp hdue
    have hold := ((lt_filledOf_fill hs.sized hv).mp hl).resolve_right htail
    exact (hpassed a l ha hold).fill hhead
  · rintro a l c rfl harr u k hk
    refine (hlast u k hk).trans ?_
    have hheld := not_holds_iff.mp harr.vacant.new
    rcases (lt_filledOf_fill hs.sized hv).mp harr.filled with hold | ⟨hloop, rfl⟩
    · refine hpassed a l harr.lt hold harr.marked c harr.base ⟨hv, hfull, ?_⟩
      exact not_holds_iff.mpr fun k hk => hheld k ((lt_filledOf_fill hs.sized hv).mpr (Or.inl hk))
    · have hbase := harr.base
      have hfilled := harr.filled
      rw [hloop] at hbase hfilled
      exact absurd hbase (hheld _ hfilled)

/-- What a step does with the extracted slot. -/
theorem settleNext_of_popMin? (hpop : s.queue.popMin? s.labels.distIn =
      some (s.labels.openSlot v, q)) (hv : v < s.labels.nodeCount)
    (hb : s.labels.baseIn (s.labels.openSlot v) = some b) :
    let s' := (g.outArcs v).foldl
      (TerminalLayers.offer g b (s.labels.distIn (s.labels.openSlot v))) ⟨s.labels.fill v, q⟩
    TerminalLayers.settleNext g s = .more (if s.labels.filledOf v + 1 < s.labels.layers then
      TerminalLayers.openLayer g v (s.labels.slot (s.labels.filledOf v + 1) v) s' else s') := by
  intro s'
  have hdiv : s.labels.openSlot v / s.labels.nodeCount = s.labels.filledOf v := slot_div hv
  have hmod : s.labels.openSlot v % s.labels.nodeCount = v := slot_mod hv
  have hpop' : s.queue.popMin? (keyIn s.labels.dist) = some (s.labels.openSlot v, q) := hpop
  have hb' : (s.labels.fill v).baseIn (s.labels.openSlot v) = some b := hb
  unfold TerminalLayers.settleNext
  rw [hpop']
  dsimp only
  rw [TerminalLayers.fill] at hb'
  rw [hdiv, hmod, hb']
  dsimp only
  split <;> rfl

section Step

variable (hJ : Closed g J) (hg : g.WellFormed)
  (hcost : ∀ a, a < g.arcCount → Weight.IsWhole (g.costOf a))

include hJ hg hcost

/-- A step ends the search if nothing waits, and else settles one more slot. -/
theorem Spreading.settleNext (h : Spreading g J (fun _ _ => False) s) :
    (s.queue.size = 0 ∧ settleNext g s = .done () s) ∨
      ∃ s', settleNext g s = .more s' ∧ Spreading g J (fun _ _ => False) s' ∧
        s'.labels.layers = s.labels.layers ∧
          s'.queue.settledCount s.queue.capacity = s.queue.settledCount s.queue.capacity + 1 := by
  cases hpop : s.queue.popMin? s.labels.distIn with
  | none =>
    left
    refine ⟨NodeQueue.popMin?_eq_none_iff.mp hpop, ?_⟩
    have hpop' : s.queue.popMin? (keyIn s.labels.dist) = none := hpop
    rw [TerminalLayers.settleNext, hpop']
  | some p =>
    right
    obtain ⟨x, q⟩ := p
    have hsized := (hJ.layered h.holds).sized
    have hq := NodeQueue.extracted_popMin? h.queues.consistent hpop
    obtain ⟨v, hv, hfull, rfl, hb⟩ := (h.queues.waits x).mp hq.waited
    obtain ⟨b, hb⟩ := Option.isSome_iff_exists.mp hb
    have hself := filledOf_fill_self hsized hv
    have hcount : q.settledCount s.queue.capacity = s.queue.settledCount s.queue.capacity + 1 := by
      refine hq.settledCount_eq h.queues.consistent ?_
      rw [h.queues.capacity]
      exact slot_lt hfull hv
    have hlayer : s.labels.filledOf v < (s.labels.fill v).filledOf v :=
      (lt_filledOf_fill hsized hv).mpr (Or.inr ⟨rfl, rfl⟩)
    obtain ⟨hfill, hlast, hlate⟩ := h.fill hJ hpop hv hfull hb
    obtain ⟨hs', hkept⟩ := Spreading.offers (s := ⟨s.labels.fill v, q⟩) hJ hg hcost hlayer hb rfl
      hlast hfill
    rw [settleNext_of_popMin? hpop hv hb]
    have hfilled := (hkept.filledOf_eq v).trans hself
    refine ⟨_, rfl, ?_⟩
    split
    · next hlt =>
      have hmark := hJ.marked h.holds hv hb
      have hv' := hkept.nodeCount ▸ hv
      have hslot := hkept.slot_eq (s.labels.filledOf v + 1) v
      obtain ⟨hs'', hkept'⟩ := hs'.openLayer hJ hg hcost hv' hmark
        (by rwa [hfilled, hkept.layers]) (hkept.sameFilled.late hlate)
      rw [openSlot, hfilled, hslot] at hs'' hkept'
      exact ⟨hs'', (hkept.trans hkept').layers, ((hkept.trans hkept').count _).trans hcount⟩
    · next hge =>
      refine ⟨hs'.of_full ?_, hkept.layers, (hkept.count _).trans hcount⟩
      rw [hfilled, hkept.layers]
      exact le_antisymm hfull (Nat.le_of_not_lt hge)

end Step

/-! ### The run -/

/-- The state in which the search starts: every goal waits to be its own nearest one. -/
def startOf (g : Network ℚ) (L : Nat) : State ℚ :=
  (g.nodes.filter fun v => g.isTerminal v && g.isMarked v).foldl TerminalLayers.seed
    ⟨.blank g.nodeCount L, NodeQueue.empty (L * g.nodeCount)⟩

/-- The search ends with nothing waiting. -/
theorem compute_spreads (hJ : Closed g J) (hg : g.WellFormed)
    (hcost : ∀ a, a < g.arcCount → Weight.IsWhole (g.costOf a)) {L : Nat}
    (hstart : Spreading g J (fun _ _ => False) (startOf g L))
    (hlayers : (startOf g L).labels.layers = L) (hL : 1 ≤ L) (hmax : L ≤ maxLayers) :
    ∃ s, compute g L = s.labels ∧ Spreading g J (fun _ _ => False) s ∧ s.labels.layers = L ∧
      s.queue.size = 0 := by
  have hclamp : Nat.min (Nat.max L 1) maxLayers = L := by
    change min (max L 1) maxLayers = L
    rw [max_eq_left hL, min_eq_left hmax]
  have hcap : ∀ {s}, Spreading g J (fun _ _ => False) s → s.labels.layers = L →
      s.queue.capacity = L * g.nodeCount := by
    intro s hs hlayers
    rw [hs.queues.capacity, hJ.nodeCount hs.holds, hlayers]
  -- every step uses up one of the slots that are not settled
  obtain ⟨o, s, hrun, hs, hlayers, hsize⟩ := Progress.run_ensures (e := ())
    (I := fun k s => Spreading g J (fun _ _ => False) s ∧ s.labels.layers = L ∧
      L * g.nodeCount < k + s.queue.settledCount (L * g.nodeCount))
    (Q := fun _ s => Spreading g J (fun _ _ => False) s ∧ s.labels.layers = L ∧ s.queue.size = 0)
    (fun s ⟨_, _, hcount⟩ => by
      have := s.queue.settledCount_le (L * g.nodeCount)
      omega)
    (fun k s ⟨hs, hlayers, hcount⟩ => by
      rcases hs.settleNext hJ hg hcost with ⟨hsize, hstep⟩ | ⟨s', hstep, hs', hlayers', hsettled⟩
      · exact Or.inr ⟨(), s, hstep, hs, hlayers, hsize⟩
      · left
        rw [hcap hs hlayers] at hsettled
        exact ⟨s', hstep, hs', hlayers'.trans hlayers, by omega⟩)
    (L * g.nodeCount + 1) _ ⟨hstart, hlayers, by omega⟩
  refine ⟨s, ?_, hs, hlayers, hsize⟩
  unfold startOf at hrun
  unfold compute
  dsimp only
  rw [hclamp, hrun]

/-- If nothing waits, no open layer has a label. -/
theorem Queues.baseIn_openSlot (h : Queues s) (hsize : s.queue.size = 0)
    (hv : v < s.labels.nodeCount) (hfull : s.labels.filledOf v < s.labels.layers) :
    s.labels.baseIn (s.labels.openSlot v) = none := by
  by_contra hb
  rw [← ne_eq, Option.ne_none_iff_isSome] at hb
  exact NodeQueue.not_waits_of_size hsize _ ((h.waits _).mpr ⟨v, hv, hfull, rfl, hb⟩)

end TerminalLayers

end SteinerSearch
