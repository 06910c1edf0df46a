import Mathlib.Algebra.BigOperators.Group.Finset.Piecewise
import Mathlib.Algebra.Order.BigOperators.Group.Finset
import SteinerSearch.Proofs.Tree.Invariant

/-!
# The work of a growth

Re-opened nodes may be settled any number of times, so settled nodes do not measure how
far a growth has got.  Distances do: a node outside the tree that waits again is nearer by
one at least, and a node that joins never gets another label.

## Main definitions

* `Growth.load s v` — what `v` can still cost.
* `Growth.work n s` — the work that is left, over `n` nodes.

## Main results

* `Growth.Sound.work_relabel_le`, `Growth.Sound.work_join_le` — better labels and joining
  nodes cause no new work.
* `Growth.Sound.work_popMin?_le` — an extraction is work done.
-/

namespace SteinerSearch

namespace Growth

/-- What a node can still cost: outside the tree its distance may fall, one at a time, and
it may join.  A node that waits may be extracted. -/
def load (s : State ℚ) (v : Nat) : ℚ :=
  (if s.tree.contains v = true then 0 else 1 + s.space.distOf v) +
    if v ∈ s.space.queue.waiting then 1 else 0

/-- The work that is left, over `n` nodes. -/
def work (n : Nat) (s : State ℚ) : ℚ := ∑ v ∈ Finset.range n, load s v

variable {c : Growth ℚ} {s s' : State ℚ} {n v : Nat}

theorem work_le (h : ∀ v, load s' v ≤ load s v) : work n s' ≤ work n s :=
  Finset.sum_le_sum fun v _ => h v

/-- If the load of one node falls by one, so does the work. -/
theorem work_add_one_le {k : Nat} (hk : k < n) (hself : load s' k + 1 ≤ load s k)
    (hne : ∀ v, v ≠ k → load s' v ≤ load s v) : work n s' + 1 ≤ work n s := by
  have hsum : work n s' + 1 = ∑ v ∈ Finset.range n, (load s' v + if v = k then 1 else 0) := by
    rw [Finset.sum_add_distrib, Finset.sum_ite_eq', if_pos (Finset.mem_range.mpr hk), work]
  rw [hsum]
  refine Finset.sum_le_sum fun v _ => ?_
  by_cases hv : v = k
  · rw [if_pos hv, hv]
    exact hself
  · rw [if_neg hv, add_zero]
    exact hne v hv

theorem Sound.work_relabel_le (hc : Measured c) (h : Sound c s) {a : Nat} {d : ℚ}
    (hi : Improves c s a d) : work n (c.relabel a d s) ≤ work n s := by
  have hr := h.reopened (d := d) hc hi.arc
  refine work_le fun v => ?_
  unfold load
  change (if s.tree.contains v = true then _ else _) + _ ≤ _
  by_cases hv : v = c.network.headOf a
  · -- the label fell by one at least, which pays for waiting
    have hlower := (h.isWhole_of_improves hc hi).add_one_le (h.whole _) hi.lower
    have hnew := NodeQueue.waiting_load_le (c.relabel a d s).space.queue v
    have hold := NodeQueue.waiting_load_nonneg s.space.queue v
    rw [hv, hi.outside, hr.dist_self, if_neg Bool.false_ne_true, if_neg Bool.false_ne_true]
    rw [hv] at hnew hold
    linarith
  · have hwaits : (c.relabel a d s).space.queue.Waits v ↔ s.space.queue.Waits v := by
      rw [hr.queued.waits]
      exact or_iff_left hv
    rw [hr.dist_ne v hv, NodeQueue.waiting_load_congr hwaits]

theorem Sound.work_join_le (h : Sound c s) {v : Nat} (hv : s.space.isVisited v = true)
    (hopen : s.tree.contains v = false) : work n (Growth.join c.network v s) ≤ work n s := by
  have hr := h.reopened_join hv
  refine work_le fun u => ?_
  unfold load
  by_cases hu : u = v
  · -- joining pays for waiting
    have hnew := NodeQueue.waiting_load_le (Growth.join c.network v s).space.queue v
    have hold := NodeQueue.waiting_load_nonneg s.space.queue v
    have hdist := (h.whole v).nonneg
    rw [hu, (h.contains_join hv v).mpr (Or.inl rfl), hopen, if_pos rfl, if_neg Bool.false_ne_true]
    linarith
  · have hwaits : (Growth.join c.network v s).space.queue.Waits u ↔ s.space.queue.Waits u := by
      rw [hr.queued.waits]
      exact or_iff_left hu
    rw [contains_join_of_ne hu, hr.dist_ne u hu, NodeQueue.waiting_load_congr hwaits]

theorem Sound.work_popMin?_le (h : Sound c s) {k : Nat} {w : Workspace ℚ}
    (hpop : s.space.popMin? = some (k, w)) :
    work c.network.nodeCount { s with space := w } + 1 ≤ work c.network.nodeCount s := by
  obtain ⟨-, hk, q, rfl, hex⟩ := h.popMin? hpop
  have hin : k ∈ s.space.queue.waiting := NodeQueue.mem_waiting.mpr hex.waited
  have hout : k ∉ q.waiting := fun hmem =>
    ((hex.waits k).mp (NodeQueue.mem_waiting.mp hmem)).2 rfl
  refine work_add_one_le (h.node k hk) ?_ fun v hv => ?_
  · unfold load
    rw [if_pos hin, if_neg hout, add_zero]
    rfl
  · have hwaits : q.Waits v ↔ s.space.queue.Waits v := by
      rw [hex.waits]
      exact and_iff_left hv
    exact add_le_add_right (NodeQueue.waiting_load_congr hwaits).le _

/-- The work that can be left at all is less than what a growth has fuel for. -/
theorem Sound.work_lt_fuel (h : Sound c s) :
    work c.network.nodeCount s < (fuel c.network : Nat) := by
  have hload : ∀ v, load s v ≤ Weight.faraway + 2 := by
    intro v
    have hwait := NodeQueue.waiting_load_le s.space.queue v
    have hnear := h.near v
    have hfar := Weight.faraway_rat
    unfold load
    split <;> linarith
  have hsum : work c.network.nodeCount s ≤ c.network.nodeCount * (Weight.faraway + 2) := by
    calc work c.network.nodeCount s
        ≤ ∑ _v ∈ Finset.range c.network.nodeCount, (Weight.faraway + 2) :=
          Finset.sum_le_sum fun v _ => hload v
      _ = c.network.nodeCount * (Weight.faraway + 2) := by
          rw [Finset.sum_const, Finset.card_range, nsmul_eq_mul]
  have hcount : (0 : ℚ) ≤ c.network.nodeCount := Nat.cast_nonneg _
  rw [Weight.faraway_rat] at hsum
  unfold fuel
  push_cast
  norm_num
  linarith

theorem work_nonneg (h : Sound c s) : 0 ≤ work n s := by
  refine Finset.sum_nonneg fun v _ => ?_
  have hwait := NodeQueue.waiting_load_nonneg s.space.queue v
  have hdist := (h.whole v).nonneg
  unfold load
  split <;> linarith

end Growth

end SteinerSearch
