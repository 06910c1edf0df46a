import Mathlib.Data.List.Induction
import SteinerSearch.Proofs.Walk.Steps

/-!
# The frontier of a walk search

Credits pull labels below those of nodes that were extracted before, so a walk search is
no search in the order of distances, and required nodes are frozen with the label they
are extracted with.  But credits only lower labels.  A node is therefore never extracted
with a label above the length of a plain path to it: along the path, every node before the
first one that waits has handed on a label that is good enough.

This needs that nothing is lost where the ledger refuses an arc.  When that is so depends
on the ledger, so it is a condition here.

## Main definitions

* `Walk.Dominates t w v` — no plain path to `v` is shorter than its label.
* `Walk.Frontier t due w` — what holds between two steps, and inside a step as long as some
  arcs are due.
* `Walk.Harmless t J` — where `J` holds, refused arcs are of no use, and searches keep `J`.

## Main results

* `Walk.Frontier.reaches` — how far along a plain path the search has got.
* `Walk.Frontier.depart`, `Walk.Frontier.take` — both parts of a step keep the invariant.
* `Walk.Frontier.dominates_of_least` — so the extracted node is as near as any plain path
  to it.
-/

namespace SteinerSearch

namespace Walk

variable {t : Walk ℚ} {s s' : State ℚ} {w : Workspace ℚ} {q : NodeQueue} {k a v : Nat} {d : ℚ}
  {as : List Nat} {due : Nat → Prop}

/-- No plain path to `v` is shorter than its label. -/
def Dominates (t : Walk ℚ) (w : Workspace ℚ) (v : Nat) : Prop :=
  ∀ as, t.Plain as v → t.Fits (Network.pathLength t.arcCost as) →
    w.distOf v ≤ Network.pathLength t.arcCost as

/-- No plain path over the arc `a` is shorter than the label of its head. -/
def Uses (t : Walk ℚ) (w : Workspace ℚ) (a : Nat) : Prop :=
  ∀ as, t.Plain as (t.network.tailOf a) →
    t.Fits (Network.pathLength t.arcCost as + t.arcCost a) →
      w.distOf (t.network.headOf a) ≤ Network.pathLength t.arcCost as + t.arcCost a

theorem Dominates.mono {w' : Workspace ℚ} (h : Dominates t w v)
    (hle : w'.distOf v ≤ w.distOf v) : Dominates t w' v := by
  intro as hplain hfits
  exact hle.trans (h as hplain hfits)

theorem Uses.mono {w' : Workspace ℚ} (h : Uses t w a)
    (hle : w'.distOf (t.network.headOf a) ≤ w.distOf (t.network.headOf a)) : Uses t w' a := by
  intro as hplain hfits
  exact hle.trans (h as hplain hfits)

/-- A good label of the tail is handed on. -/
theorem uses_of_tail (ht : Measured t) (ha : a < t.network.arcCount)
    (htail : Dominates t w (t.network.tailOf a))
    (hhead : t.Fits (w.distOf (t.network.tailOf a) + t.arcCost a) →
      w.distOf (t.network.headOf a) ≤ w.distOf (t.network.tailOf a) + t.arcCost a) :
    Uses t w a := by
  intro as hplain hfits
  have hcost := ht.nonneg ha
  have hle := htail as hplain (hfits.mono (by linarith))
  have hstep := hhead (hfits.mono (by linarith))
  linarith

/-- A path over the arc to its head is a path to the head. -/
theorem uses_of_head (ha : a < t.network.arcCount) (hpass : t.Passable a)
    (hhead : Dominates t w (t.network.headOf a)) : Uses t w a := by
  intro as hplain hfits
  have hconcat := hhead (as ++ [a]) (plain_concat.mpr ⟨hplain, ha, hpass, rfl⟩)
  rw [Network.pathLength_concat] at hconcat
  exact hconcat hfits

/-- What holds between two steps, and inside a step as long as some arcs are due. -/
structure Frontier (t : Walk ℚ) (due : Nat → Prop) (w : Workspace ℚ) : Prop extends Sound t w where
  /-- Extracted nodes have good labels. -/
  exact : ∀ v, w.isVisited v = true → ¬ w.queue.Waits v → Dominates t w v
  /-- The arcs out of extracted nodes were taken, unless they are due. -/
  used : ∀ a, a < t.network.arcCount → ¬ due a → w.isVisited (t.network.tailOf a) = true →
    ¬ w.queue.Waits (t.network.tailOf a) → t.Passable a → Uses t w a

theorem Frontier.mono {due' : Nat → Prop} (h : Frontier t due w)
    (hdue : ∀ a, a < t.network.arcCount → due a → due' a) : Frontier t due' w :=
  { h with used := fun a ha hnot => h.used a ha fun hd => hnot (hdue a ha hd) }

/-- Along a plain path the search has got to the end, or some node waits on the way. -/
theorem Frontier.reaches (h : Frontier t (fun _ => False) w) (ht : Measured t)
    (hplain : t.Plain as v) (hfits : t.Fits (Network.pathLength t.arcCost as)) :
    w.distOf v ≤ Network.pathLength t.arcCost as ∨
      ∃ x, w.queue.Waits x ∧ w.distOf x ≤ Network.pathLength t.arcCost as := by
  induction as using List.reverseRecOn generalizing v with
  | nil =>
    obtain rfl := plain_nil.mp hplain
    rw [h.start.2, Network.pathLength_nil]
    exact Or.inl le_rfl
  | append_singleton as a ih =>
    obtain ⟨hprev, ha, hpass, rfl⟩ := plain_concat.mp hplain
    have hcost := ht.nonneg ha
    rw [Network.pathLength_concat] at hfits ⊢
    rcases ih hprev (hfits.mono (by linarith)) with htail | ⟨x, hx, hle⟩
    · cases hv : w.isVisited (t.network.tailOf a) with
      | true =>
        by_cases hwaits : w.queue.Waits (t.network.tailOf a)
        · exact Or.inr ⟨_, hwaits, by linarith⟩
        · exact Or.inl (h.used a ha not_false hv hwaits hpass as hprev hfits)
      | false =>
        -- an untouched node is further away than any path that fits
        rw [h.blank _ hv] at htail
        have hfar := hfits.1
        exact absurd htail (by linarith)
    · exact Or.inr ⟨x, hx, by linarith⟩

/-- A waiting node with the least label is as near as any plain path to it. -/
theorem Frontier.dominates_of_least (h : Frontier t (fun _ => False) w) (ht : Measured t)
    (hleast : ∀ x, w.queue.Waits x → w.distOf k ≤ w.distOf x) : Dominates t w k := by
  intro as hplain hfits
  rcases h.reaches ht hplain hfits with hk | ⟨x, hx, hle⟩
  · exact hk
  · exact (hleast x hx).trans hle

/-- If nothing waits, then no plain path to the goal fits. -/
theorem Frontier.not_fits_of_empty (h : Frontier t (fun _ => False) w) (ht : Measured t)
    (hempty : ∀ v, ¬ w.queue.Waits v) (hplain : t.Plain as t.query.goal) :
    ¬ t.Fits (Network.pathLength t.arcCost as) := by
  intro hfits
  rcases h.reaches ht hplain hfits with hgoal | ⟨x, hx, -⟩
  · cases hv : w.isVisited t.query.goal with
    | true => exact hempty _ (h.goal hv)
    | false =>
      rw [h.blank _ hv] at hgoal
      exact absurd hfits.1 (not_lt.mpr hgoal)
  · exact hempty x hx

/-- After the extraction of a node the arcs out of it are due. -/
theorem Frontier.depart (h : Frontier t (fun _ => False) w) (ht : Measured t)
    (hk : k ≠ t.query.goal) (hd : Departed t w k q) :
    Frontier t (fun a => t.network.tailOf a = k) { w with queue := q } := by
  have hwaits : ∀ {v}, v ≠ k → ¬ q.Waits v → ¬ w.queue.Waits v := by
    intro v hv hnot hw
    exact hnot ((hd.waits v).mpr ⟨hw, hv⟩)
  refine { h.toSound.depart hk hd with
    exact := fun v hv hnot => ?_
    used := fun a ha hdue hv hnot hpass => ?_ }
  · by_cases hvk : v = k
    · subst hvk
      exact h.dominates_of_least ht hd.least
    · exact h.exact v hv (hwaits hvk hnot)
  · exact h.used a ha not_false hv (hwaits hdue hnot) hpass

/-- An arc that was taken is due no longer. -/
theorem Frontier.take (h : Frontier t due s.space) (ht : Measured t)
    (ha : a < t.network.arcCount) (htail : s.space.isVisited (t.network.tailOf a) = true)
    (hnot : ¬ s.space.queue.Waits (t.network.tailOf a)) (htook : Took t a s s') :
    Frontier t (fun b => due b ∧ b ≠ a) s'.space := by
  have hgood := h.exact _ htail hnot
  -- the other arcs are as they were
  have hrest : ∀ {b}, ¬ (due b ∧ b ≠ a) → b ≠ a → ¬ due b := by
    intro b hb hba hdue
    exact hb ⟨hdue, hba⟩
  cases htook with
  | skipped hhead =>
    refine { h with used := fun b hb hdue hv hw hpass => ?_ }
    by_cases hba : b = a
    · subst hba
      have hsettled := hhead hpass
      exact uses_of_head hb hpass (h.exact _ (h.settled _ hsettled)
        (h.consistent.not_waits_of_isSettled hsettled))
    · exact h.used b hb (hrest hdue hba) hv hw hpass
  | kept hused =>
    refine { h with used := fun b hb hdue hv hw hpass => ?_ }
    by_cases hba : b = a
    · subst hba
      exact uses_of_tail ht hb hgood hused
    · exact h.used b hb (hrest hdue hba) hv hw hpass
  | @labeled d hi =>
    have hr := h.relabeled_improve ht hi
    have hlower := h.dist_improve_le ht hi
    refine { h.toSound.improve ht hi with
      exact := fun v hv hw => ?_
      used := fun b hb hdue hv hw hpass => ?_ }
    · obtain ⟨-, hv, hw⟩ := h.of_not_waits_improve ht hi hv hw
      exact (h.exact v hv hw).mono (hlower v)
    · obtain ⟨hne, hv, hw⟩ := h.of_not_waits_improve ht hi hv hw
      by_cases hba : b = a
      · subst hba
        refine uses_of_tail ht hb (hgood.mono (hlower _)) fun _ => ?_
        rw [hr.dist_self, hr.dist_ne _ hne]
        exact h.label_le ht hi
      · exact (h.used b hb (hrest hdue hba) hv hw hpass).mono (hlower _)

/-- A search starts with its start waiting, so that no arc was used. -/
theorem frontier_start (ht : Measured t) (hw : w.Ready)
    (hroom : t.network.nodeCount ≤ w.capacity) :
    Frontier t (fun _ => False) ((w.setLabel t.query.start 0 none).enqueue t.query.start) := by
  have hstart := lt_of_lt_of_le ht.start_lt hroom
  have hr := hw.relabeled (d := 0) (p := none) hstart
  have honly : ∀ {v}, ((w.setLabel t.query.start 0 none).enqueue t.query.start).isVisited v = true →
      v = t.query.start := (hr.isVisited_iff hw).mp
  have hwaits : ∀ {v}, ((w.setLabel t.query.start 0 none).enqueue t.query.start).isVisited v =
      true → ((w.setLabel t.query.start 0 none).enqueue t.query.start).queue.Waits v :=
    fun hv => (hr.waits_iff hw).mpr (honly hv)
  have hopen : ∀ v, w.isSettled v = false := hw.isSettled_eq
  have hdist : ∀ {v}, v ≠ t.query.start →
      ((w.setLabel t.query.start 0 none).enqueue t.query.start).distOf v = Weight.faraway :=
    fun hv => (hr.dist_ne _ hv).trans (hw.distOf_eq _)
  have hwhole : ∀ v, Weight.IsWhole
      (((w.setLabel t.query.start 0 none).enqueue t.query.start).distOf v) := by
    intro v
    by_cases hv : v = t.query.start
    · rw [hv, hr.dist_self]
      exact Weight.isWhole_zero
    · rw [hdist hv]
      exact Weight.isWhole_faraway
  refine { backed_start hw hroom ht.start_lt with
    ordered := ?_
    whole := hwhole
    near := fun v => ?_
    blank := fun v hv => hdist ?_
    settled := fun v hv => ?_
    start := ⟨hr.visited_self, hr.dist_self⟩
    goal := hwaits
    exact := fun v hv hnot => absurd (hwaits hv) hnot
    used := fun a _ _ hv hnot _ => absurd (hwaits hv) hnot }
  · rw [hr.queue]
    refine NodeQueue.ordered_insert hw.consistent (by rwa [hw.sized.queue])
      (Workspace.stateOf_ne_settled (hopen _)) (fun u v _ _ => (hwhole u).apart (hwhole v))
      hr.dist_ne (fun _ => ?_) (NodeQueue.ordered_of_size hw.size_queue)
    rw [hr.dist_self, hw.distOf_eq]
    exact Weight.isWhole_faraway.nonneg
  · by_cases hv : v = t.query.start
    · rw [hv, hr.dist_self]
      exact Weight.isWhole_faraway.nonneg
    · exact (hdist hv).le
  · rintro rfl
    exact Bool.false_ne_true (hv.symm.trans hr.visited_self)
  · exact absurd ((hopen v).symm.trans ((hr.settled v).symm.trans hv)) Bool.false_ne_true

/-! ### Refusals -/

/-- Where `J` holds, the arcs that the ledger refuses are of no use, and searches keep `J`. -/
structure Harmless (t : Walk ℚ) (J : Workspace ℚ → Prop) : Prop where
  depart : ∀ {w k q}, J w → Departed t w k q → J { w with queue := q }
  improve : ∀ {w a d}, Sound t w → J w →
    (t.network.isRequired (t.network.tailOf a) = true →
      w.isSettled (t.network.tailOf a) = true) →
    Improves t w a d → J (t.improve a d w)
  refused : ∀ {w a}, J w → a < t.network.arcCount → w.isVisited (t.network.tailOf a) = true →
    t.Passable a → w.isSettled (t.network.headOf a) = false →
    t.network.headOf a ≠ t.query.goal →
    t.ledger.refuses t.network w (t.network.tailOf a) (t.network.headOf a) a = true →
    w.distOf (t.network.headOf a) ≤ w.distOf (t.network.tailOf a) + t.arcCost a

end Walk

end SteinerSearch
