import SteinerSearch.Proofs.Star.Steps

/-!
# Distances of a star search

Where costs and profits are whole numbers, so are the distances of a star search.  Then
all its comparisons are exact, and nodes leave its queue in the order of their distances.

## Main definitions

* `StarSpace.Measured w` — distances are whole, and the queue is in their order.
* `StarSearch.Integral t` — costs are whole, and so is what a step gets off.

## Main results

* `StarSearch.Integral.lengthOver` — a step makes a path no shorter, and longer by its cost
  at most.
* `StarSpace.Measured.improve`, `StarSearch.measured_seed`, `StarSearch.measured_more` — all
  steps keep the distances whole.
-/

namespace SteinerSearch

namespace StarSpace

variable {w w' : StarSpace ℚ}

/-- Distances are whole, and the queue is in their order. -/
structure Measured (w : StarSpace ℚ) : Prop where
  ordered : w.Ordered
  whole : ∀ v, Weight.IsWhole (w.distOf v)

theorem Ready.measured (hw : w.Ready) : w.Measured := by
  refine ⟨hw.ordered, fun v => ?_⟩
  rw [hw.distOf_eq]
  exact Weight.isWhole_faraway

/-- A node whose distance alone was changed, to a whole number that is not larger, is made to
wait under it. -/
theorem Measured.enqueue (h : w.Measured) (w' : StarSpace ℚ) (hqueue : w'.queue = w.queue)
    (hcap : w'.capacity = w.capacity) {v : Nat} (hv : v < w.capacity)
    (hne : ∀ u, u ≠ v → w'.distOf u = w.distOf u)
    (hle : w.Waits v → w'.distOf v ≤ w.distOf v) (hwhole : Weight.IsWhole (w'.distOf v)) :
    (w'.enqueue v (w'.distOf v)).Measured := by
  refine ⟨h.ordered.enqueue hqueue hcap hv hne hle fun u => hwhole.apart (h.whole u), fun u => ?_⟩
  change Weight.IsWhole (w'.distOf u)
  by_cases hu : u = v
  · rwa [hu]
  · rw [hne u hu]
    exact h.whole u

/-- A node that gets a slot and a whole distance that is not larger is made to wait. -/
theorem Measured.place (h : w.Measured) {v i : Nat} {d : ℚ} (hv : v < w.capacity)
    (hw : w.Placed v i d w') (hd : Weight.IsWhole d) (hle : w.Waits v → d ≤ w.distOf v) :
    (w'.enqueue v (w'.distOf v)).Measured := by
  refine h.enqueue w' hw.queue hw.capacity hv hw.dist_ne ?_ ?_
  · rwa [hw.dist_self]
  · rwa [hw.dist_self]

/-- A node that may be labeled with a shorter path of whole length. -/
theorem Measured.improve (h : w.Measured) {m : Nat} (hm : m < w.capacity) {d : ℚ}
    (hd : Weight.IsWhole d) {k : Nat} {base? : Option Nat}
    (hw : StarSearch.Improved k base? m d w w') : w'.Measured := by
  cases hw with
  | skip _ => exact h
  | label hlt =>
    have hself : (w.label m d (base?.getD k) k).distOf m = d := distOf_label_self hm
    have henqueued := h.enqueue (w.label m d (base?.getD k) k) rfl capacity_label hm
      (fun u hu => distOf_label_of_ne hu)
      (fun _ => by
        rw [hself]
        exact ((Weight.below_iff (hd.apart (h.whole m))).mp hlt).le)
      (by rwa [hself])
    rwa [hself] at henqueued

/-- The node that is taken out has the least distance of all that wait, which is its key. -/
theorem Measured.popMin? {top : KeyedNode ℚ} {r : KeyedQueue ℚ} (h : w.Measured)
    (hpop : w.queue.popMin? = some (top, r)) :
    { w with queue := r }.Measured ∧ top.key = w.distOf top.node ∧
      ∀ u, w.Waits u → w.distOf top.node ≤ w.distOf u := by
  obtain ⟨hordered, hkey, hle⟩ := h.ordered.popMin? hpop
  exact ⟨⟨hordered, h.whole⟩, hkey, hle⟩

end StarSpace

namespace StarSearch

/-! ### Whole numbers -/

/-- Entries lead to other nodes, costs are whole, and what a step gets off is whole and at
most its cost. -/
structure Integral (t : StarSearch ℚ) : Prop where
  wellFormed : t.rows.WellFormed
  cost : ∀ v, ∀ e ∈ t.rows.row v, Weight.IsWhole e.cost
  discount : ∀ k m came? x, Weight.IsWhole x →
    Weight.IsWhole (t.discount k m came? x) ∧ t.discount k m came? x ≤ x

/-- With whole costs and profits a search works on whole numbers. -/
theorem integral_of_isWhole {t : StarSearch ℚ} (hr : t.rows.WellFormed)
    (hcost : ∀ v, ∀ e ∈ t.rows.row v, Weight.IsWhole e.cost)
    (hprofit : ∀ b ∈ t.bias, ∀ v, Weight.IsWhole (b.profitOf v)) : t.Integral := by
  refine ⟨hr, hcost, fun k m came? x hx => ?_⟩
  unfold StarSearch.discount
  cases hbias : t.bias with
  | none => exact ⟨Weight.isWhole_zero, hx.nonneg⟩
  | some b =>
    have hmin : Weight.IsWhole (Weight.min (b.profitOf k) x) ∧
        Weight.min (b.profitOf k) x ≤ x := by
      rw [Weight.min_rat]
      refine ⟨?_, min_le_right _ _⟩
      rcases min_choice (b.profitOf k) x with h | h
      · rw [h]
        exact hprofit b hbias k
      · rwa [h]
    dsimp only
    unfold Bias.discount
    split
    · split
      · exact ⟨Weight.isWhole_zero, hx.nonneg⟩
      · exact hmin
    · exact hmin

variable {t : StarSearch ℚ} {s s' : State ℚ}

/-- A step makes a path no shorter, and longer by its cost at most. -/
theorem Integral.lengthOver (ht : t.Integral) {k : Nat} {e : RowEntry ℚ}
    (he : e ∈ t.rows.row k) {dist : ℚ} (hdist : Weight.IsWhole dist) (came? : Option Nat) :
    Weight.IsWhole (t.lengthOver k dist came? e) ∧ dist ≤ t.lengthOver k dist came? e ∧
      t.lengthOver k dist came? e ≤ dist + e.cost := by
  obtain ⟨hwhole, hle⟩ := ht.discount k e.head came? e.cost (ht.cost k e he)
  have hdist0 := hdist.nonneg
  have hwhole0 := hwhole.nonneg
  unfold StarSearch.lengthOver
  refine ⟨(hdist.add (ht.cost k e he)).sub hwhole ?_, ?_, ?_⟩
  all_goals linarith

/-! ### Steps -/

/-- One more arc of the center. -/
theorem measured_seed {le : ℚ → ℚ → Prop} {n : Nat} {e : RowEntry ℚ} (h : s.space.Measured)
    (hs : Seeding t le n s) (ht : t.Integral) (he : t.centerRow[n]? = some e)
    (hs' : Seeded t s e n s') : s'.space.Measured := by
  have hwhole : Weight.IsWhole e.cost := ht.cost _ e (mem_centerRow he)
  have hm : e.head < s.space.capacity :=
    lt_of_lt_of_le (head_ok ht.wellFormed he).2 hs.room
  cases hs' with
  | first hslot hw =>
    subst hw
    refine h.place hm (StarSpace.placed_label hs.sized hm) hwhole fun hwaits => ?_
    obtain ⟨j, hj⟩ := (hs.slot_waits _).mp hwaits
    rw [hslot] at hj
    cases hj
  | keep _ _ => exact h.enqueue s.space rfl rfl hm (fun _ _ => rfl) (fun _ => le_rfl) (h.whole _)
  | replace _ hlt hw =>
    subst hw
    refine h.place hm (StarSpace.placed_setDist hs.sized hm) hwhole fun _ => ?_
    rw [← Bool.not_eq_true, Weight.atMost_iff ((h.whole _).apart hwhole), not_le] at hlt
    exact hlt.le

/-- One more scanned arc. -/
theorem measured_scan {k : Nat} {dist : ℚ} {base? came? : Option Nat} {e : RowEntry ℚ}
    (h : s.space.Measured) (ht : t.Integral) (hroom : t.rows.nodeCount ≤ s.space.capacity)
    (hdist : Weight.IsWhole dist) (he : e ∈ t.rows.row k)
    (hs' : Scanned t k dist base? came? s e (.ok s')) :
    s'.space.Measured ∧ s'.space.capacity = s.space.capacity := by
  cases hs' with
  | skips _ => exact ⟨h, rfl⟩
  | passes _ _ _ => exact ⟨h, rfl⟩
  | meets _ _ _ =>
    have himproved := improve_cases k base? e.head (t.lengthOver k dist came? e) s.space
    rw [space_meet]
    exact ⟨h.improve (lt_of_lt_of_le (ht.wellFormed.head_lt k e he) hroom)
      (ht.lengthOver he hdist came?).1 himproved, himproved.capacity_eq⟩

/-- A whole step. -/
theorem measured_more (h : s.space.Measured) (ht : t.Integral)
    (hroom : t.rows.nodeCount ≤ s.space.capacity) (hmore : t.settleNext s = .more s') :
    s'.space.Measured := by
  have hstep := settleNext_cases t s
  rw [hmore] at hstep
  generalize hp : Progress.more s' = p at hstep
  cases hstep with
  | ends _ => cases hp
  | stops _ _ => cases hp
  | scans hpop =>
    rename_i top r
    obtain ⟨hmeasured, hkey, -⟩ := h.popMin? hpop
    have hdist : Weight.IsWhole top.key := hkey ▸ h.whole top.node
    refine (Progress.ofScan_more (J := fun s => s.space.Measured ∧
      t.rows.nodeCount ≤ s.space.capacity) (fun e s₁ s₂ he hs₁ hs₂ => ?_)
      ⟨(space_take top r s).symm ▸ hmeasured, (space_take top r s).symm ▸ hroom⟩ hp.symm).1
    obtain ⟨hmeasured₂, hcapacity⟩ := measured_scan hs₁.1 ht hs₁.2 hdist he
      (hs₂ ▸ scan_cases t _ _ _ _ s₁ e)
    exact ⟨hmeasured₂, hcapacity ▸ hs₁.2⟩

end StarSearch

end SteinerSearch
