import SteinerSearch.Proofs.Layers.Labels
import SteinerSearch.Proofs.Layers.Ranking

/-!
# What holds of the labels at every moment

A label of a node is a marked path from the node to a terminal.  A filled layer is not
further away than any goal that the layers below it leave over.  Between extractions
every filled label was also offered over all arcs that lead to its node.

The offers are kept by the open layers, which drop all but the best one, and by the full
nodes, which take no more.  Nothing is lost: a node that is full has more terminals than
one that is open, so one of its labels is new there, and it is at least as near as the
label that was not taken.

## Main definitions

* `TerminalLayers.Sound g t` — the labels are paths to different goals.
* `TerminalLayers.Valid g t` — and the filled layers hold nearest ones.
* `TerminalLayers.Offered g t a l` — layer `l` was offered over the arc `a`.
* `TerminalLayers.Candidate g t v b d` — the goal `b` at distance `d` is new to `v`.

## Main results

* `TerminalLayers.Valid.setLabel` — a candidate keeps the labels valid.
* `TerminalLayers.Valid.le_pathLength` — no goal is nearer to an open node than the
  nearest open label.
-/

namespace SteinerSearch

namespace TerminalLayers

/-- The labels are marked paths to goals, and those of a node lead to different ones. -/
structure Sound (g : Network ℚ) (t : TerminalLayers ℚ) : Prop where
  sized : t.Sized
  nodeCount : t.nodeCount = g.nodeCount
  filled_le : ∀ v, t.filledOf v ≤ t.layers
  /-- A filled layer has a label. -/
  held : ∀ v l, l < t.filledOf v → ∃ b, t.baseIn (t.slot l v) = some b
  /-- A layer above the open one has none. -/
  above : ∀ v l, v < t.nodeCount → t.filledOf v < l → t.baseIn (t.slot l v) = none
  /-- A label is as long as a path to its goal. -/
  path : ∀ v l b, v < t.nodeCount → t.baseIn (t.slot l v) = some b →
    g.isMarked v = true ∧ g.IsGoal b ∧
      ∃ as, g.IsMarkedPath v as b ∧ Network.pathLength g.costOf as = t.distIn (t.slot l v)
  /-- The labels of a node lead to different goals. -/
  distinct : ∀ v k l b, v < t.nodeCount → k < l → t.baseIn (t.slot k v) = some b →
    t.baseIn (t.slot l v) ≠ some b
  /-- No label, no distance. -/
  blank : ∀ x, t.baseIn x = none → t.distIn x = Weight.faraway
  reach : ∀ x, t.distIn x ≤ Weight.faraway
  whole : ∀ x, Weight.IsWhole (t.distIn x)

/-- A filled layer is not further away than any goal that the layers below it leave
over. -/
def Nearest (g : Network ℚ) (t : TerminalLayers ℚ) : Prop :=
  ∀ v l, l < t.filledOf v → ∀ b, g.IsGoal b →
    (∀ k, k < l → t.baseIn (t.slot k v) ≠ some b) →
    ∀ as, g.IsMarkedPath v as b → t.distIn (t.slot l v) ≤ Network.pathLength g.costOf as

/-- Every goal is its own first label. -/
def Seeded (g : Network ℚ) (t : TerminalLayers ℚ) : Prop :=
  ∀ b, g.IsGoal b → t.baseIn b = some b ∧ t.distIn b = 0

/-- The labels are sound, start at the goals, and the filled ones are nearest. -/
structure Valid (g : Network ℚ) (t : TerminalLayers ℚ) : Prop where
  sound : Sound g t
  seeded : Seeded g t
  nearest : Nearest g t

/-- The label in layer `l` of the node that `a` leads to was offered to the open layer of
the node that `a` leaves. -/
def Offered (g : Network ℚ) (t : TerminalLayers ℚ) (a l : Nat) : Prop :=
  g.isMarked (g.tailOf a) = true → t.filledOf (g.tailOf a) < t.layers →
    ∀ b, t.baseIn (t.slot l (g.headOf a)) = some b → t.holds (g.tailOf a) b = false →
      t.distIn (t.openSlot (g.tailOf a)) ≤ t.distIn (t.slot l (g.headOf a)) + g.costOf a

/-- The goal `b`, at distance `d` along some path, is new to `v` and `v` is not full. -/
structure Candidate (g : Network ℚ) (t : TerminalLayers ℚ) (v b : Nat) (d : ℚ) : Prop where
  lt : v < t.nodeCount
  notFull : t.filledOf v < t.layers
  marked : g.isMarked v = true
  goal : g.IsGoal b
  new : t.holds v b = false
  path : ∃ as, g.IsMarkedPath v as b ∧ Network.pathLength g.costOf as = d

variable {g : Network ℚ} {t t' : TerminalLayers ℚ} {u v m a b l : Nat} {d θ : ℚ}

theorem Sound.layered (h : Sound g t) : Layered t :=
  ⟨h.sized, h.filled_le, h.held, h.above, h.distinct, h.blank, h.reach, h.whole⟩

/-- Sound labels are layers in order that come with paths. -/
theorem Sound.of_layered (h : Layered t) (hn : t.nodeCount = g.nodeCount)
    (hpath : ∀ v l b, v < t.nodeCount → t.baseIn (t.slot l v) = some b →
      g.isMarked v = true ∧ g.IsGoal b ∧
        ∃ as, g.IsMarkedPath v as b ∧ Network.pathLength g.costOf as = t.distIn (t.slot l v)) :
    Sound g t :=
  ⟨h.sized, hn, h.filled_le, h.held, h.above, hpath, h.distinct, h.blank, h.reach, h.whole⟩

theorem Candidate.vacant (h : Candidate g t v b d) : t.Vacant v b := ⟨h.lt, h.notFull, h.new⟩

/-! ### Writing a candidate -/

theorem Candidate.isWhole (h : Candidate g t v b d)
    (hcost : ∀ a, a < g.arcCount → Weight.IsWhole (g.costOf a)) : Weight.IsWhole d := by
  obtain ⟨as, has, rfl⟩ := h.path
  exact Network.isWhole_pathLength fun a ha => hcost a (has.path.lt_arcCount a ha)

/-- What a neighbour has is a candidate unless the node has it too. -/
theorem Sound.candidate (h : Sound g t) (hg : g.Linked) (ha : a < g.arcCount)
    (hmark : g.isMarked (g.tailOf a) = true) (hfull : t.filledOf (g.tailOf a) < t.layers)
    (hb : t.baseIn (t.slot l (g.headOf a)) = some b) (hnew : t.holds (g.tailOf a) b = false) :
    Candidate g t (g.tailOf a) b (t.distIn (t.slot l (g.headOf a)) + g.costOf a) := by
  have hhead : g.headOf a < t.nodeCount := by
    rw [h.nodeCount]
    exact hg.head_lt a ha
  have htail : g.tailOf a < t.nodeCount := by
    rw [h.nodeCount]
    exact hg.tail_lt a ha
  obtain ⟨hmark', hgoal, as, has, hlen⟩ := h.path _ l b hhead hb
  refine ⟨htail, hfull, hmark, hgoal, hnew, a :: as, ?_, ?_⟩
  · exact Network.isMarkedPath_cons.mpr ⟨⟨ha, rfl⟩, hmark', has⟩
  · rw [Network.pathLength_cons, hlen, add_comm]

section SetLabel

variable (h : Sound g t) (hc : Candidate g t v b d) (p : Option Nat)

include h hc

/-- The candidate comes with its path. -/
theorem Sound.path_setLabel {u l c : Nat} (hu : u < t.nodeCount)
    (hlabel : (t.setLabel (t.openSlot v) d b p).baseIn (t.slot l u) = some c) :
    g.isMarked u = true ∧ g.IsGoal c ∧ ∃ as, g.IsMarkedPath u as c ∧
      Network.pathLength g.costOf as = (t.setLabel (t.openSlot v) d b p).distIn (t.slot l u) := by
  by_cases hslot : t.slot l u = t.openSlot v
  · obtain ⟨rfl, rfl⟩ := slot_injective hu hc.lt hslot
    obtain rfl : b = c :=
      Option.some.inj ((hc.vacant.baseIn_setLabel h.sized d p).symm.trans hlabel)
    obtain ⟨as, has, hlen⟩ := hc.path
    exact ⟨hc.marked, hc.goal, as, has, hlen.trans (hc.vacant.distIn_setLabel h.sized d p).symm⟩
  · rw [baseIn_setLabel_of_ne hslot] at hlabel
    rw [distIn_setLabel_of_ne hslot]
    exact h.path u l c hu hlabel

/-- A candidate may take the place of a label that is not as low. -/
theorem Sound.setLabel (hcost : ∀ a, a < g.arcCount → Weight.IsWhole (g.costOf a))
    (hd : d < t.distIn (t.openSlot v)) : Sound g (t.setLabel (t.openSlot v) d b p) :=
  .of_layered (h.layered.setLabel hc.vacant p (hc.isWhole hcost) hd) h.nodeCount
    fun _ _ _ hu hlabel => h.path_setLabel hc p hu hlabel

end SetLabel

/-- What is not written to stays as it is. -/
theorem Nearest.lowered (h : Nearest g t) (hs : Sound g t) (hv : v < t.nodeCount)
    (hlow : Lowered t (t.openSlot v) t') : Nearest g t' := by
  intro u l hl b hgoal hbelow as has
  rw [hlow.filledOf_eq] at hl
  have hne : ∀ k, k ≤ l → t.slot k u ≠ t.openSlot v := fun k hk =>
    slot_ne_openSlot (hs.sized.lt_nodeCount hl) hv (lt_of_le_of_lt hk hl)
  rw [hlow.slot_eq, hlow.dist_ne _ (hne l le_rfl)]
  refine h u l hl b hgoal (fun k hk => ?_) as has
  rw [← hlow.base_ne _ (hne k hk.le), ← hlow.slot_eq]
  exact hbelow k hk

/-- Nothing is lower than a goal's own label. -/
theorem Seeded.lowered (h : Seeded g t) (hwhole : ∀ x, Weight.IsWhole (t'.distIn x)) {x : Nat}
    (hlow : Lowered t x t') : Seeded g t' := by
  intro b hgoal
  obtain ⟨hbase, hdist⟩ := h b hgoal
  by_cases hb : b = x
  · rw [hb] at hbase hdist ⊢
    rcases hlow.lower with ⟨hb', hd'⟩ | ⟨-, hd'⟩
    · exact ⟨hb'.trans hbase, hd'.trans hdist⟩
    · rw [hdist] at hd'
      exact absurd hd' (not_lt.mpr (hwhole x).nonneg)
  · exact ⟨(hlow.base_ne b hb).trans hbase, (hlow.dist_ne b hb).trans hdist⟩

/-- A candidate keeps the labels valid. -/
theorem Valid.setLabel (h : Valid g t) (hcost : ∀ a, a < g.arcCount → Weight.IsWhole (g.costOf a))
    (hc : Candidate g t v b d) (p : Option Nat) (hd : d < t.distIn (t.openSlot v)) :
    Valid g (t.setLabel (t.openSlot v) d b p) := by
  have hsound := h.sound.setLabel hc p hcost hd
  have hlow : Lowered t (t.openSlot v) (t.setLabel (t.openSlot v) d b p) :=
    lowered_setLabel h.sound.sized hc.vacant.openSlot_lt hd
  exact ⟨hsound, h.seeded.lowered hsound.whole hlow, h.nearest.lowered h.sound hc.lt hlow⟩

/-! ### Filling a layer -/

/-- The open layer of `v` may be filled if it has a label and no goal is nearer. -/
theorem Valid.fill (h : Valid g t) (hv : v < t.nodeCount) (hfull : t.filledOf v < t.layers)
    (hb : t.baseIn (t.openSlot v) = some b)
    (hmin : ∀ c, g.IsGoal c → t.holds v c = false → ∀ as, g.IsMarkedPath v as c →
      t.distIn (t.openSlot v) ≤ Network.pathLength g.costOf as) : Valid g (t.fill v) := by
  refine ⟨.of_layered (h.sound.layered.fill hv hfull hb) h.sound.nodeCount h.sound.path, h.seeded,
    fun u l hl c hgoal hbelow as has => ?_⟩
  rcases (lt_filledOf_fill h.sound.sized hv).mp hl with hl | ⟨rfl, rfl⟩
  · exact h.nearest u l hl c hgoal hbelow as has
  · exact hmin c hgoal (not_holds_iff.mpr hbelow) as has

/-! ### No goal is lost -/

/-- No goal is nearer to a node that is not full than the nearest open label, unless the
node has it. -/
theorem Valid.le_pathLength (h : Valid g t)
    (hcost : ∀ a, a < g.arcCount → Weight.IsWhole (g.costOf a))
    (hoffered : ∀ a l, a < g.arcCount → l < t.filledOf (g.headOf a) → Offered g t a l)
    (hmin : ∀ v, g.isMarked v = true → t.filledOf v < t.layers → θ ≤ t.distIn (t.openSlot v))
    {as : List Nat} (hmark : g.isMarked v = true) (hfull : t.filledOf v < t.layers)
    (hgoal : g.IsGoal b) (hnew : t.holds v b = false) (has : g.IsMarkedPath v as b) :
    θ ≤ Network.pathLength g.costOf as := by
  induction as generalizing v with
  | nil =>
    obtain rfl := Network.isMarkedPath_nil.mp has
    obtain ⟨hbase, hdist⟩ := h.seeded v hgoal
    -- the own label of a goal is open as long as the goal does not hold it
    have hzero : t.filledOf v = 0 := by
      by_contra hpos
      rw [← Bool.not_eq_true, holds_iff] at hnew
      exact hnew ⟨0, Nat.pos_of_ne_zero hpos, by rw [slot_zero, hbase]⟩
    have hθ := hmin v hmark hfull
    rwa [openSlot, hzero, slot_zero, hdist] at hθ
  | cons a as ih =>
    obtain ⟨⟨ha, rfl⟩, hmark', has⟩ := Network.isMarkedPath_cons.mp has
    have hnonneg : 0 ≤ g.costOf a := (hcost a ha).nonneg
    rw [Network.pathLength_cons]
    -- a label that is no longer than the rest of the path and new to the tail is enough
    have hthrough : ∀ l c, l < t.filledOf (g.headOf a) →
        t.baseIn (t.slot l (g.headOf a)) = some c → t.holds (g.tailOf a) c = false →
        (∀ k, k < l → t.baseIn (t.slot k (g.headOf a)) ≠ some b) →
        θ ≤ g.costOf a + Network.pathLength g.costOf as := by
      intro l c hl hc hcnew hbelow
      have hoff := hoffered a l ha hl hmark hfull c hc hcnew
      have hnear := h.nearest _ l hl b hgoal hbelow as has
      have hθ := hmin _ hmark hfull
      linarith
    cases hheld : t.holds (g.headOf a) b with
    | true =>
      obtain ⟨l, hl, hb⟩ := holds_iff.mp hheld
      have hhead := h.sound.sized.lt_nodeCount hl
      exact hthrough l b hl hb hnew fun k hk hbk => h.sound.distinct _ k l b hhead hk hbk hb
    | false =>
      have hother := not_holds_iff.mp hheld
      rcases Nat.lt_or_ge (t.filledOf (g.headOf a)) t.layers with hlt | hge
      · have := ih hmark' hlt hheld has
        linarith
      · -- the head is full: one of its labels is new to the tail, and not further than `b`
        obtain ⟨l, c, hl, hc, hcnew⟩ := h.sound.layered.exists_new (lt_of_lt_of_le hfull hge)
        exact hthrough l c hl hc hcnew fun k hk => hother k (hk.trans hl)

end TerminalLayers

end SteinerSearch
