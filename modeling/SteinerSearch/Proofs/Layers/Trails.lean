import SteinerSearch.Proofs.Layers.Invariant
import SteinerSearch.Proofs.Layers.Spreading
import SteinerSearch.Proofs.Network.Components

/-!
# Trails of labels

With a designated root among the terminals, labels are not measured alike: those of the
root run along the arcs, all others against them.  A label may then be far from a nearest
one, but it still comes from somewhere.  Its arc leads back to a filled layer of a
neighbour with the same terminal, and from there on to the terminal itself.  The distance
is the sum of what the steps cost, whatever they cost.

A label never comes back to a node that has its terminal already, so no arc is used twice
on its way.

## Main definitions

* `TerminalLayers.Trail g t b v l as` — the arcs `as` lead from layer `l` of `v` back to
  the terminal `b`.
* `TerminalLayers.Origin g t v b` — where the open label of `v` comes from.
* `TerminalLayers.Stemmed g t` — every label comes from its terminal.

## Main results

* `TerminalLayers.Trail.path`, `TerminalLayers.Trail.dist_eq` — a trail is a path, and the
  distance of the label its length.
* `TerminalLayers.Trail.nodup` — it uses no arc twice.
* `TerminalLayers.closed_stemmed` — labels that spread come from their terminals.
-/

namespace SteinerSearch

namespace TerminalLayers

section PredIn

variable {α : Type} {t : TerminalLayers α} {x y b : Nat} {d : α} {p : Option Nat}

/-- The arc over which the label in slot `x` arrived. -/
def predIn (t : TerminalLayers α) (x : Nat) : Option Nat := t.pred.getD x none

theorem predIn_setLabel_self (hx : x < t.pred.size) : (t.setLabel x d b p).predIn x = p :=
  Array.getD_setIfInBounds_self hx _ _

theorem predIn_setLabel_of_ne (hne : y ≠ x) : (t.setLabel x d b p).predIn y = t.predIn y :=
  Array.getD_setIfInBounds_of_ne hne _ _

theorem predOf_of_lt {v l : Nat} (hl : l < t.filledOf v) :
    t.predOf v l = t.predIn (t.slot l v) := if_pos hl

theorem baseOf_of_lt {v l : Nat} (hl : l < t.filledOf v) :
    t.baseOf v l = t.baseIn (t.slot l v) := if_pos hl

theorem lt_filledOf_of_baseOf {v l : Nat} (h : t.baseOf v l = some b) : l < t.filledOf v := by
  by_contra hl
  rw [baseOf, if_neg hl] at h
  cases h

theorem baseIn_of_baseOf {v l : Nat} (h : t.baseOf v l = some b) :
    t.baseIn (t.slot l v) = some b := by
  rwa [← baseOf_of_lt (lt_filledOf_of_baseOf h)]

end PredIn

/-- Over the arcs `as`, the last one first, the terminal `b` came to layer `l` of `v`.  Every
node on the way has it in a filled layer, and none is met twice. -/
inductive Trail (g : Network ℚ) (t : TerminalLayers ℚ) (b : Nat) : Nat → Nat → List Nat → Prop where
  /-- The terminal has itself as its first label. -/
  | own (goal : g.IsGoal b) (base : t.baseOf b 0 = some b) (dist : t.distOf b 0 = 0)
      (pred : t.predOf b 0 = none) : Trail g t b b 0 []
  /-- Another label arrived over an arc, from a filled layer with the same terminal. -/
  | step {v l a r : Nat} {as : List Nat} (rest : Trail g t b (g.tailOf a) r as)
      (lt : a < g.arcCount) (head : g.headOf a = v) (marked : g.isMarked v = true)
      (new : v ∉ b :: as.map g.headOf) (base : t.baseOf v l = some b)
      (pred : t.predOf v l = some a)
      (dist : t.distOf v l = t.distOf (g.tailOf a) r + stepCost g a b) : Trail g t b v l (a :: as)

/-- Where the label in the open layer of `v`, with the terminal `b`, comes from. -/
inductive Origin (g : Network ℚ) (t : TerminalLayers ℚ) (v b : Nat) : Prop where
  /-- The node is the terminal. -/
  | own (goal : g.IsGoal b) (eq : v = b) (dist : t.distIn (t.openSlot v) = 0)
      (pred : t.predIn (t.openSlot v) = none)
  /-- It arrived over an arc, from a filled layer with the same terminal. -/
  | arrived (a r : Nat) (lt : a < g.arcCount) (head : g.headOf a = v)
      (marked : g.isMarked v = true) (base : t.baseOf (g.tailOf a) r = some b)
      (pred : t.predIn (t.openSlot v) = some a)
      (dist : t.distIn (t.openSlot v) = t.distOf (g.tailOf a) r + stepCost g a b)

/-- Every label comes from its terminal. -/
structure Stemmed (g : Network ℚ) (t : TerminalLayers ℚ) : Prop where
  layered : Layered t
  nodeCount : t.nodeCount = g.nodeCount
  preds : t.pred.size = t.layers * t.nodeCount
  seeded : Seeded g t
  trail : ∀ v l b, t.baseOf v l = some b → ∃ as, Trail g t b v l as
  origin : ∀ v b, v < t.nodeCount → t.baseIn (t.openSlot v) = some b → Origin g t v b

variable {g : Network ℚ} {t t' : TerminalLayers ℚ} {v a b l : Nat} {d : ℚ} {as : List Nat}

/-! ### What a trail says -/

namespace Trail

theorem goal (h : Trail g t b v l as) : g.IsGoal b := by
  induction h with
  | own goal => exact goal
  | step _ _ _ _ _ _ _ _ ih => exact ih

theorem base (h : Trail g t b v l as) : t.baseOf v l = some b := by
  cases h with
  | own _ base => exact base
  | step _ _ _ _ _ base => exact base

theorem marked (h : Trail g t b v l as) : g.isMarked v = true := by
  cases h with
  | own goal => exact goal.2
  | step _ _ _ marked => exact marked

/-- The arcs of a trail make a path from the terminal. -/
theorem path (h : Trail g t b v l as) : g.IsMarkedPath b as.reverse v := by
  induction h with
  | own => exact Network.isMarkedPath_nil.mpr rfl
  | step _ lt head marked _ _ _ _ ih =>
    rw [List.reverse_cons]
    exact Network.isMarkedPath_concat.mpr ⟨ih, lt, head, marked⟩

theorem dist_eq (h : Trail g t b v l as) :
    t.distOf v l = Network.pathLength (fun a => stepCost g a b) as := by
  induction h with
  | own _ _ dist => exact dist
  | step _ _ _ _ _ _ _ dist ih => rw [dist, ih, Network.pathLength_cons, add_comm]

/-- Every node on the way has the terminal. -/
theorem holds (h : Trail g t b v l as) : ∀ u ∈ b :: as.map g.headOf, t.holds u b = true := by
  have hheld : ∀ {u k}, t.baseOf u k = some b → t.holds u b = true := fun hbase =>
    holds_iff.mpr ⟨_, lt_filledOf_of_baseOf hbase, baseIn_of_baseOf hbase⟩
  induction h with
  | own _ base =>
    intro u hu
    rw [List.map_nil, List.mem_singleton] at hu
    exact hu ▸ hheld base
  | step _ _ head _ _ base _ _ ih =>
    intro u hu
    rw [List.map_cons, head] at hu
    rcases List.mem_cons.mp hu with rfl | hu
    · exact ih u List.mem_cons_self
    rcases List.mem_cons.mp hu with rfl | hu
    · exact hheld base
    · exact ih u (List.mem_cons_of_mem _ hu)

/-- A trail uses no arc twice. -/
theorem nodup (h : Trail g t b v l as) : as.Nodup := by
  induction h with
  | own => exact List.nodup_nil
  | step _ _ head _ new _ _ _ ih =>
    refine List.nodup_cons.mpr ⟨fun hmem => new ?_, ih⟩
    exact List.mem_cons_of_mem _ (head ▸ List.mem_map_of_mem hmem)

/-- The arcs of a trail, all opposite, make a path to the terminal. -/
theorem path_back (h : Trail g t b v l as) (hg : g.WellFormed) :
    g.IsMarkedPath v (as.map Arc.rev) b := by
  have hback := h.path.reversed hg h.goal.2
  rwa [List.reverse_reverse] at hback

end Trail

/-- What the steps over some arcs cost is no more than all arcs together. -/
theorem pathLength_stepCost_le (hg : g.WellFormed)
    (hcost : ∀ a, a < g.arcCount → Weight.IsWhole (g.costOf a)) (hnodup : as.Nodup)
    (hlt : ∀ a ∈ as, a < g.arcCount) :
    Network.pathLength (fun a => stepCost g a b) as ≤
      Network.pathLength g.costOf (List.range g.arcCount) := by
  have hnonneg : ∀ a, a < g.arcCount → 0 ≤ g.costOf a := fun a ha => (hcost a ha).nonneg
  by_cases hr : g.root = some b
  · have hstep : (fun a => stepCost g a b) = g.costOf := funext fun a => if_pos hr
    rw [hstep]
    exact Network.pathLength_le_of_nodup hnonneg hnodup hlt
  · have hstep : (fun a => stepCost g a b) = g.costOf ∘ Arc.rev := funext fun a => if_neg hr
    rw [hstep, Network.pathLength, ← List.map_map]
    refine Network.pathLength_le_of_nodup hnonneg (hnodup.map ?_) fun a ha => ?_
    · exact Function.Involutive.injective Arc.rev_rev
    · obtain ⟨e, he, rfl⟩ := List.mem_map.mp ha
      exact hg.rev_lt (hlt e he)

/-- A label that arrives over an arc is as far as its trail is long, and that is no more than
all arcs together. -/
theorem Stemmed.arrivalDist_le (h : Stemmed g t) (hg : g.WellFormed)
    (hcost : ∀ a, a < g.arcCount → Weight.IsWhole (g.costOf a)) (harr : Arrival g t a l b) :
    arrivalDist g t a l b ≤ Network.pathLength g.costOf (List.range g.arcCount) := by
  obtain ⟨as, has⟩ := h.trail (g.tailOf a) l b ((baseOf_of_lt harr.filled).trans harr.base)
  have hnew : a ∉ as := by
    intro hmem
    have hheld := has.holds (g.headOf a) (List.mem_cons_of_mem _ (List.mem_map_of_mem hmem))
    rw [harr.vacant.new] at hheld
    cases hheld
  have hdist : arrivalDist g t a l b = Network.pathLength (fun a => stepCost g a b) (a :: as) := by
    rw [Network.pathLength_cons, ← has.dist_eq, add_comm, arrivalDist, distOf]
  rw [hdist]
  refine pathLength_stepCost_le hg hcost (List.nodup_cons.mpr ⟨hnew, has.nodup⟩) fun e he => ?_
  rcases List.mem_cons.mp he with rfl | he
  · exact harr.lt
  · exact has.path.path.lt_arcCount e (List.mem_reverse.mpr he)

/-! ### Trails stay -/

/-- The labels of the filled layers of `t` are those of `t'`, arcs included. -/
def Extends (t t' : TerminalLayers ℚ) : Prop :=
  ∀ v l, l < t.filledOf v →
    t'.baseOf v l = t.baseOf v l ∧ t'.distOf v l = t.distOf v l ∧ t'.predOf v l = t.predOf v l

theorem extends_setLabel (ht : t.Sized) (hv : v < t.nodeCount) (d : ℚ) (b : Nat) (p : Option Nat) :
    Extends t (t.setLabel (t.openSlot v) d b p) := by
  intro u l hl
  have hl' : l < (t.setLabel (t.openSlot v) d b p).filledOf u := hl
  have hslot := slot_ne_openSlot (ht.lt_nodeCount hl) hv hl
  rw [baseOf_of_lt hl', baseOf_of_lt hl, predOf_of_lt hl', predOf_of_lt hl]
  exact ⟨baseIn_setLabel_of_ne hslot, distIn_setLabel_of_ne hslot, predIn_setLabel_of_ne hslot⟩

theorem extends_fill (ht : t.Sized) (hv : v < t.nodeCount) : Extends t (t.fill v) := by
  intro u l hl
  have hl' : l < (t.fill v).filledOf u := lt_of_lt_of_le hl (filledOf_le_fill ht hv)
  rw [baseOf_of_lt hl', baseOf_of_lt hl, predOf_of_lt hl', predOf_of_lt hl]
  exact ⟨rfl, rfl, rfl⟩

theorem Trail.extend (h : Trail g t b v l as) (hext : Extends t t') : Trail g t' b v l as := by
  induction h with
  | own goal base dist pred =>
    obtain ⟨hbase, hdist, hpred⟩ := hext _ _ (lt_filledOf_of_baseOf base)
    exact .own goal (hbase.trans base) (hdist.trans dist) (hpred.trans pred)
  | step rest lt head marked new base pred dist ih =>
    obtain ⟨hbase, hdist, hpred⟩ := hext _ _ (lt_filledOf_of_baseOf base)
    obtain ⟨-, hrest, -⟩ := hext _ _ (lt_filledOf_of_baseOf rest.base)
    refine .step ih lt head marked new (hbase.trans base) (hpred.trans pred) ?_
    rw [hdist, dist, hrest]

/-- So does the origin of an open label that is not touched. -/
theorem Origin.extend (h : Origin g t v b) (hext : Extends t t')
    (hdist : t'.distIn (t'.openSlot v) = t.distIn (t.openSlot v))
    (hpred : t'.predIn (t'.openSlot v) = t.predIn (t.openSlot v)) : Origin g t' v b := by
  cases h with
  | own goal eq dist pred => exact .own goal eq (hdist.trans dist) (hpred.trans pred)
  | arrived a r lt head marked base pred dist =>
    obtain ⟨hbase', hdist', -⟩ := hext _ _ (lt_filledOf_of_baseOf base)
    refine .arrived a r lt head marked (hbase'.trans base) (hpred.trans pred) ?_
    rw [hdist, dist, hdist']

/-- An open label that is filled has a trail. -/
theorem Stemmed.trail_of_origin (h : Stemmed g t) (hv : v < t.nodeCount)
    (hb : t.baseIn (t.openSlot v) = some b) :
    ∃ as, Trail g (t.fill v) b v (t.filledOf v) as := by
  have hext := extends_fill h.layered.sized hv
  have hfilled : t.filledOf v < (t.fill v).filledOf v :=
    (lt_filledOf_fill h.layered.sized hv).mpr (Or.inr ⟨rfl, rfl⟩)
  have hbase : (t.fill v).baseOf v (t.filledOf v) = some b := (baseOf_of_lt hfilled).trans hb
  have hpred := predOf_of_lt hfilled
  have hbelow : ∀ k, k < t.filledOf v → t.baseIn (t.slot k v) ≠ some b := fun k hk hkb =>
    h.layered.distinct v k _ b hv hk hkb hb
  cases h.origin v b hv hb with
  | own goal eq dist pred =>
    subst eq
    -- the own label of a terminal is its first
    have hzero : t.filledOf v = 0 := by
      by_contra hpos
      refine hbelow 0 (Nat.pos_of_ne_zero hpos) ?_
      rw [slot_zero]
      exact (h.seeded v goal).1
    rw [hzero] at hbase hpred
    have hopen : t.openSlot v = t.slot 0 v := by rw [openSlot, hzero]
    rw [hopen] at dist pred
    exact ⟨[], hzero ▸ .own goal hbase dist (hpred.trans pred)⟩
  | arrived a r lt head marked base pred dist =>
    obtain ⟨as, has⟩ := h.trail _ r b base
    have hnew : v ∉ b :: as.map g.headOf := by
      intro hmem
      obtain ⟨k, hk, hkb⟩ := holds_iff.mp (has.holds v hmem)
      exact hbelow k hk hkb
    exact ⟨a :: as, .step (has.extend hext) lt head marked hnew hbase (hpred.trans pred) dist⟩

/-! ### Labels that spread -/

/-- Only marked nodes have labels. -/
theorem Stemmed.isMarked (h : Stemmed g t) (hv : v < t.nodeCount)
    (hb : t.baseIn (t.slot l v) = some b) : g.isMarked v = true := by
  rcases Nat.lt_trichotomy l (t.filledOf v) with hl | rfl | hl
  · obtain ⟨as, has⟩ := h.trail v l b ((baseOf_of_lt hl).trans hb)
    exact has.marked
  · cases h.origin v b hv hb with
    | own goal eq => exact eq ▸ goal.2
    | arrived _ _ _ _ marked => exact marked
  · rw [h.layered.above v l hv hl] at hb
    cases hb

/-- A label that arrives comes from its terminal. -/
theorem Stemmed.setLabel (h : Stemmed g t) (hg : g.WellFormed)
    (hcost : ∀ a, a < g.arcCount → Weight.IsWhole (g.costOf a)) (harr : Arrival g t a l b)
    (hlt : arrivalDist g t a l b < t.distIn (t.openSlot (g.headOf a))) :
    Stemmed g (t.setLabel (t.openSlot (g.headOf a)) (arrivalDist g t a l b) b (some a)) := by
  have hv := harr.vacant.lt
  have hslot := harr.vacant.openSlot_lt
  have hext := extends_setLabel h.layered.sized hv (arrivalDist g t a l b) b (some a)
  have hlayered := h.layered.setLabel harr.vacant (some a)
    ((h.layered.whole _).add (stepCost_isWhole hg hcost harr.lt)) hlt
  refine ⟨hlayered, h.nodeCount, Array.size_setIfInBounds.trans h.preds,
    h.seeded.lowered hlayered.whole (lowered_setLabel h.layered.sized hslot hlt),
    fun u k c hc => ?_, fun u c hu hc => ?_⟩
  · have hk := lt_filledOf_of_baseOf hc
    change k < t.filledOf u at hk
    obtain ⟨as, has⟩ := h.trail u k c ((hext u k hk).1.symm.trans hc)
    exact ⟨as, has.extend hext⟩
  · by_cases hu' : u = g.headOf a
    · subst hu'
      obtain rfl : b = c :=
        Option.some.inj ((harr.vacant.baseIn_setLabel h.layered.sized _ _).symm.trans hc)
      have hbase := (baseOf_of_lt harr.filled).trans harr.base
      obtain ⟨hbase', hdist', -⟩ := hext _ l harr.filled
      refine .arrived a l harr.lt rfl harr.marked (hbase'.trans hbase) ?_ ?_
      · exact predIn_setLabel_self (by rw [h.preds]; exact hslot)
      · rw [hdist']
        exact harr.vacant.distIn_setLabel h.layered.sized _ _
    · have hne : t.openSlot u ≠ t.openSlot (g.headOf a) := fun heq =>
        hu' (openSlot_injective hu hv heq)
      exact (h.origin u c hu ((baseIn_setLabel_of_ne hne).symm.trans hc)).extend hext
        (distIn_setLabel_of_ne hne) (predIn_setLabel_of_ne hne)

/-- Filling a layer gives its label a trail. -/
theorem Stemmed.fill (h : Stemmed g t) (hv : v < t.nodeCount) (hfull : t.filledOf v < t.layers)
    (hb : t.baseIn (t.openSlot v) = some b) : Stemmed g (t.fill v) := by
  have hsized := h.layered.sized
  have hext := extends_fill hsized hv
  refine ⟨h.layered.fill hv hfull hb, h.nodeCount, h.preds, h.seeded, fun u k c hc => ?_,
    fun u c hu hc => ?_⟩
  · have hbase := baseIn_of_baseOf hc
    rw [slot_fill, baseIn_fill] at hbase
    rcases (lt_filledOf_fill hsized hv).mp (lt_filledOf_of_baseOf hc) with hk | ⟨rfl, rfl⟩
    · obtain ⟨as, has⟩ := h.trail u k c ((baseOf_of_lt hk).trans hbase)
      exact ⟨as, has.extend hext⟩
    · exact h.trail_of_origin hv hbase
  · by_cases huv : u = v
    · -- the layer that is open now has no label
      have habove := h.layered.above v (t.filledOf v + 1) hv (Nat.lt_succ_self _)
      rw [huv, openSlot, filledOf_fill_self hsized hv, slot_fill, baseIn_fill, habove] at hc
      cases hc
    · have hopen := openSlot_fill_of_ne (t := t) huv
      rw [hopen, baseIn_fill] at hc
      exact (h.origin u c hu hc).extend hext (by rw [hopen]; rfl) (by rw [hopen]; rfl)

/-- Labels that spread come from their terminals. -/
theorem closed_stemmed (hg : g.WellFormed)
    (hcost : ∀ a, a < g.arcCount → Weight.IsWhole (g.costOf a)) : Closed g (Stemmed g) where
  layered h := h.layered
  nodeCount h := h.nodeCount
  marked h hv hb := h.isMarked hv hb
  setLabel h harr hlt := h.setLabel hg hcost harr hlt
  fill h _ hv hfull hb _ := h.fill hv hfull hb

end TerminalLayers

end SteinerSearch
