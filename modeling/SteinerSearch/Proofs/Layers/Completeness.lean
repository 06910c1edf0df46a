import Mathlib.Data.Set.Card
import SteinerSearch.Proofs.Layers.Exactness
import SteinerSearch.Proofs.Layers.Trails

/-!
# Layers are complete for all costs

When nothing waits any more, a node that is not full holds whatever its neighbours hold,
so it holds every terminal of its component; a full node holds as many as there are
layers.  This asks nothing of the costs but that they stay below the distance that stands
for unreached nodes.  The two arcs of an edge may cost differently, and the designated
root may be a terminal.

## Main results

* `TerminalLayers.Spreading.holds_of_isReachable` — a node that is not full holds all
  terminals of its component.
* `TerminalLayers.compute_complete` — **layers are well-formed and complete.**
-/

namespace SteinerSearch

namespace TerminalLayers

variable {g : Network ℚ} {s : State ℚ} {t : TerminalLayers ℚ} {v a b l L : Nat} {as : List Nat}

/-! ### The run -/

/-- At the start of the search no label has an arc. -/
theorem preds_start : (startOf g L).labels.pred.size = L * g.nodeCount ∧
    ∀ x, (startOf g L).labels.predIn x = none := by
  refine foldl_ensures (J := fun _ (s : State ℚ) => s.labels.pred.size = L * g.nodeCount ∧
    ∀ x, s.labels.predIn x = none) _ (fun _ b s _ ⟨hsize, hnone⟩ => ⟨?_, fun x => ?_⟩)
    ⟨Array.size_replicate, fun x => Array.getD_replicate _ x none⟩
  · exact Array.size_setIfInBounds.trans hsize
  · apply (Array.getD_setIfInBounds_default s.labels.pred b x none).trans
    rw [show s.labels.pred.getD x none = none from hnone x, ite_self]

/-- The labels of the start are those of the goals themselves. -/
theorem Seeding.stemmed {goals : List Nat} (h : Seeding g L goals (startOf g L))
    (hgoals : ∀ b, b ∈ goals ↔ g.IsGoal b) : Stemmed g (startOf g L).labels := by
  obtain ⟨hsize, hpred⟩ := preds_start (g := g) (L := L)
  refine ⟨h.sound.layered, h.sound.nodeCount, ?_, fun b hb => h.seeded b ((hgoals b).mpr hb),
    fun v l b hb => ?_, fun v b hv hb => ?_⟩
  · rw [hsize, h.layers, h.sound.nodeCount]
  · have hl := lt_filledOf_of_baseOf hb
    rw [h.unfilled] at hl
    exact absurd hl (Nat.not_lt_zero l)
  · have hopen : (startOf g L).labels.openSlot v = v := by rw [openSlot, h.unfilled, slot_zero]
    rw [hopen] at hb
    by_cases hv : v ∈ goals
    · obtain ⟨hbase, hdist⟩ := h.seeded v hv
      obtain rfl : v = b := Option.some.inj (hbase.symm.trans hb)
      exact .own ((hgoals v).mp hv) rfl (hopen.symm ▸ hdist) (hpred _)
    · rw [h.blank v hv] at hb
      cases hb

/-- The search ends with nothing waiting, and every label comes from its terminal. -/
theorem compute_stemmed (hg : g.WellFormed)
    (hcost : ∀ a, a < g.arcCount → Weight.IsWhole (g.costOf a)) (hL : 1 ≤ L)
    (hmax : L ≤ maxLayers) :
    ∃ s, compute g L = s.labels ∧ Spreading g (Stemmed g) (fun _ _ => False) s ∧
      s.labels.layers = L ∧ s.queue.size = 0 := by
  obtain ⟨hstart, hlayers⟩ := spreading_start hcost hL
    fun goals hgoals hseeding => hseeding.stemmed hgoals
  exact compute_spreads (closed_stemmed hg hcost) hg hcost hstart hlayers hL hmax

/-! ### Nothing is missing -/

/-- If nothing waits, every terminal holds itself. -/
theorem Spreading.filledOf_pos (h : Spreading g (Stemmed g) (fun _ _ => False) s)
    (hsize : s.queue.size = 0) (hlayers : 0 < s.labels.layers) (hgoal : g.IsGoal b) :
    0 < s.labels.filledOf b := by
  have hlt : b < s.labels.nodeCount := by
    rw [h.holds.nodeCount]
    exact hgoal.lt_nodeCount
  apply Nat.pos_of_ne_zero
  intro hzero
  -- else its own label would still wait
  have hnone := h.queues.baseIn_openSlot hsize hlt (by rwa [hzero])
  rw [openSlot, hzero, slot_zero, (h.holds.seeded b hgoal).1] at hnone
  cases hnone

section Ended

variable (h : Spreading g (Stemmed g) (fun _ _ => False) s) (hg : g.WellFormed)
  (hcost : ∀ a, a < g.arcCount → Weight.IsWhole (g.costOf a))
  (hsum : Network.pathLength g.costOf (List.range g.arcCount) < Weight.faraway)
  (hsize : s.queue.size = 0)

include h hg hcost hsum hsize

/-- If nothing waits, a node that is not full holds what its neighbours hold. -/
theorem Spreading.holds_of_neighbour (ha : a < g.arcCount)
    (hmark : g.isMarked (g.headOf a) = true)
    (hfull : s.labels.filledOf (g.headOf a) < s.labels.layers)
    (hb : s.labels.holds (g.tailOf a) b = true) : s.labels.holds (g.headOf a) b = true := by
  have hlayered := h.holds.layered
  have hhead : g.headOf a < s.labels.nodeCount := by
    rw [h.holds.nodeCount]
    exact hg.head_lt a ha
  obtain ⟨l, hl, hbase⟩ := holds_iff.mp hb
  by_contra hnew
  have hvacant : s.labels.Vacant (g.headOf a) b := ⟨hhead, hfull, (Bool.not_eq_true _).mp hnew⟩
  have hnone := h.queues.baseIn_openSlot hsize hhead hfull
  apply absurd hsum
  rw [not_lt]
  calc Weight.faraway = s.labels.distIn (s.labels.openSlot (g.headOf a)) :=
        (hlayered.blank _ hnone).symm
    _ ≤ arrivalDist g s.labels a l b := h.passed a l ha hl not_false hmark b hbase hvacant
    _ ≤ Network.pathLength g.costOf (List.range g.arcCount) :=
        h.holds.arrivalDist_le hg hcost ⟨ha, hmark, hvacant, hl, hbase⟩

/-- If nothing waits, a node that is not full holds every terminal of its component. -/
theorem Spreading.holds_of_isReachable (hmark : g.isMarked v = true)
    (hfull : s.labels.filledOf v < s.labels.layers) (hgoal : g.IsGoal b)
    (hreach : g.IsReachable v b) : s.labels.holds v b = true := by
  obtain ⟨as, has⟩ := hreach
  induction as generalizing v with
  | nil =>
    obtain rfl := Network.isMarkedPath_nil.mp has
    have hpos := h.filledOf_pos hsize (Nat.zero_lt_of_lt hfull) hgoal
    exact holds_iff.mpr ⟨0, hpos, by rw [slot_zero, (h.holds.seeded v hgoal).1]⟩
  | cons a as ih =>
    obtain ⟨⟨ha, rfl⟩, hmark', has⟩ := Network.isMarkedPath_cons.mp has
    have hrev := hg.rev_lt ha
    have hhead := hg.head_rev a ha
    have htail := hg.tail_rev ha
    have hpass : ∀ {c}, s.labels.holds (g.headOf a) c = true →
        s.labels.holds (g.tailOf a) c = true := by
      intro c hc
      rw [← hhead] at hmark hfull ⊢
      rw [← htail] at hc
      exact h.holds_of_neighbour hg hcost hsum hsize hrev hmark hfull hc
    rcases Nat.lt_or_ge (s.labels.filledOf (g.headOf a)) s.labels.layers with hlt | hge
    · exact hpass (ih hmark' hlt has)
    · -- a full neighbour would have a terminal that is new
      obtain ⟨l, c, hl, hc, hnew⟩ := h.holds.layered.exists_new (lt_of_lt_of_le hfull hge)
      rw [hpass (holds_iff.mpr ⟨l, hl, hc⟩)] at hnew
      cases hnew

end Ended

/-- What a node holds are terminals of its component. -/
theorem Stemmed.of_holds (h : Stemmed g t) (hg : g.WellFormed) (hb : t.holds v b = true) :
    g.IsGoal b ∧ g.IsReachable v b := by
  obtain ⟨l, hl, hbase⟩ := holds_iff.mp hb
  obtain ⟨as, has⟩ := h.trail v l b ((baseOf_of_lt hl).trans hbase)
  exact ⟨has.goal, _, has.path_back hg⟩

/-- A node has as many filled layers as it holds terminals. -/
theorem Layered.ncard_holds (h : Layered t) (v : Nat) :
    {b | t.holds v b = true}.ncard = t.filledOf v := by
  have himage : some '' {b | t.holds v b = true} = ((t.basesOf v).toFinset : Set (Option Nat)) := by
    ext o
    simp only [Set.mem_image, Set.mem_ofPred_eq, List.coe_toFinset]
    constructor
    · rintro ⟨b, hb, rfl⟩
      exact mem_basesOf.mpr hb
    · intro ho
      obtain ⟨l, hl, rfl⟩ := List.mem_map.mp ho
      obtain ⟨b, hb⟩ := h.held v l (List.mem_range.mp hl)
      exact ⟨b, holds_iff.mpr ⟨l, List.mem_range.mp hl, hb⟩, hb.symm⟩
  calc {b | t.holds v b = true}.ncard = (some '' {b | t.holds v b = true}).ncard :=
        (Set.ncard_image_of_injective _ (Option.some_injective Nat)).symm
    _ = (t.basesOf v).length := by
        rw [himage, Set.ncard_coe_finset, List.toFinset_card_of_nodup (h.nodup_basesOf v)]
    _ = t.filledOf v := length_basesOf

/-- If nothing waits, a node has filled as many layers as there are terminals in its component,
or all. -/
theorem Spreading.filledOf_eq (h : Spreading g (Stemmed g) (fun _ _ => False) s)
    (hg : g.WellFormed) (hcost : ∀ a, a < g.arcCount → Weight.IsWhole (g.costOf a))
    (hsum : Network.pathLength g.costOf (List.range g.arcCount) < Weight.faraway)
    (hsize : s.queue.size = 0) (hmark : g.isMarked v = true) :
    s.labels.filledOf v = min s.labels.layers {b | g.IsGoal b ∧ g.IsReachable v b}.ncard := by
  have hlayered := h.holds.layered
  have hsub : {b | s.labels.holds v b = true} ⊆ {b | g.IsGoal b ∧ g.IsReachable v b} :=
    fun b hb => h.holds.of_holds hg hb
  have hle := hlayered.filled_le v
  rw [← hlayered.ncard_holds v] at hle ⊢
  rcases Nat.lt_or_ge (s.labels.filledOf v) s.labels.layers with hlt | hge
  · have hall : {b | g.IsGoal b ∧ g.IsReachable v b} ⊆ {b | s.labels.holds v b = true} :=
      fun b ⟨hgoal, hreach⟩ => h.holds_of_isReachable hg hcost hsum hsize hmark hlt hgoal hreach
    rw [hsub.antisymm hall] at hle ⊢
    exact (min_eq_right hle).symm
  · have hfinite : {b | g.IsGoal b ∧ g.IsReachable v b}.Finite :=
      (Set.finite_lt_nat g.nodeCount).subset fun b hb => hb.1.lt_nodeCount
    have hcard := Set.ncard_le_ncard hsub hfinite
    rw [← hlayered.ncard_holds v] at hge
    rw [min_eq_left (hge.trans hcard)]
    exact le_antisymm hle hge

/-! ### Well-formed layers -/

/-- Ascending layers with different terminals pass the check, empty ones included. -/
theorem areOrdered_of_ascending (h : Layered t) (hasc : Ascending t)
    (hopen : ∀ v, v < t.nodeCount → t.filledOf v < t.layers → t.baseIn (t.openSlot v) = none) :
    t.areOrdered = true := by
  have hempty : ∀ {v l}, v < t.nodeCount → t.filledOf v ≤ l → l < t.layers →
      t.distOf v l = Weight.faraway := by
    intro v l hv hl hlayer
    rcases Nat.lt_or_eq_of_le hl with hlt | rfl
    · exact h.blank _ (h.above v l hv hlt)
    · exact h.blank _ (hopen v hv hlayer)
  have hsteps : ∀ {v k l}, v < t.nodeCount → k < l → l < t.layers →
      t.distOf v k ≤ t.distOf v l := by
    intro v k l hv hkl hlayer
    rcases Nat.lt_or_ge l (t.filledOf v) with hl | hl
    · exact hasc.sorted v k l hkl hl
    · rw [hempty hv hl hlayer]
      exact h.reach _
  have hdiffer : ∀ {v i j}, i < j → j < t.filledOf v → t.baseOf v i ≠ t.baseOf v j := by
    intro v i j hij hj heq
    obtain ⟨b, hb⟩ := h.held v i (hij.trans hj)
    rw [baseOf_of_lt (hij.trans hj), baseOf_of_lt hj, hb] at heq
    exact h.distinct v i j b (h.sized.lt_nodeCount hj) hij hb heq.symm
  simp only [areOrdered, List.all_eq_true, List.mem_range, List.mem_range'_1, Bool.and_eq_true,
    Bool.not_eq_true', bne_iff_ne]
  intro v hv
  refine ⟨fun l hl => ?_, fun i _ j hj => hdiffer (by omega) (by omega)⟩
  rw [Weight.above_eq_false_iff]
  have hle : t.distOf v (l - 1) ≤ t.distOf v l := hsteps hv (by omega) (by omega)
  linarith [Weight.tolerance_pos]

/-- A label is the terminal's own, or it came over an arc from a filled layer that is no
further away. -/
theorem Trail.own_or_arrived (h : Trail g t b v l as) (hg : g.WellFormed)
    (hcost : ∀ a, a < g.arcCount → Weight.IsWhole (g.costOf a)) :
    v = b ∧ l = 0 ∧ t.distOf v l = 0 ∧ t.predOf v l = none ∨
      ∃ a r, t.predOf v l = some a ∧ a < g.arcCount ∧ g.headOf a = v ∧
        g.isMarked (g.tailOf a) = true ∧ t.baseOf (g.tailOf a) r = some b ∧
        t.distOf (g.tailOf a) r ≤ t.distOf v l ∧
        t.distOf v l = t.distOf (g.tailOf a) r + stepCost g a b := by
  cases h with
  | own _ _ dist pred => exact Or.inl ⟨rfl, rfl, dist, pred⟩
  | step rest lt head _ _ _ pred dist =>
    right
    refine ⟨_, _, pred, lt, head, rest.marked, rest.base, ?_, dist⟩
    linarith [(stepCost_isWhole (b := b) hg hcost lt).nonneg]

/-- The trail of a label of the designated root is a path from the root, that of any other a
path to its terminal, and the distance is the length of this path. -/
theorem Trail.measures (h : Trail g t b v l as) (hg : g.WellFormed) :
    if g.root = some b then
      g.IsMarkedPath b as.reverse v ∧ Network.pathLength g.costOf as.reverse = t.distOf v l
    else
      g.IsMarkedPath v (as.map Arc.rev) b ∧
        Network.pathLength g.costOf (as.map Arc.rev) = t.distOf v l := by
  rw [h.dist_eq]
  split
  · next hr =>
    have hstep : (fun a => stepCost g a b) = g.costOf := funext fun a => if_pos hr
    rw [hstep]
    refine ⟨h.path, ?_⟩
    rw [Network.pathLength, List.map_reverse, List.sum_reverse, Network.pathLength]
  · next hr =>
    have hstep : (fun a => stepCost g a b) = g.costOf ∘ Arc.rev := funext fun a => if_neg hr
    rw [hstep]
    refine ⟨h.path_back hg, ?_⟩
    rw [Network.pathLength, List.map_map, Network.pathLength]

/-- **Layers are well-formed and complete.**  Whatever the arcs cost, the layers of a marked
node are filled from its component, as many as there are layers or terminals.  Every label
leads back over the arcs to its terminal, and its distance is the length of the path: from
the designated root to the node, or from the node to any other terminal. -/
theorem compute_complete (hg : g.Built)
    (hcost : ∀ a, a < g.arcCount → Weight.IsWhole (g.costOf a))
    (hsum : Network.pathLength g.costOf (List.range g.arcCount) < Weight.faraway)
    (hL : 1 ≤ L) (hmax : L ≤ maxLayers) :
    (compute g L).areOrdered = true ∧
    (∀ v, g.isMarked v = true →
      (compute g L).filledOf v = min L {b | g.IsGoal b ∧ g.IsReachable v b}.ncard) ∧
    (∀ v l, l < (compute g L).filledOf v → ∃ b, (compute g L).baseOf v l = some b) ∧
    (∀ v l b, (compute g L).baseOf v l = some b →
      v = b ∧ l = 0 ∧ (compute g L).distOf v l = 0 ∧ (compute g L).predOf v l = none ∨
        ∃ a r, (compute g L).predOf v l = some a ∧ a < g.arcCount ∧ g.headOf a = v ∧
          g.isMarked (g.tailOf a) = true ∧ (compute g L).baseOf (g.tailOf a) r = some b ∧
          (compute g L).distOf (g.tailOf a) r ≤ (compute g L).distOf v l ∧
          (compute g L).distOf v l = (compute g L).distOf (g.tailOf a) r + stepCost g a b) ∧
    (∀ v l b, (compute g L).baseOf v l = some b → ∃ as, Trail g (compute g L) b v l as ∧
      if g.root = some b then
        g.IsMarkedPath b as.reverse v ∧
          Network.pathLength g.costOf as.reverse = (compute g L).distOf v l
      else
        g.IsMarkedPath v (as.map Arc.rev) b ∧
          Network.pathLength g.costOf (as.map Arc.rev) = (compute g L).distOf v l) ∧
    ∀ b, g.IsGoal b → (compute g L).baseOf b 0 = some b := by
  have hwf := hg.wellFormed
  obtain ⟨s, hcompute, hs, hlayers, hsize⟩ := compute_stemmed hwf hcost hL hmax
  have hlayered := hs.holds.layered
  rw [hcompute]
  refine ⟨?_, fun v hmark => ?_, fun v l hl => ?_, fun v l b hb => ?_, fun v l b hb => ?_,
    fun b hb => ?_⟩
  · exact areOrdered_of_ascending hlayered hs.ascending fun v hv hfull =>
      hs.queues.baseIn_openSlot hsize hv hfull
  · rw [hs.filledOf_eq hwf hcost hsum hsize hmark, hlayers]
  · obtain ⟨b, hb⟩ := hlayered.held v l hl
    exact ⟨b, (baseOf_of_lt hl).trans hb⟩
  · obtain ⟨as, has⟩ := hs.holds.trail v l b hb
    exact has.own_or_arrived hwf hcost
  · obtain ⟨as, has⟩ := hs.holds.trail v l b hb
    exact ⟨as, has, has.measures hwf⟩
  · have hpos := hs.filledOf_pos hsize (by omega) hb
    rw [baseOf_of_lt hpos, slot_zero, (hs.holds.seeded b hb).1]

/-- The designated root and another terminal, with an edge that costs more from the root. -/
theorem compute_complete_on_edge :
    let edge := ((Network.empty 2).pushArc 0 1 (5 : ℚ)).pushArc 1 0 2
    let g := { edge with kind := #[.proper, .pseudo], root := some 0 }
    (compute g 2).areOrdered = true ∧ ∀ v, g.isMarked v = true →
      (compute g 2).filledOf v = min 2 {b | g.IsGoal b ∧ g.IsReachable v b}.ncard := by
  intro edge g
  have hedge : (Network.empty 2).addArcPair 0 1 (5 : ℚ) 2 = .ok (0, edge) := rfl
  have hproper : edge.setTerminal 0 .proper =
      .ok { edge with kind := #[.proper, .steiner] } := rfl
  have hpseudo : { edge with kind := #[.proper, .steiner] }.setTerminal 1 .pseudo =
      .ok { edge with kind := #[.proper, .pseudo] } := rfl
  have hroot : { edge with kind := #[.proper, .pseudo] }.setRoot 0 = .ok g := rfl
  have hg : g.Built := ((((Network.Built.empty 2).addArcPair hedge).setTerminal hproper).setTerminal
    hpseudo).setRoot hroot
  have hcost : ∀ a, a < g.arcCount → Weight.IsWhole (g.costOf a) := by
    intro a ha
    change a < 2 at ha
    obtain rfl | rfl : a = 0 ∨ a = 1 := by omega
    · exact ⟨5, rfl⟩
    · exact ⟨2, rfl⟩
  have hsum : Network.pathLength g.costOf (List.range g.arcCount) < Weight.faraway := by
    change (5 : ℚ) + (2 + 0) < 1000000000000000
    norm_num
  obtain ⟨hordered, hfilled, -⟩ := compute_complete (L := 2) hg hcost hsum (by decide) (by decide)
  exact ⟨hordered, hfilled⟩

end TerminalLayers

end SteinerSearch
