import SteinerSearch.Proofs.Reuse.Trees
import SteinerSearch.Proofs.Tree.Frontier

/-!
# Growths that stop for good

An optional terminal is judged when it is extracted, by a label that may fall later.  Then
it waits again and is judged again, and a growth that is cut off by the largest prize that
is left leaves only nodes that are farther away than any prize pays for.  So the last
judgement holds for the grown tree: nothing that is left out pays for its branch, and
growing the tree further adds nothing.

## Main definitions

* `Tree.Exhausted g cost t` — nothing outside the tree is worth a branch for itself.
* `Growth.Rests c t` — extensions leave the tree as it is.

## Main results

* `Growth.Frontier.exhausted` — a growth ends with an exhausted tree.
* `Growth.rests_of_exhausted` — an exhausted tree is not extended.
* `Growth.growth_exhausts` — so growths and extensions of trees stop for good.
-/

namespace SteinerSearch

/-- Nothing outside the tree is worth a branch for itself: no required terminal can be
reached, and the prize of an optional one is below its distance. -/
structure Tree.Exhausted (g : Network ℚ) (cost : Nat → ℚ) (t : Tree) : Prop where
  required : ∀ v ∈ g.markedRequired, t.contains v = false →
    ∀ d, ¬ g.IsDistance cost t.nodes v d
  optional : ∀ v, v < g.nodeCount → g.isPseudo v = true → g.isMarked v = true →
    t.contains v = false → ∀ d, g.IsDistance cost t.nodes v d → g.prizeOf v < d

namespace Growth

/-- Whatever workspace is used, extensions add no node to the tree and change no arc. -/
def Rests (c : Growth ℚ) (t : Tree) : Prop :=
  ∀ (rounds : Nat) (w : Workspace ℚ), w.Ready → c.network.nodeCount ≤ w.capacity →
    ∃ w', c.extend rounds t w = .ok (0, t, w')

variable {c : Growth ℚ} {s s' : State ℚ} {t : Tree} {v : Nat} {w w' : Workspace ℚ}

/-! ### The end of a growth -/

/-- When a growth is over, a marked node outside the tree at a distance `d` was declined, or
all that waits is farther away than any prize pays for. -/
theorem Frontier.declined_or_over (hc : Measured c)
    (hreach : c.network.DistancesInReach c.arcCost) (h : Frontier c (fun _ => False) s)
    (hend : c.settleNext s = .done () s') (hout : s.tree.contains v = false) {d : ℚ}
    (hd : c.network.IsDistance c.arcCost s.tree.nodes v d) :
    (∃ e, Declined c v e ∧ e ≤ d) ∨
      s.openRequired = 0 ∧ (c.rule = .required ∨ s.bound < d) := by
  obtain ⟨u, hu, as, hpath, hlen⟩ := hd.attained
  have hreaches := h.reaches hc (Tree.mem_nodes.mp hu) hpath
  rw [hlen] at hreaches
  -- a node with a label that does not wait was declined at its distance
  have hdeclined : s.space.distOf v ≤ d → ¬ s.space.queue.Waits v →
      ∃ e, Declined c v e ∧ e ≤ d := by
    intro hle hwaits
    refine ⟨s.space.distOf v, h.declined v ?_ hwaits hout, hle⟩
    by_contra hvisited
    rw [(h.blank v (Bool.eq_false_iff.mpr hvisited)).1] at hle
    exact absurd (hreach.lt_faraway hd) (not_lt.mpr hle)
  rcases (h.toSound.of_done hc hend).2 with hempty | ⟨top, hpeek, hover⟩
  · refine Or.inl (hdeclined (hreaches.resolve_right ?_) (hempty v))
    rintro ⟨x, hx, -⟩
    exact hempty x hx
  · rw [isOver, Bool.and_eq_true, beq_iff_eq, Bool.or_eq_true, decide_eq_true_eq] at hover
    -- nothing that waits is nearer than the top
    have hwaiting : (∃ x, s.space.queue.Waits x ∧ s.space.distOf x ≤ d) →
        c.rule = .required ∨ s.bound < d := by
      rintro ⟨x, hx, hle⟩
      refine hover.2.imp_right fun habove => ?_
      have htop := h.peekMin?_le hpeek hx
      have htol := Weight.tolerance_pos
      rw [Weight.above_rat] at habove
      linarith
    by_cases hwaits : s.space.queue.Waits v
    · refine Or.inr ⟨hover.1, hwaiting ?_⟩
      exact hreaches.elim (fun hle => ⟨v, hwaits, hle⟩) id
    · exact hreaches.elim (fun hle => Or.inl (hdeclined hle hwaits)) fun hx =>
        Or.inr ⟨hover.1, hwaiting hx⟩

/-- A growth in which optional terminals pay for themselves ends with an exhausted tree. -/
theorem Frontier.exhausted (hc : Measured c) (hrule : c.rule = .profitable .targetOnly)
    (hreach : c.network.DistancesInReach c.arcCost) (h : Frontier c (fun _ => False) s)
    (hend : c.settleNext s = .done () s') : s.tree.Exhausted c.network c.arcCost := by
  constructor
  · intro v hv hout d hd
    rcases h.declined_or_over hc hreach hend hout hd with ⟨e, hdeclined, -⟩ | ⟨hzero, -⟩
    · have hreq := (mem_markedRequired.mp hv).2.1
      rw [hdeclined.1] at hreq
      cases hreq
    · rw [h.count, openRequired, List.length_eq_zero_iff, List.filter_eq_nil_iff] at hzero
      have hin := hzero v hv
      rw [hout] at hin
      exact hin rfl
  · intro v hv hpseudo hmark hout d hd
    rcases h.declined_or_over hc hreach hend hout hd with ⟨e, hdeclined, hle⟩ | ⟨-, hbound⟩
    · exact (hdeclined.2 hrule hpseudo).trans_le hle
    · have hbound := hbound.resolve_left (by rw [hrule]; exact GrowthRule.noConfusion)
      rw [h.bound, prizeBound, hrule] at hbound
      refine lt_of_le_of_lt (Weight.le_largest ?_) hbound
      -- the prize is one of those that the bound was taken over
      refine List.mem_map_of_mem (List.mem_filter.mpr ⟨List.mem_range.mpr hv, ?_⟩)
      rw [hpseudo, hmark, hout]
      rfl

/-! ### Growing an exhausted tree -/

/-- In an exhausted tree no node that is extracted is worth connecting. -/
theorem Sound.not_worth (hc : Measured c) (hrule : c.rule = .profitable .targetOnly)
    (hprize : ∀ v, v < c.network.nodeCount → Weight.IsWhole (c.network.prizeOf v))
    (h : Sound c s) (hexhausted : s.tree.Exhausted c.network c.arcCost) {k : Nat}
    (hk : s.space.isVisited k = true) (hout : s.tree.contains k = false) :
    c.isWorth s.space s.tree k = false := by
  obtain ⟨vs, hbranch⟩ := h.branch k hk
  obtain ⟨u, as, hu, hpath, hlen, -⟩ := h.exists_path hbranch hk
  have hu := Tree.mem_nodes.mpr hu
  obtain ⟨d, hd⟩ := Network.exists_isDistance_of_mem (fun a ha => hc.isWhole ha) hu hpath
  have hle : d ≤ s.space.distOf k := (hd.least u hu as hpath).trans hlen
  have hmark := h.isMarked hk hout
  rw [isWorth, Bool.or_eq_false_iff]
  constructor
  · by_contra hreq
    rw [Bool.not_eq_false] at hreq
    exact hexhausted.required k (mem_markedRequired.mpr ⟨h.node k hk, hreq, hmark⟩) hout d hd
  · simp only [hrule, creditedPrize]
    rw [Bool.and_eq_false_imp]
    intro hpseudo
    have hlt := hexhausted.optional k (h.node k hk) hpseudo hmark hout d hd
    have hone := (hprize k (h.node k hk)).add_one_le (h.whole k) (hlt.trans_le hle)
    rw [← Bool.not_eq_true, Weight.atLeast_rat, Weight.tolerance_rat]
    linarith

/-- Growing an exhausted tree adds nothing to it. -/
theorem Sound.grow_exhausted (hc : Measured c) (hrule : c.rule = .profitable .targetOnly)
    (hprize : ∀ v, v < c.network.nodeCount → Weight.IsWhole (c.network.prizeOf v))
    (h : Sound c (c.initial t w)) (hexhausted : t.Exhausted c.network c.arcCost) :
    ∃ s, c.grow t w = .ok s ∧ s.tree = t ∧ s.added = 0 := by
  obtain ⟨s, hends, hrun, -⟩ := h.ends hc
  have hlast := hends.ensures (I := fun s => Sound c s ∧ s.tree = t ∧ s.added = 0)
    ⟨h, rfl, rfl⟩ ?_
  · obtain ⟨s₁, ⟨hs₁, htree, hadded⟩, hdone⟩ := hlast
    obtain ⟨rfl, -⟩ := hs₁.of_done hc hdone
    exact ⟨_, grow_eq hrun, htree, hadded⟩
  · rintro s s' ⟨hs, htree, hadded⟩ hstep
    have hmove := settleNext_cases c s
    rw [hstep] at hmove
    cases hmove with
    | joins hpop _ hout hworth =>
      obtain ⟨hsound, hk, -⟩ := hs.popMin? hpop
      have hnot := hsound.not_worth hc hrule hprize (htree ▸ hexhausted) hk hout
      exact absurd (hnot.symm.trans hworth) Bool.false_ne_true
    | expands hpop _ _ hexpand =>
      obtain ⟨hsound, hk, -⟩ := hs.popMin? hpop
      obtain ⟨s₂, hs₂, hsound₂, htree₂, hadded₂, -⟩ := hsound.expand_frame hc hk
      rw [hs₂, Progress.more.injEq] at hexpand
      exact hexpand ▸ ⟨hsound₂, htree₂.trans htree, hadded₂.trans hadded⟩

/-! ### Rounds -/

/-- A growth from the nodes of a tree answers, and leaves a workspace that is ready again. -/
theorem grow_ready (hc : Measured c) (hw : w.Ready) (hroom : c.network.nodeCount ≤ w.capacity)
    (ht : t.Sized c.network.nodeCount) {vs : List Nat} (hvs : ∀ v ∈ vs, t.contains v = true)
    {w₀ : Workspace ℚ} (hseed : vs.foldlM seed w = .ok w₀) (hgrow : c.grow t w₀ = .ok s) :
    s.space.Ready ∧ s.space.capacity = w.capacity := by
  have hrested := hw.rested hw (.refl w)
  have hnode : ∀ v ∈ vs, v < c.network.nodeCount := fun v hv =>
    ht.connected ▸ Tree.lt_size_of_contains (hvs v hv)
  have hseeded := (seeds_together hnode (.of_rested hrested hroom)).of_eq_ok hseed
  have hfinished : Finished c Weight.LooksFar (fun _ => True) w s s :=
    (grow_together hc.linked (fun _ _ => trivial) (fun a ha => (hc.cost a ha).imp' _ fun _ => id)
      Weight.looksFar_faraway hseeded (fun _ _ _ => trivial) ht.connected).of_eq_ok hgrow
  exact ⟨hfinished.space.clean.ready, hfinished.space.sameSize.capacity⟩

section Rounds

variable (hc : Measured c) (hrule : c.rule = .profitable .targetOnly)
  (hreach : c.network.DistancesInReach c.arcCost)

include hc hrule hreach

/-- One round ends with an exhausted tree. -/
theorem grow_exhausts (hw : w.Ready) (hroom : c.network.nodeCount ≤ w.capacity)
    (ht : t.Sized c.network.nodeCount) {vs : List Nat}
    (hvs : ∀ v, v ∈ vs ↔ t.contains v = true) :
    ∃ w₀ s, vs.foldlM seed w = .ok w₀ ∧ c.grow t w₀ = .ok s ∧
      s.tree.Exhausted c.network c.arcCost ∧ s.tree.Sized c.network.nodeCount ∧
      s.space.Ready ∧ s.space.capacity = w.capacity := by
  have hnode : ∀ v ∈ vs, v < w.capacity := fun v hv =>
    lt_of_lt_of_le (ht.connected ▸ Tree.lt_size_of_contains ((hvs v).mp hv)) hroom
  obtain ⟨w₀, hseed, hsources⟩ := seeds_ok hw hnode
  have hstart : Frontier c (fun _ => False) (c.initial t w₀) :=
    frontier_initial ht hroom hsources hvs
  obtain ⟨s, hends, hrun, -⟩ := hstart.toSound.ends hc
  obtain ⟨s₁, hs₁, hdone⟩ := hends.ensures hstart fun s s' hs => hs.settleNext hc
  obtain ⟨rfl, -⟩ := hs₁.toSound.of_done hc hdone
  have hgrow := grow_eq hrun
  have hexhausted : s.tree.Exhausted c.network c.arcCost := hs₁.exhausted hc hrule hreach hdone
  obtain ⟨hready, hcap⟩ := grow_ready hc hw hroom ht (fun v hv => (hvs v).mp hv) hseed hgrow
  exact ⟨w₀, _, hseed, hgrow, hexhausted, hs₁.treeSized, hready, hcap⟩

/-- Rounds of extensions end with an exhausted tree, if there is any. -/
theorem extendRounds_exhausts (rounds : Nat) :
    ∀ {t : Tree} {w : Workspace ℚ}, (rounds = 0 → t.Exhausted c.network c.arcCost) →
      t.Sized c.network.nodeCount → w.Ready → c.network.nodeCount ≤ w.capacity →
      ∃ added t' w', c.extendRounds rounds t w = .ok (added, t', w') ∧
        t'.Exhausted c.network c.arcCost ∧ t'.Sized c.network.nodeCount ∧ w'.Ready := by
  induction rounds with
  | zero => exact fun hexhausted ht hw _ => ⟨0, _, _, rfl, hexhausted rfl, ht, hw⟩
  | succ rounds ih =>
    intro t w _ ht hw hroom
    obtain ⟨w₀, s, hseed, hgrow, hexhausted, hsized, hready, hcap⟩ :=
      grow_exhausts hc hrule hreach hw hroom ht fun v => Tree.mem_nodes
    rw [extendRounds, hseed, ok_bind, hgrow, ok_bind]
    split
    · exact ⟨0, s.tree, s.space, rfl, hexhausted, hsized, hready⟩
    · obtain ⟨added, t', w', hmore, hrest⟩ :=
        ih (fun _ => hexhausted) hsized hready (hroom.trans_eq hcap.symm)
      rw [hmore]
      exact ⟨_, t', w', rfl, hrest⟩

omit hreach in
/-- An exhausted tree is not extended. -/
theorem rests_of_exhausted
    (hprize : ∀ v, v < c.network.nodeCount → Weight.IsWhole (c.network.prizeOf v))
    (ht : t.Sized c.network.nodeCount) (hexhausted : t.Exhausted c.network c.arcCost) :
    c.Rests t := by
  intro rounds w hw hroom
  unfold extend
  cases Nat.min rounds maxRounds with
  | zero => exact ⟨w, rfl⟩
  | succ rounds =>
    have hnode : ∀ v ∈ t.nodes, v < w.capacity := fun v hv =>
      lt_of_lt_of_le (ht.connected ▸ Tree.lt_size_of_contains (Tree.mem_nodes.mp hv)) hroom
    obtain ⟨w₀, hseed, hsources⟩ := seeds_ok hw hnode
    have hstart : Frontier c (fun _ => False) (c.initial t w₀) :=
      frontier_initial ht hroom hsources fun v => Tree.mem_nodes
    obtain ⟨s, hgrow, htree, hadded⟩ :=
      hstart.toSound.grow_exhausted hc hrule hprize hexhausted
    rw [extendRounds, hseed, ok_bind, hgrow, ok_bind, if_pos hadded, htree]
    exact ⟨s.space, rfl⟩

end Rounds

/-- **Nothing that pays for itself is left out.**  A growth from a start, and an extension of
any tree by at least one round, ends with a tree outside of which every marked optional
terminal has a prize below its distance from the tree, and every further extension leaves
that tree as it is. -/
theorem growth_exhausts (hrule : c.rule = .profitable .targetOnly) (hnet : c.network.Built)
    (hcost : ∀ a, a < c.network.arcCount → ∃ n : ℕ, c.costs a = some (n : ℚ))
    (hprize : ∀ v, v < c.network.nodeCount → ∃ n : ℕ, c.network.prizeOf v = n)
    (hreach : c.network.DistancesInReach c.arcCost) (hw : w.Ready)
    (hroom : c.network.nodeCount ≤ w.capacity) :
    (∀ start, start < c.network.nodeCount →
      ∃ outcome t w', c.growFrom start w = .ok (outcome, t, w') ∧ w'.Ready ∧
        t.Exhausted c.network c.arcCost ∧ c.Rests t) ∧
    ∀ rounds t, 1 ≤ rounds → t.Sized c.network.nodeCount →
      ∃ added t' w', c.extend rounds t w = .ok (added, t', w') ∧ w'.Ready ∧
        t'.Exhausted c.network c.arcCost ∧ c.Rests t' := by
  have hc : Measured c := ⟨hnet.wellFormed.toLinked, hcost⟩
  constructor
  · intro start hstart
    have hsized := Tree.sized_empty c.network.nodeCount
    have hnodes : ∀ v, v ∈ [start] ↔
        ((Tree.empty c.network.nodeCount).connect start none).contains v = true := by
      intro v
      rw [Tree.contains_connect hsized hstart]
      simp
    obtain ⟨w₀, s, hseed, hgrow, hexhausted, ht, hready, -⟩ :=
      grow_exhausts hc hrule hreach hw hroom hsized.connect hnodes
    have hone : [start].foldlM seed w = seed w start := by
      rw [List.foldlM_cons]
      exact bind_pure _
    rw [hone] at hseed
    refine ⟨.ofMissing s.openRequired, s.tree, s.space, ?_, hready, hexhausted,
      rests_of_exhausted hc hrule hprize ht hexhausted⟩
    rw [growFrom, checkNode, if_pos hstart, ok_bind, hseed, ok_bind, hgrow, ok_bind]
    rfl
  · intro rounds t hrounds ht
    have hpos : Nat.min rounds maxRounds ≠ 0 := by
      rw [maxRounds]
      change min rounds 2 ≠ 0
      omega
    obtain ⟨added, t', w', hextend, hexhausted, ht', hready⟩ :=
      extendRounds_exhausts hc hrule hreach (Nat.min rounds maxRounds)
        (fun hzero => absurd hzero hpos) ht hw hroom
    exact ⟨added, t', w', hextend, hready, hexhausted,
      rests_of_exhausted hc hrule hprize ht' hexhausted⟩

/-- From node 0 over an edge of length 3 to a terminal of prize 5, from which an edge of length
2 leads to one of prize 1. -/
theorem growth_exhausts_on_chain :
    let chain := (((Network.empty 3).pushArc 0 1 (3 : ℚ)).pushArc 1 0 3).pushArc 1 2 2
    let g := { chain.pushArc 2 1 2 with kind := #[.steiner, .pseudo, .pseudo], prize := #[0, 5, 1] }
    let c : Growth ℚ := ⟨g, .ofArray g.cost, .profitable .targetOnly⟩
    (∃ outcome t w, c.growFrom 0 (.fresh 3 0) = .ok (outcome, t, w) ∧
      t.Exhausted g c.arcCost ∧ c.Rests t) ∧
    ∃ added t w, c.extend 1 ((Tree.empty 3).connect 0 none) (.fresh 3 0) = .ok (added, t, w) ∧
      t.Exhausted g c.arcCost ∧ c.Rests t := by
  intro chain g c
  have hone : (Network.empty 3).addArcPair 0 1 (3 : ℚ) 3 =
      .ok (0, ((Network.empty 3).pushArc 0 1 3).pushArc 1 0 3) := rfl
  have htwo : (((Network.empty 3).pushArc 0 1 (3 : ℚ)).pushArc 1 0 3).addArcPair 1 2 2 2 =
      .ok (1, chain.pushArc 2 1 2) := rfl
  have hkind₁ : (chain.pushArc 2 1 2).setTerminal 1 .pseudo =
      .ok { chain.pushArc 2 1 2 with kind := #[.steiner, .pseudo, .steiner] } := rfl
  have hkind₂ : { chain.pushArc 2 1 2 with
      kind := #[.steiner, .pseudo, .steiner] }.setTerminal 2 .pseudo =
      .ok { chain.pushArc 2 1 2 with kind := #[.steiner, .pseudo, .pseudo] } := rfl
  have hprize₁ : { chain.pushArc 2 1 2 with
      kind := #[.steiner, .pseudo, .pseudo] }.setPrize 1 5 =
      .ok { chain.pushArc 2 1 2 with
        kind := #[.steiner, .pseudo, .pseudo], prize := #[0, 5, 0] } := rfl
  have hprize₂ : { chain.pushArc 2 1 2 with
      kind := #[.steiner, .pseudo, .pseudo], prize := #[0, 5, 0] }.setPrize 2 1 = .ok g := rfl
  have hbuilt : c.network.Built :=
    ((((((Network.Built.empty 3).addArcPair hone).addArcPair htwo).setTerminal hkind₁).setTerminal
      hkind₂).setPrize hprize₁).setPrize hprize₂
  have hcost : ∀ a, a < c.network.arcCount → ∃ n : ℕ, c.costs a = some (n : ℚ) := by
    intro a ha
    change a < 4 at ha
    obtain rfl | rfl | rfl | rfl : a = 0 ∨ a = 1 ∨ a = 2 ∨ a = 3 := by omega
    · exact ⟨3, rfl⟩
    · exact ⟨3, rfl⟩
    · exact ⟨2, rfl⟩
    · exact ⟨2, rfl⟩
  have hprize : ∀ v, v < c.network.nodeCount → ∃ n : ℕ, c.network.prizeOf v = n := by
    intro v hv
    change v < 3 at hv
    obtain rfl | rfl | rfl : v = 0 ∨ v = 1 ∨ v = 2 := by omega
    · exact ⟨0, rfl⟩
    · exact ⟨5, rfl⟩
    · exact ⟨1, rfl⟩
  have hreach : c.network.DistancesInReach c.arcCost := by
    refine Network.distancesInReach_of_sum (fun a ha => ?_) ?_
    · obtain ⟨n, hn⟩ := hcost a ha
      rw [arcCost, hn, Option.getD_some]
      exact Nat.cast_nonneg n
    · change (3 : ℚ) + (3 + (2 + (2 + 0))) < 1000000000000000
      norm_num
  obtain ⟨hgrow, hextend⟩ := growth_exhausts rfl hbuilt hcost hprize hreach
    (Workspace.fresh_ready 3 0) (by decide)
  obtain ⟨outcome, t, w, hrun, -, hexhausted, hrests⟩ := hgrow 0 (by decide)
  obtain ⟨added, t', w', hrun', -, hexhausted', hrests'⟩ :=
    hextend 1 ((Tree.empty 3).connect 0 none) le_rfl (Tree.sized_empty 3).connect
  exact ⟨⟨outcome, t, w, hrun, hexhausted, hrests⟩, added, t', w', hrun', hexhausted', hrests'⟩

end Growth

end SteinerSearch
