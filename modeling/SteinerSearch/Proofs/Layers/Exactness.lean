import SteinerSearch.Proofs.Layers.Settling

/-!
# Filled layers rank the nearest terminals

When nothing waits any more, a node that is not full holds every terminal it can reach.
A full node holds terminals that are not further away than the others.  Either way its
layers are the beginning of a ranking.

Labels measure the way from a node to its terminal, except for the designated root.  The
theorem therefore asks that the root is not among the terminals that are searched from,
or that both arcs of every edge cost the same.

## Main definitions

* `TerminalLayers.heldBy t v` — the terminals and distances in the layers of `v`.

## Main results

* `TerminalLayers.compute_ends` — the search ends with nothing waiting.
* `TerminalLayers.compute_exact` — **layers hold the nearest terminals.**
-/

namespace SteinerSearch

namespace TerminalLayers

variable {g : Network ℚ} {s : State ℚ} {t : TerminalLayers ℚ} {v b L : Nat} {d : ℚ}

/-! ### Seeding -/

theorem sized_blank {n : Nat} : (blank n L : TerminalLayers ℚ).Sized :=
  ⟨Array.size_replicate, Array.size_replicate, Array.size_replicate⟩

theorem baseIn_blank {n x : Nat} : (blank n L : TerminalLayers ℚ).baseIn x = none :=
  Array.getD_replicate _ x none

theorem distIn_blank {n x : Nat} : (blank n L : TerminalLayers ℚ).distIn x = Weight.faraway :=
  Array.getD_replicate _ x _

theorem filledOf_blank {n : Nat} : (blank n L : TerminalLayers ℚ).filledOf v = 0 :=
  Array.getD_replicate _ v 0

theorem sound_blank : Sound g (blank g.nodeCount L) := by
  have hnone : ∀ {x b}, (blank g.nodeCount L : TerminalLayers ℚ).baseIn x ≠ some b := by
    intro x b h
    rw [baseIn_blank] at h
    cases h
  refine ⟨sized_blank, rfl, fun v => ?_, fun v l hl => ?_, fun v l _ _ => baseIn_blank,
    fun v l b _ h => absurd h hnone, fun v k l b _ _ h => absurd h hnone,
    fun x _ => distIn_blank, fun x => distIn_blank.le, fun x => ?_⟩
  · rw [filledOf_blank]
    exact Nat.zero_le _
  · rw [filledOf_blank] at hl
    exact absurd hl (Nat.not_lt_zero l)
  · rw [distIn_blank]
    exact Weight.isWhole_faraway

/-- The goals that were seeded have their own label, and there are no others. -/
structure Seeding (g : Network ℚ) (L : Nat) (done : List Nat) (s : State ℚ) : Prop where
  sound : Sound g s.labels
  queues : Queues s
  layers : s.labels.layers = L
  unfilled : ∀ v, s.labels.filledOf v = 0
  seeded : ∀ b ∈ done, s.labels.baseIn b = some b ∧ s.labels.distIn b = 0
  blank : ∀ b, b ∉ done → s.labels.baseIn b = none

theorem seeding_nil :
    Seeding g L [] ⟨.blank g.nodeCount L, NodeQueue.empty (L * g.nodeCount)⟩ := by
  have hsize : (NodeQueue.empty (L * g.nodeCount)).size = 0 := rfl
  have hstate := NodeQueue.stateOf_empty (L * g.nodeCount)
  refine ⟨sound_blank, ⟨?_, NodeQueue.capacity_empty _, NodeQueue.ordered_of_size hsize,
    fun x => ?_, fun v l _ hset => ?_⟩, rfl, fun v => filledOf_blank,
    fun b hb => absurd hb List.not_mem_nil, fun b _ => baseIn_blank⟩
  · exact NodeQueue.consistent_of_size hsize fun v => Or.inl (hstate v)
  · refine iff_of_false (NodeQueue.not_waits_of_size hsize x) ?_
    rintro ⟨v, -, -, -, hb⟩
    rw [baseIn_blank] at hb
    cases hb
  · rw [NodeQueue.isSettled_iff, hstate] at hset
    cases hset

theorem Seeding.seed {done : List Nat} (h : Seeding g L done s)
    (hcost : ∀ a, a < g.arcCount → Weight.IsWhole (g.costOf a)) (hL : 1 ≤ L) (hgoal : g.IsGoal b)
    (hb : b ∉ done) : Seeding g L (done ++ [b]) (seed s b) := by
  have hslot : s.labels.openSlot b = b := by
    rw [openSlot, h.unfilled, slot_zero]
  have hcand : Candidate g s.labels b b 0 := by
    refine ⟨?_, ?_, hgoal.2, hgoal, ?_, [], Network.isMarkedPath_nil.mpr rfl, rfl⟩
    · rw [h.sound.nodeCount]
      exact hgoal.lt_nodeCount
    · rw [h.unfilled, h.layers]
      exact hL
    · rw [not_holds_iff, h.unfilled]
      exact fun l hl => absurd hl (Nat.not_lt_zero l)
  have hlt : 0 < s.labels.distIn (s.labels.openSlot b) := by
    rw [hslot, h.sound.blank b (h.blank b hb), Weight.faraway_rat]
    norm_num
  have hsound := h.sound.setLabel hcand none hcost hlt
  have hlow : Lowered s.labels (s.labels.openSlot b) (s.labels.setLabel (s.labels.openSlot b) 0 b
      none) := lowered_setLabel h.sound.sized hcand.vacant.openSlot_lt hlt
  have hbase := hcand.vacant.baseIn_setLabel h.sound.sized 0 none
  have hdist := hcand.vacant.distIn_setLabel h.sound.sized 0 none
  obtain ⟨hqueues, -⟩ := h.queues.enqueue hcand.lt hcand.notFull hlow hsound.whole
    (by rw [hbase]; rfl)
  rw [hslot] at hsound hlow hbase hdist hqueues
  refine ⟨hsound, hqueues, h.layers, h.unfilled, fun c hc => ?_, fun c hc => ?_⟩
  · rcases List.mem_append.mp hc with hold | hnew
    · have hne : c ≠ b := fun heq => hb (heq ▸ hold)
      obtain ⟨hbc, hdc⟩ := h.seeded c hold
      exact ⟨(hlow.base_ne c hne).trans hbc, (hlow.dist_ne c hne).trans hdc⟩
    · rw [List.mem_singleton.mp hnew]
      exact ⟨hbase, hdist⟩
  · rw [List.mem_append, List.mem_singleton, not_or] at hc
    exact (hlow.base_ne c hc.2).trans (h.blank c hc.1)

/-- At the start of the search exactly the goals have a label, their own. -/
theorem seeding_start (hcost : ∀ a, a < g.arcCount → Weight.IsWhole (g.costOf a)) (hL : 1 ≤ L) :
    ∃ goals, (∀ b, b ∈ goals ↔ g.IsGoal b) ∧ Seeding g L goals (startOf g L) := by
  have hmem : ∀ b, b ∈ g.nodes.filter (fun v => g.isTerminal v && g.isMarked v) ↔ g.IsGoal b := by
    intro b
    simp only [Network.nodes, List.mem_filter, List.mem_range, Bool.and_eq_true]
    exact and_iff_right_of_imp Network.IsGoal.lt_nodeCount
  have hnodup : (g.nodes.filter fun v => g.isTerminal v && g.isMarked v).Nodup :=
    List.nodup_range.filter _
  refine ⟨_, hmem, foldl_ensures (f := TerminalLayers.seed) (J := Seeding g L) _
    (fun done b s hdone hs => ?_) seeding_nil⟩
  have hfresh := hdone.sublist.nodup hnodup
  rw [List.nodup_append] at hfresh
  exact hs.seed hcost hL ((hmem b).mp (mem_of_appended hdone)) fun hb =>
    hfresh.2.2 b hb b List.mem_cons_self rfl

/-- Before anything is filled, nothing is to be passed on. -/
theorem spreading_start {J : TerminalLayers ℚ → Prop}
    (hcost : ∀ a, a < g.arcCount → Weight.IsWhole (g.costOf a)) (hL : 1 ≤ L)
    (hJ : ∀ goals, (∀ b, b ∈ goals ↔ g.IsGoal b) → Seeding g L goals (startOf g L) →
      J (startOf g L).labels) :
    Spreading g J (fun _ _ => False) (startOf g L) ∧ (startOf g L).labels.layers = L := by
  obtain ⟨goals, hgoals, hseeding⟩ := seeding_start hcost hL
  have hnone : ∀ {v l}, ¬ l < (startOf g L).labels.filledOf v := by
    intro v l hl
    rw [hseeding.unfilled] at hl
    exact Nat.not_lt_zero l hl
  refine ⟨⟨hJ goals hgoals hseeding, hseeding.queues, ⟨?_, ?_⟩, ?_⟩, hseeding.layers⟩
  · exact fun v k l _ hl => absurd hl hnone
  · exact fun u k v hk => absurd hk hnone
  · exact fun a l _ hl => absurd hl hnone

/-! ### The run -/

/-- The search ends with nothing waiting. -/
theorem compute_ends (hg : Proper g) (hL : 1 ≤ L) (hmax : L ≤ maxLayers) :
    ∃ s, compute g L = s.labels ∧ Searching g (fun _ _ => False) s ∧ s.labels.layers = L ∧
      s.queue.size = 0 := by
  obtain ⟨hstart, hlayers⟩ := spreading_start (J := Valid g) hg.whole hL
    fun goals hgoals hseeding => by
      refine ⟨hseeding.sound, fun b hb => hseeding.seeded b ((hgoals b).mpr hb), fun v l hl => ?_⟩
      rw [hseeding.unfilled] at hl
      exact absurd hl (Nat.not_lt_zero l)
  obtain ⟨s, hcompute, hs, hlayers, hsize⟩ :=
    compute_spreads (closed_valid hg) hg.wellFormed hg.whole hstart hlayers hL hmax
  exact ⟨s, hcompute, hs.searching hg, hlayers, hsize⟩

/-! ### What the layers hold -/

/-- The terminals in the filled layers of `v`, with their distances. -/
def heldBy (t : TerminalLayers ℚ) (v : Nat) : List (Nat × ℚ) :=
  (List.range (t.filledOf v)).map fun l =>
    ((t.baseIn (t.slot l v)).getD 0, t.distIn (t.slot l v))

theorem length_heldBy : (t.heldBy v).length = t.filledOf v := by
  simp [heldBy]

theorem mem_heldBy (h : Sound g t) : (b, d) ∈ t.heldBy v ↔
    ∃ l, l < t.filledOf v ∧ t.baseIn (t.slot l v) = some b ∧ t.distIn (t.slot l v) = d := by
  simp only [heldBy, List.mem_map, List.mem_range, Prod.mk.injEq]
  refine exists_congr fun l => and_congr_right fun hl => and_congr_left fun _ => ?_
  obtain ⟨c, hc⟩ := h.held v l hl
  rw [hc, Option.getD_some, Option.some.injEq]

theorem getElem?_heldBy {l : Nat} (hl : l < t.filledOf v) (hb : t.baseIn (t.slot l v) = some b) :
    (t.heldBy v)[l]? = some (b, t.distIn (t.slot l v)) := by
  rw [heldBy, List.getElem?_map, List.getElem?_range hl, Option.map_some, hb, Option.getD_some]

theorem mem_bases_heldBy (h : Sound g t) : b ∈ (t.heldBy v).map Prod.fst ↔ t.holds v b = true := by
  rw [holds_iff, List.mem_map]
  constructor
  · rintro ⟨⟨c, d⟩, hmem, rfl⟩
    obtain ⟨l, hl, hc, -⟩ := (mem_heldBy h).mp hmem
    exact ⟨l, hl, hc⟩
  · rintro ⟨l, hl, hb⟩
    exact ⟨(b, _), (mem_heldBy h).mpr ⟨l, hl, hb, rfl⟩, rfl⟩

/-- The layers of a node do not decrease. -/
theorem Valid.le_of_lt (h : Valid g t) {k l : Nat} (hkl : k < l) (hl : l < t.filledOf v) :
    t.distIn (t.slot k v) ≤ t.distIn (t.slot l v) := by
  have hv := h.sound.sized.lt_nodeCount hl
  obtain ⟨b, hb⟩ := h.sound.held v l hl
  obtain ⟨-, hgoal, as, has, hlen⟩ := h.sound.path v l b hv hb
  rw [← hlen]
  exact h.nearest v k (hkl.trans hl) b hgoal
    (fun j hj hbj => h.sound.distinct v j l b hv (hj.trans hkl) hbj hb) as has

/-- The layers of a node are the beginning of a ranking. -/
theorem Valid.exists_isRanking (h : Valid g t) (v : Nat) :
    ∃ rest, g.IsRanking v (t.heldBy v ++ rest) := by
  refine Network.exists_isRanking_append ?_ ?_ (fun b d hmem => ?_)
    (fun b d hgoal hdist hnew x hx => ?_)
  · have hbases : ((t.heldBy v).map Prod.fst).map some = t.basesOf v := by
      simp only [heldBy, basesOf, List.map_map]
      refine List.map_congr_left fun l hl => ?_
      obtain ⟨b, hb⟩ := h.sound.held v l (List.mem_range.mp hl)
      simp [hb]
    refine List.Nodup.of_map some ?_
    rw [hbases]
    exact h.sound.layered.nodup_basesOf v
  · rw [heldBy, List.pairwise_map]
    refine List.pairwise_lt_range.imp_of_mem fun _ hl hkl => ?_
    exact h.le_of_lt hkl (List.mem_range.mp hl)
  · obtain ⟨l, hl, hb, rfl⟩ := (mem_heldBy h.sound).mp hmem
    have hv := h.sound.sized.lt_nodeCount hl
    obtain ⟨-, hgoal, as, has, hlen⟩ := h.sound.path v l b hv hb
    refine ⟨hgoal, ⟨v, by simp, as, has, hlen⟩, fun u hu cs hcs => ?_⟩
    rw [List.mem_singleton.mp hu] at hcs
    exact h.nearest v l hl b hgoal (fun k hk hbk => h.sound.distinct v k l b hv hk hbk hb) cs hcs
  · obtain ⟨u, hu, as, has, rfl⟩ := hdist.attained
    rw [List.mem_singleton.mp hu] at has
    obtain ⟨l, hl, -, hd⟩ := (mem_heldBy h.sound).mp (show (x.1, x.2) ∈ t.heldBy v from hx)
    rw [mem_bases_heldBy h.sound, Bool.not_eq_true, not_holds_iff] at hnew
    rw [← hd]
    exact h.nearest v l hl b hgoal (fun k hk => hnew k (hk.trans hl)) as has

/-- If nothing waits, a node that is not full holds all goals that it can reach. -/
theorem Searching.holds_of_isDistance (h : Searching g (fun _ _ => False) s) (hg : Proper g)
    (hreach : g.DistancesInReach g.costOf) (hsize : s.queue.size = 0)
    (hmark : g.isMarked v = true) (hfull : s.labels.filledOf v < s.labels.layers)
    (hgoal : g.IsGoal b) (hdist : g.IsDistance g.costOf [v] b d) : s.labels.holds v b = true := by
  by_contra hnew
  obtain ⟨u, hu, as, has, hlen⟩ := hdist.attained
  rw [List.mem_singleton.mp hu] at has
  have hfar : ∀ u, g.isMarked u = true → s.labels.filledOf u < s.labels.layers →
      Weight.faraway ≤ s.labels.distIn (s.labels.openSlot u) := by
    intro u hmark hfull
    have hlt : u < s.labels.nodeCount := by
      rw [h.valid.sound.nodeCount]
      exact Network.lt_nodeCount_of_isMarked hmark
    rw [h.valid.sound.blank _ (h.queues.baseIn_openSlot hsize hlt hfull)]
  have hle := h.valid.le_pathLength hg.whole (fun a l ha hl => h.offered a l ha hl not_false) hfar
    hmark hfull hgoal ((Bool.not_eq_true _).mp hnew) has
  rw [hlen] at hle
  exact absurd hle (not_le.mpr (hreach.lt_faraway hdist))

/-- If nothing waits, the layers of a node that is not full are a whole ranking. -/
theorem Searching.eq_nil_of_isRanking (h : Searching g (fun _ _ => False) s) (hg : Proper g)
    (hreach : g.DistancesInReach g.costOf) (hsize : s.queue.size = 0)
    (hmark : g.isMarked v = true) (hfull : s.labels.filledOf v < s.labels.layers)
    {rest : List (Nat × ℚ)} (hrank : g.IsRanking v (s.labels.heldBy v ++ rest)) : rest = [] := by
  cases rest with
  | nil => rfl
  | cons x rest =>
    -- a goal that comes after the layers would be held twice
    have hx : (x.1, x.2) ∈ s.labels.heldBy v ++ x :: rest := by simp
    obtain ⟨hgoal, hdist⟩ := (hrank.mem_iff x.1 x.2).mp hx
    have hheld := h.holds_of_isDistance hg hreach hsize hmark hfull hgoal hdist
    have hnodup := hrank.nodup
    rw [List.map_append, List.nodup_append] at hnodup
    exact absurd rfl (hnodup.2.2 x.1 ((mem_bases_heldBy h.valid.sound).mpr hheld) x.1 (by simp))

/-! ### Exactness -/

theorem proper_of_built (hg : g.Built) (hcost : ∀ a, a < g.arcCount → Weight.IsWhole (g.costOf a))
    (hroot : (∀ r, g.root = some r → ¬ g.IsGoal r) ∨
      ∀ a, a < g.arcCount → g.costOf (Arc.rev a) = g.costOf a) : Proper g := by
  refine ⟨hg.wellFormed, hcost, fun a b ha hgoal => ?_⟩
  unfold stepCost
  split
  · next hr =>
    rcases hroot with hroot | hsymm
    · exact absurd hgoal (hroot b hr)
    · exact (hsymm a ha).symm
  · rfl

/-- **Layers hold the nearest terminals.**  Unless the designated root is one of them and
edges are directed, the filled layers of a marked node are the first entries of a ranking
of the terminals that it can reach, as many as there are layers or terminals.  The ranking lists
all these terminals, and no other one has other distances.  The other layers and the unmarked
nodes hold none. -/
theorem compute_exact (hg : g.Built) (hcost : ∀ a, a < g.arcCount → Weight.IsWhole (g.costOf a))
    (hreach : g.DistancesInReach g.costOf)
    (hroot : (∀ r, g.root = some r → ¬ g.IsGoal r) ∨
      ∀ a, a < g.arcCount → g.costOf (Arc.rev a) = g.costOf a)
    (hL : 1 ≤ L) (hmax : L ≤ maxLayers) :
    (∀ v, g.isMarked v = true → ∃ near, g.IsRanking v near ∧
      (∀ b as, g.IsGoal b → g.IsMarkedPath v as b → ∃ d, (b, d) ∈ near) ∧
      (∀ near', g.IsRanking v near' → near'.map Prod.snd = near.map Prod.snd) ∧
      (compute g L).filledOf v = min L near.length ∧
      ∀ l, l < (compute g L).filledOf v → ∃ b, near[l]? = some (b, (compute g L).distOf v l) ∧
        (compute g L).baseOf v l = some b) ∧
    (∀ v l, v < g.nodeCount → (compute g L).filledOf v ≤ l → l < L →
      (compute g L).distOf v l = Weight.faraway ∧ (compute g L).baseOf v l = none) ∧
    ∀ v, g.isMarked v = false → (compute g L).filledOf v = 0 := by
  have hproper := proper_of_built hg hcost hroot
  obtain ⟨s, hcompute, hs, hlayers, hsize⟩ := compute_ends hproper hL hmax
  have hsound := hs.valid.sound
  rw [hcompute]
  refine ⟨fun v hmark => ?_, fun v l hv hl hlL => ?_, fun v hmark => ?_⟩
  · obtain ⟨rest, hrank⟩ := hs.valid.exists_isRanking v
    refine ⟨_, hrank, fun b as hb has => hrank.exists_mem hcost hb has,
      fun near' hnear' => hnear'.distances_eq hrank, ?_, fun l hl => ?_⟩
    · rw [List.length_append, length_heldBy]
      rcases Nat.lt_or_ge (s.labels.filledOf v) s.labels.layers with hlt | hge
      · rw [hs.eq_nil_of_isRanking hproper hreach hsize hmark hlt hrank, List.length_nil]
        omega
      · have hle := hsound.filled_le v
        omega
    · obtain ⟨b, hb⟩ := hsound.held v l hl
      refine ⟨b, ?_, ?_⟩
      · rw [List.getElem?_append_left (by rwa [length_heldBy]), getElem?_heldBy hl hb, distOf]
      · rw [baseOf, if_pos hl, hb]
  · have hv : v < s.labels.nodeCount := by rwa [hsound.nodeCount]
    have hnone : s.labels.baseIn (s.labels.slot l v) = none := by
      rcases Nat.lt_or_eq_of_le hl with hlt | rfl
      · exact hsound.above v l hv hlt
      · exact hs.queues.baseIn_openSlot hsize hv (by rwa [hlayers])
    refine ⟨hsound.blank _ hnone, ?_⟩
    rw [baseOf, if_neg (Nat.not_lt.mpr hl)]
  · by_contra hpos
    have hfilled := Nat.pos_of_ne_zero hpos
    obtain ⟨b, hb⟩ := hsound.held v 0 hfilled
    obtain ⟨hmark', -⟩ := hsound.path v 0 b (hsound.sized.lt_nodeCount hfilled) hb
    exact absurd hmark' (Bool.eq_false_iff.mp hmark)

/-- Two terminals at the ends of two edges with different costs each way. -/
theorem compute_exact_on_chain :
    let chain := (((Network.empty 3).pushArc 0 1 (5 : ℚ)).pushArc 1 0 2).pushArc 1 2 3
    let g := { chain.pushArc 2 1 7 with kind := #[.proper, .steiner, .pseudo] }
    ∀ v, g.isMarked v = true → ∃ near, g.IsRanking v near ∧
      (∀ b as, g.IsGoal b → g.IsMarkedPath v as b → ∃ d, (b, d) ∈ near) ∧
      (∀ near', g.IsRanking v near' → near'.map Prod.snd = near.map Prod.snd) ∧
      (compute g 2).filledOf v = min 2 near.length ∧
      ∀ l, l < (compute g 2).filledOf v → ∃ b, near[l]? = some (b, (compute g 2).distOf v l) ∧
        (compute g 2).baseOf v l = some b := by
  intro chain g
  have hone : (Network.empty 3).addArcPair 0 1 (5 : ℚ) 2 =
      .ok (0, ((Network.empty 3).pushArc 0 1 5).pushArc 1 0 2) := rfl
  have htwo : (((Network.empty 3).pushArc 0 1 (5 : ℚ)).pushArc 1 0 2).addArcPair 1 2 3 7 =
      .ok (1, chain.pushArc 2 1 7) := rfl
  have hproper : (chain.pushArc 2 1 7).setTerminal 0 .proper =
      .ok { chain.pushArc 2 1 7 with kind := #[.proper, .steiner, .steiner] } := rfl
  have hpseudo : { chain.pushArc 2 1 7 with
      kind := #[.proper, .steiner, .steiner] }.setTerminal 2 .pseudo = .ok g := rfl
  have hg : g.Built := ((((Network.Built.empty 3).addArcPair hone).addArcPair htwo).setTerminal
    hproper).setTerminal hpseudo
  have hcost : ∀ a, a < g.arcCount → Weight.IsWhole (g.costOf a) := by
    intro a ha
    change a < 4 at ha
    obtain rfl | rfl | rfl | rfl : a = 0 ∨ a = 1 ∨ a = 2 ∨ a = 3 := by omega
    · exact ⟨5, rfl⟩
    · exact ⟨2, rfl⟩
    · exact ⟨3, rfl⟩
    · exact ⟨7, rfl⟩
  have hreach : g.DistancesInReach g.costOf := by
    refine Network.distancesInReach_of_sum (fun a ha => (hcost a ha).nonneg) ?_
    change (5 : ℚ) + (2 + (3 + (7 + 0))) < 1000000000000000
    norm_num
  exact (compute_exact hg hcost hreach (Or.inl fun r hr => by cases hr) (by decide) (by decide)).1

end TerminalLayers

end SteinerSearch
