import SteinerSearch.Proofs.Traversal.Invariant

/-!
# Exactness of traversals

A traversal by path length over whole costs settles nodes at their distances, in
whatever way it ends.  The labels of nodes that still wait are lengths of real
paths.  If the queue ran empty, every node within the distance limit is labeled
with its distance, and no other node is labeled.

## Main definitions

* `Traversal.Scanning t sources k s₀ done s` — the scan of the arcs out of `k`, begun
  in `s₀`, is in state `s` after the arcs `done`.
* `Traversal.Running t sources n s` — the state between two extractions, with fuel for
  `n` more.
* `Traversal.Answered t sources o s` — the state at the end, with outcome `o`.

## Main results

* `Traversal.run_exact` — the labels of a traversal are exact.
-/

namespace SteinerSearch

/-- The labels of a path of at most `fuel` arcs are read off completely. -/
theorem Traversal.LabelPath.backwardArcs_eq {t : Traversal ℚ} {sources : List Nat}
    {w : Workspace ℚ} {as : List Nat} {v : Nat} (h : t.LabelPath sources w as v) :
    ∀ fuel, as.length ≤ fuel → backwardArcs t.network w fuel v = as.reverse := by
  induction h with
  | source _ hpred _ =>
    intro fuel _
    cases fuel with
    | zero => rfl
    | succ fuel => rw [backwardArcs, hpred, List.reverse_nil]
  | @arc as a v hpred _ _ _ _ _ _ ih =>
    intro fuel hlen
    rw [List.length_append, List.length_singleton] at hlen
    obtain ⟨fuel, rfl⟩ : ∃ n, fuel = n + 1 := ⟨fuel - 1, by omega⟩
    rw [backwardArcs, hpred, List.reverse_concat]
    exact congrArg (a :: ·) (ih fuel (by omega))

namespace Traversal

variable {t : Traversal ℚ} {sources : List Nat} {w w' : Workspace ℚ}

/-- Labels are path lengths over whole costs, in a network whose chains are sound. -/
structure MeasuresWhole (t : Traversal ℚ) : Prop where
  linked : t.network.Linked
  labeling : t.labeling = .pathLength
  cost : ∀ a, a < t.network.arcCount → ∃ n : ℕ, t.costs a = some (n : ℚ)

theorem MeasuresWhole.costs_eq (ht : MeasuresWhole t) {a : Nat} (ha : a < t.network.arcCount) :
    t.costs a = some (t.arcCost a) := by
  obtain ⟨n, hn⟩ := ht.cost a ha
  rw [arcCost_eq hn, hn]

theorem MeasuresWhole.isWhole (ht : MeasuresWhole t) {a : Nat} (ha : a < t.network.arcCount) :
    Weight.IsWhole (t.arcCost a) := by
  obtain ⟨n, hn⟩ := ht.cost a ha
  exact ⟨n, arcCost_eq hn⟩

/-! ### Scans -/

/-- The scan of the arcs out of `k`, begun in `s₀`, is in state `s` after the arcs
`done`. -/
structure Scanning (t : Traversal ℚ) (sources : List Nat) (k : Nat) (s₀ : State ℚ)
    (done : List Nat) (s : State ℚ) : Prop where
  sound : Sound t sources s.space
  /-- Nothing is settled during a scan. -/
  settled : ∀ v, s.space.isSettled v = s₀.space.isSettled v
  openTerminals : s.openTerminals = s₀.openTerminals
  /-- The node keeps its label. -/
  base : s.space.distOf k = s₀.space.distOf k
  /-- The arcs of other settled nodes and those done are used. -/
  used : ∀ a, a < t.network.arcCount → s.space.isSettled (t.network.tailOf a) = true →
    (t.network.tailOf a = k → a ∈ done) → Used t s.space a

/-- A label that got shorter leaves the arcs out of settled nodes used. -/
theorem Used.relabel {m a : Nat} {d : ℚ} {p : Option Nat} (hr : w.Relabeled m d p w')
    (hopen : w.isSettled m = false) (hle : d ≤ w.distOf m)
    (htail : w.isSettled (t.network.tailOf a) = true) (h : Used t w a) : Used t w' a := by
  have hdist : w'.distOf (t.network.headOf a) ≤ w.distOf (t.network.headOf a) := by
    by_cases hm : t.network.headOf a = m
    · rwa [hm, hr.dist_self]
    · rw [hr.dist_ne _ hm]
  intro hmark
  rw [hr.dist_ne _ (ne_of_isSettled hopen htail)]
  exact (h hmark).imp_left fun hused => hdist.trans hused

/-- A scan step that changes no label makes its arc used if it is. -/
theorem Scanning.skip {k a : Nat} {s₀ s s' : State ℚ} {done : List Nat}
    (h : Scanning t sources k s₀ done s) (hspace : s'.space = s.space)
    (hopen : s'.openTerminals = s.openTerminals) (ha : Used t s.space a) :
    Scanning t sources k s₀ (done ++ [a]) s' := by
  refine ⟨hspace ▸ h.sound, hspace ▸ h.settled, hopen.trans h.openTerminals, hspace ▸ h.base, ?_⟩
  rw [hspace]
  intro b hb htail hdone
  by_cases hba : b = a
  · rwa [hba]
  · refine h.used b hb htail fun hk => ?_
    rcases List.mem_append.mp (hdone hk) with hmem | hmem
    · exact hmem
    · exact absurd (List.mem_singleton.mp hmem) hba

/-- Relabeling the head of an arc with what the arc offers makes it used. -/
theorem Scanning.improve {k a : Nat} {s₀ s s' : State ℚ} {done : List Nat}
    (ht : MeasuresWhole t) (h : Scanning t sources k s₀ done s)
    (hk : s₀.space.isSettled k = true) (ha : a < t.network.arcCount)
    (htail : t.network.tailOf a = k) (hmark : t.network.isMarked (t.network.headOf a) = true)
    (hopen : s.space.isSettled (t.network.headOf a) = false) {d : ℚ}
    (hd : d = s₀.space.distOf k + t.arcCost a) (hlong : t.tooLong d = false)
    (hspace : s'.space = Traversal.improve (t.network.headOf a) d a s.space)
    (hterm : s'.openTerminals = s.openTerminals) :
    Scanning t sources k s₀ (done ++ [a]) s' := by
  have hks : s.space.isSettled k = true := (h.settled k).trans hk
  have hwhole : Weight.IsWhole d := by
    rw [hd, ← h.base]
    exact (h.sound.whole k).add (ht.isWhole ha)
  have hapart := hwhole.apart (h.sound.whole (t.network.headOf a))
  unfold Traversal.improve at hspace
  split at hspace
  · next hbelow =>
    rw [Weight.below_iff hapart] at hbelow
    have hm := ht.linked.head_lt a ha
    have hr := Workspace.relabeled_enqueue (d := d) (p := some a) h.sound.sized
      h.sound.consistent (lt_of_lt_of_le hm h.sound.room) hopen
    rw [← hspace] at hr
    have hkm := ne_of_isSettled hopen hks
    have hsound : Sound t sources s'.space := by
      rw [hspace]
      refine h.sound.relabel (List.Subset.refl _) hm hopen hwhole
        (lt_of_lt_of_le hbelow (h.sound.dist_le_faraway _)) hlong hbelow.le ?_
        (fun s hs => Or.inl hs) h.sound.exact
      refine Or.inr ⟨a, rfl, ha, rfl, hmark, ?_, ?_⟩ <;> rw [htail]
      · exact hks
      · rw [hd, h.base]
    refine ⟨hsound, fun v => (hr.settled v).trans (h.settled v), hterm.trans h.openTerminals,
      (hr.dist_ne k hkm).trans h.base, fun b hb hbt hdone => ?_⟩
    rw [hr.settled] at hbt
    by_cases hba : b = a
    · intro _
      left
      rw [hba, htail, hr.dist_self, hr.dist_ne k hkm, h.base, hd]
    · refine (h.used b hb hbt fun hbk => ?_).relabel hr hopen hbelow.le hbt
      rcases List.mem_append.mp (hdone hbk) with hmem | hmem
      · exact hmem
      · exact absurd (List.mem_singleton.mp hmem) hba
  · next hbelow =>
    rw [Weight.below_iff hapart, not_lt] at hbelow
    refine h.skip hspace hterm fun _ => Or.inl ?_
    rwa [htail, h.base, ← hd]

/-- The scan of one arc out of a settled node makes it used, or exceeds the budget. -/
theorem Scanning.scan {k a : Nat} {s₀ s : State ℚ} {done : List Nat} (ht : MeasuresWhole t)
    (h : Scanning t sources k s₀ done s) (hk : s₀.space.isSettled k = true)
    (ha : a < t.network.arcCount) (htail : t.network.tailOf a = k) :
    (∃ s', t.scan (s₀.space.distOf k) s a = .ok s' ∧
        Scanning t sources k s₀ (done ++ [a]) s') ∨
      ∃ s', t.scan (s₀.space.distOf k) s a = .error (.overBudget s') ∧
        Sound t sources s'.space := by
  have hks : s.space.isSettled k = true := (h.settled k).trans hk
  unfold Traversal.scan
  simp only [ht.costs_eq ha, ht.labeling, Labeling.extend]
  by_cases hmark : t.network.isMarked (t.network.headOf a) = true
  · cases hopen : s.space.isSettled (t.network.headOf a) with
    | true =>
      -- the head has its distance, and the arc leads to it
      refine Or.inl ⟨s, by simp [hmark], h.skip rfl rfl fun _ => Or.inl ?_⟩
      obtain ⟨src, hsrc, as, has, hlen⟩ := (h.sound.isDistance hks).attained
      rw [htail, ← hlen, ← Network.pathLength_concat]
      exact h.sound.exact _ hopen src hsrc _
        (Network.isMarkedPath_concat.mpr ⟨htail ▸ has, ha, rfl, hmark⟩)
    | false =>
      simp only [hmark, Bool.not_true, Bool.or_self, Bool.false_eq_true, if_false]
      split
      · exact Or.inr ⟨_, rfl, h.sound⟩
      · split
        · next hlong =>
          refine Or.inl ⟨_, rfl, h.skip rfl rfl fun _ => Or.inr ?_⟩
          rwa [htail, h.base]
        · next hlong =>
          rw [Bool.not_eq_true] at hlong
          exact Or.inl ⟨_, rfl, h.improve ht hk ha htail hmark hopen rfl hlong rfl rfl⟩
  · refine Or.inl ⟨s, by simp [hmark], h.skip rfl rfl fun hm => absurd hm hmark⟩

/-! ### Runs -/

/-- The number of marked required terminals that are not settled. -/
def openCount (t : Traversal ℚ) (w : Workspace ℚ) : Nat :=
  t.network.markedRequired.countP fun v => !w.isSettled v

/-- The state between two extractions, with fuel for `n` more. -/
structure Running (t : Traversal ℚ) (sources : List Nat) (n : Nat) (s : State ℚ) : Prop where
  closed : Closed t sources s.space
  /-- The fuel is enough for the nodes that are not settled, and one step more. -/
  fuel : t.network.nodeCount < n + s.space.queue.settledCount t.network.nodeCount
  /-- Terminals are counted if the end depends on them. -/
  openTerminals : t.limits.stopAt = some .allTerminals → s.openTerminals = openCount t s.space

/-- The state at the end, with outcome `o`. -/
structure Answered (t : Traversal ℚ) (sources : List Nat) (o : TraversalOutcome) (s : State ℚ) :
    Prop where
  sound : Sound t sources s.space
  exhausted : o = .exhausted → Closed t sources s.space ∧ ∀ v, ¬ s.space.queue.Waits v
  targetReached : o = .targetReached →
    ∃ v, t.limits.stopAt = some (.target v) ∧ s.space.isSettled v = true
  allTerminalsReached : o = .allTerminalsReached → openCount t s.space = 0

/-- What a scan over all arcs out of `k` leaves. -/
theorem Scanning.closed {k : Nat} {s₀ s : State ℚ} (ht : MeasuresWhole t)
    (h : Scanning t sources k s₀ (t.network.outArcs k) s) : Closed t sources s.space where
  toSound := h.sound
  used a ha htail := h.used a ha htail fun hk => ht.linked.mem_outArcs.mpr ⟨ha, hk⟩

theorem openCount_congr (h : ∀ v, w'.isSettled v = w.isSettled v) :
    openCount t w' = openCount t w := by
  unfold openCount
  simp only [h]

/-- The scan of the arcs of the node settled last brings the run to its next state. -/
theorem Scanning.expand {k n : Nat} {s : State ℚ} (ht : MeasuresWhole t)
    (h : Scanning t sources k s [] s) (hk : s.space.isSettled k = true)
    (hfuel : t.network.nodeCount < n + s.space.queue.settledCount t.network.nodeCount)
    (hterm : t.limits.stopAt = some .allTerminals → s.openTerminals = openCount t s.space) :
    (∃ s', t.expand k s = .more s' ∧ Running t sources n s') ∨
      ∃ o s', t.expand k s = .done o s' ∧ Answered t sources o s' := by
  unfold Traversal.expand
  rcases Progress.ofScan_ensures (J := Scanning t sources k s)
    (B := fun s' => Sound t sources s'.space) TraversalOutcome.overBudget (t.network.outArcs k)
    (fun done a s₁ ha hs₁ => by
      obtain ⟨ha, htail⟩ := ht.linked.mem_outArcs.mp ha
      exact hs₁.scan ht hk ha htail) h with ⟨s', hs', hJ⟩ | ⟨s', hs', hB⟩
  · refine Or.inl ⟨s', hs', hJ.closed ht, ?_, fun hstop => ?_⟩
    · rwa [NodeQueue.settledCount_congr hJ.settled]
    · rw [hJ.openTerminals, openCount_congr hJ.settled]
      exact hterm hstop
  · exact Or.inr ⟨_, s', hs', hB, by simp, by simp, by simp⟩

/-- Settling a marked required terminal leaves one less open. -/
theorem openCount_settle {k : Nat} (hopen : w.isSettled k = false)
    (hsettled : ∀ v, w'.isSettled v = true ↔ w.isSettled v = true ∨ v = k) :
    openCount t w = openCount t w' + if k ∈ t.network.markedRequired then 1 else 0 := by
  refine NodeQueue.countP_eq_add_of_single (v := k) (by simp [hopen]) ?_ (fun v hv => ?_)
    (List.nodup_range.filter _)
  · simp [(hsettled k).mpr (Or.inr rfl)]
  · have : w'.isSettled v = w.isSettled v := by
      rw [Bool.eq_iff_iff, hsettled v]
      simp [hv]
    rw [this]

theorem mem_markedRequired {α : Type} {g : Network α} {v : Nat} (hv : v < g.nodeCount) :
    v ∈ g.markedRequired ↔ g.isRequired v = true ∧ g.isMarked v = true := by
  simp [Network.markedRequired, Network.nodes, hv]

/-- One step of a run. -/
theorem Running.settleNext {n : Nat} {s : State ℚ} (ht : MeasuresWhole t)
    (h : Running t sources (n + 1) s) :
    (∃ s', t.settleNext s = .more s' ∧ Running t sources n s') ∨
      ∃ o s', t.settleNext s = .done o s' ∧ Answered t sources o s' := by
  unfold Traversal.settleNext
  cases hpop : s.space.popMin? with
  | none =>
    refine Or.inr ⟨_, s, rfl, h.closed.toSound, fun _ => ⟨h.closed, fun v => ?_⟩, by simp,
      by simp⟩
    exact NodeQueue.not_waits_of_size (Workspace.popMin?_eq_none_iff.mp hpop) v
  | some kw =>
    obtain ⟨k, w'⟩ := kw
    obtain ⟨hsound, hk, -, hdist, hsettled, hcount⟩ :=
      h.closed.popMin? (fun a ha => (ht.isWhole ha).nonneg) hpop
    have hks : w'.isSettled k = true := (hsettled k).mpr (Or.inr rfl)
    have hfuel : t.network.nodeCount < n + w'.queue.settledCount t.network.nodeCount := by
      have := h.fuel
      omega
    have hopen : s.space.isSettled k = false := (h.closed.toTidy.popMin? hpop).2.isOpen
    have hopenCount := openCount_settle (t := t) hopen hsettled
    have hmem := mem_markedRequired (g := t.network) hk
    -- the arcs of the other settled nodes were used before the extraction
    have hscan : ∀ terms, Scanning t sources k ⟨w', s.scanned, terms⟩ []
        ⟨w', s.scanned, terms⟩ := by
      refine fun terms => ⟨hsound, fun _ => rfl, rfl, rfl, fun a ha htail hne => ?_⟩
      rcases (hsettled _).mp htail with htail | htail
      · intro hmark
        rw [hdist, hdist]
        exact h.closed.used a ha htail hmark
      · exact absurd (hne htail) List.not_mem_nil
    simp only
    split
    · next htarget =>
      exact Or.inr ⟨_, _, rfl, hsound, by simp, fun _ => ⟨k, htarget, hks⟩, by simp⟩
    · rw [if_neg (by omega)]
      split
      · next hterm =>
        rw [if_pos (hmem.mpr hterm.2), ← h.openTerminals hterm.1] at hopenCount
        have hleft : s.openTerminals - 1 = openCount t w' := by omega
        split
        · next hzero => exact Or.inr ⟨_, _, rfl, hsound, by simp, by simp,
            fun _ => hleft.symm.trans hzero⟩
        · exact (hscan _).expand ht hks hfuel fun _ => hleft
      · next hterm =>
        refine (hscan _).expand ht hks hfuel fun hstop => ?_
        rw [h.openTerminals hstop, hopenCount, if_neg fun hk => hterm ⟨hstop, hmem.mp hk⟩,
          Nat.add_zero]

/-- A run ends by itself, before its fuel is used up, and with an answer. -/
theorem run_answers (ht : MeasuresWhole t)
    (hlimit : ∀ d, t.limits.maxDistance = some d → 0 ≤ d)
    (hsources : ∀ s ∈ sources, s < t.network.nodeCount) (hw : w.Ready)
    (hroom : t.network.nodeCount ≤ w.capacity) :
    ∃ outcome s, t.Ends sources w outcome s.space ∧ t.run sources w = .ok (outcome, s.space) ∧
      Answered t sources outcome s := by
  obtain ⟨w₁, hseed, -, hsound, hopen⟩ := seed_sources hw hroom hlimit hsources
  have hstart : Running t sources (w₁.capacity + 1)
      ⟨w₁, 0, t.network.markedRequired.length⟩ := by
    refine ⟨⟨hsound, fun a _ htail => ?_⟩, ?_, fun _ => ?_⟩
    · rw [hopen] at htail
      cases htail
    · have := hsound.room
      simp only
      omega
    · simp [openCount, hopen]
  -- without fuel more nodes would be settled than there are
  have hfuel : ∀ s, ¬ Running t sources 0 s := by
    intro s hs
    have hlt := hs.fuel
    have hle := s.space.queue.settledCount_le t.network.nodeCount
    omega
  obtain ⟨outcome, s, hends, hrun, hanswer⟩ := Progress.run_ends (e := TraversalOutcome.exhausted)
    (Q := Answered t sources) hfuel (fun n s hs => hs.settleNext ht) _ _ hstart
  exact ⟨outcome, s, ⟨w₁, s, hseed, hends, rfl⟩, run_eq hseed hrun, hanswer⟩

/-! ### Exactness -/

/-- The labels of a labeled node are read off as a path of the length of its label.  Reading ends
in a source, where no label leads on, and not because it may go no further. -/
theorem Sound.pathArcs_eq (h : Sound t sources w) {v : Nat} (hv : w.isVisited v = true) :
    ∃ as, pathArcs t.network w v = .ok as ∧ as.length < t.network.nodeCount ∧
      (∃ s ∈ sources, w.predOf s = none ∧ t.network.IsMarkedPath s as v) ∧
      Network.pathLength t.arcCost as = w.distOf v := by
  obtain ⟨as, has, hlt⟩ := h.exists_labelPath hv
  obtain ⟨s, hs, hpred, hpath, hlen⟩ := has.isMarkedPath
  refine ⟨as, ?_, hlt, ⟨s, hs, hpred, hpath⟩, hlen⟩
  unfold pathArcs
  rw [checkNode, if_pos (lt_of_lt_of_le (h.labeled v hv).1 h.room),
    has.backwardArcs_eq _ hlt.le]
  exact congrArg Except.ok as.reverse_reverse

/-- No label is shorter than the distance. -/
theorem Sound.le_dist (h : Sound t sources w) {v : Nat} (hv : w.isVisited v = true) {d : ℚ}
    (hd : t.network.IsDistance t.arcCost sources v d) : d ≤ w.distOf v := by
  obtain ⟨as, has, -⟩ := h.path v hv
  obtain ⟨s, hs, -, hpath, hlen⟩ := has.isMarkedPath
  rw [← hlen]
  exact hd.least s hs as hpath

/-- If nothing waits, a node that is not settled is far away or at no distance within the
limit. -/
theorem Closed.far_or_tooLong (h : Closed t sources w) (hempty : ∀ v, ¬ w.queue.Waits v)
    (hcost : ∀ a, a < t.network.arcCount → 0 ≤ t.arcCost a) {v : Nat} (hv : w.isSettled v = false)
    {d : ℚ} (hd : t.network.IsDistance t.arcCost sources v d) :
    Weight.faraway ≤ d ∨ t.tooLong d = true := by
  obtain ⟨s, hs, as, has, rfl⟩ := hd.attained
  exact h.le_of_path hcost le_rfl (fun u hu => absurd hu (hempty u)) hs has hv

/-- If distances are in reach, only the limit is left as a reason. -/
theorem Closed.tooLong_of_open (h : Closed t sources w) (hempty : ∀ v, ¬ w.queue.Waits v)
    (hcost : ∀ a, a < t.network.arcCount → 0 ≤ t.arcCost a)
    (hreach : t.network.DistancesInReach t.arcCost) {v : Nat} (hv : w.isSettled v = false) {d : ℚ}
    (hd : t.network.IsDistance t.arcCost sources v d) : t.tooLong d = true :=
  (h.far_or_tooLong hempty hcost hv hd).resolve_left (not_le.mpr (hreach.lt_faraway hd))

/-- **The labels of a traversal are exact.**  A traversal by path length over whole costs
ends by itself.  In whatever way it does, settled nodes are labeled with their distance
from the sources, and every labeled node with the length of the path that its labels
spell out.  The labels lead back to a source, which has no label to follow, over fewer arcs
than there are nodes.  If the queue ran empty, the nodes within the distance limit have their
distance, and all others have no label. -/
theorem run_exact (hnet : t.network.Built) (hlabeling : t.labeling = .pathLength)
    (hcost : ∀ a, a < t.network.arcCount → ∃ n : ℕ, t.costs a = some (n : ℚ))
    (hreach : t.network.DistancesInReach t.arcCost)
    (hlimit : ∀ d, t.limits.maxDistance = some d → 0 ≤ d)
    (hsources : ∀ s ∈ sources, s < t.network.nodeCount) (hw : w.Ready)
    (hroom : t.network.nodeCount ≤ w.capacity) :
    ∃ outcome w', t.Ends sources w outcome w' ∧ t.run sources w = .ok (outcome, w') ∧
      (∀ v, w'.isSettled v = true → t.network.IsDistance t.arcCost sources v (w'.distOf v)) ∧
      (∀ v, w'.isVisited v = true → ∃ as, pathArcs t.network w' v = .ok as ∧
        as.length < t.network.nodeCount ∧
        (∃ s ∈ sources, w'.predOf s = none ∧ t.network.IsMarkedPath s as v) ∧
        Network.pathLength t.arcCost as = w'.distOf v ∧
        ∀ d, t.network.IsDistance t.arcCost sources v d → d ≤ w'.distOf v) ∧
      (∀ v, w'.isVisited v = false →
        w'.distOf v = Weight.faraway ∧ w'.queue.stateOf v = .unknown) ∧
      (outcome = .exhausted → ∀ v,
        (∀ d, t.network.IsDistance t.arcCost sources v d → t.tooLong d = false →
          w'.distOf v = d) ∧
        ((∀ d, t.network.IsDistance t.arcCost sources v d → t.tooLong d = true) →
          w'.distOf v = Weight.faraway)) ∧
      (outcome = .targetReached →
        ∃ v, t.limits.stopAt = some (.target v) ∧ w'.isSettled v = true) ∧
      (outcome = .allTerminalsReached →
        ∀ v ∈ t.network.markedRequired, w'.isSettled v = true) := by
  have ht : MeasuresWhole t := ⟨hnet.wellFormed.toLinked, hlabeling, hcost⟩
  obtain ⟨outcome, s, hends, hrun, hend⟩ := run_answers ht hlimit hsources hw hroom
  have hsound := hend.sound
  refine ⟨outcome, s.space, hends, hrun, fun v => hsound.isDistance, fun v hv => ?_,
    hsound.blank, fun hex v => ?_, hend.targetReached, fun hall v hv => ?_⟩
  · obtain ⟨as, has, hshort, hpath, hlen⟩ := hsound.pathArcs_eq hv
    exact ⟨as, has, hshort, hpath, hlen, fun d hd => hsound.le_dist hv hd⟩
  · obtain ⟨hclosed, hempty⟩ := hend.exhausted hex
    have hopen := fun d => hclosed.tooLong_of_open (d := d) hempty
      (fun a ha => (ht.isWhole ha).nonneg) hreach (v := v)
    cases hv : s.space.isSettled v with
    | true =>
      -- the label is the distance, and it was recorded within the limit
      have hdist := hsound.isDistance hv
      have hshort := (hsound.labeled v (hsound.isVisited_of_settled hv)).2.2.1
      refine ⟨fun d hd _ => hdist.unique hd, fun hlong => ?_⟩
      rw [hlong _ hdist] at hshort
      cases hshort
    | false =>
      refine ⟨fun d hd hshort => ?_, fun _ => ?_⟩
      · rw [hopen d hv hd] at hshort
        cases hshort
      · cases hvisited : s.space.isVisited v with
        | false => exact (hsound.blank v hvisited).1
        | true =>
          -- a labeled node would wait
          rcases (hsound.labeled v hvisited).2.2.2 with hwaits | hset
          · exact absurd hwaits (hempty v)
          · rw [hv] at hset
            cases hset
  · have hzero := List.countP_eq_zero.mp (hend.allTerminalsReached hall) v hv
    simpa using hzero

/-- Along edges of length 3 and 4 from node 0, with a limit that leaves out the far end, until node
1 is settled. -/
theorem run_exact_on_chain :
    let chain := (((Network.empty 3).pushArc 0 1 (3 : ℚ)).pushArc 1 0 3).pushArc 1 2 4
    let g := chain.pushArc 2 1 4
    let t : Traversal ℚ := ⟨g, .ofArray g.cost, .pathLength, ⟨none, some 5, some (.target 1)⟩⟩
    ∃ w', t.Ends [0] (.fresh 3 0) .targetReached w' ∧
      t.run [0] (.fresh 3 0) = .ok (.targetReached, w') ∧ w'.isSettled 1 = true ∧
      g.IsDistance t.arcCost [0] 1 (w'.distOf 1) ∧
      ∃ as, pathArcs g w' 1 = .ok as ∧ as.length < 3 ∧ w'.predOf 0 = none ∧
        g.IsMarkedPath 0 as 1 ∧ Network.pathLength t.arcCost as = w'.distOf 1 := by
  intro chain g t
  have hone : (Network.empty 3).addArcPair 0 1 (3 : ℚ) 3 =
      .ok (0, ((Network.empty 3).pushArc 0 1 3).pushArc 1 0 3) := rfl
  have htwo : (((Network.empty 3).pushArc 0 1 (3 : ℚ)).pushArc 1 0 3).addArcPair 1 2 4 4 =
      .ok (1, g) := rfl
  have hbuilt : t.network.Built := ((Network.Built.empty 3).addArcPair hone).addArcPair htwo
  have hcost : ∀ a, a < g.arcCount → ∃ n : ℕ, t.costs a = some (n : ℚ) := by
    intro a ha
    change a < 4 at ha
    obtain rfl | rfl | rfl | rfl : a = 0 ∨ a = 1 ∨ a = 2 ∨ a = 3 := by omega
    · exact ⟨3, rfl⟩
    · exact ⟨3, rfl⟩
    · exact ⟨4, rfl⟩
    · exact ⟨4, rfl⟩
  have hreach : g.DistancesInReach t.arcCost := by
    refine Network.distancesInReach_of_sum (fun a ha => ?_) ?_
    · obtain ⟨n, hn⟩ := hcost a ha
      rw [arcCost, hn, Option.getD_some]
      exact Nat.cast_nonneg n
    · change (3 : ℚ) + (3 + (4 + (4 + 0))) < 1000000000000000
      norm_num
  have hlimit : ∀ d, t.limits.maxDistance = some d → 0 ≤ d := by
    rintro d ⟨⟩
    norm_num
  have hsources : ∀ s ∈ [0], s < t.network.nodeCount := by decide
  obtain ⟨outcome, w', hends, hrun, hexact, hpaths, hblank, -, htarget, -⟩ :=
    run_exact hbuilt rfl hcost hreach hlimit hsources (Workspace.fresh_ready 3 0) (by decide)
  have houtcome : (t.run [0] (.fresh 3 0)).map Prod.fst = .ok .targetReached := by decide +kernel
  rw [hrun] at houtcome
  obtain rfl : outcome = .targetReached := Except.ok.inj houtcome
  obtain ⟨v, hv, hsettled⟩ := htarget rfl
  cases hv
  have hvisited : w'.isVisited 1 = true := by
    by_contra hnot
    have hunknown := (hblank 1 (Bool.eq_false_iff.mpr hnot)).2
    rw [NodeQueue.isSettled_iff.mp hsettled] at hunknown
    cases hunknown
  obtain ⟨as, has, hshort, ⟨s, hs, hpred, hpath⟩, hlen, -⟩ := hpaths 1 hvisited
  obtain rfl := List.mem_singleton.mp hs
  exact ⟨w', hends, hrun, hsettled, hexact 1 hsettled, as, has, hshort, hpred, hpath, hlen⟩

end Traversal

end SteinerSearch
