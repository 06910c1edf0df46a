import SteinerSearch.Proofs.Network.Paths
import SteinerSearch.Proofs.Tree.Branches

/-!
# The invariant of a growing tree

A growth re-opens settled nodes and sets the distances of a branch to zero in the middle
of the search, so a label is no path length.  What remains true of it is an inequality: a
node is no nearer than the tail of its arc allows.  So a better label of a node is never
given over a path that passes through the node, and labels always lead back to the tree.

## Main definitions

* `Growth.Measured c` — the network is linked, and the costs are natural numbers.
* `Growth.Sound c s` — what holds at every moment of a growth.

## Main results

* `Growth.Sound.relabel`, `Growth.Sound.join`, `Growth.Sound.popMin?` — the three ways a
  growth changes its state keep the invariant.
* `Growth.Sound.openRequired_pos` — a required node that is to join was counted as open.
-/

namespace SteinerSearch

namespace Growth

/-- The cost of an arc that has one. -/
def arcCost (c : Growth ℚ) (a : Nat) : ℚ := (c.costs a).getD 0

/-- The network is linked, and the costs are natural numbers. -/
structure Measured (c : Growth ℚ) : Prop where
  linked : c.network.Linked
  cost : ∀ a, a < c.network.arcCount → ∃ n : ℕ, c.costs a = some (n : ℚ)

variable {c : Growth ℚ} {s : State ℚ}

theorem Measured.isWhole (hc : Measured c) {a : Nat} (ha : a < c.network.arcCount) :
    Weight.IsWhole (c.arcCost a) := by
  obtain ⟨n, hn⟩ := hc.cost a ha
  exact ⟨n, by rw [arcCost, hn, Option.getD_some]⟩

theorem Measured.nonneg (hc : Measured c) {a : Nat} (ha : a < c.network.arcCount) :
    0 ≤ c.arcCost a :=
  (hc.isWhole ha).nonneg

theorem Measured.costs_eq (hc : Measured c) {a : Nat} (ha : a < c.network.arcCount) :
    c.costs a = some (c.arcCost a) := by
  obtain ⟨n, hn⟩ := hc.cost a ha
  rw [arcCost, hn, Option.getD_some]

theorem Measured.arcCost_eq (hc : Measured c) {a : Nat} (ha : a < c.network.arcCount) :
    Tree.arcCost c.costs a = .ok (c.arcCost a) := by
  rw [Tree.arcCost, hc.costs_eq ha]

/-- The label of `v` is one over an arc into `v`, and no less than the label of its tail
allows. -/
def Entered (c : Growth ℚ) (w : Workspace ℚ) (v : Nat) : Prop :=
  ∃ a, w.predOf v = some a ∧ a < c.network.arcCount ∧ c.network.headOf a = v ∧
    c.network.isMarked v = true ∧ w.isVisited (c.network.tailOf a) = true ∧
    w.distOf (c.network.tailOf a) + c.arcCost a ≤ w.distOf v

/-- What holds at every moment of a growth. -/
structure Sound (c : Growth ℚ) (s : State ℚ) : Prop where
  sized : s.space.Sized
  room : c.network.nodeCount ≤ s.space.capacity
  treeSized : s.tree.Sized c.network.nodeCount
  consistent : s.space.queue.Consistent
  whole : ∀ v, Weight.IsWhole (s.space.distOf v)
  /-- No distance is beyond the one that stands for unreached nodes. -/
  near : ∀ v, s.space.distOf v ≤ Weight.faraway
  /-- Nodes without a label are blank. -/
  blank : ∀ v, s.space.isVisited v = false →
    s.space.distOf v = Weight.faraway ∧ ¬ s.space.queue.Waits v ∧ s.tree.contains v = false
  /-- Only nodes of the network get a label. -/
  node : ∀ v, s.space.isVisited v = true → v < c.network.nodeCount
  /-- The nodes of the tree have distance zero. -/
  joined : ∀ v, s.tree.contains v = true → s.space.distOf v = 0
  /-- Other labels are over arcs. -/
  entered : ∀ v, s.space.isVisited v = true → s.tree.contains v = false → Entered c s.space v
  /-- Labels lead back to the tree. -/
  branch : ∀ v, s.space.isVisited v = true → ∃ vs, Branch c.network s v vs
  /-- The marked required terminals outside the tree are counted. -/
  count : s.openRequired = openRequired c.network s.tree

theorem Sound.isVisited_of_waits (h : Sound c s) {v : Nat} (hv : s.space.queue.Waits v) :
    s.space.isVisited v = true := by
  by_contra hnot
  exact (h.blank v (Bool.eq_false_iff.mpr hnot)).2.1 hv

theorem Sound.lt_capacity (h : Sound c s) {v : Nat} (hv : s.space.isVisited v = true) :
    v < s.space.capacity :=
  lt_of_lt_of_le (h.node v hv) h.room

/-- A branch passes through labeled nodes only. -/
theorem Sound.isVisited_of_branch (h : Sound c s) {v : Nat} {vs : List Nat}
    (hbranch : Branch c.network s v vs) (hv : s.space.isVisited v = true) :
    ∀ u ∈ vs, s.space.isVisited u = true := by
  induction vs generalizing v with
  | nil => exact fun u hu => absurd hu List.not_mem_nil
  | cons x vs ih =>
    cases hbranch with
    | cons hopen hnext hrest =>
      obtain ⟨a, hpred, -, -, -, htail, -⟩ := h.entered x hv (Bool.eq_false_iff.mpr hopen)
      rw [hpred] at hnext
      obtain rfl := Option.some.inj hnext
      intro u hu
      rcases List.mem_cons.mp hu with rfl | hu
      · exact hv
      · exact ih hrest htail u hu

/-! ### Counting open terminals -/

theorem nodup_markedRequired (g : Network ℚ) : g.markedRequired.Nodup :=
  List.nodup_range.filter _

/-- One more node in the tree is one open terminal less, if it was one. -/
theorem openRequired_connect {g : Network ℚ} {t : Tree} (ht : t.Sized g.nodeCount) {v : Nat}
    (hv : v < g.nodeCount) (hopen : t.contains v = false) (p : Option Nat) :
    openRequired g t =
      openRequired g (t.connect v p) + if v ∈ g.markedRequired then 1 else 0 := by
  unfold openRequired
  rw [← List.countP_eq_length_filter, ← List.countP_eq_length_filter]
  refine NodeQueue.countP_eq_add_of_single (v := v) ?_ ?_ (fun u hu => ?_)
    (nodup_markedRequired g)
  · rw [hopen]
    rfl
  · rw [Tree.contains_connect_self ht hv]
    rfl
  · rw [Tree.contains_connect_of_ne hu]

theorem mem_markedRequired {g : Network ℚ} {v : Nat} :
    v ∈ g.markedRequired ↔ v < g.nodeCount ∧ g.isRequired v = true ∧ g.isMarked v = true := by
  simp [Network.markedRequired, Network.nodes]

/-- A labeled node outside the tree is marked. -/
theorem Sound.isMarked (h : Sound c s) {v : Nat} (hv : s.space.isVisited v = true)
    (hopen : s.tree.contains v = false) : c.network.isMarked v = true := by
  obtain ⟨a, -, -, -, hmark, -⟩ := h.entered v hv hopen
  exact hmark

/-- A required node that is to join was counted as open. -/
theorem Sound.openRequired_pos (h : Sound c s) {v : Nat} (hv : s.space.isVisited v = true)
    (hopen : s.tree.contains v = false) (hreq : c.network.isRequired v = true) :
    0 < s.openRequired := by
  have hmem : v ∈ c.network.markedRequired :=
    mem_markedRequired.mpr ⟨h.node v hv, hreq, h.isMarked hv hopen⟩
  rw [h.count, openRequired_connect h.treeSized (h.node v hv) hopen none, if_pos hmem]
  omega

/-! ### A better label -/

section Relabel

variable {a : Nat} {d : ℚ}

/-- The state in which the head of `a` has the label `d` over `a`, and waits. -/
def relabel (c : Growth ℚ) (a : Nat) (d : ℚ) (s : State ℚ) : State ℚ :=
  { s with space :=
      (s.space.setLabel (c.network.headOf a) d (some a)).reopen (c.network.headOf a) }

/-- What a growth finds when it labels the head of an arc anew. -/
structure Improves (c : Growth ℚ) (s : State ℚ) (a : Nat) (d : ℚ) : Prop where
  arc : a < c.network.arcCount
  marked : c.network.isMarked (c.network.headOf a) = true
  outside : s.tree.contains (c.network.headOf a) = false
  tail : s.space.isVisited (c.network.tailOf a) = true
  dist : d = s.space.distOf (c.network.tailOf a) + c.arcCost a
  lower : d < s.space.distOf (c.network.headOf a)

theorem Sound.reopened (hc : Measured c) (h : Sound c s) (ha : a < c.network.arcCount) :
    s.space.Reopened (c.network.headOf a) d (some a) (relabel c a d s).space :=
  Workspace.reopened_setLabel h.sized h.consistent
    (lt_of_lt_of_le (hc.linked.head_lt a ha) h.room)

theorem Sound.dist_relabel_le (hc : Measured c) (h : Sound c s) (hi : Improves c s a d)
    (u : Nat) : (relabel c a d s).space.distOf u ≤ s.space.distOf u := by
  have hr := h.reopened (d := d) hc hi.arc
  by_cases hu : u = c.network.headOf a
  · rw [hu, hr.dist_self]
    exact hi.lower.le
  · exact (hr.dist_ne u hu).le

theorem Sound.isWhole_of_improves (hc : Measured c) (h : Sound c s) (hi : Improves c s a d) :
    Weight.IsWhole d := by
  rw [hi.dist]
  exact (h.whole _).add (hc.isWhole hi.arc)

/-- A node nearer than the one that gets a label keeps its branch: every node on it is
nearer still. -/
theorem Sound.branch_of_lt (hc : Measured c) (h : Sound c s) (hi : Improves c s a d) {v : Nat}
    {vs : List Nat} (hbranch : Branch c.network s v vs) (hv : s.space.isVisited v = true)
    (hlt : s.space.distOf v < s.space.distOf (c.network.headOf a)) :
    Branch c.network (relabel c a d s) v vs := by
  have hr := h.reopened (d := d) hc hi.arc
  induction vs generalizing v with
  | nil =>
    cases hbranch with
    | stop hstop => exact .stop hstop
  | cons x vs ih =>
    cases hbranch with
    | cons hopen hnext hrest =>
      obtain ⟨b, hpred, hb, -, -, htail, hle⟩ := h.entered x hv (Bool.eq_false_iff.mpr hopen)
      have hne : x ≠ c.network.headOf a := by
        rintro rfl
        exact lt_irrefl _ hlt
      have hcost := hc.nonneg hb
      have hpred' : (relabel c a d s).space.predOf x = some b := (hr.pred_ne x hne).trans hpred
      rw [hpred] at hnext
      obtain rfl := Option.some.inj hnext
      -- the tail is no farther than `x`, since costs are not negative
      exact .cons hopen (congrArg _ hpred') (ih hrest htail (by linarith))

/-- The node that gets the label has a branch over the new arc. -/
theorem Sound.branch_head (hc : Measured c) (h : Sound c s) (hi : Improves c s a d) :
    ∃ vs, Branch c.network (relabel c a d s) (c.network.headOf a) vs := by
  have hr := h.reopened (d := d) hc hi.arc
  have hcost := hc.nonneg hi.arc
  have hlower := hi.lower
  rw [hi.dist] at hlower
  obtain ⟨vs, hvs⟩ := h.branch _ hi.tail
  refine ⟨c.network.headOf a :: vs, .cons ?_ (congrArg _ hr.pred_self)
    (h.branch_of_lt hc hi hvs hi.tail (by linarith))⟩
  exact Bool.eq_false_iff.mp hi.outside

/-- Whatever branch passes through the node that gets the label goes on over its new arc. -/
theorem Sound.branch_relabel (hc : Measured c) (h : Sound c s) (hi : Improves c s a d) {v : Nat}
    {vs : List Nat} (hbranch : Branch c.network s v vs) :
    ∃ us, Branch c.network (relabel c a d s) v us := by
  have hr := h.reopened (d := d) hc hi.arc
  induction vs generalizing v with
  | nil =>
    cases hbranch with
    | stop hstop => exact ⟨[], .stop hstop⟩
  | cons x vs ih =>
    cases hbranch with
    | cons hopen hnext hrest =>
      by_cases hx : x = c.network.headOf a
      · -- from here on the branch is another one
        rw [hx]
        exact h.branch_head hc hi
      · obtain ⟨us, hus⟩ := ih hrest
        have hpred : (relabel c a d s).space.predOf x = s.space.predOf x := hr.pred_ne x hx
        exact ⟨x :: us, .cons hopen ((congrArg _ hpred).trans hnext) hus⟩

theorem Sound.entered_relabel (hc : Measured c) (h : Sound c s) (hi : Improves c s a d) {v : Nat}
    (hv : (relabel c a d s).space.isVisited v = true) (hopen : s.tree.contains v = false) :
    Entered c (relabel c a d s).space v := by
  have hr := h.reopened (d := d) hc hi.arc
  by_cases hva : v = c.network.headOf a
  · refine ⟨a, by rw [hva, hr.pred_self], hi.arc, hva.symm, hva ▸ hi.marked,
      hr.visited_mono hi.tail, ?_⟩
    have hne := (hc.linked.head_ne_tail a hi.arc).symm
    rw [hva, hr.dist_self, hr.dist_ne _ hne, hi.dist]
  · rw [hr.visited_ne v hva] at hv
    obtain ⟨b, hpred, hb, hhead, hmark, htail, hle⟩ := h.entered v hv hopen
    refine ⟨b, by rw [hr.pred_ne v hva, hpred], hb, hhead, hmark, hr.visited_mono htail, ?_⟩
    rw [hr.dist_ne v hva]
    exact (add_le_add_left (h.dist_relabel_le hc hi _) _).trans hle

/-- A better label keeps the invariant. -/
theorem Sound.relabel (hc : Measured c) (h : Sound c s) (hi : Improves c s a d) :
    Sound c (relabel c a d s) := by
  have hr := h.reopened (d := d) hc hi.arc
  refine ⟨hr.sized, hr.capacity ▸ h.room, h.treeSized, hr.queued.consistent, fun v => ?_,
    fun v => (h.dist_relabel_le hc hi v).trans (h.near v), fun v hv => ?_, fun v hv => ?_,
    fun v hv => ?_, fun v hv hopen => h.entered_relabel hc hi hv hopen, fun v hv => ?_, h.count⟩
  · by_cases hva : v = c.network.headOf a
    · rw [hva, hr.dist_self]
      exact h.isWhole_of_improves hc hi
    · rw [hr.dist_ne v hva]
      exact h.whole v
  · obtain ⟨hva, hv⟩ := hr.of_not_visited hv
    obtain ⟨hdist, hwait, hopen⟩ := h.blank v hv
    refine ⟨(hr.dist_ne v hva).trans hdist, fun hw => ?_, hopen⟩
    exact ((hr.queued.waits v).mp hw).elim hwait hva
  · by_cases hva : v = c.network.headOf a
    · rw [hva]
      exact hc.linked.head_lt a hi.arc
    · exact h.node v ((hr.visited_ne v hva).symm.trans hv)
  · have hva : v ≠ c.network.headOf a := by
      rintro rfl
      exact Bool.false_ne_true (hi.outside.symm.trans hv)
    exact (hr.dist_ne v hva).trans (h.joined v hv)
  · by_cases hva : v = c.network.headOf a
    · rw [hva]
      exact h.branch_head hc hi
    · obtain ⟨vs, hvs⟩ := h.branch v ((hr.visited_ne v hva).symm.trans hv)
      exact h.branch_relabel hc hi hvs

end Relabel

/-! ### A node joins the tree -/

section Join

variable {v : Nat}

theorem Sound.reopened_join (h : Sound c s) (hv : s.space.isVisited v = true) :
    s.space.Reopened v 0 (s.space.predOf v) (join c.network v s).space :=
  Workspace.reopened_setDist h.sized h.consistent (h.lt_capacity hv) hv

theorem Sound.dist_join_le (h : Sound c s) (hv : s.space.isVisited v = true) (u : Nat) :
    (join c.network v s).space.distOf u ≤ s.space.distOf u := by
  have hr := h.reopened_join hv
  by_cases hu : u = v
  · rw [hu, hr.dist_self]
    exact (h.whole v).nonneg
  · exact (hr.dist_ne u hu).le

theorem Sound.contains_join (h : Sound c s) (hv : s.space.isVisited v = true) (u : Nat) :
    (join c.network v s).tree.contains u = true ↔ u = v ∨ s.tree.contains u = true :=
  Tree.contains_connect h.treeSized (h.node v hv)

theorem Sound.count_join (h : Sound c s) (hv : s.space.isVisited v = true)
    (hopen : s.tree.contains v = false) :
    (join c.network v s).openRequired = openRequired c.network (join c.network v s).tree := by
  have hcount := openRequired_connect h.treeSized (h.node v hv) hopen (s.space.predOf v)
  have hmem : v ∈ c.network.markedRequired ↔ c.network.isRequired v = true := by
    rw [mem_markedRequired]
    exact ⟨fun hm => hm.2.1, fun hreq => ⟨h.node v hv, hreq, h.isMarked hv hopen⟩⟩
  change (if c.network.isRequired v then s.openRequired - 1 else s.openRequired) = _
  rw [h.count, hcount]
  by_cases hreq : c.network.isRequired v = true
  · rw [if_pos hreq, if_pos (hmem.mpr hreq), Nat.add_sub_cancel]
    rfl
  · rw [if_neg hreq, if_neg (mt hmem.mp hreq), Nat.add_zero]
    rfl

/-- A branch that passed through the node that joins ends there now. -/
theorem Sound.branch_join (h : Sound c s) (hv : s.space.isVisited v = true) {u : Nat}
    {us : List Nat} (hbranch : Branch c.network s u us) :
    ∃ xs, Branch c.network (Growth.join c.network v s) u xs := by
  induction us generalizing u with
  | nil =>
    cases hbranch with
    | stop hstop => exact ⟨[], .stop (contains_join_mono hstop)⟩
  | cons x us ih =>
    cases hbranch with
    | cons hout hnext hrest =>
      by_cases hx : x = v
      · exact ⟨[], .stop ((h.contains_join hv x).mpr (Or.inl hx))⟩
      · obtain ⟨xs, hxs⟩ := ih hrest
        refine ⟨x :: xs, .cons ?_ hnext hxs⟩
        rwa [contains_join_of_ne hx]

/-- A node that joins keeps the invariant: it drops to distance zero, where it is no farther
than before as the tail of other labels. -/
theorem Sound.join (h : Sound c s) (hv : s.space.isVisited v = true)
    (hopen : s.tree.contains v = false) : Sound c (join c.network v s) := by
  have hr := h.reopened_join hv
  have hcontains := h.contains_join hv
  refine ⟨hr.sized, hr.capacity ▸ h.room, h.treeSized.connect, hr.queued.consistent,
    fun u => ?_, fun u => (h.dist_join_le hv u).trans (h.near u), fun u hu => ?_,
    fun u hu => h.node u hu, fun u hu => ?_, fun u hu hout => ?_, fun u hu => ?_,
    h.count_join hv hopen⟩
  · by_cases huv : u = v
    · rw [huv, hr.dist_self]
      exact Weight.isWhole_zero
    · rw [hr.dist_ne u huv]
      exact h.whole u
  · obtain ⟨huv, hu⟩ := hr.of_not_visited hu
    obtain ⟨hdist, hwait, hout⟩ := h.blank u hu
    refine ⟨(hr.dist_ne u huv).trans hdist, fun hw => ?_, ?_⟩
    · exact ((hr.queued.waits u).mp hw).elim hwait huv
    · rw [contains_join_of_ne huv, hout]
  · by_cases huv : u = v
    · rw [huv, hr.dist_self]
    · rw [hr.dist_ne u huv]
      exact h.joined u (((hcontains u).mp hu).resolve_left huv)
  · have huv : u ≠ v := by
      rintro rfl
      rw [(hcontains u).mpr (Or.inl rfl)] at hout
      cases hout
    rw [contains_join_of_ne huv] at hout
    obtain ⟨a, hpred, ha, hhead, hmark, htail, hle⟩ := h.entered u hu hout
    refine ⟨a, hpred, ha, hhead, hmark, htail, ?_⟩
    rw [hr.dist_ne u huv]
    exact (add_le_add_left (h.dist_join_le hv _) _).trans hle
  · obtain ⟨us, hus⟩ := h.branch u hu
    exact h.branch_join hv hus

end Join

/-! ### A node is extracted -/

/-- An extraction changes the queue and nothing else. -/
theorem Sound.popMin? (h : Sound c s) {k : Nat} {w : Workspace ℚ}
    (hpop : s.space.popMin? = some (k, w)) :
    Sound c { s with space := w } ∧ w.isVisited k = true ∧
      ∃ q, w = { s.space with queue := q } ∧ NodeQueue.Extracted s.space.queue k q := by
  obtain ⟨q, hq, rfl⟩ := Workspace.popMin?_eq_some hpop
  have hex := NodeQueue.extracted_popMin? h.consistent hq
  refine ⟨⟨h.sized.withQueue hex.capacity, h.room, h.treeSized, hex.consistent, h.whole, h.near,
    fun v hv => ?_, h.node, h.joined, h.entered, h.branch, h.count⟩,
    h.isVisited_of_waits hex.waited, q, rfl, hex⟩
  obtain ⟨hdist, hwait, hout⟩ := h.blank v hv
  exact ⟨hdist, fun hw => hwait ((hex.waits v).mp hw).1, hout⟩

end Growth

end SteinerSearch
