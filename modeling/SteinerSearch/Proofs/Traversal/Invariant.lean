import Mathlib.Data.List.Induction
import SteinerSearch.Proofs.Network.Paths
import SteinerSearch.Proofs.Stepping
import SteinerSearch.Proofs.Workspace
import SteinerSearch.Traversal

/-!
# The invariant of a traversal

At every moment of a traversal by path length, the labels are lengths of labeled
paths, and settled nodes have the length of a shortest one.  Between two
extractions every arc out of a settled node has been used, so that the nearest
waiting node is at its distance.

## Main definitions

* `Traversal.Tidy t w` — what holds of the tables, whatever labels measure.
* `Traversal.LabelPath t sources w as v` — the labels lead from a source over `as`
  to `v`.
* `Traversal.Sound t sources w` — what holds at every moment.
* `Traversal.Used t w a` — arc `a` has no better label to give.
* `Traversal.Closed t sources w` — what holds between two extractions.
* `Traversal.Ends t sources w o w'` — the traversal ends by itself, with the outcome `o`.

## Main results

* `Traversal.Tidy.relabel`, `Traversal.Tidy.popMin?` — a better label and an extraction leave the
  tables tidy.
* `Traversal.Closed.le_of_path` — nothing that is not settled is nearer than the
  nearest waiting node.
* `Traversal.Sound.relabel` — a better label keeps the invariant.
* `Traversal.Closed.popMin?` — an extraction settles a node at its distance.
-/

namespace SteinerSearch

namespace Traversal

variable {t : Traversal ℚ} {sources : List Nat} {w w' : Workspace ℚ}

/-- The cost of an arc that has one. -/
def arcCost (t : Traversal ℚ) (a : Nat) : ℚ := (t.costs a).getD 0

theorem arcCost_eq {a : Nat} {c : ℚ} (h : t.costs a = some c) : t.arcCost a = c := by
  rw [arcCost, h, Option.getD_some]

/-! ### Tidy tables -/

/-- What holds of the tables at every moment, whatever labels measure. -/
structure Tidy (t : Traversal ℚ) (w : Workspace ℚ) : Prop where
  sized : w.Sized
  room : t.network.nodeCount ≤ w.capacity
  consistent : w.queue.Consistent
  ordered : NodeQueue.Ordered w.distOf w.queue
  whole : ∀ v, Weight.IsWhole (w.distOf v)
  /-- Nodes without a label are blank. -/
  blank : ∀ v, w.isVisited v = false →
    w.distOf v = Weight.faraway ∧ w.queue.stateOf v = .unknown
  /-- A labeled node is a near node of the network, and waits or is settled. -/
  labeled : ∀ v, w.isVisited v = true → v < t.network.nodeCount ∧ w.distOf v < Weight.faraway ∧
    t.tooLong (w.distOf v) = false ∧ (w.queue.Waits v ∨ w.isSettled v = true)

theorem Tidy.isVisited_of_state (h : Tidy t w) {v : Nat} (hv : w.queue.stateOf v ≠ .unknown) :
    w.isVisited v = true := by
  by_contra hnot
  exact hv (h.blank v (Bool.eq_false_iff.mpr hnot)).2

theorem Tidy.isVisited_of_settled (h : Tidy t w) {v : Nat} (hv : w.isSettled v = true) :
    w.isVisited v = true := by
  refine h.isVisited_of_state ?_
  rw [NodeQueue.isSettled_iff.mp hv]
  exact fun h => NodeState.noConfusion h

theorem Tidy.isVisited_of_waits (h : Tidy t w) {v : Nat} (hv : w.queue.Waits v) :
    w.isVisited v = true := by
  obtain ⟨i, hi⟩ := h.consistent.waits_iff.mp hv
  refine h.isVisited_of_state ?_
  rw [hi]
  exact fun h => NodeState.noConfusion h

theorem Tidy.apart (h : Tidy t w) (u v : Nat) : Weight.Apart (w.distOf u) (w.distOf v) :=
  (h.whole u).apart (h.whole v)

theorem Tidy.dist_le_faraway (h : Tidy t w) (v : Nat) : w.distOf v ≤ Weight.faraway := by
  cases hv : w.isVisited v with
  | false => exact (h.blank v hv).1.le
  | true => exact (h.labeled v hv).2.1.le

/-- If nothing waits, a node that is not settled has no label. -/
theorem Tidy.isVisited_eq_false (h : Tidy t w) (hempty : ∀ v, ¬ w.queue.Waits v) {v : Nat}
    (hv : w.isSettled v = false) : w.isVisited v = false := by
  by_contra hvisited
  rcases (h.labeled v (Bool.eq_true_of_not_eq_false hvisited)).2.2.2 with hwaits | hset
  · exact hempty v hwaits
  · rw [hv] at hset
    cases hset

/-- A reset workspace is tidy. -/
theorem tidy_ready (hw : w.Ready) (hroom : t.network.nodeCount ≤ w.capacity) : Tidy t w where
  sized := hw.sized
  room := hroom
  consistent := hw.consistent
  ordered := NodeQueue.ordered_of_size hw.size_queue
  whole v := hw.distOf_eq v ▸ Weight.isWhole_faraway
  blank v _ := ⟨hw.distOf_eq v, hw.stateOf_eq v⟩
  labeled v hv := by
    rw [hw.isVisited_eq] at hv
    cases hv

/-- A label that is no longer than the old one leaves the tables tidy. -/
theorem Tidy.relabel {m : Nat} {d : ℚ} {p : Option Nat} (h : Tidy t w)
    (hr : w.Relabeled m d p w') (hm : m < t.network.nodeCount) (hopen : w.isSettled m = false)
    (hd : Weight.IsWhole d) (hfar : d < Weight.faraway) (hlong : t.tooLong d = false)
    (hle : d ≤ w.distOf m) : Tidy t w' := by
  have hmc : m < w.capacity := lt_of_lt_of_le hm h.room
  have hwhole : ∀ u, Weight.IsWhole (w'.distOf u) := fun u => by
    by_cases hu : u = m
    · rwa [hu, hr.dist_self]
    · rw [hr.dist_ne u hu]
      exact h.whole u
  refine ⟨hr.sized, hr.capacity ▸ h.room, hr.queued.consistent, ?_, hwhole, fun v hv => ?_,
    fun v hv => ?_⟩
  · rw [hr.queue]
    refine NodeQueue.ordered_insert h.consistent (by rwa [h.sized.queue])
      (Workspace.stateOf_ne_settled hopen) (fun u v _ _ => (hwhole u).apart (hwhole v)) hr.dist_ne
      (fun _ => ?_) h.ordered
    rwa [hr.dist_self]
  · have hvm : v ≠ m := by
      rintro rfl
      rw [hr.visited_self] at hv
      cases hv
    rw [hr.visited_ne v hvm] at hv
    obtain ⟨hdist, hunknown⟩ := h.blank v hv
    refine ⟨(hr.dist_ne v hvm).trans hdist, ?_⟩
    rw [hr.queued.frame v ?_ hvm, hunknown]
    intro hwaits
    rw [h.isVisited_of_waits hwaits] at hv
    cases hv
  · by_cases hvm : v = m
    · rw [hvm, hr.dist_self]
      exact ⟨hm, hfar, hlong, Or.inl ((hr.queued.waits m).mpr (Or.inr rfl))⟩
    · rw [hr.visited_ne v hvm] at hv
      obtain ⟨hn, hf, hl, hs⟩ := h.labeled v hv
      rw [hr.dist_ne v hvm, hr.settled v]
      exact ⟨hn, hf, hl, hs.imp_left fun hs => (hr.queued.waits v).mpr (Or.inl hs)⟩

/-- An extraction takes a nearest waiting node, and changes nothing but the queue. -/
structure Settles (t : Traversal ℚ) (w : Workspace ℚ) (k : Nat) (w' : Workspace ℚ) : Prop where
  lt_nodeCount : k < t.network.nodeCount
  waited : w.queue.Waits k
  isOpen : w.isSettled k = false
  least : ∀ u, w.queue.Waits u → w.distOf k ≤ w.distOf u
  capacity : w'.capacity = w.capacity
  dist : ∀ v, w'.distOf v = w.distOf v
  pred : ∀ v, w'.predOf v = w.predOf v
  visited : ∀ v, w'.isVisited v = w.isVisited v
  settled : ∀ v, w'.isSettled v = true ↔ w.isSettled v = true ∨ v = k
  count : w'.queue.settledCount t.network.nodeCount =
    w.queue.settledCount t.network.nodeCount + 1

/-- An extraction leaves the tables tidy. -/
theorem Tidy.popMin? (h : Tidy t w) {k : Nat} (hpop : w.popMin? = some (k, w')) :
    Tidy t w' ∧ Settles t w k w' := by
  obtain ⟨q, hq, rfl⟩ := Workspace.popMin?_eq_some hpop
  have hex := NodeQueue.extracted_popMin? h.consistent hq
  have hsettled := hex.isSettled_iff h.consistent
  have hk := (h.labeled k (h.isVisited_of_waits hex.waited)).1
  refine ⟨⟨h.sized.withQueue hex.capacity, h.room, hex.consistent,
    NodeQueue.ordered_popMin? h.consistent (fun _ _ _ _ => h.apart _ _) h.ordered hq, h.whole,
    fun v hv => ?_, fun v hv => ?_⟩, hk, hex.waited, ?_,
    fun u hu => NodeQueue.popMin?_le h.ordered hq hu, rfl, fun _ => rfl, fun _ => rfl, fun _ => rfl,
    hsettled, hex.settledCount_eq h.consistent hk⟩
  · obtain ⟨hdist, hstate⟩ := h.blank v hv
    refine ⟨hdist, (hex.frame v fun hw => ?_).trans hstate⟩
    exact Bool.eq_false_iff.mp hv (h.isVisited_of_waits hw)
  · obtain ⟨hn, hf, hl, hs⟩ := h.labeled v hv
    refine ⟨hn, hf, hl, ?_⟩
    by_cases hvk : v = k
    · exact Or.inr ((hsettled v).mpr (Or.inr hvk))
    · exact hs.imp (fun hw => (hex.waits v).mpr ⟨hw, hvk⟩) fun hs => (hsettled v).mpr (Or.inl hs)
  · exact Bool.eq_false_iff.mpr fun hs => h.consistent.not_waits_of_isSettled hs hex.waited

/-! ### Labeled paths -/

/-- The labels lead from a source over `as` to `v`.  Every node on the way is
settled. -/
inductive LabelPath (t : Traversal ℚ) (sources : List Nat) (w : Workspace ℚ) :
    List Nat → Nat → Prop
  /-- A source is labeled without an arc. -/
  | source {v : Nat} (hv : v ∈ sources) (hpred : w.predOf v = none) (hdist : w.distOf v = 0) :
      LabelPath t sources w [] v
  /-- Any other node is labeled over an arc out of a settled node. -/
  | arc {as : List Nat} {a v : Nat} (hpred : w.predOf v = some a) (ha : a < t.network.arcCount)
      (hhead : t.network.headOf a = v) (hmark : t.network.isMarked v = true)
      (htail : w.isSettled (t.network.tailOf a) = true)
      (hdist : w.distOf v = w.distOf (t.network.tailOf a) + t.arcCost a)
      (h : LabelPath t sources w as (t.network.tailOf a)) : LabelPath t sources w (as ++ [a]) v

/-- A labeled path starts in a source, which is labeled without an arc. -/
theorem LabelPath.isMarkedPath {as : List Nat} {v : Nat} (h : LabelPath t sources w as v) :
    ∃ s ∈ sources, w.predOf s = none ∧ t.network.IsMarkedPath s as v ∧
      Network.pathLength t.arcCost as = w.distOf v := by
  induction h with
  | source hv hpred hdist => exact ⟨_, hv, hpred, Network.isMarkedPath_nil.mpr rfl, hdist.symm⟩
  | arc _ ha hhead hmark _ hdist _ ih =>
    obtain ⟨s, hs, hpred, hpath, hlen⟩ := ih
    refine ⟨s, hs, hpred, Network.isMarkedPath_concat.mpr ⟨hpath, ha, hhead, hmark⟩, ?_⟩
    rw [Network.pathLength_concat, hlen, hdist]

/-- A labeled path depends on the labels of its end and of settled nodes only. -/
theorem LabelPath.congr {as : List Nat} {v : Nat} (h : LabelPath t sources w as v)
    (hlabel : ∀ u, u = v ∨ w.isSettled u = true →
      w'.predOf u = w.predOf u ∧ w'.distOf u = w.distOf u)
    (hset : ∀ u, w.isSettled u = true → w'.isSettled u = true) : LabelPath t sources w' as v := by
  induction h with
  | source hv hpred hdist =>
    obtain ⟨hp, hd⟩ := hlabel _ (Or.inl rfl)
    exact .source hv (hp.trans hpred) (hd.trans hdist)
  | arc hpred ha hhead hmark htail hdist h ih =>
    obtain ⟨hp, hd⟩ := hlabel _ (Or.inl rfl)
    have hdt := (hlabel _ (Or.inr htail)).2
    refine .arc (hp.trans hpred) ha hhead hmark (hset _ htail) (by rw [hd, hdt, hdist]) ?_
    refine ih fun u hu => hlabel u (Or.inr ?_)
    rcases hu with rfl | hu
    · exact htail
    · exact hu

/-- What holds at every moment of a traversal. -/
structure Sound (t : Traversal ℚ) (sources : List Nat) (w : Workspace ℚ) : Prop extends
    Tidy t w where
  /-- The label of a node is the length of a labeled path, which is no longer than the
  number of settled nodes allows. -/
  path : ∀ v, w.isVisited v = true → ∃ as, LabelPath t sources w as v ∧
    as.length ≤ w.queue.settledCount t.network.nodeCount ∧
    (w.isSettled v = true → as.length < w.queue.settledCount t.network.nodeCount)
  /-- Sources are labeled. -/
  source : ∀ s ∈ sources, w.isVisited s = true ∧ w.distOf s = 0
  /-- No path to a settled node is shorter than its label. -/
  exact : ∀ v, w.isSettled v = true → ∀ s ∈ sources, ∀ as, t.network.IsMarkedPath s as v →
    w.distOf v ≤ Network.pathLength t.arcCost as

/-- The label of a settled node is its distance. -/
theorem Sound.isDistance (h : Sound t sources w) {v : Nat} (hv : w.isSettled v = true) :
    t.network.IsDistance t.arcCost sources v (w.distOf v) := by
  obtain ⟨as, has, -⟩ := h.path v (h.isVisited_of_settled hv)
  obtain ⟨s, hs, -, hpath, hlen⟩ := has.isMarkedPath
  exact ⟨⟨s, hs, as, hpath, hlen⟩, h.exact v hv⟩

/-- There are fewer arcs on the labeled path of a node than nodes in the network. -/
theorem Sound.exists_labelPath (h : Sound t sources w) {v : Nat} (hv : w.isVisited v = true) :
    ∃ as, LabelPath t sources w as v ∧ as.length < t.network.nodeCount := by
  obtain ⟨as, has, hle, hlt⟩ := h.path v hv
  refine ⟨as, has, ?_⟩
  cases hsettled : w.isSettled v with
  | true => exact (hlt hsettled).trans_le (w.queue.settledCount_le t.network.nodeCount)
  | false =>
    -- the node is one of those that are not counted
    exact hle.trans_lt (NodeQueue.settledCount_lt (h.labeled v hv).1 hsettled)

/-! ### Limits -/

/-- A label that is too long stays so when it grows. -/
theorem tooLong_mono {d e : ℚ} (hde : d ≤ e) (h : t.tooLong d = true) : t.tooLong e = true := by
  unfold tooLong at h ⊢
  split at h
  · exact Weight.above_mono hde h
  · cases h

/-- A label that is not too long is smaller than one that is. -/
theorem lt_of_tooLong {d e : ℚ} (hd : t.tooLong d = false) (he : t.tooLong e = true) : d < e := by
  by_contra hle
  rw [tooLong_mono (not_lt.mp hle) he] at hd
  cases hd

/-! ### The frontier -/

/-- Arc `a` has no better label to give: the node it leads to is unmarked, has a label
that is no longer, or would get one that is too long. -/
def Used (t : Traversal ℚ) (w : Workspace ℚ) (a : Nat) : Prop :=
  t.network.isMarked (t.network.headOf a) = true →
    w.distOf (t.network.headOf a) ≤ w.distOf (t.network.tailOf a) + t.arcCost a ∨
      t.tooLong (w.distOf (t.network.tailOf a) + t.arcCost a) = true

/-- What holds between two extractions. -/
structure Closed (t : Traversal ℚ) (sources : List Nat) (w : Workspace ℚ) : Prop extends
    Sound t sources w where
  /-- Every arc out of a settled node has been used. -/
  used : ∀ a, a < t.network.arcCount → w.isSettled (t.network.tailOf a) = true → Used t w a

/-- Nothing that is not settled is nearer than the nearest waiting node.  The last
settled node of a path leads to a waiting one, or over a limit. -/
theorem Closed.le_of_path (h : Closed t sources w)
    (hcost : ∀ a, a < t.network.arcCount → 0 ≤ t.arcCost a) {θ : ℚ} (hfar : θ ≤ Weight.faraway)
    (hθ : ∀ u, w.queue.Waits u → θ ≤ w.distOf u) {s : Nat} (hs : s ∈ sources) {as : List Nat} :
    ∀ {v}, t.network.IsMarkedPath s as v → w.isSettled v = false →
      θ ≤ Network.pathLength t.arcCost as ∨
        t.tooLong (Network.pathLength t.arcCost as) = true := by
  -- a node that is not settled waits or has no label
  have hopen : ∀ u, w.isSettled u = false → θ ≤ w.distOf u := by
    intro u hu
    cases hv : w.isVisited u with
    | false => rwa [(h.blank u hv).1]
    | true =>
      rcases (h.labeled u hv).2.2.2 with hw | hset
      · exact hθ u hw
      · rw [hu] at hset
        cases hset
  induction as using List.reverseRecOn with
  | nil =>
    intro v hpath hv
    obtain rfl := Network.isMarkedPath_nil.mp hpath
    left
    rw [Network.pathLength_nil, ← (h.source s hs).2]
    exact hopen s hv
  | append_singleton as a ih =>
    intro v hpath hv
    obtain ⟨hprev, ha, rfl, hmark⟩ := Network.isMarkedPath_concat.mp hpath
    rw [Network.pathLength_concat]
    cases htail : w.isSettled (t.network.tailOf a) with
    | true =>
      have hle := h.exact _ htail s hs as hprev
      rcases h.used a ha htail hmark with hused | hlong
      · left
        linarith [hopen _ hv]
      · right
        exact tooLong_mono (by linarith) hlong
    | false =>
      have hpos := hcost a ha
      rcases ih hprev htail with hle | hlong
      · left
        linarith
      · right
        exact tooLong_mono (by linarith) hlong

/-! ### A better label -/

section Relabel

variable {sources' : List Nat} {m : Nat} {d : ℚ} {p : Option Nat}

theorem LabelPath.mono (hsub : sources ⊆ sources') {as : List Nat} {v : Nat}
    (h : LabelPath t sources w as v) : LabelPath t sources' w as v := by
  induction h with
  | source hv hpred hdist => exact .source (hsub hv) hpred hdist
  | arc hpred ha hhead hmark htail hdist _ ih => exact .arc hpred ha hhead hmark htail hdist ih

/-- What a label may be: that of a source, or one over an arc out of a settled node. -/
def Labels (t : Traversal ℚ) (sources : List Nat) (w : Workspace ℚ) (m : Nat) (d : ℚ)
    (p : Option Nat) : Prop :=
  (m ∈ sources ∧ p = none ∧ d = 0) ∨
    ∃ a, p = some a ∧ a < t.network.arcCount ∧ t.network.headOf a = m ∧
      t.network.isMarked m = true ∧ w.isSettled (t.network.tailOf a) = true ∧
      d = w.distOf (t.network.tailOf a) + t.arcCost a

/-- A node that is not settled is no settled node. -/
theorem ne_of_isSettled {u : Nat} (hopen : w.isSettled m = false) (hu : w.isSettled u = true) :
    u ≠ m := by
  rintro rfl
  rw [hopen] at hu
  cases hu

/-- A label of a node that is not settled is on no path to another node. -/
theorem LabelPath.relabel (hr : w.Relabeled m d p w') (hopen : w.isSettled m = false)
    {as : List Nat} {v : Nat} (hv : v ≠ m) (h : LabelPath t sources w as v) :
    LabelPath t sources w' as v := by
  refine h.congr (fun u hu => ?_) fun u hu => (hr.settled u).trans hu
  have hu : u ≠ m := by
    rcases hu with rfl | hu
    · exact hv
    · exact ne_of_isSettled hopen hu
  exact ⟨hr.pred_ne u hu, hr.dist_ne u hu⟩

/-- The path to the new label goes over the path to the tail of its arc. -/
theorem Sound.path_self (h : Sound t sources w) (hr : w.Relabeled m d p w')
    (hopen : w.isSettled m = false) (hsub : sources ⊆ sources')
    (hlabel : Labels t sources' w m d p) :
    ∃ as, LabelPath t sources' w' as m ∧
      as.length ≤ w.queue.settledCount t.network.nodeCount := by
  rcases hlabel with ⟨hms, rfl, rfl⟩ | ⟨a, rfl, ha, hhead, hmark, htail, rfl⟩
  · exact ⟨[], .source hms hr.pred_self hr.dist_self, Nat.zero_le _⟩
  · obtain ⟨as, has, -, hlen⟩ := h.path _ (h.isVisited_of_settled htail)
    have htm := ne_of_isSettled hopen htail
    refine ⟨as ++ [a], ?_, ?_⟩
    · refine .arc hr.pred_self ha hhead hmark ((hr.settled _).trans htail) ?_
        ((has.relabel hr hopen htm).mono hsub)
      rw [hr.dist_self, hr.dist_ne _ htm]
    · rw [List.length_append]
      exact hlen htail

/-- A label that is no longer than the old one keeps the invariant. -/
theorem Sound.relabel (h : Sound t sources w) (hsub : sources ⊆ sources')
    (hm : m < t.network.nodeCount) (hopen : w.isSettled m = false) (hd : Weight.IsWhole d)
    (hfar : d < Weight.faraway) (hlong : t.tooLong d = false) (hle : d ≤ w.distOf m)
    (hlabel : Labels t sources' w m d p)
    (hsource : ∀ s ∈ sources', s ∈ sources ∨ s = m ∧ d = 0)
    (hexact : ∀ v, w.isSettled v = true → ∀ s ∈ sources', ∀ as,
      t.network.IsMarkedPath s as v → w.distOf v ≤ Network.pathLength t.arcCost as) :
    Sound t sources' ((w.setLabel m d p).enqueue m) := by
  have hmc : m < w.capacity := lt_of_lt_of_le hm h.room
  have hr := Workspace.relabeled_enqueue (d := d) (p := p) h.sized h.consistent hmc hopen
  have hcount := hr.queued.settledCount_eq h.consistent (Workspace.stateOf_ne_settled hopen)
    t.network.nodeCount
  refine ⟨h.toTidy.relabel hr hm hopen hd hfar hlong hle, ?_, ?_, ?_⟩
  · intro v hv
    rw [hcount, hr.settled v]
    by_cases hvm : v = m
    · rw [hvm]
      obtain ⟨as, has, hlen⟩ := h.path_self hr hopen hsub hlabel
      refine ⟨as, has, hlen, fun hset => ?_⟩
      rw [hopen] at hset
      cases hset
    · rw [hr.visited_ne v hvm] at hv
      obtain ⟨as, has, hlen⟩ := h.path v hv
      exact ⟨as, (has.relabel hr hopen hvm).mono hsub, hlen⟩
  · intro s hs
    by_cases hsm : s = m
    · rw [hsm, hr.dist_self]
      refine ⟨hr.visited_self, ?_⟩
      rcases hsource s hs with hs | ⟨-, hd0⟩
      · -- a source was labeled zero, and no label is less
        rw [hsm] at hs
        rw [(h.source m hs).2] at hle
        exact le_antisymm hle hd.nonneg
      · exact hd0
    · rcases hsource s hs with hs | ⟨hs, -⟩
      · rw [hr.visited_ne s hsm, hr.dist_ne s hsm]
        exact h.source s hs
      · exact absurd hs hsm
  · intro v hv
    rw [hr.settled v] at hv
    rw [hr.dist_ne v (ne_of_isSettled hopen hv)]
    exact hexact v hv

end Relabel

/-! ### The start -/

/-- A reset workspace is a start without sources. -/
theorem sound_ready (hw : w.Ready) (hroom : t.network.nodeCount ≤ w.capacity) :
    Sound t [] w := by
  have hvisited : ∀ {v}, ¬ w.isVisited v = true := by
    intro v
    rw [hw.isVisited_eq]
    exact Bool.false_ne_true
  have hsettled : ∀ {v}, ¬ w.isSettled v = true := fun {v} =>
    Bool.eq_false_iff.mp (hw.isSettled_eq v)
  exact
    { tidy_ready hw hroom with
      path := fun v hv => absurd hv hvisited
      source := fun s hs => absurd hs List.not_mem_nil
      exact := fun v hv => absurd hv hsettled }

/-- A zero label is not too long unless the limit is negative. -/
theorem tooLong_zero (hlimit : ∀ d, t.limits.maxDistance = some d → 0 ≤ d) :
    t.tooLong 0 = false := by
  unfold tooLong
  split
  · next d hd =>
    rw [← Bool.not_eq_true, Weight.above_rat]
    have := hlimit d hd
    have := Weight.tolerance_pos
    linarith
  · rfl

theorem seed_eq {α : Type} [Weight α] {w : Workspace α} {s : Nat} (hs : s < w.capacity) :
    seed w s = .ok ((w.setLabel s 0 none).enqueue s) := by
  rw [seed, checkNode, if_pos hs]
  rfl

/-- The traversal ends by itself, with the outcome `o` and in the workspace `w'`: once the sources
are labeled, settling nodes comes to a last step, and nothing bounds how many steps that takes. -/
def Ends {α : Type} [Weight α] (t : Traversal α) (sources : List Nat) (w : Workspace α)
    (o : TraversalOutcome) (w' : Workspace α) : Prop :=
  ∃ w₀ s, sources.foldlM seed w = .ok w₀ ∧
    Progress.Ends t.settleNext ⟨w₀, 0, t.network.markedRequired.length⟩ o s ∧ s.space = w'

/-- A traversal labels its sources, and then settles nodes. -/
theorem run_eq {α : Type} [Weight α] {t : Traversal α} {w w' : Workspace α} {o : TraversalOutcome}
    {s : State α} (hseed : sources.foldlM seed w = .ok w')
    (hrun : Progress.run t.settleNext .exhausted (w'.capacity + 1)
      ⟨w', 0, t.network.markedRequired.length⟩ = .ok (o, s)) :
    t.run sources w = .ok (o, s.space) := by
  unfold run
  simp only [hseed, bind, Except.bind, hrun, pure, Except.pure]

/-- The sources get labeled, however often each is listed. -/
theorem seed_sources (hw : w.Ready) (hroom : t.network.nodeCount ≤ w.capacity)
    (hlimit : ∀ d, t.limits.maxDistance = some d → 0 ≤ d)
    (hsources : ∀ s ∈ sources, s < t.network.nodeCount) :
    ∃ w', sources.foldlM seed w = .ok w' ∧ w'.capacity = w.capacity ∧ Sound t sources w' ∧
      ∀ v, w'.isSettled v = false := by
  refine foldlM_ok (J := fun done w' => w'.capacity = w.capacity ∧ Sound t done w' ∧
    ∀ v, w'.isSettled v = false) sources ?_ ⟨rfl, sound_ready hw hroom, hw.isSettled_eq⟩
  rintro done s w₁ hs ⟨hcap, hsound, hopen⟩
  have hsn := hsources s (mem_of_appended hs)
  have hsc : s < w₁.capacity := lt_of_lt_of_le hsn hsound.room
  have hr := Workspace.relabeled_enqueue (d := 0) (p := none) hsound.sized hsound.consistent
    hsc (hopen s)
  refine ⟨(w₁.setLabel s 0 none).enqueue s, seed_eq hsc, hr.capacity.trans hcap, ?_, fun v => ?_⟩
  · have hdist : 0 ≤ w₁.distOf s := (hsound.whole s).nonneg
    refine hsound.relabel (List.subset_append_left _ _) hsn (hopen s) Weight.isWhole_zero
      Weight.faraway_pos (tooLong_zero hlimit) hdist (Or.inl ⟨by simp, rfl, rfl⟩) (fun u hu => ?_)
      fun v hv => ?_
    · rcases List.mem_append.mp hu with hu | hu
      · exact Or.inl hu
      · exact Or.inr ⟨List.mem_singleton.mp hu, rfl⟩
    · rw [hopen v] at hv
      cases hv
  · rw [hr.settled v, hopen v]

/-! ### Extraction -/

/-- An extraction settles the nearest waiting node at its distance. -/
theorem Closed.popMin? (h : Closed t sources w)
    (hcost : ∀ a, a < t.network.arcCount → 0 ≤ t.arcCost a) {k : Nat}
    (hpop : w.popMin? = some (k, w')) :
    Sound t sources w' ∧ k < t.network.nodeCount ∧ w'.capacity = w.capacity ∧
      (∀ v, w'.distOf v = w.distOf v) ∧
      (∀ v, w'.isSettled v = true ↔ w.isSettled v = true ∨ v = k) ∧
      w'.queue.settledCount t.network.nodeCount =
        w.queue.settledCount t.network.nodeCount + 1 := by
  obtain ⟨htidy, hpop⟩ := h.toTidy.popMin? hpop
  have hk := h.labeled k (h.isVisited_of_waits hpop.waited)
  have hcount := hpop.count
  refine ⟨⟨htidy, fun v hv => ?_, fun s hs => ?_, fun v hv s hs as has => ?_⟩, hpop.lt_nodeCount,
    hpop.capacity, hpop.dist, hpop.settled, hcount⟩
  · rw [hpop.visited] at hv
    obtain ⟨as, has, hle, hlt⟩ := h.path v hv
    refine ⟨as, has.congr (fun u _ => ⟨hpop.pred u, hpop.dist u⟩) fun u hu =>
      (hpop.settled u).mpr (Or.inl hu), ?_, fun _ => ?_⟩ <;> rw [hcount] <;> omega
  · rw [hpop.visited, hpop.dist]
    exact h.source s hs
  · rw [hpop.dist]
    rcases (hpop.settled v).mp hv with hv | rfl
    · exact h.exact v hv s hs as has
    · rcases h.le_of_path hcost hk.2.1.le hpop.least hs has hpop.isOpen with hle | hlong
      · exact hle
      · exact (lt_of_tooLong hk.2.2.1 hlong).le

end Traversal

end SteinerSearch
