import Mathlib.Algebra.BigOperators.Group.Finset.Basic
import Mathlib.Algebra.Order.BigOperators.Group.Finset
import Mathlib.Data.List.Induction
import Mathlib.Logic.Relation
import SteinerSearch.Proofs.Network.Components

/-!
# Tours and links

A tour takes some edges twice, once in either direction, and visits whatever is reached over
them.  Its length is twice what they cost.  Cut at the stops on it, a tour falls into links
between stops, which tie all of them together.

Links that tie everything to a set of nodes leave a choice.  One more node may be added to the
set, and a link between the set and the outside given up for it.

## Main definitions

* `Network.Joins g edges vs` — the edges connect these nodes.
* `Network.edgesCost cost edges` — what the edges cost.
* `Network.IsTour g cost edges r as u` — a walk over the edges that is not too long.
* `Link` — two nodes and a length; `Link.Measured` says that paths are no longer.
* `Tied links S v` — the links tie `v` to a node of the set `S`.

## Main results

* `Network.exists_tour` — some tour visits all that is reached over the edges.
* `Network.IsMarkedPath.exists_links` — a path falls into links between the stops on it.
* `Tied.exchange` — a link is given up for a node that joins the set.
-/

namespace SteinerSearch

namespace Network

variable {g : Network ℚ} {cost : Nat → ℚ} {edges : Finset Nat} {as bs : List Nat}
  {r u v x a : Nat}

/-! ### Sets of edges -/

/-- What some edges cost. -/
def edgesCost (cost : Nat → ℚ) (edges : Finset Nat) : ℚ := ∑ e ∈ edges, cost (Edge.forward e)

/-- Some path over these edges enters marked nodes only and leads from `u` to `v`. -/
def IsReachableOver {α : Type} (g : Network α) (edges : Finset Nat) (u v : Nat) : Prop :=
  ∃ as, g.IsMarkedPath u as v ∧ ∀ a ∈ as, Arc.edge a ∈ edges

/-- These are edges of the network, and between any two of the nodes some path leads over
them. -/
structure Joins {α : Type} (g : Network α) (edges : Finset Nat) (vs : List Nat) : Prop where
  edge_lt : ∀ e ∈ edges, e < g.edgeCount
  reach : ∀ u ∈ vs, ∀ v ∈ vs, g.IsReachableOver edges u v

theorem WellFormed.forward_lt (hg : g.WellFormed) {e : Nat} (he : e < g.edgeCount) :
    Edge.forward e < g.arcCount := by
  have heven := hg.even
  unfold edgeCount at he
  unfold Edge.forward
  unfold arcCount at *
  omega

section Symmetric

variable (hsym : ∀ a, a < g.arcCount → cost (Arc.rev a) = cost a)

include hsym

/-- Either arc costs what the edge costs. -/
theorem cost_forward (ha : a < g.arcCount) : cost (Edge.forward (Arc.edge a)) = cost a := by
  rcases Arc.eq_or_eq_rev_of_edge (Arc.edge_forward (Arc.edge a)) with h | h
  · rw [h]
  · rw [h, hsym a ha]

/-- A path that is taken the other way is no longer. -/
theorem pathLength_reversed (hlt : ∀ a ∈ as, a < g.arcCount) :
    pathLength cost (as.reverse.map Arc.rev) = pathLength cost as := by
  rw [pathLength_map_rev]
  exact congrArg List.sum (List.map_congr_left fun a ha => hsym a (hlt a ha))

end Symmetric

/-! ### Visited nodes -/

/-- The arcs start in `u`, and lead to `v` at some time. -/
def Visits {α : Type} (g : Network α) (u : Nat) (as : List Nat) (v : Nat) : Prop :=
  v = u ∨ ∃ a ∈ as, g.headOf a = v

/-- A path can be cut where it visits a node. -/
theorem IsMarkedPath.cut (h : g.IsMarkedPath u as v) (hx : g.Visits u as x) :
    ∃ bs cs, as = bs ++ cs ∧ g.IsMarkedPath u bs x ∧ g.IsMarkedPath x cs v := by
  obtain rfl | ⟨a, ha, rfl⟩ := hx
  · exact ⟨[], as, rfl, isMarkedPath_nil.mpr rfl, h⟩
  · obtain ⟨bs, cs, rfl⟩ := List.append_of_mem ha
    rw [List.append_cons] at h ⊢
    obtain ⟨w, hbs, hcs⟩ := isPath_append.mp h.path
    obtain rfl := (isPath_concat.mp hbs).2.2
    exact ⟨bs ++ [a], cs, rfl, ⟨hbs, fun b hb => h.marked b (List.mem_append_left _ hb)⟩,
      hcs, fun b hb => h.marked b (List.mem_append_right _ hb)⟩

theorem IsMarkedPath.isMarked_of_visits (h : g.IsMarkedPath u as v) (hu : g.isMarked u = true)
    (hx : g.Visits u as x) : g.isMarked x = true := by
  obtain rfl | ⟨a, ha, rfl⟩ := hx
  · exact hu
  · exact h.marked a ha

/-- An arc of a path leaves a node that is visited. -/
theorem IsPath.visits_tail (h : g.IsPath u as v) (ha : a ∈ as) : g.Visits u as (g.tailOf a) := by
  induction as generalizing u with
  | nil => exact absurd ha List.not_mem_nil
  | cons b as ih =>
    obtain ⟨-, rfl, hrest⟩ := h
    rcases List.mem_cons.mp ha with rfl | ha
    · exact Or.inl rfl
    · rcases ih hrest ha with hb | ⟨c, hc, htail⟩
      · exact Or.inr ⟨b, List.mem_cons_self, hb.symm⟩
      · exact Or.inr ⟨c, List.mem_cons_of_mem b hc, htail⟩

/-- A path out of a set leaves it over one of its arcs. -/
theorem IsPath.exists_leaving {S : Nat → Prop} (h : g.IsPath u as v) (hu : S u) (hv : ¬ S v) :
    ∃ a ∈ as, S (g.tailOf a) ∧ ¬ S (g.headOf a) := by
  induction as generalizing u with
  | nil =>
    obtain rfl := isPath_nil.mp h
    exact absurd hu hv
  | cons a as ih =>
    obtain ⟨-, rfl, hrest⟩ := h
    by_cases hhead : S (g.headOf a)
    · obtain ⟨b, hb, hleaving⟩ := ih hrest hhead
      exact ⟨b, List.mem_cons_of_mem a hb, hleaving⟩
    · exact ⟨a, List.mem_cons_self, hu, hhead⟩

/-! ### Tours -/

/-- A walk from `r` over these edges.  It is no longer than twice the edges it takes. -/
structure IsTour (g : Network ℚ) (cost : Nat → ℚ) (edges : Finset Nat) (r : Nat)
    (as : List Nat) (u : Nat) : Prop where
  path : g.IsMarkedPath r as u
  edge_mem : ∀ a ∈ as, Arc.edge a ∈ edges
  length_le : pathLength cost as ≤ 2 * edgesCost cost (as.map Arc.edge).toFinset

/-- The edges that a tour takes. -/
theorem IsTour.edges_subset (h : g.IsTour cost edges r as u) :
    (as.map Arc.edge).toFinset ⊆ edges := by
  intro e he
  obtain ⟨a, ha, rfl⟩ := List.mem_map.mp (List.mem_toFinset.mp he)
  exact h.edge_mem a ha

section Tours

variable (hg : g.WellFormed) (hsym : ∀ a, a < g.arcCount → cost (Arc.rev a) = cost a)
  (hr : g.isMarked r = true)

include hg hsym hr

/-- A tour can be led over one more edge and back. -/
theorem IsTour.detour (h : g.IsTour cost edges r as u) (ha : a < g.arcCount)
    (hedge : Arc.edge a ∈ edges) (hmark : g.isMarked (g.headOf a) = true)
    (htail : g.Visits r as (g.tailOf a)) (hnew : ¬ g.Visits r as (g.headOf a)) :
    ∃ bs, g.IsTour cost edges r bs u ∧
      (as.map Arc.edge).toFinset.card < (bs.map Arc.edge).toFinset.card := by
  -- an edge that the tour takes has both of its ends visited
  have hfresh : Arc.edge a ∉ (as.map Arc.edge).toFinset := by
    rw [List.mem_toFinset, List.mem_map]
    rintro ⟨b, hb, hba⟩
    rcases Arc.eq_or_eq_rev_of_edge hba with rfl | rfl
    · exact hnew (Or.inr ⟨b, hb, rfl⟩)
    · have hback := h.path.path.visits_tail hb
      rw [hg.tail_rev ha] at hback
      exact hnew hback
  obtain ⟨bs, cs, rfl, hbs, hcs⟩ := h.path.cut htail
  have hback : g.isMarked (g.tailOf a) = true := h.path.isMarked_of_visits hr htail
  have hedges : ((bs ++ a :: Arc.rev a :: cs).map Arc.edge).toFinset =
      insert (Arc.edge a) ((bs ++ cs).map Arc.edge).toFinset := by
    ext e
    simp only [List.map_append, List.map_cons, Arc.edge_rev, List.mem_toFinset, List.mem_append,
      List.mem_cons, Finset.mem_insert]
    tauto
  refine ⟨bs ++ a :: Arc.rev a :: cs, ⟨?_, fun b hb => ?_, ?_⟩, ?_⟩
  · refine hbs.append (isMarkedPath_cons.mpr ⟨⟨ha, rfl⟩, hmark, isMarkedPath_cons.mpr ?_⟩)
    rw [hg.tail_rev ha, hg.head_rev a ha]
    exact ⟨⟨hg.rev_lt ha, rfl⟩, hback, hcs⟩
  · have hmem := h.edge_mem b
    simp only [List.mem_append, List.mem_cons] at hb hmem
    rcases hb with hb | rfl | rfl | hb
    · exact hmem (Or.inl hb)
    · exact hedge
    · rwa [Arc.edge_rev]
    · exact hmem (Or.inr hb)
  · have hlen := h.length_le
    rw [pathLength_append] at hlen
    rw [hedges, edgesCost, Finset.sum_insert hfresh, ← edgesCost, cost_forward hsym ha,
      pathLength_append, pathLength_cons, pathLength_cons, hsym a ha]
    linarith
  · rw [hedges, Finset.card_insert_of_notMem hfresh]
    exact Nat.lt_succ_self _

/-- Some tour visits all that is reached over the edges. -/
theorem exists_tour :
    ∃ as u, g.IsTour cost edges r as u ∧ ∀ v, g.IsReachableOver edges r v → g.Visits r as v := by
  -- a tour that misses a node can be led over one more edge
  have hgrow : ∀ n, ∃ as u, g.IsTour cost edges r as u ∧
      ((∀ v, g.IsReachableOver edges r v → g.Visits r as v) ∨
        n ≤ (as.map Arc.edge).toFinset.card) := by
    intro n
    induction n with
    | zero =>
      refine ⟨[], r, ⟨isMarkedPath_nil.mpr rfl, fun a ha => absurd ha List.not_mem_nil, ?_⟩,
        Or.inr (Nat.zero_le _)⟩
      simp [edgesCost]
    | succ n ih =>
      obtain ⟨as, u, htour, hall | hn⟩ := ih
      · exact ⟨as, u, htour, Or.inl hall⟩
      by_cases hall : ∀ v, g.IsReachableOver edges r v → g.Visits r as v
      · exact ⟨as, u, htour, Or.inl hall⟩
      · push Not at hall
        obtain ⟨v, ⟨ps, hps, hover⟩, hv⟩ := hall
        obtain ⟨a, ha, htail, hnew⟩ := hps.path.exists_leaving (Or.inl rfl) hv
        obtain ⟨bs, hbs, hlt⟩ := htour.detour hg hsym hr (hps.path.lt_arcCount a ha) (hover a ha)
          (hps.marked a ha) htail hnew
        exact ⟨bs, u, hbs, Or.inr (hn.trans_lt hlt)⟩
  obtain ⟨as, u, htour, hall | hmany⟩ := hgrow (edges.card + 1)
  · exact ⟨as, u, htour, hall⟩
  · have hcard := Finset.card_le_card htour.edges_subset
    omega

end Tours

end Network

/-! ### Links -/

/-- Two nodes, and a length. -/
structure Link where
  /-- One of the nodes. -/
  source : Nat
  /-- The other one. -/
  target : Nat
  /-- The length. -/
  length : ℚ
  deriving DecidableEq

/-- The link is between these nodes, in either order. -/
def Link.Meets (l : Link) (u v : Nat) : Prop :=
  (l.source = u ∧ l.target = v) ∨ (l.source = v ∧ l.target = u)

/-- The link is between two stops, and in either direction some path is no longer. -/
structure Link.Measured (g : Network ℚ) (cost : Nat → ℚ) (stop : Nat → Prop) (l : Link) :
    Prop where
  stops : stop l.source ∧ stop l.target
  path : ∀ u v, l.Meets u v → ∃ as, g.IsMarkedPath u as v ∧ Network.pathLength cost as ≤ l.length

/-- Some link is between these nodes. -/
def Adjacent (links : List Link) (u v : Nat) : Prop := ∃ l ∈ links, l.Meets u v

/-- The links tie `v` to a node of the set. -/
def Tied (links : List Link) (S : Nat → Prop) (v : Nat) : Prop :=
  ∃ s, S s ∧ Relation.ReflTransGen (Adjacent links) s v

variable {g : Network ℚ} {cost : Nat → ℚ} {links links' : List Link} {l : Link}
  {stop S S' : Nat → Prop} {as : List Nat} {r u v k : Nat}

theorem Link.Meets.symm (h : l.Meets u v) : l.Meets v u := Or.symm h

theorem Link.Measured.stop_of_meets (h : l.Measured g cost stop) (huv : l.Meets u v) :
    stop u ∧ stop v := by
  obtain ⟨rfl, rfl⟩ | ⟨rfl, rfl⟩ := huv
  · exact h.stops
  · exact h.stops.symm

/-- Links between stops have no negative length. -/
theorem Link.sum_length_nonneg (hnonneg : ∀ a, a < g.arcCount → 0 ≤ cost a)
    (hlinks : ∀ l ∈ links, l.Measured g cost stop) : 0 ≤ (links.map Link.length).sum := by
  refine List.sum_nonneg fun x hx => ?_
  obtain ⟨l, hl, rfl⟩ := List.mem_map.mp hx
  obtain ⟨as, has, hle⟩ := (hlinks l hl).path _ _ (Or.inl ⟨rfl, rfl⟩)
  exact (Network.pathLength_nonneg fun a ha => hnonneg a (has.path.lt_arcCount a ha)).trans hle

theorem Tied.of_mem (hv : S v) : Tied links S v := ⟨v, hv, .refl⟩

theorem Tied.tail (h : Tied links S u) (hl : l ∈ links) (huv : l.Meets u v) : Tied links S v := by
  obtain ⟨s, hs, hpath⟩ := h
  exact ⟨s, hs, hpath.tail ⟨l, hl, huv⟩⟩

/-- A set may be replaced by another one to which its nodes are tied. -/
theorem Tied.trans (h : Tied links S v) (hS : ∀ s, S s → Tied links S' s) : Tied links S' v := by
  obtain ⟨s, hs, hpath⟩ := h
  obtain ⟨s', hs', hpath'⟩ := hS s hs
  exact ⟨s', hs', hpath'.trans hpath⟩

theorem Tied.mono (h : Tied links S v) (hsub : links ⊆ links') : Tied links' S v := by
  obtain ⟨s, hs, hpath⟩ := h
  have hadjacent : Adjacent links ≤ Adjacent links' := fun x y ⟨l, hl, hmeets⟩ =>
    ⟨l, hsub hl, hmeets⟩
  exact ⟨s, hs, Relation.ReflTransGen.mono hadjacent _ _ hpath⟩

/-- A node that is tied to a set is outside of it only if some link leads out.  Without that
link the node is still tied to the end of it. -/
theorem Tied.exists_crossing (h : Tied links S k) (hk : ¬ S k) :
    ∃ l ∈ links, ∃ x y, l.Meets x y ∧ S x ∧ ¬ S y ∧ Tied (links.erase l) (· = k) y := by
  obtain ⟨s, hs, hpath⟩ := h
  induction hpath with
  | refl => exact absurd hs hk
  | @tail u k _ hlast ih =>
    obtain ⟨l', hl', hmeets'⟩ := hlast
    by_cases hu : S u
    · exact ⟨l', hl', u, k, hmeets', hu, hk, .of_mem rfl⟩
    · obtain ⟨l, hl, x, y, hmeets, hx, hy, htied⟩ := ih hu
      -- the last link does not touch the set, so that it is another one
      have hne : l' ≠ l := by
        rintro rfl
        unfold Link.Meets at hmeets hmeets'
        rcases hmeets with ⟨rfl, rfl⟩ | ⟨rfl, rfl⟩ <;>
          rcases hmeets' with ⟨rfl, rfl⟩ | ⟨rfl, rfl⟩ <;> contradiction
      have hmem : l' ∈ links.erase l := (List.mem_erase_of_ne hne).mpr hl'
      have hback : Tied (links.erase l) (· = k) u :=
        (Tied.of_mem (S := (· = k)) rfl).tail hmem hmeets'.symm
      exact ⟨l, hl, x, y, hmeets, hx, hy, htied.trans fun s hs => hs ▸ hback⟩

/-- If a node joins the set that it is tied to, a link between the set and the outside can be
given up for it. -/
theorem Tied.exchange (h : Tied links S k) (hk : ¬ S k) :
    ∃ l ∈ links, (∃ x y, l.Meets x y ∧ S x ∧ ¬ S y) ∧
      ∀ v, Tied links S v → Tied (links.erase l) (fun u => S u ∨ u = k) v := by
  obtain ⟨l, hl, x, y, hmeets, hx, hy, htied⟩ := h.exists_crossing hk
  refine ⟨l, hl, ⟨x, y, hmeets, hx, hy⟩, fun v hv => ?_⟩
  obtain ⟨s, hs, hpath⟩ := hv
  induction hpath with
  | refl => exact .of_mem (Or.inl hs)
  | @tail u v _ hlast ih =>
    obtain ⟨l', hl', hmeets'⟩ := hlast
    by_cases hsame : l' = l
    · -- both ends of the link that is given up are tied
      have hend : v = x ∨ v = y := by
        subst hsame
        unfold Link.Meets at hmeets hmeets'
        omega
      obtain rfl | rfl := hend
      · exact .of_mem (Or.inl hx)
      · exact htied.trans fun s hs => .of_mem (Or.inr hs)
    · exact ih.tail ((List.mem_erase_of_ne hsame).mpr hl') hmeets'

/-! ### From tours to links -/

section Stops

variable (hg : g.WellFormed) (hsym : ∀ a, a < g.arcCount → cost (Arc.rev a) = cost a)
  (hmark : ∀ v, stop v → g.isMarked v = true)

include hg hsym hmark

/-- A path between stops makes a link, since it can be taken the other way. -/
theorem Link.measured_of_path (hu : stop u) (hv : stop v) (h : g.IsMarkedPath u as v) :
    Link.Measured g cost stop ⟨u, v, Network.pathLength cost as⟩ := by
  refine ⟨⟨hu, hv⟩, ?_⟩
  rintro x y (⟨rfl, rfl⟩ | ⟨rfl, rfl⟩)
  · exact ⟨as, h, le_rfl⟩
  · exact ⟨_, h.reversed hg (hmark u hu),
      (Network.pathLength_reversed hsym h.path.lt_arcCount).le⟩

/-- A path falls into links between the stops on it, and a rest after the last stop. -/
theorem Network.IsMarkedPath.exists_links (hr : stop r) (h : g.IsMarkedPath r as u) :
    ∃ links t bs, (∀ l ∈ links, l.Measured g cost stop) ∧ stop t ∧ g.IsMarkedPath t bs u ∧
      (links.map Link.length).sum + Network.pathLength cost bs = Network.pathLength cost as ∧
      Tied links (· = r) t ∧ ∀ v, stop v → g.Visits r as v → Tied links (· = r) v := by
  induction as using List.reverseRecOn generalizing u with
  | nil =>
    refine ⟨[], r, [], fun l hl => absurd hl List.not_mem_nil, hr, h, by simp, .of_mem rfl, ?_⟩
    rintro v - (rfl | ⟨a, ha, -⟩)
    · exact .of_mem rfl
    · exact absurd ha List.not_mem_nil
  | append_singleton as a ih =>
    obtain ⟨has, ha, rfl, hhead⟩ := Network.isMarkedPath_concat.mp h
    obtain ⟨links, t, bs, hmeasured, ht, hbs, hlen, htied, hvisited⟩ := ih has
    have hrest : g.IsMarkedPath t (bs ++ [a]) (g.headOf a) :=
      Network.isMarkedPath_concat.mpr ⟨hbs, ha, rfl, hhead⟩
    have hvisits : ∀ v, g.Visits r (as ++ [a]) v → g.Visits r as v ∨ v = g.headOf a := by
      rintro v (rfl | ⟨b, hb, rfl⟩)
      · exact Or.inl (Or.inl rfl)
      · rcases List.mem_append.mp hb with hb | hb
        · exact Or.inl (Or.inr ⟨b, hb, rfl⟩)
        · rw [List.mem_singleton.mp hb]
          exact Or.inr rfl
    by_cases hstop : stop (g.headOf a)
    · -- the rest so far becomes a link
      have hnew := Link.measured_of_path hg hsym hmark ht hstop hrest
      have hsub := List.subset_cons_self
        (⟨t, g.headOf a, Network.pathLength cost (bs ++ [a])⟩ : Link) links
      have hend := (htied.mono hsub).tail List.mem_cons_self (Or.inl ⟨rfl, rfl⟩)
      refine ⟨_ :: links, g.headOf a, [], List.forall_mem_cons.mpr ⟨hnew, hmeasured⟩, hstop,
        Network.isMarkedPath_nil.mpr rfl, ?_, hend, fun v hv hvisit => ?_⟩
      · rw [List.map_cons, List.sum_cons, Network.pathLength_nil, Network.pathLength_concat,
          Network.pathLength_concat, ← hlen]
        linarith
      · rcases hvisits v hvisit with hvisit | rfl
        · exact (hvisited v hv hvisit).mono hsub
        · exact hend
    · refine ⟨links, t, bs ++ [a], hmeasured, ht, hrest, ?_, htied, fun v hv hvisit => ?_⟩
      · rw [Network.pathLength_concat, Network.pathLength_concat, ← hlen]
        linarith
      · rcases hvisits v hvisit with hvisit | rfl
        · exact hvisited v hv hvisit
        · exact absurd hv hstop

end Stops

/-- Edges that join some marked nodes give links between these, which tie them all to any one of
them and are together no longer than twice what the edges cost. -/
theorem Network.Joins.exists_links {edges : Finset Nat} {vs : List Nat} (hg : g.WellFormed)
    (hnonneg : ∀ a, a < g.arcCount → 0 ≤ cost a)
    (hsym : ∀ a, a < g.arcCount → cost (Arc.rev a) = cost a)
    (hmark : ∀ v ∈ vs, g.isMarked v = true) (h : g.Joins edges vs) (hr : r ∈ vs) :
    ∃ links, (∀ l ∈ links, l.Measured g cost (· ∈ vs)) ∧ (∀ v ∈ vs, Tied links (· = r) v) ∧
      (links.map Link.length).sum ≤ 2 * Network.edgesCost cost edges := by
  obtain ⟨as, u, htour, hvisits⟩ : ∃ as u, g.IsTour cost edges r as u ∧
      ∀ v, g.IsReachableOver edges r v → g.Visits r as v :=
    Network.exists_tour hg hsym (hmark r hr)
  obtain ⟨links, t, bs, hmeasured, -, hbs, hlen, -, htied⟩ :=
    htour.path.exists_links hg hsym hmark hr
  refine ⟨links, hmeasured, fun v hv => htied v hv (hvisits v (h.reach r hr v hv)), ?_⟩
  have hrest : 0 ≤ Network.pathLength cost bs :=
    Network.pathLength_nonneg fun a ha => hnonneg a (hbs.path.lt_arcCount a ha)
  have htaken : Network.edgesCost cost (as.map Arc.edge).toFinset ≤
      Network.edgesCost cost edges :=
    Finset.sum_le_sum_of_subset_of_nonneg htour.edges_subset fun e he _ =>
      hnonneg _ (hg.forward_lt (h.edge_lt e he))
  linarith [htour.length_le]

end SteinerSearch
