import SteinerSearch.Proofs.Network.Tours

/-!
# Spanning trees

A tree grows from a node by one arc at a time, out of what it holds.  The new node is a leaf, so
no two nodes get connected twice.  If nothing leads out any more, the tree spans the component.
If each arc was a cheapest one out of the tree, no spanning tree costs less: its edges, as links,
tie the component together, and one of them is given up for every arc that is added.

## Main definitions

* `Network.edgesOf as` — the edges of some arcs.
* `Network.IsSpanningTree g s edges` — the edges are a spanning tree of the component of `s`.
* `Network.Grown g cost s as` — a tree grown from `s` over cheapest arcs, the last one first.

## Main results

* `Network.Grown.isSpanningTree` — out of which nothing leads, it spans the component.
* `Network.Grown.exists_links` — what the tree costs is saved on the links of a spanning tree.
* `Network.Grown.cost_le` — no spanning tree costs less.
-/

namespace SteinerSearch

namespace Network

/-- The edges of some arcs. -/
def edgesOf (as : List Nat) : Finset Nat := (as.map Arc.edge).toFinset

@[simp] theorem mem_edgesOf {as : List Nat} {e : Nat} :
    e ∈ edgesOf as ↔ ∃ a ∈ as, Arc.edge a = e := by
  simp [edgesOf]

@[simp] theorem edgesOf_cons (a : Nat) (as : List Nat) :
    edgesOf (a :: as) = insert (Arc.edge a) (edgesOf as) := by
  simp [edgesOf]

/-- The edges are a spanning tree of the component of `s`.  They connect its nodes, and the ends of
an edge are not connected without it. -/
structure IsSpanningTree {α : Type} (g : Network α) (s : Nat) (edges : Finset Nat) : Prop where
  edge_lt : ∀ e ∈ edges, e < g.edgeCount
  inside : ∀ e ∈ edges, g.IsReachable s (g.tailOf (Edge.forward e)) ∧
    g.IsReachable s (g.headOf (Edge.forward e))
  reach : ∀ v, g.IsReachable s v → g.IsReachableOver edges s v
  bridge : ∀ e ∈ edges, ¬ g.IsReachableOver (edges.erase e) (g.tailOf (Edge.forward e))
    (g.headOf (Edge.forward e))

/-- A tree grown from `s`, the last arc first.  Each arc leads out of the tree so far to a marked
node, and no such arc is cheaper. -/
inductive Grown (g : Network ℚ) (cost : Nat → ℚ) (s : Nat) : List Nat → Prop
  /-- The tree holds `s` alone. -/
  | root : Grown g cost s []
  /-- One more node is attached. -/
  | attach {as : List Nat} {a : Nat} (h : Grown g cost s as) (ha : a < g.arcCount)
      (htail : g.Visits s as (g.tailOf a)) (hnew : ¬ g.Visits s as (g.headOf a))
      (hmark : g.isMarked (g.headOf a) = true)
      (hleast : ∀ b, b < g.arcCount → g.Visits s as (g.tailOf b) →
        ¬ g.Visits s as (g.headOf b) → g.isMarked (g.headOf b) = true → cost a ≤ cost b) :
      Grown g cost s (a :: as)

variable {g : Network ℚ} {cost : Nat → ℚ} {edges edges' : Finset Nat} {as bs : List Nat}
  {s u v x y a b e : Nat}

/-! ### Connections over edges -/

theorem IsReachableOver.mono (h : g.IsReachableOver edges u v) (hsub : edges ⊆ edges') :
    g.IsReachableOver edges' u v := by
  obtain ⟨as, has, hover⟩ := h
  exact ⟨as, has, fun a ha => hsub (hover a ha)⟩

theorem IsReachableOver.isReachable (h : g.IsReachableOver edges u v) : g.IsReachable u v := by
  obtain ⟨as, has, -⟩ := h
  exact ⟨as, has⟩

theorem IsReachableOver.concat (h : g.IsReachableOver edges u (g.tailOf a)) (ha : a < g.arcCount)
    (hmark : g.isMarked (g.headOf a) = true) (hedge : Arc.edge a ∈ edges) :
    g.IsReachableOver edges u (g.headOf a) := by
  obtain ⟨as, has, hover⟩ := h
  refine ⟨as ++ [a], isMarkedPath_concat.mpr ⟨has, ha, rfl, hmark⟩, fun b hb => ?_⟩
  rcases List.mem_append.mp hb with hb | hb
  · exact hover b hb
  · rwa [List.mem_singleton.mp hb]

/-- A leaf can be left out of a path, where it stands for the node that it hangs on. -/
theorem IsReachableOver.retract (hg : g.WellFormed) (ha : a < g.arcCount)
    (hleaf : ∀ b, b < g.arcCount → Arc.edge b ∈ edges →
      g.tailOf b ≠ g.headOf a ∧ g.headOf b ≠ g.headOf a)
    (h : g.IsReachableOver (insert (Arc.edge a) edges) u v) :
    g.IsReachableOver edges (if u = g.headOf a then g.tailOf a else u)
      (if v = g.headOf a then g.tailOf a else v) := by
  obtain ⟨as, has, hover⟩ := h
  induction as using List.reverseRecOn generalizing v with
  | nil =>
    obtain rfl := isMarkedPath_nil.mp has
    exact ⟨[], isMarkedPath_nil.mpr rfl, fun b hb => absurd hb List.not_mem_nil⟩
  | append_singleton as b ih =>
    obtain ⟨hfront, hb, rfl, hmark⟩ := isMarkedPath_concat.mp has
    have hfirst := ih hfront fun c hc => hover c (List.mem_append_left _ hc)
    rcases Finset.mem_insert.mp (hover b (by simp)) with hedge | hedge
    · -- over the edge of the leaf the path stays where it is
      rcases Arc.eq_or_eq_rev_of_edge hedge with rfl | rfl
      · rw [ite_self] at hfirst
        rwa [if_pos rfl]
      · rw [hg.tail_rev ha, if_pos rfl] at hfirst
        rwa [hg.head_rev a ha, ite_self]
    · obtain ⟨htail, hhead⟩ := hleaf b hb hedge
      rw [if_neg htail] at hfirst
      rw [if_neg hhead]
      exact hfirst.concat hb hmark hedge

/-! ### Trees -/

/-- What a tree holds after one more arc. -/
theorem visits_cons : g.Visits s (a :: as) v ↔ g.Visits s as v ∨ g.headOf a = v := by
  simp only [Visits, List.mem_cons, exists_eq_or_imp, or_assoc]
  rw [or_comm (b := ∃ b ∈ as, g.headOf b = v)]

/-- An arc of the tree is held with both of its ends. -/
theorem Grown.visits_of_mem (h : Grown g cost s as) (hb : b ∈ as) :
    b < g.arcCount ∧ g.Visits s as (g.tailOf b) ∧ g.Visits s as (g.headOf b) := by
  induction h with
  | root => exact absurd hb List.not_mem_nil
  | @attach as a _ ha htail _ _ _ ih =>
    simp only [visits_cons]
    rcases List.mem_cons.mp hb with rfl | hb
    · exact ⟨ha, Or.inl htail, Or.inr rfl⟩
    · obtain ⟨hlt, htail, hhead⟩ := ih hb
      exact ⟨hlt, Or.inl htail, Or.inl hhead⟩

/-- So is every arc of its edges. -/
theorem Grown.visits_of_edge (hg : g.WellFormed) (h : Grown g cost s as)
    (hb : Arc.edge b ∈ edgesOf as) : g.Visits s as (g.tailOf b) ∧ g.Visits s as (g.headOf b) := by
  obtain ⟨a, ha, hedge⟩ := mem_edgesOf.mp hb
  obtain ⟨hlt, htail, hhead⟩ := h.visits_of_mem ha
  rcases Arc.eq_or_eq_rev_of_edge hedge.symm with rfl | rfl
  · exact ⟨htail, hhead⟩
  · rw [hg.tail_rev hlt, hg.head_rev a hlt]
    exact ⟨hhead, htail⟩

/-- Every arc of the tree leads to a node of its own. -/
theorem Grown.nodup (h : Grown g cost s as) : (s :: as.map g.headOf).Nodup := by
  induction h with
  | root => exact List.nodup_singleton s
  | @attach as a _ _ _ hnew _ _ ih =>
    obtain ⟨hs, hheads⟩ := List.nodup_cons.mp ih
    rw [Visits, not_or] at hnew
    rw [List.map_cons, List.nodup_cons, List.nodup_cons, List.mem_cons, not_or]
    exact ⟨⟨Ne.symm hnew.1, hs⟩, fun hmem => hnew.2 (List.mem_map.mp hmem), hheads⟩

/-- The tree connects what it holds. -/
theorem Grown.reach (h : Grown g cost s as) (hv : g.Visits s as v) :
    g.IsReachableOver (edgesOf as) s v := by
  induction h generalizing v with
  | root =>
    obtain rfl | ⟨a, ha, -⟩ := hv
    · exact ⟨[], isMarkedPath_nil.mpr rfl, fun a ha => absurd ha List.not_mem_nil⟩
    · exact absurd ha List.not_mem_nil
  | @attach as a _ ha htail _ hmark _ ih =>
    have hsub : edgesOf as ⊆ edgesOf (a :: as) := by
      rw [edgesOf_cons]
      exact Finset.subset_insert _ _
    rcases visits_cons.mp hv with hv | rfl
    · exact (ih hv).mono hsub
    · exact ((ih htail).mono hsub).concat ha hmark (mem_edgesOf.mpr ⟨a, List.mem_cons_self, rfl⟩)

/-- No arc of the tree leads to a node outside of it or away from one. -/
theorem Grown.leaf (hg : g.WellFormed) (h : Grown g cost s as) (hv : ¬ g.Visits s as v) :
    ∀ b, b < g.arcCount → Arc.edge b ∈ edgesOf as → g.tailOf b ≠ v ∧ g.headOf b ≠ v := by
  intro b _ hedge
  obtain ⟨htail, hhead⟩ := h.visits_of_edge hg hedge
  exact ⟨fun hb => hv (hb ▸ htail), fun hb => hv (hb ▸ hhead)⟩

/-- Without an edge of the tree its ends are not connected over the others. -/
theorem Grown.bridge (hg : g.WellFormed) (h : Grown g cost s as) (hb : Arc.edge b ∈ edgesOf as) :
    ¬ g.IsReachableOver ((edgesOf as).erase (Arc.edge b)) (g.tailOf b) (g.headOf b) := by
  induction h with
  | root => simp [edgesOf] at hb
  | @attach as a h ha htail hnew hmark hleast ih =>
    intro hover
    have hleaf := h.leaf hg hnew
    have hfresh : Arc.edge a ∉ edgesOf as := fun hedge => (hleaf a ha hedge).2 rfl
    rw [edgesOf_cons] at hb hover
    by_cases hba : Arc.edge b = Arc.edge a
    · -- over the edges of the tree so far nothing leads to the new node or away from it
      rw [hba, Finset.erase_insert hfresh] at hover
      obtain ⟨ps, hps, hover⟩ := hover
      rcases Arc.eq_or_eq_rev_of_edge hba with rfl | rfl
      · obtain ⟨c, hc, -, hout⟩ := hps.path.exists_leaving htail hnew
        exact hout (h.visits_of_edge hg (hover c hc)).2
      · rw [hg.tail_rev ha, hg.head_rev a ha] at hps
        obtain ⟨c, hc, hout, -⟩ := hps.path.exists_leaving
          (S := fun v => ¬ g.Visits s as v) hnew (not_not.mpr htail)
        exact hout (h.visits_of_edge hg (hover c hc)).1
    · -- a connection over the new leaf can be drawn back from it
      have hold : Arc.edge b ∈ edgesOf as := (Finset.mem_insert.mp hb).resolve_left hba
      obtain ⟨hbt, hbh⟩ := h.visits_of_edge hg hold
      rw [Finset.erase_insert_of_ne (Ne.symm hba)] at hover
      have hback := hover.retract hg ha fun c hc hedge => hleaf c hc (Finset.mem_of_mem_erase hedge)
      have hbt' : g.tailOf b ≠ g.headOf a := fun h => hnew (h ▸ hbt)
      have hbh' : g.headOf b ≠ g.headOf a := fun h => hnew (h ▸ hbh)
      rw [if_neg hbt', if_neg hbh'] at hback
      exact ih hold hback

/-- A tree that nothing leads out of holds what can be reached. -/
theorem Grown.visits_iff (h : Grown g cost s as)
    (hclosed : ∀ a, a < g.arcCount → g.Visits s as (g.tailOf a) →
      g.isMarked (g.headOf a) = true → g.Visits s as (g.headOf a)) :
    g.Visits s as v ↔ g.IsReachable s v := by
  refine ⟨fun hv => (h.reach hv).isReachable, fun ⟨ps, hps⟩ => ?_⟩
  by_contra hv
  obtain ⟨a, ha, htail, hout⟩ := hps.path.exists_leaving (Or.inl rfl) hv
  exact hout (hclosed a (hps.path.lt_arcCount a ha) htail (hps.marked a ha))

/-- A tree that nothing leads out of spans the component. -/
theorem Grown.isSpanningTree (hg : g.WellFormed) (h : Grown g cost s as)
    (hclosed : ∀ a, a < g.arcCount → g.Visits s as (g.tailOf a) →
      g.isMarked (g.headOf a) = true → g.Visits s as (g.headOf a)) :
    g.IsSpanningTree s (edgesOf as) := by
  have hforward : ∀ e ∈ edgesOf as, Arc.edge (Edge.forward e) ∈ edgesOf as := fun e he => by
    rwa [Arc.edge_forward]
  refine ⟨fun e he => ?_, fun e he => ?_, fun v hv => ?_, fun e he => ?_⟩
  · obtain ⟨a, ha, rfl⟩ := mem_edgesOf.mp he
    have hlt := (h.visits_of_mem ha).1
    have heven := hg.even
    unfold Arc.edge edgeCount
    unfold arcCount at hlt heven
    omega
  · obtain ⟨htail, hhead⟩ := h.visits_of_edge hg (hforward e he)
    exact ⟨(h.visits_iff hclosed).mp htail, (h.visits_iff hclosed).mp hhead⟩
  · exact h.reach ((h.visits_iff hclosed).mpr hv)
  · have hbridge := h.bridge hg (hforward e he)
    rwa [Arc.edge_forward] at hbridge

/-! ### Costs -/

/-- The link over an edge. -/
def edgeLink (g : Network ℚ) (cost : Nat → ℚ) (e : Nat) : Link :=
  ⟨g.tailOf (Edge.forward e), g.headOf (Edge.forward e), cost (Edge.forward e)⟩

/-- It is between the ends of either arc. -/
theorem edgeLink_meets (hg : g.WellFormed) (ha : a < g.arcCount) :
    (edgeLink g cost (Arc.edge a)).Meets (g.tailOf a) (g.headOf a) := by
  rcases Arc.eq_or_eq_rev_of_edge (Arc.edge_forward (Arc.edge a)) with h | h
  · exact Or.inl ⟨by rw [edgeLink, h], by rw [edgeLink, h]⟩
  · exact Or.inr ⟨by rw [edgeLink, h, hg.tail_rev ha], by rw [edgeLink, h, hg.head_rev a ha]⟩

/-- The links over some edges tie together what the edges connect. -/
theorem IsReachableOver.tied (hg : g.WellFormed) (h : g.IsReachableOver edges s v) :
    Tied (edges.toList.map (edgeLink g cost)) (· = s) v := by
  obtain ⟨as, has, hover⟩ := h
  induction as using List.reverseRecOn generalizing v with
  | nil =>
    obtain rfl := isMarkedPath_nil.mp has
    exact .of_mem rfl
  | append_singleton as a ih =>
    obtain ⟨hfront, ha, rfl, -⟩ := isMarkedPath_concat.mp has
    have hlink : edgeLink g cost (Arc.edge a) ∈ edges.toList.map (edgeLink g cost) :=
      List.mem_map_of_mem (Finset.mem_toList.mpr (hover a (by simp)))
    exact (ih hfront fun b hb => hover b (List.mem_append_left _ hb)).tail hlink
      (edgeLink_meets hg ha)

theorem sum_edgeLink (edges : Finset Nat) :
    ((edges.toList.map (edgeLink g cost)).map Link.length).sum = edgesCost cost edges := by
  rw [List.map_map, edgesCost, ← Finset.sum_map_toList]
  rfl

/-- An arc costs no more than a path over it. -/
theorem cost_le_pathLength (hnonneg : ∀ a, a < g.arcCount → 0 ≤ cost a) (h : g.IsPath u as v)
    (ha : a ∈ as) : cost a ≤ pathLength cost as := by
  refine List.single_le_sum (fun x hx => ?_) _ (List.mem_map_of_mem ha)
  obtain ⟨b, hb, rfl⟩ := List.mem_map.mp hx
  exact hnonneg b (h.lt_arcCount b hb)

/-- A link out of a set is no shorter than some arc out of it. -/
theorem exists_leaving_of_measured {l : Link} {stop S : Nat → Prop}
    (hnonneg : ∀ a, a < g.arcCount → 0 ≤ cost a) (hl : l.Measured g cost stop)
    (hmeets : l.Meets x y) (hx : S x) (hy : ¬ S y) :
    ∃ b, b < g.arcCount ∧ S (g.tailOf b) ∧ ¬ S (g.headOf b) ∧ g.isMarked (g.headOf b) = true ∧
      cost b ≤ l.length := by
  obtain ⟨as, has, hle⟩ := hl.path x y hmeets
  obtain ⟨b, hb, htail, hhead⟩ := has.path.exists_leaving hx hy
  exact ⟨b, has.path.lt_arcCount b hb, htail, hhead, has.marked b hb,
    (cost_le_pathLength hnonneg has.path hb).trans hle⟩

section Cheapest

variable (hg : g.WellFormed) (hnonneg : ∀ a, a < g.arcCount → 0 ≤ cost a)
  (hsym : ∀ a, a < g.arcCount → cost (Arc.rev a) = cost a) (hs : g.isMarked s = true)

include hs

/-- The component of a marked node is marked. -/
theorem IsReachable.isMarked (h : g.IsReachable s v) : g.isMarked v = true := by
  obtain ⟨as, has⟩ := h
  induction as using List.reverseRecOn generalizing v with
  | nil =>
    obtain rfl := isMarkedPath_nil.mp has
    exact hs
  | append_singleton as a _ => exact (isMarkedPath_concat.mp has).2.2.2

include hg hsym

/-- Links over the edges of a spanning tree are between nodes of the component. -/
theorem IsSpanningTree.measured (h : g.IsSpanningTree s edges) (he : e ∈ edges) :
    (edgeLink g cost e).Measured g cost (g.IsReachable s) := by
  obtain ⟨htail, hhead⟩ := h.inside e he
  have hpath : g.IsMarkedPath (g.tailOf (Edge.forward e)) [Edge.forward e]
      (g.headOf (Edge.forward e)) :=
    isMarkedPath_cons.mpr ⟨⟨hg.forward_lt (h.edge_lt e he), rfl⟩, hhead.isMarked hs,
      isMarkedPath_nil.mpr rfl⟩
  have hlink := Link.measured_of_path hg hsym (fun v hv => hv.isMarked hs) htail hhead hpath
  rwa [pathLength_cons, pathLength_nil, add_zero] at hlink

include hnonneg

/-- Whatever the tree costs is saved on the links of a spanning tree, and those that are left tie
the component to it. -/
theorem Grown.exists_links (h : Grown g cost s as) (htree : g.IsSpanningTree s edges) :
    ∃ links, (∀ l ∈ links, l.Measured g cost (g.IsReachable s)) ∧
      (∀ v, g.IsReachable s v → Tied links (g.Visits s as) v) ∧
      pathLength cost as + (links.map Link.length).sum ≤ edgesCost cost edges := by
  induction h with
  | root =>
    refine ⟨edges.toList.map (edgeLink g cost), fun l hl => ?_, fun v hv => ?_, ?_⟩
    · obtain ⟨e, he, rfl⟩ := List.mem_map.mp hl
      exact htree.measured hg hsym hs (Finset.mem_toList.mp he)
    · exact ((htree.reach v hv).tied hg).trans fun u hu => .of_mem (Or.inl hu)
    · rw [sum_edgeLink, pathLength_nil, zero_add]
  | @attach as a h ha htail hnew hmark hleast ih =>
    obtain ⟨links, hmeasured, htied, hcost⟩ := ih
    have hreach : g.IsReachable s (g.headOf a) :=
      (((h.reach htail).mono (Finset.subset_insert (Arc.edge a) _)).concat ha hmark
        (Finset.mem_insert_self _ _)).isReachable
    obtain ⟨l, hl, ⟨x, y, hmeets, hx, hy⟩, hleft⟩ := (htied _ hreach).exchange hnew
    obtain ⟨b, hb, hbt, hbh, hbm, hlen⟩ :=
      exists_leaving_of_measured hnonneg (hmeasured l hl) hmeets hx hy
    have hle : cost a ≤ l.length := (hleast b hb hbt hbh hbm).trans hlen
    refine ⟨links.erase l, fun l' hl' => hmeasured l' (List.mem_of_mem_erase hl'),
      fun v hv => (hleft v (htied v hv)).trans fun u hu => .of_mem ?_, ?_⟩
    · exact visits_cons.mpr (hu.imp_right Eq.symm)
    · have hlinks := ((List.perm_cons_erase hl).map Link.length).sum_eq
      rw [List.map_cons, List.sum_cons] at hlinks
      rw [pathLength_cons]
      linarith

/-- The tree costs no more than any spanning tree. -/
theorem Grown.cost_le (h : Grown g cost s as) (htree : g.IsSpanningTree s edges) :
    pathLength cost as ≤ edgesCost cost edges := by
  obtain ⟨links, hmeasured, -, hcost⟩ := h.exists_links hg hnonneg hsym hs htree
  have hlinks := Link.sum_length_nonneg hnonneg hmeasured
  linarith

end Cheapest

end Network

end SteinerSearch
