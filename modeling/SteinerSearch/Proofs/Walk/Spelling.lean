import SteinerSearch.Proofs.Walk.Credits

/-!
# What traces spell out

A trace that is not saturated is no approximation.  Behind every label there is a walk that is
worth it, and the traces of the node, as far as they are not saturated, list what this walk has
used, in order: the nodes it was credited, and for the split ledger its edges.  One walk answers
for all traces of the node at once.

A trace follows its label: a node that is labeled again takes over the traces of the node that it
is labeled from.

## Main definitions

* `TraceLists.Reads ls v ids` — the list of `v` is `ids`, or saturated.
* `Ledger.Spells l g w v steps` — the traces of `v` list what the walk `steps` has used.
* `Walk.Spelled t w` — every label is worth a walk that its traces spell out.

## Main results

* `Ledger.Spells.record` — the traces of a node that is labeled spell out the extended walk.
* `Walk.Spelled.settleNext_leads` — one step of a search.
-/

namespace SteinerSearch

/-- The list of `v` is `ids`, unless it is saturated. -/
def TraceLists.Reads (ls : TraceLists) (v : Nat) (ids : List Nat) : Prop :=
  ∀ known, ls.get? v = some known → known = ids

namespace Network

/-- The edges that a walk takes. -/
def takenEdges (steps : List WalkStep) : List Nat := steps.map fun s => Arc.edge s.arc

section Goal

variable {α : Type} {g : Network α} {start goal u v a : Nat} {steps : List WalkStep}

/-- After each arc a path goes on, or is at its end. -/
theorem IsPath.eq_or_exists_next {as : List Nat} (h : g.IsPath u as v) (ha : a ∈ as) :
    g.headOf a = v ∨ ∃ b ∈ as, g.tailOf b = g.headOf a := by
  induction as generalizing u with
  | nil => exact absurd ha List.not_mem_nil
  | cons b as ih =>
    obtain ⟨-, -, hrest⟩ := h
    rcases List.mem_cons.mp ha with rfl | ha
    · cases as with
      | nil => exact Or.inl hrest
      | cons c cs => exact Or.inr ⟨c, by simp, hrest.2.1⟩
    · exact (ih hrest ha).imp_right fun ⟨c, hc, htail⟩ => ⟨c, List.mem_cons_of_mem b hc, htail⟩

/-- A walk that does not end in the goal has not taken any edge there. -/
theorem IsCreditedWalk.edge_notMem [Weight α] (hg : g.WellFormed)
    (h : g.IsCreditedWalk start goal steps v) (hv : v ≠ goal) (ha : a < g.arcCount)
    (hhead : g.headOf a = goal) : Arc.edge a ∉ takenEdges steps := by
  intro hmem
  obtain ⟨s, hs, hedge⟩ := List.mem_map.mp hmem
  rcases Arc.eq_or_eq_rev_of_edge hedge with hsame | hopposite
  · -- the walk would have to leave the goal again
    rcases h.path.eq_or_exists_next (List.mem_map_of_mem hs) with hend | ⟨b, hb, htail⟩
    · rw [hsame, hhead] at hend
      exact hv hend.symm
    · obtain ⟨s', hs', rfl⟩ := List.mem_map.mp hb
      rw [hsame, hhead] at htail
      exact h.leaves s' hs' htail
  · refine h.leaves s hs ?_
    rw [hopposite, hg.tail_rev ha, hhead]

end Goal

end Network

namespace Ledger

variable {α : Type} {l : Ledger} {g : Network α} {w w' : Workspace α} {k m a v : Nat}
  {credit : Bool} {steps : List Network.WalkStep}

section Reads

variable {n x : Nat} {ls : TraceLists} {grow : Bool} {ids : List Nat}

theorem reads_extended (hl : ls.WellFormed n) (hm : m < n) (hne : k ≠ m) (h : ls.Reads k ids) :
    (extended ls k m x grow).Reads m (if grow = true then ids ++ [x] else ids) := by
  intro known hknown
  obtain ⟨old, hold, rfl⟩ := exists_of_get?_extended hl hm hne hknown
  rw [h old hold]

theorem reads_extended_of_ne (hl : ls.WellFormed n) (hm : m < n) (hne : k ≠ m) (hv : v ≠ m)
    (h : ls.Reads v ids) : (extended ls k m x grow).Reads v ids := by
  unfold TraceLists.Reads
  rwa [get?_extended_of_ne hl hm hne hv]

end Reads

/-- The traces of `v` list what a walk has used, as far as they are not saturated.  Without
traces there is nothing to list. -/
def Spells (l : Ledger) (g : Network α) (w : Workspace α) (v : Nat)
    (steps : List Network.WalkStep) : Prop :=
  match l with
  | .firstVisit => True
  | .combined => w.credited.Reads v (g.creditedNodes steps)
  | .split =>
      w.credited.Reads v ((g.creditedNodes steps).filter g.isRequired) ∧
        w.creditedOther.Reads v ((g.creditedNodes steps).filter fun u => !g.isRequired u) ∧
        w.traversed.Reads v (Network.takenEdges steps) ∧
        ∀ edges, w.traversed.get? v = some edges → edges.Nodup

/-- Only the traces matter. -/
theorem Spells.congr (h : l.Spells g w v steps) (hcredited : w'.credited = w.credited)
    (hother : w'.creditedOther = w.creditedOther) (htraversed : w'.traversed = w.traversed) :
    l.Spells g w' v steps := by
  cases l with
  | firstVisit => trivial
  | combined =>
    unfold Spells
    rwa [hcredited]
  | split =>
    unfold Spells
    rwa [hcredited, hother, htraversed]

/-- A ledger with traces knows the credits of the walk that they spell out. -/
theorem Spells.mayCredit_eq_false (hl : l ≠ .firstVisit) (h : l.Spells g w v steps) {u : Nat}
    (hu : u ∈ g.creditedNodes steps) : l.mayCredit g w v u = false := by
  cases l with
  | firstVisit => exact absurd rfl hl
  | combined =>
    rw [mayCredit_combined, TraceLists.mayContain_iff]
    intro ids hids
    rwa [h ids hids]
  | split =>
    obtain ⟨hcredited, hother, -⟩ := h
    rw [mayCredit_split, TraceLists.mayContain_iff, TraceLists.mayContain_iff]
    refine ⟨fun hreq ids hids => ?_, fun hreq ids hids => ?_⟩
    · rw [hcredited ids hids]
      exact List.mem_filter.mpr ⟨hu, hreq⟩
    · rw [hother ids hids]
      exact List.mem_filter.mpr ⟨hu, by simp [hreq]⟩

/-- What a node is credited is found in the one list or in the other. -/
theorem filter_creditedNodes_concat (p : Nat → Bool) (hhead : g.headOf a = m) :
    (g.creditedNodes (steps ++ [⟨a, credit⟩])).filter p =
      if (credit && p m) = true then (g.creditedNodes steps).filter p ++ [m]
      else (g.creditedNodes steps).filter p := by
  rw [Network.creditedNodes_concat, List.filter_append]
  subst hhead
  cases credit with
  | false => simp
  | true => cases hp : p (g.headOf a) <;> simp [hp]

/-- The traces of a node that is labeled from `k` spell out the walk to `k` with one more step. -/
theorem Spells.record (hw : w.Traced) (hm : m < w.capacity) (hne : k ≠ m)
    (h : l.Spells g w k steps) (hhead : g.headOf a = m)
    (hfresh : l = .split → ∀ edges, w.traversed.get? k = some edges → Arc.edge a ∉ edges) :
    l.Spells g (l.record g w k m a credit) m (steps ++ [⟨a, credit⟩]) := by
  cases l with
  | firstVisit => trivial
  | combined =>
    have hnodes : g.creditedNodes (steps ++ [⟨a, credit⟩]) =
        if credit = true then g.creditedNodes steps ++ [m] else g.creditedNodes steps := by
      rw [Network.creditedNodes_concat, hhead]
      cases credit <;> simp
    unfold Spells
    rw [hnodes]
    exact reads_extended hw.credited hm hne h
  | split =>
    obtain ⟨hcredited, hother, htraversed, hnodup⟩ := h
    refine ⟨?_, ?_, ?_, fun edges hedges => ?_⟩
    · rw [filter_creditedNodes_concat g.isRequired hhead]
      exact reads_extended hw.credited hm hne hcredited
    · rw [filter_creditedNodes_concat (fun u => !g.isRequired u) hhead]
      exact reads_extended hw.creditedOther hm hne hother
    · rw [Network.takenEdges, List.map_append, traversed_split]
      exact reads_extended hw.traversed hm hne htraversed
    · rw [traversed_split] at hedges
      obtain ⟨old, hold, rfl⟩ := exists_of_get?_extended hw.traversed hm hne hedges
      rw [if_pos rfl, ← List.concat_eq_append]
      exact (hnodup old hold).concat (hfresh rfl old hold)

/-- The traces of all other nodes stay. -/
theorem Spells.record_of_ne (hw : w.Traced) (hm : m < w.capacity) (hne : k ≠ m) (hv : v ≠ m)
    (h : l.Spells g w v steps) : l.Spells g (l.record g w k m a credit) v steps := by
  cases l with
  | firstVisit => trivial
  | combined => exact reads_extended_of_ne hw.credited hm hne hv h
  | split =>
    obtain ⟨hcredited, hother, htraversed, hnodup⟩ := h
    refine ⟨reads_extended_of_ne hw.credited hm hne hv hcredited,
      reads_extended_of_ne hw.creditedOther hm hne hv hother, ?_⟩
    rw [traversed_split, get?_extended_of_ne hw.traversed hm hne hv]
    exact ⟨reads_extended_of_ne hw.traversed hm hne hv htraversed, hnodup⟩

end Ledger

namespace Walk

variable {α : Type} [Weight α] {t : Walk α} {w : Workspace α}

/-- Every label is worth a walk that the traces of the node spell out. -/
structure Spelled (t : Walk α) (w : Workspace α) : Prop extends Backed t w where
  spelled : ∀ v, w.isVisited v = true → ∃ steps,
    t.network.IsCreditedWalk t.query.start t.query.goal steps v ∧
      t.network.creditedLength t.costs steps = w.distOf v ∧ t.ledger.Spells t.network w v steps

/-- What happens to the queue does not matter as long as labeled nodes wait. -/
theorem Spelled.withQueue {q : NodeQueue} (h : Spelled t w) (hcap : q.capacity = w.queue.capacity)
    (hq : q.Consistent) (hwaits : ∀ v, q.Waits v → w.queue.Waits v) :
    Spelled t { w with queue := q } where
  toBacked := h.toBacked.withQueue hcap hq hwaits
  spelled v hv := by
    obtain ⟨steps, hwalk, hlen, hspells⟩ := h.spelled v hv
    exact ⟨steps, hwalk, hlen, hspells.congr rfl rfl rfl⟩

/-- The search has traces, and it runs in a network whose edges are pairs of opposite arcs. -/
structure Traceable (t : Walk α) : Prop extends Proper t where
  paired : t.network.WellFormed
  ledger : t.ledger ≠ .firstVisit

section Take

variable {k a : Nat} {c : α}

/-- An arc that may be taken leads over an edge that is not on the trace. -/
theorem edge_notMem_traversed (ht : Traceable t) {steps : List Network.WalkStep}
    (hwalk : t.network.IsCreditedWalk t.query.start t.query.goal steps k)
    (hspells : t.ledger.Spells t.network w k steps) (hkg : k ≠ t.query.goal)
    (ha : a < t.network.arcCount)
    (hrefuses : t.network.headOf a ≠ t.query.goal →
      t.ledger.refuses t.network w k (t.network.headOf a) a = false) (hsplit : t.ledger = .split) :
    ∀ edges, w.traversed.get? k = some edges → Arc.edge a ∉ edges := by
  intro edges hedges
  rw [hsplit] at hrefuses hspells
  by_cases hhead : t.network.headOf a = t.query.goal
  · -- the goal is never refused, and it has not been met before
    rw [hspells.2.2.1 edges hedges]
    exact hwalk.edge_notMem ht.paired hkg ha hhead
  · intro hmem
    have hknown : w.traversed.surelyContains k (Arc.edge a) = true :=
      TraceLists.surelyContains_iff.mpr ⟨edges, hedges, hmem⟩
    have := hrefuses hhead
    rw [Ledger.refuses, hknown, Bool.or_true] at this
    cases this

/-- Taking an arc keeps all labels spelled out. -/
theorem Spelled.take (h : Spelled t w) (ht : Traceable t) (hk : w.isVisited k = true)
    (hkg : k ≠ t.query.goal) (ha : a < t.network.arcCount) (htail : t.network.tailOf a = k)
    (hmark : t.network.headOf a = t.query.goal ∨ t.network.isMarked (t.network.headOf a) = true)
    (hopen : w.isSettled (t.network.headOf a) = false) (hc : t.costs a = some c)
    (hrefuses : t.network.headOf a ≠ t.query.goal →
      t.ledger.refuses t.network w k (t.network.headOf a) a = false) :
    Spelled t (t.take k (t.network.headOf a) a (w.distOf k) c w) := by
  refine ⟨(h.toBacked.take ht.toProper hk hkg ha htail hmark hopen hc).1, ?_⟩
  have hm : t.network.headOf a < w.capacity :=
    lt_of_lt_of_le (ht.linked.head_lt a ha) h.room
  have hne : k ≠ t.network.headOf a := htail ▸ (ht.linked.head_ne_tail a ha).symm
  simp only [Walk.take]
  split
  · exact h.spelled
  split
  · intro v hv
    generalize hcredit : t.credits w k (t.network.headOf a) = credit at hv ⊢
    generalize hd : t.labelOf (w.distOf k) c (t.network.headOf a) credit = d at hv ⊢
    have hr : w.Relabeled (t.network.headOf a) d (some a)
        (t.relabeled k (t.network.headOf a) a d credit w) := h.toBacked.relabeled hne hm hopen
    have htraced : (w.setLabel (t.network.headOf a) d (some a)).Traced := h.traced.setLabel
    have hcap : t.network.headOf a < (w.setLabel (t.network.headOf a) d (some a)).capacity := by
      rwa [Workspace.capacity_setLabel]
    -- the traces are those that the ledger wrote
    have hsame : ∀ {u steps}, t.ledger.Spells t.network w u steps →
        t.ledger.Spells t.network (w.setLabel (t.network.headOf a) d (some a)) u steps :=
      fun hs => hs.congr Workspace.credited_setLabel Workspace.creditedOther_setLabel
        Workspace.traversed_setLabel
    by_cases hvm : v = t.network.headOf a
    · subst hvm
      obtain ⟨steps, hwalk, hlen, hspells⟩ := h.spelled k hk
      obtain ⟨hnext, hlabel⟩ := extend_walk ht.toProper hwalk hlen
        (fun u hu => hspells.mayCredit_eq_false ht.ledger hu) hkg ha htail hmark hc hcredit
      refine ⟨_, hnext, hlabel.trans (hd.trans hr.dist_self.symm), ?_⟩
      refine ((hsame hspells).record htraced hcap hne rfl fun hsplit => ?_).congr rfl rfl rfl
      rw [Workspace.traversed_setLabel]
      exact edge_notMem_traversed ht hwalk hspells hkg ha hrefuses hsplit
    · obtain ⟨steps, hwalk, hlen, hspells⟩ := h.spelled v ((hr.visited_ne v hvm).symm.trans hv)
      exact ⟨steps, hwalk, hlen.trans (hr.dist_ne v hvm).symm,
        ((hsame hspells).record_of_ne htraced hcap hne hvm).congr rfl rfl rfl⟩
  · exact h.spelled

end Take

/-! ### Steps -/

/-- The scan of the arcs out of `k`, which is labeled `base`. -/
structure Following (t : Walk α) (k : Nat) (base : α) (s : State α) : Prop where
  spelled : Spelled t s.space
  visited : s.space.isVisited k = true
  base : s.space.distOf k = base

theorem Following.scan_leads {k a : Nat} {base : α} {s : State α} (h : Following t k base s)
    (ht : Traceable t) (hkg : k ≠ t.query.goal) (ha : a < t.network.arcCount)
    (htail : t.network.tailOf a = k) : Halt.Leads (Following t k base) (t.scan k base s a) := by
  refine scan_keeps (ht.cost a ha) (fun n => ⟨h.spelled, h.visited, h.base⟩)
    fun c n hc hmark hopen hrefuses => ?_
  have hspelled := h.spelled.take ht h.visited hkg ha htail hmark hopen hc hrefuses
  obtain ⟨-, hvisited, hdist⟩ :=
    h.spelled.toBacked.take ht.toProper h.visited hkg ha htail hmark hopen hc
  rw [h.base] at hspelled hvisited hdist
  exact ⟨hspelled, hvisited, hdist⟩

/-- Extracting a node leaves all labels spelled out. -/
theorem Spelled.opened {s : State α} (h : Spelled t s.space) {k : Nat}
    (hpop : s.space.popMin? = some (k, w)) :
    Spelled t w ∧ Following t k (w.distOf k) (t.opened k w s.scanned) := by
  obtain ⟨hwaits, q, ⟨hcap, hq, hsub⟩, rfl, q', ⟨hcap', hq', hsub'⟩, hopened⟩ :=
    opened_queues (t := t) h.consistent hpop s.scanned
  refine ⟨h.withQueue hcap hq hsub, ?_⟩
  rw [hopened]
  exact ⟨h.withQueue hcap' hq' hsub', h.waiting k hwaits, rfl⟩

/-- One step of a search. -/
theorem Spelled.settleNext_leads (ht : Traceable t) (s : State α) (h : Spelled t s.space) :
    Progress.Leads (fun s' => Spelled t s'.space) (t.settleNext s) := by
  cases hpop : s.space.popMin? with
  | none =>
    simp only [Walk.settleNext, hpop]
    exact h
  | some kw =>
    obtain ⟨k, w⟩ := kw
    obtain ⟨hsettled, hopened⟩ := h.opened hpop
    by_cases hkg : k = t.query.goal
    · simp only [Walk.settleNext, hpop, if_pos hkg]
      exact hsettled
    · rw [settleNext_of_popMin? hpop hkg]
      refine Progress.ofScan_leads ?_
      have hscan := Halt.foldlM_leads (t.network.outArcs k) (fun a ha s hs => by
        obtain ⟨ha, htail⟩ := ht.linked.mem_outArcs.mp ha
        exact hs.scan_leads ht hkg ha htail) _ hopened
      exact hscan.mono fun s hs => hs.spelled

/-- At the start only the start is labeled, and all traces are empty. -/
theorem spelled_start (ht : Traceable t) (hw : w.Ready) (hroom : t.network.nodeCount ≤ w.capacity) :
    Spelled t ((w.setLabel t.query.start 0 none).enqueue t.query.start) := by
  have hr := hw.relabeled (d := 0) (p := none) (lt_of_lt_of_le ht.start_lt hroom)
  refine ⟨backed_start hw hroom ht.start_lt, fun v hv => ?_⟩
  rw [(hr.isVisited_iff hw).mp hv]
  refine ⟨[], Network.isCreditedWalk_nil, hr.dist_self.symm, ?_⟩
  have hempty : ∀ {ls : TraceLists}, ls.fillOf t.query.start = .holding 0 → ∀ ids,
      ls.get? t.query.start = some ids → ids = [] := by
    intro ls hfill ids hids
    rw [TraceLists.get?_of_holding hfill] at hids
    exact (Option.some.inj hids).symm
  have hspells : t.ledger.Spells t.network w t.query.start [] := by
    cases t.ledger with
    | firstVisit => trivial
    | combined => exact hempty (hw.credited_eq _)
    | split =>
      refine ⟨hempty (hw.credited_eq _), hempty (hw.creditedOther_eq _),
        hempty (hw.traversed_eq _), fun edges hedges => ?_⟩
      rw [hempty (hw.traversed_eq _) edges hedges]
      exact List.nodup_nil
  have hlabeled : t.ledger.Spells t.network (w.setLabel t.query.start 0 none) t.query.start [] :=
    hspells.congr Workspace.credited_setLabel Workspace.creditedOther_setLabel
      Workspace.traversed_setLabel
  exact hlabeled.congr rfl rfl rfl

end Walk

end SteinerSearch
