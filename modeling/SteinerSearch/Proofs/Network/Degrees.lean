import SteinerSearch.Proofs.Network.Construction

/-!
# Degrees

Each node has a counter of the arcs that leave it.  In a built network the counters are
right, so a node whose counter is zero has no arc in either direction.

## Main definitions

* `Network.Counted g` — the counters of `g` are right.

## Main results

* `Network.Built.degreeOf_eq` — the counter of a node is the number of its arcs.
* `Network.Built.degreeOf_tail_ne_zero`, `Network.Built.degreeOf_head_ne_zero` — both ends
  of an arc have arcs.
-/

namespace SteinerSearch

namespace Network

variable {α : Type} {g : Network α} {u v : Nat} {c : α}

theorem arcsBefore_congr {g' : Network α} {m : Nat}
    (h : ∀ a, a < m → g'.tailOf a = g.tailOf a) : g'.arcsBefore v m = g.arcsBefore v m := by
  induction m with
  | zero => rfl
  | succ m ih =>
    rw [arcsBefore_succ, arcsBefore_succ, h m (Nat.lt_succ_self m),
      ih fun a ha => h a (Nat.lt_succ_of_lt ha)]

/-- Every node knows how many arcs leave it. -/
structure Counted (g : Network α) : Prop where
  size : g.degree.size = g.nodeCount
  degree : ∀ v, g.degreeOf v = (g.arcsBefore v g.arcCount).length

/-- A new arc is counted at its tail. -/
theorem Counted.pushArc (h : g.Counted) (hg : g.Linked) (hu : u < g.nodeCount) :
    (g.pushArc u v c).Counted := by
  refine ⟨?_, fun x => ?_⟩
  · rw [nodeCount_pushArc, ← h.size]
    exact Array.size_setIfInBounds
  · have hold : (g.pushArc u v c).arcsBefore x g.arcCount = g.arcsBefore x g.arcCount :=
      arcsBefore_congr fun a ha => tailOf_pushArc hg ha
    rw [arcCount_pushArc, arcsBefore_succ, tailOf_pushArc_last hg, hold]
    by_cases hx : u = x
    · subst hx
      rw [if_pos rfl, List.length_cons, ← h.degree u]
      exact Array.getD_setIfInBounds_self (by rwa [h.size]) _ 0
    · rw [if_neg hx, ← h.degree x]
      exact Array.getD_setIfInBounds_of_ne (Ne.symm hx) _ 0

variable [Weight α]

theorem counted_empty (n : Nat) : (empty n : Network α).Counted := by
  refine ⟨?_, fun v => ?_⟩
  · exact Array.size_replicate.trans Array.size_replicate.symm
  · exact Array.getD_replicate n v 0

theorem Built.counted (hg : g.Built) : g.Counted := by
  induction hg with
  | empty n => exact counted_empty n
  | addArcPair hg h ih =>
    obtain ⟨hu, hv, huv, -, -, rfl⟩ := addArcPair_eq_ok h
    have hlinked := hg.wellFormed.toLinked
    exact (ih.pushArc hlinked hu).pushArc (hlinked.pushArc hu hv huv.symm) hv
  | setTerminal _ h ih =>
    unfold Network.setTerminal at h
    have h := requireNode_bind_eq_ok h
    obtain rfl := Except.ok.inj h
    exact ⟨ih.size, ih.degree⟩
  | setPrize _ h ih =>
    unfold Network.setPrize at h
    have h := requireNode_bind_eq_ok h
    split at h
    · obtain rfl := Except.ok.inj h
      exact ⟨ih.size, ih.degree⟩
    · cases h
  | setRoot _ h ih =>
    unfold Network.setRoot at h
    have h := requireNode_bind_eq_ok h
    obtain rfl := Except.ok.inj h
    exact ⟨ih.size, ih.degree⟩
  | @setMark g _ v mark ih =>
    have hcount : (g.setMark v mark).nodeCount = g.nodeCount := Array.size_setIfInBounds
    exact ⟨ih.size.trans hcount.symm, ih.degree⟩

/-- The counter of a node is the number of arcs that leave it. -/
theorem Built.degreeOf_eq (hg : g.Built) (v : Nat) : g.degreeOf v = (g.outArcs v).length := by
  rw [hg.counted.degree, hg.wellFormed.toLinked.outArcs_eq]
  rfl

theorem Built.degreeOf_tail_ne_zero (hg : g.Built) {a : Nat} (ha : a < g.arcCount) :
    g.degreeOf (g.tailOf a) ≠ 0 := by
  have hmem : a ∈ g.outArcs (g.tailOf a) := hg.wellFormed.mem_outArcs.mpr ⟨ha, rfl⟩
  rw [hg.degreeOf_eq]
  exact Nat.ne_of_gt (List.length_pos_of_mem hmem)

/-- The opposite arc leaves the head. -/
theorem Built.degreeOf_head_ne_zero (hg : g.Built) {a : Nat} (ha : a < g.arcCount) :
    g.degreeOf (g.headOf a) ≠ 0 := by
  rw [← hg.wellFormed.tail_rev ha]
  exact hg.degreeOf_tail_ne_zero (hg.wellFormed.rev_lt ha)

end Network

end SteinerSearch
