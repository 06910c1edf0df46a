import Mathlib.Order.Basic
import SteinerSearch.Network.Basic
import SteinerSearch.Proofs.Tables

/-!
# Networks that can be built

Networks are made by the construction steps alone.  In a network so made the
chain of a node enumerates the arcs leaving it, newest first, and the two arcs
of an edge are opposite to each other.

## Main definitions

* `Network.Built g` — `g` comes out of construction steps.
* `Network.Linked g` — the chains and tables of `g` fit together, after every
  single arc.
* `Network.WellFormed g` — what holds of every built network.

## Main results

* `Network.Built.wellFormed` — built networks are well-formed.
* `Network.Linked.outArcs_eq`, `Network.Linked.mem_outArcs` — the arcs leaving a
  node.
-/

namespace SteinerSearch

namespace Network

variable {α : Type} [Weight α]

/-- `g` comes out of construction steps. -/
inductive Built : Network α → Prop
  /-- Networks start without edges. -/
  | empty (n : Nat) : Built (empty n)
  /-- An edge was added. -/
  | addArcPair {g g' : Network α} {u v e : Nat} {forward backward : α} (hg : Built g)
      (h : g.addArcPair u v forward backward = .ok (e, g')) : Built g'
  /-- A node was given a kind. -/
  | setTerminal {g g' : Network α} {v : Nat} {kind : TerminalKind} (hg : Built g)
      (h : g.setTerminal v kind = .ok g') : Built g'
  /-- A node was given a prize. -/
  | setPrize {g g' : Network α} {v : Nat} {prize : α} (hg : Built g)
      (h : g.setPrize v prize = .ok g') : Built g'
  /-- A node was made the root. -/
  | setRoot {g g' : Network α} {v : Nat} (hg : Built g) (h : g.setRoot v = .ok g') : Built g'
  /-- A node was marked or unmarked. -/
  | setMark {g : Network α} (hg : Built g) (v : Nat) (mark : Bool) : Built (g.setMark v mark)

theorem Built.addEdge {g g' : Network α} {u v e : Nat} {cost : α} (hg : Built g)
    (h : g.addEdge u v cost = .ok (e, g')) : Built g' := hg.addArcPair h

theorem Built.masked {g : Network α} (hg : Built g) (a b : Nat) : Built (g.masked a b) :=
  (hg.setMark a false).setMark b false

/-! ### Chains -/

section Chains

omit [Weight α]

/-- The newest arc leaving `v` among the first `m` arcs. -/
def newestBefore (g : Network α) (v m : Nat) : Option Nat :=
  (List.range m).reverse.find? fun a => g.tailOf a == v

/-- The arcs leaving `v` among the first `m` arcs, newest first. -/
def arcsBefore (g : Network α) (v m : Nat) : List Nat :=
  (List.range m).reverse.filter fun a => g.tailOf a == v

theorem newestBefore_succ (g : Network α) (v m : Nat) :
    g.newestBefore v (m + 1) = if g.tailOf m = v then some m else g.newestBefore v m := by
  unfold newestBefore
  rw [List.range_succ, List.reverse_append, List.reverse_singleton, List.singleton_append,
    List.find?_cons]
  by_cases h : g.tailOf m = v
  · simp [h]
  · simp [h, beq_eq_false_iff_ne.mpr h]

theorem arcsBefore_succ (g : Network α) (v m : Nat) :
    g.arcsBefore v (m + 1) =
      if g.tailOf m = v then m :: g.arcsBefore v m else g.arcsBefore v m := by
  unfold arcsBefore
  rw [List.range_succ, List.reverse_append, List.reverse_singleton, List.singleton_append,
    List.filter_cons]
  by_cases h : g.tailOf m = v <;> simp [h]

theorem newestBefore_congr {g g' : Network α} {v m : Nat}
    (h : ∀ a, a < m → g'.tailOf a = g.tailOf a) : g'.newestBefore v m = g.newestBefore v m := by
  induction m with
  | zero => rfl
  | succ m ih =>
    rw [newestBefore_succ, newestBefore_succ, h m (Nat.lt_succ_self m),
      ih fun a ha => h a (Nat.lt_succ_of_lt ha)]

/-- The chains and tables of `g` fit together. -/
structure Linked (g : Network α) : Prop where
  tail_size : g.tail.size = g.arcCount
  cost_size : g.cost.size = g.arcCount
  next_size : g.nextOut.size = g.arcCount
  first_size : g.firstOut.size = g.nodeCount
  kind_size : g.kind.size = g.nodeCount
  prize_size : g.prize.size = g.nodeCount
  /-- The chain of a node starts with its newest arc. -/
  first : ∀ v, g.firstOf v = g.newestBefore v g.arcCount
  /-- It goes on with the next older one. -/
  next : ∀ a, a < g.arcCount → g.nextOf a = g.newestBefore (g.tailOf a) a
  /-- Arcs lead between two nodes of the network. -/
  tail_lt : ∀ a, a < g.arcCount → g.tailOf a < g.nodeCount
  head_lt : ∀ a, a < g.arcCount → g.headOf a < g.nodeCount
  head_ne_tail : ∀ a, a < g.arcCount → g.headOf a ≠ g.tailOf a

/-- A chain lists the arcs of its node, newest first. -/
theorem Linked.chain_eq {g : Network α} (hg : g.Linked) (v : Nat) :
    ∀ m fuel, m ≤ g.arcCount → m ≤ fuel → g.chain fuel (g.newestBefore v m) = g.arcsBefore v m := by
  intro m
  induction m with
  | zero =>
    intro fuel _ _
    cases fuel <;> rfl
  | succ m ih =>
    intro fuel hm hf
    rw [newestBefore_succ, arcsBefore_succ]
    by_cases h : g.tailOf m = v
    · obtain ⟨f, rfl⟩ : ∃ f, fuel = f + 1 := ⟨fuel - 1, by omega⟩
      rw [if_pos h, if_pos h, chain, hg.next m (by omega), h, ih f (by omega) (by omega)]
    · rw [if_neg h, if_neg h, ih fuel (by omega) (by omega)]

/-- The arcs leaving a node are those with this tail, newest first. -/
theorem Linked.outArcs_eq {g : Network α} (hg : g.Linked) (v : Nat) :
    g.outArcs v = (List.range g.arcCount).reverse.filter fun a => g.tailOf a == v := by
  unfold outArcs
  rw [hg.first v]
  exact hg.chain_eq v _ _ (Nat.le_refl _) (Nat.le_refl _)

theorem Linked.mem_outArcs {g : Network α} (hg : g.Linked) {v a : Nat} :
    a ∈ g.outArcs v ↔ a < g.arcCount ∧ g.tailOf a = v := by
  rw [hg.outArcs_eq]
  simp

/-! ### One more arc -/

section PushArc

variable {g : Network α} {u v : Nat} {c : α}

@[simp] theorem nodeCount_pushArc : (g.pushArc u v c).nodeCount = g.nodeCount := rfl

@[simp] theorem arcCount_pushArc : (g.pushArc u v c).arcCount = g.arcCount + 1 := by
  simp [pushArc, arcCount]

theorem headOf_pushArc {a : Nat} (ha : a < g.arcCount) :
    (g.pushArc u v c).headOf a = g.headOf a := by
  unfold arcCount at ha
  simp [pushArc, headOf, Array.getElem?_push, Nat.ne_of_lt ha]

theorem headOf_pushArc_last : (g.pushArc u v c).headOf g.arcCount = v := by
  simp [pushArc, headOf, arcCount]

theorem tailOf_pushArc (hg : g.Linked) {a : Nat} (ha : a < g.arcCount) :
    (g.pushArc u v c).tailOf a = g.tailOf a := by
  rw [← hg.tail_size] at ha
  simp [pushArc, tailOf, Array.getElem?_push, Nat.ne_of_lt ha]

theorem tailOf_pushArc_last (hg : g.Linked) : (g.pushArc u v c).tailOf g.arcCount = u := by
  simp [pushArc, tailOf, ← hg.tail_size]

theorem nextOf_pushArc (hg : g.Linked) {a : Nat} (ha : a < g.arcCount) :
    (g.pushArc u v c).nextOf a = g.nextOf a := by
  rw [← hg.next_size] at ha
  simp [pushArc, nextOf, Array.getElem?_push, Nat.ne_of_lt ha]

theorem nextOf_pushArc_last (hg : g.Linked) :
    (g.pushArc u v c).nextOf g.arcCount = g.firstOf u := by
  simp [pushArc, nextOf, ← hg.next_size]

theorem firstOf_pushArc (hg : g.Linked) (hu : u < g.nodeCount) (w : Nat) :
    (g.pushArc u v c).firstOf w = if w = u then some g.arcCount else g.firstOf w := by
  rw [← hg.first_size] at hu
  by_cases h : w = u
  · rw [if_pos h, h]
    exact Array.getD_setIfInBounds_self hu _ _
  · rw [if_neg h]
    exact Array.getD_setIfInBounds_of_ne h _ _

theorem Linked.pushArc (hg : g.Linked) (hu : u < g.nodeCount) (hv : v < g.nodeCount)
    (huv : v ≠ u) : (g.pushArc u v c).Linked := by
  have hold : ∀ {w m}, m ≤ g.arcCount →
      (g.pushArc u v c).newestBefore w m = g.newestBefore w m := fun hm =>
    newestBefore_congr fun a ha => tailOf_pushArc hg (by omega)
  -- each statement about arcs splits into the old arcs and the new one
  have hcases : ∀ {a}, a < (g.pushArc u v c).arcCount → a < g.arcCount ∨ a = g.arcCount := by
    intro a ha
    rw [arcCount_pushArc] at ha
    omega
  refine ⟨?_, ?_, ?_, ?_, hg.kind_size, hg.prize_size, fun w => ?_, fun a ha => ?_, fun a ha => ?_,
    fun a ha => ?_, fun a ha => ?_⟩
  · rw [arcCount_pushArc, ← hg.tail_size]
    simp [Network.pushArc]
  · rw [arcCount_pushArc, ← hg.cost_size]
    simp [Network.pushArc]
  · rw [arcCount_pushArc, ← hg.next_size]
    simp [Network.pushArc]
  · rw [nodeCount_pushArc, ← hg.first_size]
    simp [Network.pushArc]
  · rw [firstOf_pushArc hg hu, arcCount_pushArc, newestBefore_succ, tailOf_pushArc_last hg,
      hold (Nat.le_refl _), hg.first w]
    simp only [eq_comm]
  · rcases hcases ha with h | rfl
    · rw [nextOf_pushArc hg h, tailOf_pushArc hg h, hold (Nat.le_of_lt h), hg.next a h]
    · rw [nextOf_pushArc_last hg, tailOf_pushArc_last hg, hold (Nat.le_refl _), hg.first u]
  · rcases hcases ha with h | rfl
    · rw [tailOf_pushArc hg h]
      exact hg.tail_lt a h
    · rw [tailOf_pushArc_last hg]
      exact hu
  · rcases hcases ha with h | rfl
    · rw [headOf_pushArc h]
      exact hg.head_lt a h
    · rw [headOf_pushArc_last]
      exact hv
  · rcases hcases ha with h | rfl
    · rw [headOf_pushArc h, tailOf_pushArc hg h]
      exact hg.head_ne_tail a h
    · rw [headOf_pushArc_last, tailOf_pushArc_last hg]
      exact huv

end PushArc

end Chains

/-! ### Built networks -/

/-- What holds of every built network. -/
structure WellFormed (g : Network α) : Prop extends Linked g where
  /-- Arcs come in pairs. -/
  even : g.arcCount % 2 = 0
  /-- The two arcs of an edge are opposite to each other. -/
  head_rev : ∀ a, a < g.arcCount → g.headOf (Arc.rev a) = g.tailOf a
  /-- Costs were checked. -/
  cost_admissible : ∀ a, a < g.arcCount → Weight.admissible (g.costOf a) = true

theorem WellFormed.rev_lt {g : Network α} (hg : g.WellFormed) {a : Nat} (ha : a < g.arcCount) :
    Arc.rev a < g.arcCount := by
  have := hg.even
  unfold Arc.rev
  split <;> omega

theorem WellFormed.tail_rev {g : Network α} (hg : g.WellFormed) {a : Nat} (ha : a < g.arcCount) :
    g.tailOf (Arc.rev a) = g.headOf a := by
  rw [← hg.head_rev _ (hg.rev_lt ha), Arc.rev_rev]

theorem costOf_pushArc {g : Network α} (hg : g.Linked) {u v : Nat} {c : α} {a : Nat}
    (ha : a < g.arcCount) : (g.pushArc u v c).costOf a = g.costOf a := by
  rw [← hg.cost_size] at ha
  simp [pushArc, costOf, Array.getElem?_push, Nat.ne_of_lt ha]

theorem costOf_pushArc_last {g : Network α} (hg : g.Linked) {u v : Nat} {c : α} :
    (g.pushArc u v c).costOf g.arcCount = c := by
  simp [pushArc, costOf, ← hg.cost_size]

theorem wellFormed_empty (n : Nat) : (empty n : Network α).WellFormed := by
  have hnone : ∀ {a}, ¬ a < (empty n : Network α).arcCount := by
    intro a
    simp [empty, arcCount]
  refine ⟨⟨rfl, rfl, rfl, by simp [empty, nodeCount], by simp [empty, nodeCount],
    by simp [empty, nodeCount], fun v => ?_, fun a ha => absurd ha hnone,
    fun a ha => absurd ha hnone, fun a ha => absurd ha hnone, fun a ha => absurd ha hnone⟩, rfl,
    fun a ha => absurd ha hnone, fun a ha => absurd ha hnone⟩
  exact Array.getD_replicate _ _ _

/-- What the checks of `addArcPair` let through. -/
theorem addArcPair_eq_ok {g g' : Network α} {u v e : Nat} {forward backward : α}
    (h : g.addArcPair u v forward backward = .ok (e, g')) :
    u < g.nodeCount ∧ v < g.nodeCount ∧ u ≠ v ∧ Weight.admissible forward = true ∧
      Weight.admissible backward = true ∧
      g' = (g.pushArc u v forward).pushArc v u backward := by
  simp only [addArcPair, requireNode, requireCost, bind, Except.bind, pure, Except.pure, throw,
    throwThe, MonadExceptOf.throw] at h
  have hu : u < g.nodeCount := by
    by_contra hu
    simp [hu] at h
  have hv : v < g.nodeCount := by
    by_contra hv
    simp [hu, hv] at h
  have huv : u ≠ v := by
    intro huv
    simp [hv, huv] at h
  have hf : Weight.admissible forward = true := by
    by_contra hf
    simp [hu, hv, huv, hf] at h
  have hb : Weight.admissible backward = true := by
    by_contra hb
    simp [hu, hv, huv, hf, hb] at h
  simp only [hu, hv, huv, hf, hb, if_true, if_false, Except.ok.injEq, Prod.mk.injEq] at h
  exact ⟨hu, hv, huv, hf, hb, h.2.symm⟩

/-- Both arcs of a new edge are in place. -/
theorem WellFormed.addArcPair {g g' : Network α} {u v e : Nat} {forward backward : α}
    (hg : g.WellFormed) (h : g.addArcPair u v forward backward = .ok (e, g')) :
    g'.WellFormed := by
  obtain ⟨hu, hv, huv, hf, hb, rfl⟩ := addArcPair_eq_ok h
  have h₁ : (g.pushArc u v forward).Linked := hg.toLinked.pushArc hu hv huv.symm
  have h₂ := h₁.pushArc (c := backward) hv hu huv
  have heven := hg.even
  have hcases : ∀ {a}, a < ((g.pushArc u v forward).pushArc v u backward).arcCount →
      a < g.arcCount ∨ a = g.arcCount ∨ a = g.arcCount + 1 := by
    intro a ha
    simp only [arcCount_pushArc] at ha
    omega
  refine ⟨h₂, by simp only [arcCount_pushArc]; omega, fun a ha => ?_, fun a ha => ?_⟩
  · rcases hcases ha with h | rfl | rfl
    · have hr := hg.rev_lt h
      rw [headOf_pushArc (by rw [arcCount_pushArc]; omega), headOf_pushArc hr,
        tailOf_pushArc h₁ (by rw [arcCount_pushArc]; omega), tailOf_pushArc hg.toLinked h,
        hg.head_rev a h]
    · have hr : Arc.rev g.arcCount = (g.pushArc u v forward).arcCount := by
        rw [arcCount_pushArc, Arc.rev, if_pos heven]
      rw [hr, headOf_pushArc_last, tailOf_pushArc h₁ (by rw [arcCount_pushArc]; omega),
        tailOf_pushArc_last hg.toLinked]
    · have hr : Arc.rev (g.arcCount + 1) = g.arcCount := by
        rw [Arc.rev, if_neg (by omega), Nat.add_sub_cancel]
      rw [hr, headOf_pushArc (by rw [arcCount_pushArc]; omega), headOf_pushArc_last,
        ← arcCount_pushArc (u := u) (v := v) (c := forward), tailOf_pushArc_last h₁]
  · rcases hcases ha with h | rfl | rfl
    · rw [costOf_pushArc h₁ (by rw [arcCount_pushArc]; omega), costOf_pushArc hg.toLinked h]
      exact hg.cost_admissible a h
    · rw [costOf_pushArc h₁ (by rw [arcCount_pushArc]; omega), costOf_pushArc_last hg.toLinked]
      exact hf
    · rw [← arcCount_pushArc (u := u) (v := v) (c := forward), costOf_pushArc_last h₁]
      exact hb

/-- Networks that differ only in marks, kinds, prizes and the root. -/
theorem WellFormed.of_sameArcs {g g' : Network α} (hg : g.WellFormed)
    (hmark : g'.mark.size = g.mark.size) (hkind : g'.kind.size = g.kind.size)
    (hprize : g'.prize.size = g.prize.size) (hfirst : g'.firstOut = g.firstOut)
    (hnext : g'.nextOut = g.nextOut) (hhead : g'.head = g.head) (htail : g'.tail = g.tail)
    (hcost : g'.cost = g.cost) : g'.WellFormed := by
  obtain ⟨mark, kind, prize, degree, firstOut, nextOut, head, tail, cost, root⟩ := g'
  dsimp only at hmark hkind hprize hfirst hnext hhead htail hcost
  subst hfirst hnext hhead htail hcost
  have hn : (⟨mark, kind, prize, degree, g.firstOut, g.nextOut, g.head, g.tail, g.cost, root⟩ :
      Network α).nodeCount = g.nodeCount := hmark
  refine ⟨⟨hg.tail_size, hg.cost_size, hg.next_size, by rw [hn]; exact hg.first_size,
    by rw [hn]; exact hkind.trans hg.kind_size, by rw [hn]; exact hprize.trans hg.prize_size,
    hg.first, hg.next, by rw [hn]; exact hg.tail_lt, by rw [hn]; exact hg.head_lt,
    hg.head_ne_tail⟩, hg.even, hg.head_rev, hg.cost_admissible⟩

theorem WellFormed.setMark {g : Network α} (hg : g.WellFormed) (v : Nat) (mark : Bool) :
    (g.setMark v mark).WellFormed :=
  hg.of_sameArcs (Array.size_setIfInBounds ..) rfl rfl rfl rfl rfl rfl rfl

omit [Weight α] in
/-- What follows a check of a node took place, so the check was passed. -/
theorem requireNode_bind_eq_ok {β : Type} {g : Network α} {v : Nat}
    {f : Unit → Except (NetworkError α) β} {b : β} (h : (g.requireNode v >>= f) = .ok b) :
    f () = .ok b := by
  unfold requireNode at h
  split at h
  · exact h
  · cases h

omit [Weight α] in
theorem lt_of_requireNode_bind {β : Type} {g : Network α} {v : Nat}
    {f : Unit → Except (NetworkError α) β} {b : β} (h : (g.requireNode v >>= f) = .ok b) :
    v < g.nodeCount := by
  unfold requireNode at h
  split at h
  · next hv => exact hv
  · cases h

theorem Built.wellFormed {g : Network α} (hg : g.Built) : g.WellFormed := by
  induction hg with
  | empty n => exact wellFormed_empty n
  | addArcPair _ h ih => exact ih.addArcPair h
  | setTerminal _ h ih =>
    unfold Network.setTerminal at h
    have h := requireNode_bind_eq_ok h
    obtain rfl := Except.ok.inj h
    exact ih.of_sameArcs rfl (Array.size_setIfInBounds ..) rfl rfl rfl rfl rfl rfl
  | setPrize _ h ih =>
    unfold Network.setPrize at h
    have h := requireNode_bind_eq_ok h
    split at h
    · obtain rfl := Except.ok.inj h
      exact ih.of_sameArcs rfl rfl (Array.size_setIfInBounds ..) rfl rfl rfl rfl rfl
    · cases h
  | setRoot _ h ih =>
    unfold Network.setRoot at h
    have h := requireNode_bind_eq_ok h
    obtain rfl := Except.ok.inj h
    exact ih.of_sameArcs rfl rfl rfl rfl rfl rfl rfl rfl
  | setMark _ v mark ih => exact ih.setMark v mark

/-- The root is a node of the network. -/
theorem Built.root_lt {g : Network α} (hg : g.Built) {r : Nat} (hr : g.root = some r) :
    r < g.nodeCount := by
  induction hg with
  | empty n => cases hr
  | addArcPair _ h ih =>
    obtain ⟨-, -, -, -, -, rfl⟩ := addArcPair_eq_ok h
    exact ih hr
  | setTerminal _ h ih =>
    unfold Network.setTerminal at h
    have h := requireNode_bind_eq_ok h
    obtain rfl := Except.ok.inj h
    exact ih hr
  | setPrize _ h ih =>
    unfold Network.setPrize at h
    have h := requireNode_bind_eq_ok h
    split at h
    · obtain rfl := Except.ok.inj h
      exact ih hr
    · cases h
  | setRoot _ h _ =>
    unfold Network.setRoot at h
    have hv := lt_of_requireNode_bind h
    have h := requireNode_bind_eq_ok h
    obtain rfl := Except.ok.inj h
    obtain rfl := Option.some.inj hr
    exact hv
  | @setMark g _ v mark ih =>
    have hcount : (g.setMark v mark).nodeCount = g.nodeCount := Array.size_setIfInBounds
    rw [hcount]
    exact ih hr

end Network

end SteinerSearch
