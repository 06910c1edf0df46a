import SteinerSearch.Proofs.Network.Construction
import SteinerSearch.Proofs.Walk.Frontier

/-!
# Harmless refusals

A ledger refuses an arc to keep a prize from being credited twice, or an edge from being
taken twice.  This may cut off the way that a plain path takes.  It does not where no
required node on the way has a prize to offer, where all prizes fit on the traces, and
where there are no prizes at all.

The reasons differ.  Without a prize no required node is ever claimed.  A required node on a
trace that is not saturated was extracted before, so it is settled and its label is good.
And an edge on the trace of a node has both its ends at labels that are no worse than that
of the node, as long as no credit has lowered one of them.

## Main definitions

* `Network.prizeNodes g a b` — the nodes other than `a` and `b` that carry a prize.
* `Network.Unpaid g a b` — no terminal other than `a` and `b` has one.
* `Walk.Listed t K w` — the traces are complete, and required nodes on them were settled.
* `Walk.Trodden t w` — the ends of traversed edges have good labels.

## Main results

* `Walk.harmless_firstVisit`, `Walk.harmless_of_required`, `Walk.harmless_combined` — with
  prizes.
* `Walk.exists_harmless_of_unpaid` — without prizes, for each ledger.
-/

namespace SteinerSearch

namespace Network

/-- The nodes other than `a` and `b` that carry a prize. -/
def prizeNodes (g : Network ℚ) (a b : Nat) : List Nat :=
  g.nodes.filter fun v => v ≠ a ∧ v ≠ b ∧ g.prizeOf v ≠ 0

/-- Terminals other than `a` and `b` have no prize. -/
def Unpaid (g : Network ℚ) (a b : Nat) : Prop :=
  ∀ v, g.isTerminal v = true → v ≠ a → v ≠ b → g.prizeOf v = 0

variable {g : Network ℚ} {a b v : Nat}

theorem mem_prizeNodes : v ∈ g.prizeNodes a b ↔
    v < g.nodeCount ∧ v ≠ a ∧ v ≠ b ∧ g.prizeOf v ≠ 0 := by
  simp [prizeNodes, nodes]

theorem prizeNodes_masked {c d : Nat} : (g.masked c d).prizeNodes a b = g.prizeNodes a b := by
  unfold prizeNodes nodes
  rw [nodeCount_masked]
  rfl

theorem isTerminal_of_isRequired (h : g.isRequired v = true) : g.isTerminal v = true := by
  unfold isRequired at h
  unfold isTerminal
  cases hkind : g.kindOf v <;> simp_all

end Network

theorem Weight.negligible_zero : Weight.negligible (0 : ℚ) = true := by
  have htol := Weight.tolerance_pos
  simp only [Weight.negligible, Bool.and_eq_true, decide_eq_true_eq]
  exact ⟨by linarith, htol.le⟩

/-- A list without repetitions is shorter than one that has all its members and another one. -/
theorem length_lt_of_nodup_of_subset {xs ys : List Nat} {y : Nat} (hnodup : xs.Nodup)
    (hsub : xs ⊆ ys) (hy : y ∈ ys) (hnew : y ∉ xs) : xs.length < ys.length :=
  ((List.nodup_cons.mpr ⟨hnew, hnodup⟩).subperm (List.cons_subset.mpr ⟨hy, hsub⟩)).length_le

namespace Walk

variable {t : Walk ℚ} {w : Workspace ℚ} {k a v : Nat} {d : ℚ} {K : Nat}

/-! ### Credits -/

/-- A credit is for a prize of a node that is neither start nor goal. -/
theorem of_credits (ht : Measured t) (hi : Improves t w a d)
    (h : t.credits w (t.network.tailOf a) (t.network.headOf a) = true) :
    t.network.headOf a ∈ t.network.prizeNodes t.query.start t.query.goal ∧
      t.network.isTerminal (t.network.headOf a) = true ∧
      t.ledger.mayCredit t.network w (t.network.tailOf a) (t.network.headOf a) = true := by
  simp only [Walk.credits, Bool.and_eq_true, decide_eq_true_eq, Bool.not_eq_true'] at h
  obtain ⟨⟨⟨hgoal, hterminal⟩, hprize⟩, hmay⟩ := h
  refine ⟨Network.mem_prizeNodes.mpr ⟨ht.linked.head_lt a hi.arc, ?_, hgoal, ?_⟩, hterminal, hmay⟩
  · exact ht.head_ne_start hi.passable
  · intro hzero
    rw [hzero, Weight.negligible_zero] at hprize
    cases hprize

theorem credits_eq_false_of_unpaid (ht : Measured t) (hi : Improves t w a d)
    (hfree : t.network.Unpaid t.query.start t.query.goal) :
    t.credits w (t.network.tailOf a) (t.network.headOf a) = false := by
  rw [Bool.eq_false_iff]
  intro hcredit
  obtain ⟨hmem, hterminal, -⟩ := of_credits ht hi hcredit
  obtain ⟨-, hstart, hgoal, hprize⟩ := Network.mem_prizeNodes.mp hmem
  exact hprize (hfree _ hterminal hstart hgoal)

/-- Without a credit a label is one arc further than that of the tail. -/
theorem Improves.eq_of_unpaid (hi : Improves t w a d) (ht : Measured t)
    (hfree : t.network.Unpaid t.query.start t.query.goal) :
    d = w.distOf (t.network.tailOf a) + t.arcCost a := by
  rw [hi.label, credits_eq_false_of_unpaid ht hi hfree, labelOf, if_neg Bool.false_ne_true]

/-! ### Prizes of optional nodes only -/

/-- If no required node has a prize, none is ever claimed. -/
theorem harmless_firstVisit (ht : Measured t) (hledger : t.ledger = .firstVisit)
    (hfree : ∀ v, t.network.isRequired v = true → v ≠ t.query.start → v ≠ t.query.goal →
      t.network.prizeOf v = 0) :
    Harmless t fun w => ∀ v, w.isClaimed v = true → t.network.isRequired v = false where
  depart hJ _ := hJ
  improve := by
    intro w a d _ hJ _ hi v hv
    have hclaimed : (t.improve a d w).claimed =
        if t.credits w (t.network.tailOf a) (t.network.headOf a) = true
          then w.claimed.setIfInBounds (t.network.headOf a) true else w.claimed := by
      unfold Walk.improve relabeled
      rw [hledger]
      simp only [Ledger.record, Workspace.enqueue, Workspace.claim]
      split <;> simp
    rw [Workspace.isClaimed, hclaimed] at hv
    split at hv
    · next hcredit =>
      obtain ⟨hmem, -, -⟩ := of_credits ht hi hcredit
      obtain ⟨-, hstart, hgoal, hprize⟩ := Network.mem_prizeNodes.mp hmem
      by_cases hva : v = t.network.headOf a
      · rw [hva, Bool.eq_false_iff]
        exact fun hreq => hprize (hfree _ hreq hstart hgoal)
      · rw [Array.getD_setIfInBounds_of_ne hva] at hv
        exact hJ v hv
    · exact hJ v hv
  refused := by
    intro w a hJ _ _ _ _ _ hrefuses
    rw [hledger] at hrefuses
    simp only [Ledger.refuses, Bool.and_eq_true] at hrefuses
    exact absurd ((hJ _ hrefuses.2).symm.trans hrefuses.1) Bool.false_ne_true

/-! ### No required nodes in between -/

/-- Arcs to nodes that are not required are not refused for the sake of prizes. -/
theorem harmless_of_required (ht : Measured t) (hledger : t.ledger = .combined)
    (hfree : ∀ v, t.network.isRequired v = true → v = t.query.start ∨ v = t.query.goal) :
    Harmless t fun _ => True where
  depart _ _ := trivial
  improve _ _ _ _ := trivial
  refused := by
    intro w a _ _ _ hpass _ hgoal hrefuses
    rw [hledger] at hrefuses
    simp only [Ledger.refuses, Bool.and_eq_true] at hrefuses
    exact absurd (hfree _ hrefuses.1.1) (not_or.mpr ⟨ht.head_ne_start hpass, hgoal⟩)

/-! ### Traces that hold all prizes -/

/-- No trace is saturated, and the required nodes on it were settled, the node whose trace it
is apart. -/
structure Listed (t : Walk ℚ) (K : Nat) (w : Workspace ℚ) : Prop where
  capacity : w.credited.capacity = K
  ids : ∀ v, ∃ ids, w.credited.get? v = some ids ∧ ids.Nodup ∧
    ∀ u ∈ ids, u ∈ t.network.prizeNodes t.query.start t.query.goal ∧
      (u = v ∨ t.network.isRequired u = false ∨ w.isSettled u = true)

theorem Listed.depart {q : NodeQueue} (h : Listed t K w) (hd : Departed t w k q) :
    Listed t K { w with queue := q } := by
  refine ⟨h.capacity, fun v => ?_⟩
  obtain ⟨ids, hids, hnodup, hmem⟩ := h.ids v
  refine ⟨ids, hids, hnodup, fun u hu => ?_⟩
  obtain ⟨hprize, hself | hfree | hsettled⟩ := hmem u hu
  · exact ⟨hprize, Or.inl hself⟩
  · exact ⟨hprize, Or.inr (Or.inl hfree)⟩
  · cases hreq : t.network.isRequired u with
    | true => exact ⟨hprize, Or.inr (Or.inr (hd.settled u hreq hsettled))⟩
    | false => exact ⟨hprize, Or.inr (Or.inl rfl)⟩

theorem credited_improve_combined (hledger : t.ledger = .combined) :
    (t.improve a d w).credited = Ledger.extended w.credited (t.network.tailOf a)
      (t.network.headOf a) (t.network.headOf a)
      (t.credits w (t.network.tailOf a) (t.network.headOf a)) := by
  unfold Walk.improve relabeled
  rw [hledger, Workspace.credited_enqueue, Ledger.credited_combined, Workspace.credited_setLabel]

/-- The trace that a new label gets is that of the tail, with the head if it is credited.  There
is room for it, since the prize of the head was not on the trace before. -/
theorem Listed.ids_head (h : Listed t K w) (hs : Sound t w) (ht : Measured t)
    (hledger : t.ledger = .combined)
    (hcount : (t.network.prizeNodes t.query.start t.query.goal).length ≤ K)
    (hi : Improves t w a d) :
    ∃ old ids, w.credited.get? (t.network.tailOf a) = some old ∧
      (t.improve a d w).credited.get? (t.network.headOf a) = some ids ∧ ids.Nodup ∧
      ∀ u ∈ ids, u ∈ old ∨
        u = t.network.headOf a ∧ u ∈ t.network.prizeNodes t.query.start t.query.goal := by
  have hne := (ht.linked.head_ne_tail a hi.arc).symm
  have hm : t.network.headOf a < w.capacity := lt_of_lt_of_le (ht.linked.head_lt a hi.arc) hs.room
  have htrace := hs.traced.credited
  obtain ⟨replaced, hreplaced, -⟩ := h.ids (t.network.headOf a)
  obtain ⟨old, hold, hnodup, hmem⟩ := h.ids (t.network.tailOf a)
  rw [credited_improve_combined hledger]
  cases hcredit : t.credits w (t.network.tailOf a) (t.network.headOf a) with
  | false =>
    refine ⟨old, old, hold, ?_, hnodup, fun u hu => Or.inl hu⟩
    rw [Ledger.get?_extended htrace hm hne hreplaced hold (fun h => by cases h),
      if_neg Bool.false_ne_true]
  | true =>
    obtain ⟨hprize, -, hmay⟩ := of_credits ht hi hcredit
    have hnew : t.network.headOf a ∉ old := by
      intro hin
      have hcontains : w.credited.mayContain (t.network.tailOf a) (t.network.headOf a) = true :=
        TraceLists.mayContain_iff.mpr fun ids hids => by
          rw [hold] at hids
          exact Option.some.inj hids ▸ hin
      rw [hledger, Ledger.mayCredit, hcontains] at hmay
      cases hmay
    have hroom : old.length < w.credited.capacity := by
      have hlt := length_lt_of_nodup_of_subset hnodup (fun u hu => (hmem u hu).1) hprize hnew
      rw [h.capacity]
      omega
    refine ⟨old, old ++ [t.network.headOf a], hold, ?_, ?_, fun u hu => ?_⟩
    · rw [Ledger.get?_extended htrace hm hne hreplaced hold (fun _ => hroom), if_pos rfl]
    · rw [← List.concat_eq_append]
      exact hnodup.concat hnew
    · rcases List.mem_append.mp hu with hu | hu
      · exact Or.inl hu
      · obtain rfl := List.mem_singleton.mp hu
        exact Or.inr ⟨rfl, hprize⟩

theorem Listed.improve (h : Listed t K w) (hs : Sound t w) (ht : Measured t)
    (hledger : t.ledger = .combined)
    (hcount : (t.network.prizeNodes t.query.start t.query.goal).length ≤ K)
    (htail : t.network.isRequired (t.network.tailOf a) = true →
      w.isSettled (t.network.tailOf a) = true) (hi : Improves t w a d) :
    Listed t K (t.improve a d w) := by
  have hne := (ht.linked.head_ne_tail a hi.arc).symm
  have hm : t.network.headOf a < w.capacity := lt_of_lt_of_le (ht.linked.head_lt a hi.arc) hs.room
  have htrace := hs.traced.credited
  have hcredited := credited_improve_combined (a := a) (d := d) (w := w) hledger
  refine ⟨?_, fun v => ?_⟩
  · rw [hcredited, Ledger.capacity_extended htrace hm hne, h.capacity]
  · simp only [(hs.relabeled_improve ht hi).settled]
    by_cases hv : v = t.network.headOf a
    · subst hv
      obtain ⟨old, ids, hold, hids, hnodup, hfrom⟩ := h.ids_head hs ht hledger hcount hi
      refine ⟨ids, hids, hnodup, fun u hu => ?_⟩
      rcases hfrom u hu with hu | ⟨hself, hprize⟩
      · -- what was credited before the tail was extracted before the tail, or is the tail
        obtain ⟨old', hold', -, hmem⟩ := h.ids (t.network.tailOf a)
        obtain rfl := Option.some.inj (hold.symm.trans hold')
        obtain ⟨hprize, hself | hknown⟩ := hmem u hu
        · subst hself
          refine ⟨hprize, Or.inr ?_⟩
          cases hreq : t.network.isRequired (t.network.tailOf a) with
          | true => exact Or.inr (htail hreq)
          | false => exact Or.inl rfl
        · exact ⟨hprize, Or.inr hknown⟩
      · exact ⟨hprize, Or.inl hself⟩
    · obtain ⟨ids, hids, hnodup, hmem⟩ := h.ids v
      refine ⟨ids, ?_, hnodup, hmem⟩
      rw [hcredited, Ledger.get?_extended_of_ne htrace hm hne hv, hids]

/-- A required node on a complete trace is settled, so arcs to it are not even looked at. -/
theorem harmless_combined (ht : Measured t) (hledger : t.ledger = .combined)
    (hcount : (t.network.prizeNodes t.query.start t.query.goal).length ≤ K) :
    Harmless t (Listed t K) where
  depart hJ hd := hJ.depart hd
  improve hs hJ htail hi := hJ.improve hs ht hledger hcount htail hi
  refused := by
    intro w a hJ ha _ _ hopen _ hrefuses
    rw [hledger] at hrefuses
    simp only [Ledger.refuses, Bool.and_eq_true] at hrefuses
    obtain ⟨⟨hreq, -⟩, hcontains⟩ := hrefuses
    obtain ⟨ids, hids, -, hmem⟩ := hJ.ids (t.network.tailOf a)
    have hin := TraceLists.mayContain_iff.mp hcontains ids hids
    obtain ⟨-, hself | hfree | hsettled⟩ := hmem _ hin
    · exact absurd hself (ht.linked.head_ne_tail a ha)
    · exact absurd (hfree.symm.trans hreq) Bool.false_ne_true
    · exact absurd (hopen.symm.trans hsettled) Bool.false_ne_true

/-! ### No prizes -/

/-- Nothing is on the traces of credits. -/
def Uncredited (w : Workspace ℚ) : Prop := ∀ v, w.credited.get? v = some []

theorem Uncredited.improve (h : Uncredited w) (hs : Sound t w) (ht : Measured t)
    (hfree : t.network.Unpaid t.query.start t.query.goal) (hi : Improves t w a d) :
    Uncredited (t.improve a d w) := by
  have hne := (ht.linked.head_ne_tail a hi.arc).symm
  have hm : t.network.headOf a < w.capacity := lt_of_lt_of_le (ht.linked.head_lt a hi.arc) hs.room
  -- the traces stay, or are copied
  have hcredited : (t.improve a d w).credited = w.credited ∨
      (t.improve a d w).credited = Ledger.extended w.credited (t.network.tailOf a)
        (t.network.headOf a) (t.network.headOf a) false := by
    unfold Walk.improve relabeled
    rw [credits_eq_false_of_unpaid ht hi hfree, Workspace.credited_enqueue]
    cases t.ledger with
    | firstVisit => exact Or.inl Workspace.credited_setLabel
    | combined =>
      rw [Ledger.credited_combined, Workspace.credited_setLabel]
      exact Or.inr rfl
    | split =>
      rw [Ledger.credited_split, Workspace.credited_setLabel]
      exact Or.inr rfl
  intro v
  rcases hcredited with heq | heq
  · rw [heq, h v]
  · rw [heq]
    by_cases hv : v = t.network.headOf a
    · rw [hv, Ledger.get?_extended hs.traced.credited hm hne (h _) (h _) (fun h => by cases h),
        if_neg Bool.false_ne_true]
    · rw [Ledger.get?_extended_of_ne hs.traced.credited hm hne hv, h v]

theorem Uncredited.mayContain_eq_false (h : Uncredited w) (v x : Nat) :
    w.credited.mayContain v x = false := by
  rw [Bool.eq_false_iff]
  intro hcontains
  exact List.not_mem_nil (TraceLists.mayContain_iff.mp hcontains [] (h v))

theorem harmless_combined_of_unpaid (ht : Measured t) (hledger : t.ledger = .combined)
    (hfree : t.network.Unpaid t.query.start t.query.goal) : Harmless t Uncredited where
  depart hJ _ := hJ
  improve hs hJ _ hi := hJ.improve hs ht hfree hi
  refused := by
    intro w a hJ _ _ _ _ _ hrefuses
    rw [hledger] at hrefuses
    simp only [Ledger.refuses, hJ.mayContain_eq_false, Bool.and_false] at hrefuses
    cases hrefuses

/-- The ends of the edges on the trace of a node are no further than the node. -/
def Trodden (t : Walk ℚ) (w : Workspace ℚ) : Prop :=
  ∀ v b, b < t.network.arcCount → w.traversed.surelyContains v (Arc.edge b) = true →
    w.distOf (t.network.headOf b) ≤ w.distOf v

theorem traversed_improve_split (hledger : t.ledger = .split) :
    (t.improve a d w).traversed = Ledger.extended w.traversed (t.network.tailOf a)
      (t.network.headOf a) (Arc.edge a) true := by
  unfold Walk.improve relabeled
  rw [hledger, Workspace.traversed_enqueue, Ledger.traversed_split, Workspace.traversed_setLabel]

theorem Trodden.improve (h : Trodden t w) (hs : Sound t w) (ht : Measured t)
    (hnet : t.network.WellFormed) (hledger : t.ledger = .split)
    (hfree : t.network.Unpaid t.query.start t.query.goal) (hi : Improves t w a d) :
    Trodden t (t.improve a d w) := by
  have hne := (ht.linked.head_ne_tail a hi.arc).symm
  have hm : t.network.headOf a < w.capacity := lt_of_lt_of_le (ht.linked.head_lt a hi.arc) hs.room
  have hr := hs.relabeled_improve ht hi
  have hcost := ht.nonneg hi.arc
  have hlabel := hi.eq_of_unpaid ht hfree
  have hlower := hs.dist_improve_le ht hi
  intro v b hb hcontains
  rw [traversed_improve_split hledger] at hcontains
  by_cases hv : v = t.network.headOf a
  · subst hv
    rw [hr.dist_self]
    obtain ⟨ids, hids, hmem⟩ := TraceLists.surelyContains_iff.mp hcontains
    rw [Ledger.extended, if_pos rfl, TraceLists.get?_push (hs.traced.traversed.copy hm hne) hm,
      TraceLists.get?_copy hs.traced.traversed hm hne] at hids
    obtain ⟨old, hold, hpush⟩ := Option.bind_eq_some_iff.mp hids
    obtain ⟨-, -, hold⟩ := Option.bind_eq_some_iff.mp hold
    split at hpush
    · obtain rfl := Option.some.inj hpush
      rcases List.mem_append.mp hmem with hmem | hmem
      · -- an edge on the trace of the tail
        have htail := h _ b hb (TraceLists.surelyContains_iff.mpr ⟨old, hold, hmem⟩)
        have hhead := hlower (t.network.headOf b)
        linarith
      · -- the edge that was just taken
        rcases Arc.eq_or_eq_rev_of_edge (List.mem_singleton.mp hmem) with rfl | rfl
        · exact hr.dist_self.le
        · rw [hnet.head_rev a hi.arc, hr.dist_ne _ hne]
          linarith
    · cases hpush
  · have hold : w.traversed.surelyContains v (Arc.edge b) = true := by
      obtain ⟨ids, hids, hmem⟩ := TraceLists.surelyContains_iff.mp hcontains
      rw [Ledger.get?_extended_of_ne hs.traced.traversed hm hne hv] at hids
      exact TraceLists.surelyContains_iff.mpr ⟨ids, hids, hmem⟩
    rw [hr.dist_ne v hv]
    exact (hlower _).trans (h v b hb hold)

theorem harmless_split_of_unpaid (ht : Measured t) (hnet : t.network.WellFormed)
    (hledger : t.ledger = .split) (hfree : t.network.Unpaid t.query.start t.query.goal) :
    Harmless t fun w => Uncredited w ∧ Trodden t w where
  depart hJ _ := hJ
  improve hs hJ _ hi := ⟨hJ.1.improve hs ht hfree hi, hJ.2.improve hs ht hnet hledger hfree hi⟩
  refused := by
    intro w a hJ ha _ _ _ _ hrefuses
    rw [hledger] at hrefuses
    simp only [Ledger.refuses, hJ.1.mayContain_eq_false, Bool.and_false, Bool.false_or] at hrefuses
    have hle := hJ.2 _ a ha hrefuses
    have hcost := ht.nonneg ha
    linarith

/-! ### The start -/

section Start

variable {m : Nat} {p : Option Nat}

theorem uncredited_start (hw : w.Ready) : Uncredited ((w.setLabel m d p).enqueue m) := by
  intro v
  rw [Workspace.credited_enqueue, Workspace.credited_setLabel]
  exact (hw.get?_eq v).1

theorem trodden_start (hw : w.Ready) : Trodden t ((w.setLabel m d p).enqueue m) := by
  intro v b _ hcontains
  obtain ⟨ids, hids, hmem⟩ := TraceLists.surelyContains_iff.mp hcontains
  rw [Workspace.traversed_enqueue, Workspace.traversed_setLabel, (hw.get?_eq v).2,
    Option.some.injEq] at hids
  rw [← hids] at hmem
  exact absurd hmem List.not_mem_nil

theorem listed_start (hw : w.Ready) :
    Listed t w.traceCapacity ((w.setLabel m d p).enqueue m) := by
  refine ⟨?_, fun v => ⟨[], uncredited_start hw v, List.nodup_nil, fun u hu => ?_⟩⟩
  · rw [Workspace.credited_enqueue, Workspace.credited_setLabel]
    rfl
  · exact absurd hu List.not_mem_nil

theorem not_claimed_start (hw : w.Ready) (v : Nat) :
    ((w.setLabel m d p).enqueue m).isClaimed v = false := by
  rw [Workspace.isClaimed, Workspace.claimed_enqueue, Workspace.claimed_setLabel]
  exact hw.isClaimed_eq v

/-- Without prizes every ledger is harmless. -/
theorem exists_harmless_of_unpaid (ht : Measured t) (hnet : t.network.WellFormed)
    (hfree : t.network.Unpaid t.query.start t.query.goal) (hw : w.Ready) :
    ∃ J, Harmless t J ∧ J ((w.setLabel t.query.start 0 none).enqueue t.query.start) := by
  cases hledger : t.ledger with
  | firstVisit =>
    refine ⟨_, harmless_firstVisit ht hledger fun v hreq => hfree v
      (Network.isTerminal_of_isRequired hreq), fun v hv => ?_⟩
    rw [not_claimed_start hw] at hv
    cases hv
  | combined => exact ⟨_, harmless_combined_of_unpaid ht hledger hfree, uncredited_start hw⟩
  | split =>
    exact ⟨_, harmless_split_of_unpaid ht hnet hledger hfree, uncredited_start hw, trodden_start hw⟩

end Start

end Walk

end SteinerSearch
