import SteinerSearch.Proofs.Comparison
import SteinerSearch.Proofs.Reuse.Traversals
import SteinerSearch.Proofs.Reuse.Walks
import SteinerSearch.Proofs.Truncation

/-!
# Budgets cut searches short

A search reads its budget only to give up.  Of two searches that differ in their budgets, the
one with the smaller budget is a prefix of the other one.  What the other one does from there
on never makes a label longer, and, in a traversal, leaves settled nodes alone.

## Main definitions

* `Tighter b b'` — the budget `b` allows no more scans than `b'`.
* `Workspace.Defined w` — no distance is undefined.
* `Workspace.GoesOn u u'` — settled nodes and labels in `u'`, compared with those in `u`.
* `Traversal.Later`, `Walk.Later` — a state of the search after another one.
* `Traversal.OverBudget`, `Walk.OverLimit` — a state in which the search gives up.

## Main results

* `Traversal.run_truncates`, `Walk.run_truncates` — two searches with different budgets.
* `budgets_truncate` — **a budget cuts a search short, and changes nothing else.**
-/

namespace SteinerSearch

/-- The budget `b` allows no more scans than `b'`.  A budget may be absent. -/
def Tighter (b b' : Option Nat) : Prop := ∀ n' ∈ b', ∃ n ∈ b, n ≤ n'

namespace Workspace

variable {α : Type} [Weight α] {u w w' : Workspace α} {n m k : Nat} {w₀ : Workspace α}

/-- No distance is undefined. -/
def Defined (w : Workspace α) : Prop := ∀ v, w.distOf v ≤ w.distOf v

/-- In `u'` a search has gone on from `u`: nodes that were settled have the same labels, and no
distance is longer. -/
structure GoesOn (u u' : Workspace α) : Prop where
  settled : ∀ v, u.isSettled v = true →
    u'.isSettled v = true ∧ u'.distOf v = u.distOf v ∧ u'.predOf v = u.predOf v
  dist_le : ∀ v, u'.distOf v ≤ u.distOf v

theorem GoesOn.refl (h : w.Defined) : w.GoesOn w := ⟨fun _ hv => ⟨hv, rfl, rfl⟩, h⟩

theorem GoesOn.trans (ho : Weight.Ordered α) (h : u.GoesOn w) (h' : w.GoesOn w') :
    u.GoesOn w' where
  settled v hv := by
    obtain ⟨hw, hdist, hpred⟩ := h.settled v hv
    obtain ⟨hw', hdist', hpred'⟩ := h'.settled v hw
    exact ⟨hw', hdist'.trans hdist, hpred'.trans hpred⟩
  dist_le v := ho.trans _ _ _ (h'.dist_le v) (h.dist_le v)

/-- Before a search all nodes look far away. -/
theorem Ready.defined (hw : w.Ready) (ho : Weight.Ordered α) : w.Defined := fun v =>
  ho.le_self_of_looksFar ((hw.clean ho.looksFar_faraway).blank v).dist

theorem Defined.label (h : w.Defined) (hm : m < w.capacity) {d : α} (hd : d ≤ d)
    (p : Option Nat) : ((w.setLabel m d p).enqueue m).Defined := by
  intro v
  change (w.setLabel m d p).distOf v ≤ (w.setLabel m d p).distOf v
  by_cases hvm : v = m
  · rw [hvm, distOf_setLabel_self hm]
    exact hd
  · rw [distOf_setLabel_of_ne hvm]
    exact h v

/-- A label that is below another one is defined. -/
theorem Relabeled.defined {d : α} {p : Option Nat} (h : w.Relabeled m d p w')
    (ho : Weight.Ordered α) (hw : w.Defined) (hd : Weight.below d (w.distOf m) = true) :
    w'.Defined := by
  intro v
  by_cases hvm : v = m
  · rw [hvm, h.dist_self]
    exact (ho.below _ _ hd).1
  · rw [h.dist_ne v hvm]
    exact hw v

/-- A node that is not settled gets a shorter label. -/
theorem Relabeled.goesOn {d : α} {p : Option Nat} (h : w.Relabeled m d p w')
    (ho : Weight.Ordered α) (hw : w.Defined) (hopen : w.isSettled m = false)
    (hd : Weight.below d (w.distOf m) = true) : w.GoesOn w' where
  settled v hv := by
    have hvm : v ≠ m := by
      rintro rfl
      rw [hopen] at hv
      cases hv
    exact ⟨(h.settled v).trans hv, h.dist_ne v hvm, h.pred_ne v hvm⟩
  dist_le v := by
    by_cases hvm : v = m
    · rw [hvm, h.dist_self]
      exact (ho.below _ _ hd).2
    · rw [h.dist_ne v hvm]
      exact hw v

/-- An extraction settles one more node, and leaves all distances alone. -/
theorem Defined.popMin? (h : w.Defined) (hw : w.queue.Consistent)
    (hpop : w.popMin? = some (k, w')) : w'.Defined ∧ w.GoesOn w' := by
  obtain ⟨q, hq, rfl⟩ := popMin?_eq_some hpop
  have hx := NodeQueue.extracted_popMin? hw hq
  exact ⟨h, fun v hv => ⟨(hx.isSettled_iff hw v).mpr (Or.inl hv), rfl, rfl⟩, h⟩

end Workspace

/-! ### Traversals -/

namespace Traversal

variable {α : Type} [Weight α] {t : Traversal α} {b b' : Option Nat} {n : Nat} {w₀ : Workspace α}

/-- The same traversal with another budget. -/
def withBudget (t : Traversal α) (b : Option Nat) : Traversal α :=
  { t with limits := { t.limits with arcBudget := b } }

omit [Weight α] in
@[simp] theorem network_withBudget : (t.withBudget b).network = t.network := rfl

omit [Weight α] in
@[simp] theorem stopAt_withBudget : (t.withBudget b).limits.stopAt = t.limits.stopAt := rfl

/-- In `u` more arcs were scanned than are allowed. -/
def OverBudget (t : Traversal α) (u : State α) : Prop := t.exceeds u.scanned = true

/-- In `s`, a state that searches among `n` nodes may be in, the traversal has gone on from
`u`. -/
structure Later (n : Nat) (w₀ : Workspace α) (u s : State α) : Prop where
  tracked : Workspace.Tracked Weight.LooksFar n w₀ s.space
  defined : s.space.Defined
  goesOn : u.space.GoesOn s.space

theorem Later.refl {u s : State α} (h : Later n w₀ u s) : Later n w₀ s s :=
  ⟨h.tracked, h.defined, .refl h.defined⟩

theorem Later.trans (ho : Weight.Ordered α) {u s s' : State α} (h : Later n w₀ u s)
    (h' : Later n w₀ s s') : Later n w₀ u s' :=
  ⟨h'.tracked, h'.defined, h.goesOn.trans ho h'.goesOn⟩

/-- What is counted does not matter. -/
theorem Later.counted {u s : State α} (h : Later n w₀ u s) (i j : Nat) :
    Later n w₀ u ⟨s.space, i, j⟩ :=
  ⟨h.tracked, h.defined, h.goesOn⟩

/-- After an extraction. -/
theorem Later.popMin? (ho : Weight.Ordered α) {u s : State α} (h : Later n w₀ u s) {k : Nat}
    {v : Workspace α} (hpop : s.space.popMin? = some (k, v)) (i j : Nat) :
    Later n w₀ u ⟨v, i, j⟩ := by
  obtain ⟨hdefined, hgoes⟩ := h.defined.popMin? h.tracked.consistent hpop
  exact ⟨(h.tracked.popMin? hpop).1, hdefined, h.goesOn.trans ho hgoes⟩

omit [Weight α] in
theorem exceeds_of_tighter (hb : Tighter b b') {i : Nat}
    (h : (t.withBudget b').exceeds i = true) : (t.withBudget b).exceeds i = true := by
  cases b' with
  | none => simp [exceeds, withBudget] at h
  | some n' =>
    obtain ⟨n, hn, hle⟩ := hb n' rfl
    obtain rfl := Option.mem_def.mp hn
    simp only [exceeds, withBudget, decide_eq_true_eq] at h ⊢
    exact lt_of_le_of_lt hle h

/-- A relabeling leads further. -/
theorem Later.improve (ho : Weight.Ordered α) {u s : State α} (h : Later n w₀ u s) {m : Nat}
    (hm : m < n) (hopen : s.space.isSettled m = false) (d : α) (a i j : Nat) :
    Later n w₀ u ⟨improve m d a s.space, i, j⟩ := by
  refine h.trans ho ?_
  have htracked := (improve_together (.refl h.tracked) hm d a).tracked
  unfold Traversal.improve at htracked ⊢
  split at htracked
  · next hd =>
    have hr := Workspace.relabeled_enqueue (d := d) (p := some a) h.tracked.sized
      h.tracked.consistent (h.tracked.lt_capacity hm) hopen
    rw [if_pos hd]
    exact ⟨htracked, hr.defined ho h.defined hd, hr.goesOn ho h.defined hopen hd⟩
  · next hd =>
    rw [if_neg hd]
    exact h.refl.counted i j

section Steps

variable (ho : Weight.Ordered α) (hg : t.network.Linked)
  (hcost : ∀ a, a < t.network.arcCount → ∃ c, t.costs a = some c) {u s : State α}

include ho hg hcost

theorem scan_leads (h : Later t.network.nodeCount w₀ u s) (base : α) {a : Nat}
    (ha : a < t.network.arcCount) :
    Halt.Leads (Later t.network.nodeCount w₀ u) (t.scan base s a) := by
  unfold scan
  dsimp only
  split
  · exact h
  · next hskip =>
    split
    · exact h.counted _ _
    · obtain ⟨c, hc⟩ := hcost a ha
      rw [hc]
      dsimp only
      split
      · exact h.counted _ _
      · have hopen : s.space.isSettled (t.network.headOf a) = false := by
          simp only [Bool.or_eq_true, not_or, Bool.not_eq_true] at hskip
          exact hskip.2
        exact h.improve ho (hg.head_lt a ha) hopen _ a _ _

theorem expand_leads (h : Later t.network.nodeCount w₀ u s) (k : Nat) :
    Progress.Leads (Later t.network.nodeCount w₀ u) (t.expand k s) :=
  Progress.ofScan_leads (Halt.foldlM_leads _
    (fun _ ha _ hs => scan_leads ho hg hcost hs _ (hg.mem_outArcs.mp ha).1) s h)

theorem settleNext_leads (h : Later t.network.nodeCount w₀ u s) :
    Progress.Leads (Later t.network.nodeCount w₀ u) (t.settleNext s) := by
  unfold settleNext
  cases hpop : s.space.popMin? with
  | none => exact h
  | some x =>
    obtain ⟨k, v⟩ := x
    obtain ⟨hv, hvisited, -⟩ := h.tracked.popMin? hpop
    have hk : ¬ t.network.nodeCount ≤ k := Nat.not_le_of_lt (hv.within k hvisited)
    have hnext := h.popMin? ho hpop
    dsimp only
    rw [if_neg hk]
    split
    · exact hnext _ _
    · split
      · split
        · exact hnext _ _
        · exact expand_leads ho hg hcost (hnext _ _) k
      · exact expand_leads ho hg hcost (hnext _ _) k

/-- Where the smaller budget is exceeded, the traversal with the larger one goes on. -/
theorem scan_truncates (hb : Tighter b b') (h : Later t.network.nodeCount w₀ s s) (base : α)
    {a : Nat} (ha : a < t.network.arcCount) :
    Halt.Truncates (t.withBudget b).OverBudget (Later t.network.nodeCount w₀)
      ((t.withBudget b).scan base s a) ((t.withBudget b').scan base s a) := by
  let u : State α := ⟨s.space, s.scanned + 1, s.openTerminals⟩
  have hfirst : Later t.network.nodeCount w₀ u s := ⟨h.tracked, h.defined, h.goesOn⟩
  have hlater := scan_leads (t := t.withBudget b') ho hg hcost hfirst base ha
  unfold scan at hlater ⊢
  refine .guard hlater fun hlater => ?_
  exact .charge (exceeds_of_tighter hb) id hlater

theorem expand_truncates (hb : Tighter b b') (h : Later t.network.nodeCount w₀ s s) (k : Nat) :
    Progress.Truncates .overBudget (t.withBudget b).OverBudget (Later t.network.nodeCount w₀)
      ((t.withBudget b).expand k s) ((t.withBudget b').expand k s) :=
  Progress.ofScan_truncates (Halt.foldlM_truncates (L := Later t.network.nodeCount w₀) _
    (fun _ _ => Later.refl)
    (fun _ ha _ hs => scan_truncates ho hg hcost hb hs _ (hg.mem_outArcs.mp ha).1)
    (fun _ ha _ _ hs =>
      scan_leads (t := t.withBudget b') ho hg hcost hs _ (hg.mem_outArcs.mp ha).1)
    s h)

theorem settleNext_truncates (hb : Tighter b b') (h : Later t.network.nodeCount w₀ s s) :
    Progress.Truncates .overBudget (t.withBudget b).OverBudget (Later t.network.nodeCount w₀)
      ((t.withBudget b).settleNext s) ((t.withBudget b').settleNext s) := by
  unfold settleNext
  cases hpop : s.space.popMin? with
  | none => exact .same _
  | some x =>
    obtain ⟨k, v⟩ := x
    have hnext : ∀ i j, Later t.network.nodeCount w₀ ⟨v, i, j⟩ ⟨v, i, j⟩ := fun i j =>
      (h.popMin? ho hpop i j).refl
    simp only [network_withBudget, stopAt_withBudget]
    -- an early end and a node that is missing are seen with any budget
    split
    · exact .same _
    · split
      · exact .same _
      · split
        · split
          · exact .same _
          · exact expand_truncates ho hg hcost hb (hnext _ _) k
        · exact expand_truncates ho hg hcost hb (hnext _ _) k

end Steps

/-- All sources can be labeled, with distances that are defined. -/
theorem seeds_defined (ho : Weight.Ordered α) {sources : List Nat} {w : Workspace α}
    (hsource : ∀ v ∈ sources, v < n) (hw : Workspace.Tracked Weight.LooksFar n w₀ w)
    (hdefined : w.Defined) :
    ∃ w', sources.foldlM seed w = .ok w' ∧
      Workspace.Tracked Weight.LooksFar n w₀ w' ∧ w'.Defined := by
  refine foldlM_ok
    (J := fun _ u => Workspace.Tracked Weight.LooksFar n w₀ u ∧ u.Defined) sources
    (fun done v u hdone ⟨hu, hdef⟩ => ?_) ⟨hw, hdefined⟩
  have hv := hsource v (mem_of_appended hdone)
  have hlt := hu.lt_capacity hv
  have hlabeled := Workspace.Lockstep.label (.refl hu) hv 0 none
  refine ⟨_, ?_, hlabeled.tracked, hdef.label hlt ho.zero none⟩
  rw [seed, checkNode, if_pos hlt]
  rfl

/-- Of two traversals with different budgets the tighter one is a prefix. -/
theorem run_truncates (ho : Weight.Ordered α) {sources : List Nat} {w : Workspace α}
    (ht : t.Fits sources) (hb : Tighter b b')
    (hw : Workspace.Tracked Weight.LooksFar t.network.nodeCount w₀ w) (hdefined : w.Defined) :
    ∃ o u o' u', (t.withBudget b).run sources w = .ok (o, u) ∧
      (t.withBudget b').run sources w = .ok (o', u') ∧
        u.GoesOn u' ∧ ((o' = o ∧ u' = u) ∨ o = .overBudget) := by
  obtain ⟨w₁, hseed, hw₁, hdefined₁⟩ := seeds_defined ho ht.source hw hdefined
  have hlinked := ht.built.wellFormed.toLinked
  obtain ⟨o, s, o', s', hrun, hrun', hlater, hend⟩ := Progress.run_truncates
    (o := TraversalOutcome.overBudget) (e := .exhausted)
    (C := (t.withBudget b).OverBudget) (L := Later t.network.nodeCount w₀)
    (fun _ _ => Later.refl)
    (fun s => settleNext_truncates ho hlinked ht.cost hb)
    (fun u s => settleNext_leads (t := t.withBudget b') ho hlinked ht.cost) (w₁.capacity + 1)
    ⟨w₁, 0, t.network.markedRequired.length⟩ ⟨hw₁, hdefined₁, .refl hdefined₁⟩
  refine ⟨o, s.space, o', s'.space, ?_, ?_, hlater.goesOn,
    hend.imp (And.imp_right (congrArg State.space)) And.left⟩
  · rw [run, hseed, ok_bind]
    exact congrArg (· >>= _) hrun
  · rw [run, hseed, ok_bind]
    exact congrArg (· >>= _) hrun'

end Traversal

/-! ### Walks -/

/-- The same query with another scan limit. -/
def WalkQuery.withLimit {α : Type} (query : WalkQuery α) (l : Nat) : WalkQuery α :=
  { query with arcLimit := l }

namespace Walk

variable {α : Type} [Weight α] {t : Walk α} {l l' n : Nat} {w₀ : Workspace α}

/-- The same walk search with another scan limit. -/
def withLimit (t : Walk α) (l : Nat) : Walk α := { t with query := t.query.withLimit l }

/-- In `u` more arcs were scanned than are allowed. -/
def OverLimit (t : Walk α) (u : State α) : Prop :=
  t.query.isLimited = true ∧ t.query.arcLimit < u.scanned

/-- In `s`, a state that searches among `n` nodes may be in, no distance is longer than in
`u`.  Settled nodes may have new labels. -/
structure Later (n : Nat) (w₀ : Workspace α) (u s : State α) : Prop where
  tracked : Workspace.Tracked Weight.LooksFar n w₀ s.space
  defined : s.space.Defined
  dist_le : ∀ v, s.space.distOf v ≤ u.space.distOf v

theorem Later.refl {u s : State α} (h : Later n w₀ u s) : Later n w₀ s s :=
  ⟨h.tracked, h.defined, h.defined⟩

theorem Later.counted {u s : State α} (h : Later n w₀ u s) (i : Nat) :
    Later n w₀ u ⟨s.space, i⟩ :=
  ⟨h.tracked, h.defined, h.dist_le⟩

/-- An extraction, and what is then done to the queue, leaves all distances alone. -/
theorem Later.popMin? {u s : State α} (h : Later n w₀ u s) {k : Nat} {v : Workspace α}
    (hpop : s.space.popMin? = some (k, v)) (keep : Bool) (i : Nat) :
    Later n w₀ u (if keep then ⟨v, i⟩ else ⟨v.unsettle k, i⟩) := by
  obtain ⟨hv, -, hwaits⟩ := h.tracked.popMin? hpop
  obtain ⟨q, -, rfl⟩ := Workspace.popMin?_eq_some hpop
  cases keep with
  | false => exact ⟨hv.unsettle hwaits, h.defined, h.dist_le⟩
  | true => exact ⟨hv, h.defined, h.dist_le⟩

omit [Weight α] in
/-- Whether a search gives up depends on its limit in one direction only. -/
theorem overLimit_of_le (hl : l ≤ l') {i : Nat}
    (h : (t.withLimit l').query.isLimited = true ∧ (t.withLimit l').query.arcLimit < i) :
    (t.withLimit l).query.isLimited = true ∧ (t.withLimit l).query.arcLimit < i := by
  have hlimited : l' < 18446744073709551615 := of_decide_eq_true h.1
  have hover : l' < i := h.2
  exact ⟨decide_eq_true (lt_of_le_of_lt hl hlimited), lt_of_le_of_lt hl hover⟩

section Steps

variable (ho : Weight.Ordered α) (hg : t.network.Linked)
  (hcost : ∀ a, a < t.network.arcCount → ∃ c, t.costs a = some c) {u s : State α}

include ho hg hcost

theorem scan_leads (h : Later t.network.nodeCount w₀ u s) (base : α) {k a : Nat}
    (ha : a < t.network.arcCount) (htail : t.network.tailOf a = k) :
    Halt.Leads (Later t.network.nodeCount w₀ u) (t.scan k base s a) := by
  have hne : k ≠ t.network.headOf a := htail ▸ (hg.head_ne_tail a ha).symm
  have hm := hg.head_lt a ha
  refine scan_keeps (hcost a ha) (fun n => h.counted n) fun c n _ _ hopen _ => ?_
  have htracked := (take_together (.refl h.tracked) hm hne (t := t) a base c).tracked
  rcases take_cases (t := t) h.tracked hm hne hopen a base c with heq | ⟨_, hd, hr⟩
  · rw [heq]
    exact h.counted n
  · have hle := (hr.goesOn ho h.defined hopen hd).dist_le
    exact ⟨htracked, hr.defined ho h.defined hd, fun v => ho.trans _ _ _ (hle v) (h.dist_le v)⟩

theorem settleNext_leads (h : Later t.network.nodeCount w₀ u s) :
    Progress.Leads (Later t.network.nodeCount w₀ u) (t.settleNext s) := by
  unfold settleNext
  cases hpop : s.space.popMin? with
  | none => exact h
  | some x =>
    obtain ⟨k, v⟩ := x
    dsimp only
    split
    · exact h.popMin? hpop true _
    · refine Progress.ofScan_leads (Halt.foldlM_leads _ (fun a ha s₁ hs₁ => ?_) _
        (h.popMin? hpop _ _))
      obtain ⟨harc, htail⟩ := hg.mem_outArcs.mp ha
      exact scan_leads ho hg hcost hs₁ _ harc htail

/-- Where the smaller limit is exceeded, the search with the larger one goes on. -/
theorem scan_truncates (hl : l ≤ l') (h : Later t.network.nodeCount w₀ s s) (base : α) {k a : Nat}
    (ha : a < t.network.arcCount) (htail : t.network.tailOf a = k) :
    Halt.Truncates (t.withLimit l).OverLimit (Later t.network.nodeCount w₀)
      ((t.withLimit l).scan k base s a) ((t.withLimit l').scan k base s a) := by
  let u : State α := ⟨s.space, s.scanned + 1⟩
  have hfirst : Later t.network.nodeCount w₀ u s := ⟨h.tracked, h.defined, h.dist_le⟩
  have hlater := scan_leads (t := t.withLimit l') ho hg hcost hfirst base ha htail
  unfold scan at hlater ⊢
  refine .guard hlater fun hlater => .guard hlater fun hlater => ?_
  exact .charge (overLimit_of_le hl) id hlater

theorem settleNext_truncates (hl : l ≤ l') (h : Later t.network.nodeCount w₀ s s) :
    Progress.Truncates .overBudget (t.withLimit l).OverLimit (Later t.network.nodeCount w₀)
      ((t.withLimit l).settleNext s) ((t.withLimit l').settleNext s) := by
  unfold settleNext
  cases hpop : s.space.popMin? with
  | none => exact .same _
  | some x =>
    obtain ⟨k, v⟩ := x
    dsimp only
    by_cases hk : k = t.query.goal
    · have hend : ∀ c, k = (t.withLimit c).query.goal := fun _ => hk
      rw [if_pos (hend l), if_pos (hend l')]
      exact .same _
    · have hend : ∀ c, ¬ k = (t.withLimit c).query.goal := fun _ => hk
      rw [if_neg (hend l), if_neg (hend l')]
      refine Progress.ofScan_truncates (Halt.foldlM_truncates (L := Later t.network.nodeCount w₀) _
        (fun _ _ => Later.refl) (fun a ha s₁ hs₁ => ?_) (fun a ha u₁ s₁ hs₁ => ?_) _
        (h.popMin? hpop _ _).refl)
      · obtain ⟨harc, htail⟩ := hg.mem_outArcs.mp ha
        exact scan_truncates ho hg hcost hl hs₁ _ harc htail
      · obtain ⟨harc, htail⟩ := hg.mem_outArcs.mp ha
        exact scan_leads (t := t.withLimit l') ho hg hcost hs₁ _ harc htail

end Steps

/-- Of two walk searches with different limits the tighter one is a prefix. -/
theorem run_truncates (ho : Weight.Ordered α) {g : Network α} {costs : CostView α}
    {query : WalkQuery α} {w : Workspace α} (ledger : Ledger) (hg : g.Built)
    (hcost : ∀ a, a < g.arcCount → ∃ c, costs a = some c) (hstart : query.start < g.nodeCount)
    (hgoal : query.goal < g.nodeCount) (hl : l ≤ l')
    (hw : Workspace.Tracked Weight.LooksFar g.nodeCount w₀ w) (hdefined : w.Defined) :
    ∃ o u o' u', run g costs ledger (query.withLimit l) w = .ok (o, u) ∧
      run g costs ledger (query.withLimit l') w = .ok (o', u') ∧
        (∀ v, u'.distOf v ≤ u.distOf v) ∧ ((o' = o ∧ u' = u) ∨ o = .overBudget) := by
  by_cases hdeg : g.degreeOf query.start = 0 ∨ g.degreeOf query.goal = 0
  · have hrun : ∀ c, run g costs ledger (query.withLimit c) w = .ok (.notFound, w) := fun _ =>
      run_of_runOn (runOn_of_isolated hstart hgoal hdeg)
    exact ⟨_, w, _, w, hrun l, hrun l', hdefined, Or.inl ⟨rfl, rfl⟩⟩
  · let t : Walk α := ⟨g.masked query.start query.goal, costs, ledger, query⟩
    have hcount : t.network.nodeCount = g.nodeCount := Network.nodeCount_masked
    have hlinked : t.network.Linked := (hg.masked query.start query.goal).wellFormed.toLinked
    have hinitial := (initial_together (t := t) (.refl hw) hstart).space.tracked
    have hlabeled : (t.initial w).space.Defined :=
      hdefined.label (hw.lt_capacity hstart) ho.zero none
    obtain ⟨o, s, o', s', hrun, hrun', hlater, hend⟩ := Progress.run_truncates
      (o := WalkOutcome.overBudget) (e := .notFound)
      (C := (t.withLimit l).OverLimit) (L := Later t.network.nodeCount w₀)
      (fun _ _ => Later.refl) (fun s => settleNext_truncates ho hlinked hcost hl)
      (fun u s => settleNext_leads (t := t.withLimit l') ho hlinked hcost) (fuel t.network)
      (t.initial w) ⟨hcount ▸ hinitial, hlabeled, hlabeled⟩
    have hanswer : ∀ c {o : WalkOutcome α} {s : State α},
        Progress.run (t.withLimit c).settleNext .notFound (fuel t.network) (t.initial w) =
          .ok (o, s) → run g costs ledger (query.withLimit c) w = .ok (o, s.space) := by
      intro c o s h
      have hstart : (query.withLimit c).start < g.nodeCount := hstart
      exact run_of_runOn (runOn_of_search hstart hgoal hdeg h)
    exact ⟨o, s.space, o', s'.space, hanswer l hrun, hanswer l' hrun', hlater.dist_le,
      hend.imp (And.imp_right (congrArg State.space)) And.left⟩

end Walk

/-! ### Both -/

/-- **A budget cuts a search short, and changes nothing else.**  A search that ends within its
budget ends with the same answer, and with the very same workspace, under any larger one.  A
larger budget leaves the labels of nodes that a traversal has settled as they are, and never
makes a distance longer.  No search is cut short by a budget and not by a smaller one.  Of weights
nothing is used but how they compare; a cost may be anything, undefined ones included. -/
theorem budgets_truncate {α : Type} [Weight α] (ho : Weight.Ordered α) {g : Network α}
    {costs : CostView α} {w : Workspace α} (hg : g.Built)
    (hcost : ∀ a, a < g.arcCount → ∃ c, costs a = some c) (hw : w.Ready)
    (hroom : g.nodeCount ≤ w.capacity) :
    (∀ (labeling : Labeling) (limits : Limits α) (sources : List Nat) (b b' : Option Nat),
      (∀ v ∈ sources, v < g.nodeCount) → Tighter b b' →
        ∃ o u o' u',
          Traversal.run ⟨g, costs, labeling, { limits with arcBudget := b }⟩ sources w =
            .ok (o, u) ∧
          Traversal.run ⟨g, costs, labeling, { limits with arcBudget := b' }⟩ sources w =
            .ok (o', u') ∧
          (o ≠ .overBudget → o' = o ∧ u' = u) ∧ (o' = .overBudget → o = .overBudget) ∧
            u.GoesOn u') ∧
    ∀ (ledger : Ledger) (query : WalkQuery α) (l' : Nat), query.start < g.nodeCount →
      query.goal < g.nodeCount → query.arcLimit ≤ l' →
        ∃ o u o' u',
          Walk.run g costs ledger query w = .ok (o, u) ∧
          Walk.run g costs ledger { query with arcLimit := l' } w = .ok (o', u') ∧
          (o ≠ .overBudget → o' = o ∧ u' = u) ∧ (o' = .overBudget → o = .overBudget) ∧
            ∀ v, u'.distOf v ≤ u.distOf v := by
  have htracked : Workspace.Tracked Weight.LooksFar g.nodeCount w w :=
    (hw.clean ho.looksFar_faraway).tracked (.refl w) hroom
  have hdefined := hw.defined ho
  constructor
  · intro labeling limits sources b b' hsource hb
    obtain ⟨o, u, o', u', hrun, hrun', hgoes, hend⟩ := Traversal.run_truncates ho
      (t := ⟨g, costs, labeling, limits⟩) ⟨hg, hcost, hsource⟩ hb htracked hdefined
    refine ⟨o, u, o', u', hrun, hrun', ?_⟩
    rcases hend with ⟨rfl, rfl⟩ | rfl
    · exact ⟨fun _ => ⟨rfl, rfl⟩, id, hgoes⟩
    · exact ⟨fun hne => absurd rfl hne, fun _ => rfl, hgoes⟩
  · intro ledger query l' hstart hgoal hl
    obtain ⟨o, u, o', u', hrun, hrun', hdist, hend⟩ :=
      Walk.run_truncates ho ledger hg hcost hstart hgoal hl htracked hdefined
    refine ⟨o, u, o', u', hrun, hrun', ?_⟩
    rcases hend with ⟨rfl, rfl⟩ | rfl
    · exact ⟨fun _ => ⟨rfl, rfl⟩, id, hdist⟩
    · exact ⟨fun hne => absurd rfl hne, fun _ => rfl, hdist⟩

/-- Searches along a chain that may scan one arc, and searches that may scan them all. -/
theorem budgets_truncate_on_chain :
    let chain := (((Network.empty 3).pushArc 0 1 (5 : ℚ)).pushArc 1 0 5).pushArc 1 2 3
    let g := chain.pushArc 2 1 3
    (∃ o u o' u',
      Traversal.run ⟨g, .ofArray g.cost, .pathLength, ⟨some 1, none, none⟩⟩ [0] (.fresh 3 1) =
        .ok (o, u) ∧
      Traversal.run ⟨g, .ofArray g.cost, .pathLength, ⟨none, none, none⟩⟩ [0] (.fresh 3 1) =
        .ok (o', u') ∧
      (o ≠ .overBudget → o' = o ∧ u' = u) ∧ (o' = .overBudget → o = .overBudget) ∧
        u.GoesOn u') ∧
    ∃ o u o' u',
      Walk.run g (.ofArray g.cost) .split ⟨0, 2, 10, 1⟩ (.fresh 3 1) = .ok (o, u) ∧
      Walk.run g (.ofArray g.cost) .split ⟨0, 2, 10, 18446744073709551615⟩ (.fresh 3 1) =
        .ok (o', u') ∧
      (o ≠ .overBudget → o' = o ∧ u' = u) ∧ (o' = .overBudget → o = .overBudget) ∧
        ∀ v, u'.distOf v ≤ u.distOf v := by
  intro chain g
  have hone : (Network.empty 3).addArcPair 0 1 (5 : ℚ) 5 =
      .ok (0, ((Network.empty 3).pushArc 0 1 5).pushArc 1 0 5) := rfl
  have htwo : (((Network.empty 3).pushArc 0 1 (5 : ℚ)).pushArc 1 0 5).addArcPair 1 2 3 3 =
      .ok (1, g) := rfl
  have hg : g.Built := ((Network.Built.empty 3).addArcPair hone).addArcPair htwo
  have hcost : ∀ a, a < g.arcCount → ∃ c, CostView.ofArray g.cost a = some c := fun a ha =>
    ⟨_, Array.getElem?_eq_getElem (show a < g.cost.size from ha)⟩
  have hboth := budgets_truncate Weight.ordered_rat hg hcost (Workspace.fresh_ready 3 1) (by decide)
  have htighter : Tighter (some 1) none := fun _ h => by cases h
  exact ⟨hboth.1 .pathLength ⟨none, none, none⟩ [0] (some 1) none (by decide) htighter,
    hboth.2 .split ⟨0, 2, 10, 1⟩ 18446744073709551615 (by decide) (by decide) (by decide)⟩

end SteinerSearch
