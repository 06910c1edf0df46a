import SteinerSearch.Proofs.Queue.Operations
import SteinerSearch.Proofs.Tree.Forests
import SteinerSearch.Tree.Pruning

/-!
# What pruning leaves of a forest

Leaves are looked at in some order, and a node becomes a leaf when its last child is removed.
In the end the order does not matter: a node is removed if and only if it has an arc that enters
it and nothing in its subtree is worth keeping.

The counters of the children tell the leaves from the others.  Each leaf is listed once, since a
parent is listed when its counter falls to zero, and it had a child until then.

## Main definitions

* `Tree.Worth g costs t v` — a node that is worth its arc, and everything above it.
* `Tree.Remnant g costs t₀ t` — `t` is `t₀` without subtrees in which nothing is of worth.
* `Tree.Pruning.start t children` — the state in which a pruning starts.
* `Tree.Pruning.Sound g costs t₀ s` — what holds of a pruning of `t₀` between two steps.
* `Tree.Pruning.Move g costs s` — what a step may do.

## Main results

* `Tree.Remnant.disconnect` — a leaf that is not of worth may go.
* `Tree.Pruning.Sound.step` — every step keeps the invariant, and is progress.
* `Tree.exists_prune_eq` — how a pruning ends.
* `Tree.Remnant.contains_iff` — what is left in the end.
* `Tree.prune_eq_self_of_worth` — pruning leaves a tree without useless leaves as it is.
-/

namespace SteinerSearch

open Relation

namespace Tree

variable {α : Type} [Weight α]

/-- The node is worth keeping, with everything above it: it is required, or its prize pays for
the arc that enters it. -/
def Worth (g : Network α) (costs : CostView α) (t : Tree) (v : Nat) : Prop :=
  g.isRequired v = true ∨ g.isPseudo v = true ∧
    ∃ a c, t.predOf v = some a ∧ costs a = some c ∧ Weight.below (g.prizeOf v) c = false

/-- `t` is what is left of `t₀` after some subtrees were removed in which nothing is of worth. -/
structure Remnant (g : Network α) (costs : CostView α) (t₀ t : Tree) : Prop where
  sized : t.Sized g.nodeCount
  entering : t.Entering g
  within : ∀ v, t.contains v = true → t₀.contains v = true
  /-- What is left keeps its arcs. -/
  kept : ∀ v, t.contains v = true → t.predOf v = t₀.predOf v
  /-- What was removed had an arc, and nothing below it is of worth. -/
  gone : ∀ v, t₀.contains v = true → t.contains v = false →
    t₀.predOf v ≠ none ∧ ∀ w, t₀.Under g w v → ¬ t₀.Worth g costs w

variable {g : Network α} {costs : CostView α} {t t₀ t' : Tree} {u v w a : Nat}

/-- A node of worth is not useless as a leaf. -/
theorem isUseless_eq_false (hpred : t.predOf v = some a) (h : t.Worth g costs v) :
    isUseless g costs v a = .ok false := by
  unfold isUseless
  rcases h with hreq | ⟨hpseudo, b, c, hb, hc, hpays⟩
  · rw [if_pos hreq]
  · obtain rfl := Option.some.inj (hpred.symm.trans hb)
    simp [hpseudo, hc, hpays]

/-- Any other node is. -/
theorem isUseless_eq_true {c : α} (hpred : t.predOf v = some a) (hcost : costs a = some c)
    (h : ¬ t.Worth g costs v) : isUseless g costs v a = .ok true := by
  rw [Worth, not_or] at h
  unfold isUseless
  rw [if_neg h.1]
  by_cases hpseudo : g.isPseudo v = true
  · have hbelow : Weight.below (g.prizeOf v) c = true := by
      by_contra hnot
      exact h.2 ⟨hpseudo, a, c, hpred, hcost, Bool.eq_false_iff.mpr hnot⟩
    rw [if_pos hpseudo, hcost, ← hbelow]
  · rw [if_neg hpseudo]

/-! ### Removing a leaf -/

section Disconnect

variable (ht : t.Entering g) (hbare : t.childCount g v = 0)

include ht hbare

omit [Weight α] in
theorem Entering.disconnect : (t.disconnect v).Entering g := by
  intro u b hb
  rw [predOf_disconnect] at hb
  split at hb
  · cases hb
  · next huv =>
    obtain ⟨hlt, hhead, hu, htail⟩ := ht u b hb
    have hne := (childCount_eq_zero_iff ht).mp hbare u b hb
    rw [contains_disconnect, contains_disconnect, if_neg huv, if_neg hne]
    exact ⟨hlt, hhead, hu, htail⟩

omit [Weight α] in
/-- The tree loses the arc of the leaf. -/
theorem perm_treeArcs_disconnect (hpred : t.predOf v = some a) :
    t.treeArcs.Perm (a :: (t.disconnect v).treeArcs) := by
  have ht' := ht.disconnect hbare
  obtain ⟨-, hhead, -⟩ := ht v a hpred
  have hold : ∀ b, b ∈ (t.disconnect v).treeArcs ↔ g.headOf b ≠ v ∧ b ∈ t.treeArcs := by
    intro b
    rw [mem_treeArcs ht', mem_treeArcs ht, predOf_disconnect]
    by_cases hb : g.headOf b = v <;> simp [hb]
  refine (List.perm_ext_iff_of_nodup (nodup_treeArcs ht) (List.nodup_cons.mpr ⟨?_, ?_⟩)).mpr ?_
  · rw [hold]
    exact fun hmem => hmem.1 hhead
  · exact nodup_treeArcs ht'
  · intro b
    rw [List.mem_cons, hold]
    constructor
    · intro hb
      by_cases hbv : g.headOf b = v
      · have hpred' := (mem_treeArcs ht).mp hb
        rw [hbv, hpred] at hpred'
        exact Or.inl (Option.some.inj hpred').symm
      · exact Or.inr ⟨hbv, hb⟩
    · rintro (rfl | ⟨-, hb⟩)
      · rw [mem_treeArcs ht, hhead]
        exact hpred
      · exact hb

omit [Weight α] in
/-- The parent of the leaf loses a child, and no other node does. -/
theorem childCount_eq_disconnect (hpred : t.predOf v = some a) (u : Nat) :
    t.childCount g u =
      (t.disconnect v).childCount g u + if u = g.tailOf a then 1 else 0 := by
  unfold childCount
  rw [(perm_treeArcs_disconnect ht hbare hpred).countP_eq, List.countP_cons]
  by_cases hu : u = g.tailOf a
  · simp [hu]
  · simp [hu, Ne.symm hu]

end Disconnect

theorem IsForest.remnant (h : t.IsForest g) : Remnant g costs t t where
  sized := h.sized
  entering := h.entering
  within _ hv := hv
  kept _ _ := rfl
  gone _ hv hout := absurd (hout.symm.trans hv) Bool.false_ne_true

theorem Remnant.predOf_eq (h : Remnant g costs t₀ t) (hpred : t.predOf v = some a) :
    t₀.predOf v = some a :=
  (h.kept v (h.entering v a hpred).2.2.1).symm.trans hpred

/-- A leaf may go if it is not of worth: what was below it had gone before. -/
theorem Remnant.disconnect (h : Remnant g costs t₀ t) (h₀ : t₀.Entering g)
    (hbare : t.childCount g v = 0) (hpred : t.predOf v = some a)
    (hworth : ¬ t₀.Worth g costs v) : Remnant g costs t₀ (t.disconnect v) where
  sized := h.sized.disconnect
  entering := h.entering.disconnect hbare
  within u hu := by
    rw [contains_disconnect] at hu
    split at hu
    · cases hu
    · exact h.within u hu
  kept u hu := by
    rw [contains_disconnect] at hu
    rw [predOf_disconnect]
    split at hu
    · cases hu
    · next huv =>
      rw [if_neg huv]
      exact h.kept u hu
  gone u hu hout := by
    rw [contains_disconnect] at hout
    by_cases huv : u = v
    · subst huv
      refine ⟨by rw [h.predOf_eq hpred]; exact Option.some_ne_none a, fun w hw => ?_⟩
      rcases ReflTransGen.cases_tail hw with rfl | ⟨x, hwx, hxu⟩
      · exact hworth
      · -- the child on the way to `w` is none of the tree as it is
        obtain ⟨b, hb, htail⟩ := parent_iff.mp hxu
        refine (h.gone x (h₀ x b hb).2.2.1 ?_).2 w hwx
        by_contra hin
        rw [Bool.not_eq_false] at hin
        exact (childCount_eq_zero_iff h.entering).mp hbare x b ((h.kept x hin).trans hb) htail
    · rw [if_neg huv] at hout
      exact h.gone u hu hout

/-! ### Steps -/

omit [Weight α] in
/-- The children of every node are counted. -/
theorem countChildren (htail : ∀ v a, t.predOf v = some a → g.tailOf a < g.nodeCount)
    (ht : t.Entering g) :
    ∃ children, t.nodes.foldlM (Pruning.countChild g t) (Array.replicate g.nodeCount 0) =
      .ok children ∧ children.size = g.nodeCount ∧
        ∀ v, children.getD v 0 = t.childCount g v := by
  -- the arcs of the nodes that were looked at are counted
  refine foldlM_ok (f := Pruning.countChild g t)
    (J := fun done (children : Array Nat) => children.size = g.nodeCount ∧
      ∀ v, children.getD v 0 = (done.filterMap t.predOf).countP fun a => g.tailOf a == v)
    t.nodes (fun done v children _ hJ => ?_) ⟨Array.size_replicate, fun v => ?_⟩
  · obtain ⟨hsize, hcount⟩ := hJ
    unfold Pruning.countChild
    cases hpred : t.predOf v with
    | none =>
      refine ⟨children, rfl, hsize, fun u => ?_⟩
      rw [List.filterMap_append, hcount u]
      simp [hpred]
    | some a =>
      obtain ⟨ha, -⟩ := ht v a hpred
      have htail : g.tailOf a < children.size := hsize ▸ htail v a hpred
      dsimp only
      rw [checkArc, if_pos ha]
      refine ⟨_, rfl, by rw [Array.size_setIfInBounds, hsize], fun u => ?_⟩
      rw [List.filterMap_append, List.countP_append, ← hcount u]
      by_cases hu : u = g.tailOf a
      · rw [hu, Array.getD_setIfInBounds_self htail]
        simp [hpred]
      · rw [Array.getD_setIfInBounds_of_ne hu]
        simp [hpred, Ne.symm hu]
  · exact Array.getD_replicate _ _ _

namespace Pruning

variable {s s' : Pruning} {leaves : List Nat}

/-- The state in which a pruning of `t` starts, with the children counted. -/
def start (t : Tree) (children : Array Nat) : Pruning :=
  ⟨t, children, (t.nodes.filter fun v => children.getD v 0 == 0).reverse, 0⟩

/-- The state after the leaf `v`, entered over `a`, was removed. -/
def drop (g : Network α) (v a : Nat) (leaves : List Nat) (s : Pruning) : Pruning where
  tree := s.tree.disconnect v
  children := s.children.setIfInBounds (g.tailOf a) (s.children.getD (g.tailOf a) 0 - 1)
  leaves := if s.children.getD (g.tailOf a) 0 - 1 = 0 then g.tailOf a :: leaves else leaves
  removed := s.removed + 1

/-- What a step may do. -/
inductive Move (g : Network α) (costs : CostView α) (s : Pruning) : Progress Pruning Unit → Prop
  /-- There is nothing left to look at. -/
  | ends (hleaves : s.leaves = []) : Move g costs s (.done () s)
  /-- The next leaf has no arc or is of worth. -/
  | keeps {v : Nat} {leaves : List Nat} (hleaves : s.leaves = v :: leaves)
      (hworth : s.tree.predOf v ≠ none → s.tree.Worth g costs v) :
      Move g costs s (.more { s with leaves := leaves })
  /-- The next leaf is removed. -/
  | drops {v a : Nat} {leaves : List Nat} (hleaves : s.leaves = v :: leaves)
      (hpred : s.tree.predOf v = some a) (hworth : ¬ s.tree.Worth g costs v) :
      Move g costs s (.more (drop g v a leaves s))

theorem step_cases (hcosts : ∀ a, a < g.arcCount → (costs a).isSome = true)
    (ht : s.tree.Entering g) : Move g costs s (step g costs s) := by
  unfold step
  split
  · next hnone => exact .ends hnone
  · next v leaves hleaves =>
    dsimp only
    cases hpred : s.tree.predOf v with
    | none => exact .keeps hleaves fun hsome => absurd hpred hsome
    | some a =>
      obtain ⟨ha, -⟩ := ht v a hpred
      obtain ⟨c, hc⟩ := Option.isSome_iff_exists.mp (hcosts a ha)
      by_cases hworth : s.tree.Worth g costs v
      · simp only [isUseless_eq_false hpred hworth]
        exact .keeps hleaves fun _ => hworth
      · simp only [isUseless_eq_true hpred hc hworth, if_neg (Nat.not_le_of_lt ha)]
        exact .drops hleaves hpred hworth

/-- A leaf without an arc, and one of worth, is looked at and kept. -/
theorem step_eq_of_worth
    (hleaves : ∀ v ∈ s.leaves, ∀ a, s.tree.predOf v = some a → s.tree.Worth g costs v) :
    step g costs s = .done () s ∨ ∃ leaves, (∀ v ∈ leaves, v ∈ s.leaves) ∧
      step g costs s = .more { s with leaves := leaves } := by
  unfold step
  split
  · exact Or.inl rfl
  · next v leaves hcons =>
    refine Or.inr ⟨leaves, fun u hu => hcons ▸ List.mem_cons_of_mem v hu, ?_⟩
    dsimp only
    cases hpred : s.tree.predOf v with
    | none => rfl
    | some a =>
      have hworth := hleaves v (hcons ▸ List.mem_cons_self) a hpred
      simp only [isUseless_eq_false hpred hworth]

/-- What holds of a pruning of `t₀` between two steps. -/
structure Sound (g : Network α) (costs : CostView α) (t₀ : Tree) (s : Pruning) : Prop where
  remnant : Remnant g costs t₀ s.tree
  size : s.children.size = g.nodeCount
  counted : ∀ v, s.children.getD v 0 = s.tree.childCount g v
  /-- Only leaves are to be looked at, each of them once. -/
  leaf : ∀ v ∈ s.leaves, s.tree.contains v = true ∧ s.tree.childCount g v = 0
  nodup : s.leaves.Nodup
  /-- The others were looked at and kept. -/
  judged : ∀ v a, s.tree.predOf v = some a → s.tree.childCount g v = 0 → v ∉ s.leaves →
    t₀.Worth g costs v
  removed : s.removed = g.nodes.countP fun v => t₀.contains v && !s.tree.contains v

/-- What is left of a tree is of worth if it was. -/
theorem Sound.worth_iff (h : Sound g costs t₀ s) (hv : s.tree.contains v = true) :
    s.tree.Worth g costs v ↔ t₀.Worth g costs v := by
  unfold Worth
  rw [h.remnant.kept v hv]

/-- The node that is looked at next has no child. -/
theorem Sound.head_bare (h : Sound g costs t₀ s) (hleaves : s.leaves = v :: leaves) :
    s.tree.childCount g v = 0 := (h.leaf v (hleaves ▸ List.mem_cons_self)).2

/-- It is not looked at again. -/
theorem Sound.head_nodup (h : Sound g costs t₀ s) (hleaves : s.leaves = v :: leaves) :
    v ∉ leaves ∧ leaves.Nodup := List.nodup_cons.mp (hleaves ▸ h.nodup)

/-- A leaf that has no arc or is of worth is kept. -/
theorem Sound.keep (h : Sound g costs t₀ s) (hleaves : s.leaves = v :: leaves)
    (hworth : s.tree.predOf v ≠ none → s.tree.Worth g costs v) :
    Sound g costs t₀ { s with leaves := leaves } := by
  have hsub : ∀ u ∈ leaves, u ∈ s.leaves := fun u hu => hleaves ▸ List.mem_cons_of_mem v hu
  refine ⟨h.remnant, h.size, h.counted, fun u hu => h.leaf u (hsub u hu),
    (h.head_nodup hleaves).2, ?_, h.removed⟩
  intro u a hpred hbare hu
  by_cases huv : u = v
  · subst huv
    rw [← h.worth_iff (h.remnant.entering u a hpred).2.2.1]
    refine hworth ?_
    rw [hpred]
    exact Option.some_ne_none a
  · refine h.judged u a hpred hbare ?_
    rw [hleaves, List.mem_cons, not_or]
    exact ⟨huv, hu⟩

section Drop

variable (h : Sound g costs t₀ s) (hleaves : s.leaves = v :: leaves)
  (hpred : s.tree.predOf v = some a)

include h hleaves hpred

/-- The parent of a leaf has a child, so that its counter may be lowered. -/
theorem Sound.counter_pos : 0 < s.children.getD (g.tailOf a) 0 := by
  have hbare := h.head_bare hleaves
  rw [h.counted, childCount_eq_disconnect h.remnant.entering hbare hpred, if_pos rfl]
  omega

theorem Sound.last_child : s.children.getD (g.tailOf a) 0 - 1 =
    (s.tree.disconnect v).childCount g (g.tailOf a) := by
  have hbare := h.head_bare hleaves
  rw [h.counted, childCount_eq_disconnect h.remnant.entering hbare hpred, if_pos rfl,
    Nat.add_sub_cancel]

/-- The parent is to be looked at if that was its last child. -/
theorem Sound.mem_drop_iff : u ∈ (drop g v a leaves s).leaves ↔
    u ∈ leaves ∨ u = g.tailOf a ∧ (s.tree.disconnect v).childCount g u = 0 := by
  show u ∈ (if _ then g.tailOf a :: leaves else leaves) ↔ _
  rw [h.last_child hleaves hpred]
  split
  · next hzero =>
    rw [List.mem_cons, or_comm]
    exact or_congr_right ⟨fun hu => ⟨hu, hu ▸ hzero⟩, fun hu => hu.1⟩
  · next hmore =>
    refine (or_iff_left ?_).symm
    rintro ⟨rfl, hzero⟩
    exact hmore hzero

/-- The counter of the parent is set, and it is the only one that changes. -/
theorem Sound.counted_drop (u : Nat) :
    (drop g v a leaves s).children.getD u 0 = (s.tree.disconnect v).childCount g u := by
  obtain ⟨-, -, -, htail⟩ := h.remnant.entering v a hpred
  show (s.children.setIfInBounds _ _).getD u 0 = _
  by_cases hu : u = g.tailOf a
  · have hsize : g.tailOf a < s.children.size := h.size ▸ h.remnant.sized.lt_of_contains htail
    rw [hu, Array.getD_setIfInBounds_self hsize, h.last_child hleaves hpred]
  · have hbare := h.head_bare hleaves
    rw [Array.getD_setIfInBounds_of_ne hu, h.counted,
      childCount_eq_disconnect h.remnant.entering hbare hpred, if_neg hu, Nat.add_zero]

/-- What is to be looked at after a removal is a leaf without the one that was removed. -/
theorem Sound.leaf_drop (hu : u ∈ (drop g v a leaves s).leaves) :
    (s.tree.disconnect v).contains u = true ∧ (s.tree.disconnect v).childCount g u = 0 := by
  have hbare := h.head_bare hleaves
  have hnodup := h.head_nodup hleaves
  rcases (h.mem_drop_iff hleaves hpred).mp hu with hmem | ⟨rfl, hzero⟩
  · obtain ⟨hin, hnone⟩ := h.leaf u (hleaves ▸ List.mem_cons_of_mem v hmem)
    rw [childCount_eq_disconnect h.remnant.entering hbare hpred] at hnone
    have huv : u ≠ v := by
      rintro rfl
      exact hnodup.1 hmem
    rw [contains_disconnect, if_neg huv]
    exact ⟨hin, by omega⟩
  · obtain ⟨-, -, -, htail⟩ := h.remnant.entering v a hpred
    have hchild := (childCount_eq_zero_iff h.remnant.entering).mp hbare v a hpred
    rw [contains_disconnect, if_neg hchild]
    exact ⟨htail, hzero⟩

/-- No leaf is to be looked at twice: the parent had a child, so it was not listed. -/
theorem Sound.nodup_drop : (drop g v a leaves s).leaves.Nodup := by
  have hnodup := h.head_nodup hleaves
  show (if _ then g.tailOf a :: leaves else leaves).Nodup
  split
  · refine List.nodup_cons.mpr ⟨fun hmem => ?_, hnodup.2⟩
    have hbare := (h.leaf _ (hleaves ▸ List.mem_cons_of_mem v hmem)).2
    exact (childCount_eq_zero_iff h.remnant.entering).mp hbare v a hpred rfl
  · exact hnodup.2

/-- A leaf that is not to be looked at after a removal was a leaf before. -/
theorem Sound.judged_drop {b : Nat} (hb : (s.tree.disconnect v).predOf u = some b)
    (hnone : (s.tree.disconnect v).childCount g u = 0)
    (hu : u ∉ (drop g v a leaves s).leaves) : t₀.Worth g costs u := by
  have hbare := h.head_bare hleaves
  rw [predOf_disconnect] at hb
  split at hb
  · cases hb
  · next huv =>
    rw [h.mem_drop_iff hleaves hpred, not_or, not_and] at hu
    have hutail : u ≠ g.tailOf a := fun heq => hu.2 heq hnone
    refine h.judged u b hb ?_ ?_
    · rw [childCount_eq_disconnect h.remnant.entering hbare hpred, hnone, if_neg hutail]
    · rw [hleaves, List.mem_cons, not_or]
      exact ⟨huv, hu.1⟩

omit hleaves in
/-- One more node was removed. -/
theorem Sound.removed_drop : s.removed + 1 =
    g.nodes.countP fun u => t₀.contains u && !(s.tree.disconnect v).contains u := by
  obtain ⟨-, -, hv, -⟩ := h.remnant.entering v a hpred
  have hnode : v ∈ g.nodes := List.mem_range.mpr (h.remnant.sized.lt_of_contains hv)
  have hnodes : g.nodes.Nodup := List.nodup_range
  rw [NodeQueue.countP_eq_add_of_single (v := v)
    (q := fun u => t₀.contains u && !s.tree.contains u) ?_ ?_ ?_ hnodes, if_pos hnode,
    h.removed]
  · simp [contains_disconnect, h.remnant.within v hv]
  · simp [hv]
  · intro u hu
    simp [contains_disconnect, hu]

/-- A leaf that is not of worth is removed, and its parent is looked at next if that is a leaf
now. -/
theorem Sound.drop (h₀ : t₀.Entering g) (hworth : ¬ s.tree.Worth g costs v) :
    Sound g costs t₀ (drop g v a leaves s) := by
  obtain ⟨hv, hbare⟩ := h.leaf v (hleaves ▸ List.mem_cons_self)
  rw [h.worth_iff hv] at hworth
  exact
    { remnant := h.remnant.disconnect h₀ hbare hpred hworth
      size := by rw [Pruning.drop, Array.size_setIfInBounds, h.size]
      counted := h.counted_drop hleaves hpred
      leaf := fun u hu => h.leaf_drop hleaves hpred hu
      nodup := h.nodup_drop hleaves hpred
      judged := fun u b hb hnone hu => h.judged_drop hleaves hpred hb hnone hu
      removed := h.removed_drop hpred }

end Drop

/-- What is left to do: every leaf is looked at, and every arc may be removed. -/
def load (s : Pruning) : Nat := s.leaves.length + s.tree.treeArcs.length

/-- Every step keeps the invariant and does some of what is left; the last one finds nothing to
look at. -/
theorem Sound.step (hcosts : ∀ a, a < g.arcCount → (costs a).isSome = true) (h₀ : t₀.Entering g)
    (h : Sound g costs t₀ s) :
    (∃ s', step g costs s = .more s' ∧ Sound g costs t₀ s' ∧ s'.load < s.load) ∨
      step g costs s = .done () s ∧ s.leaves = [] := by
  have hmove := step_cases hcosts h.remnant.entering
  generalize hstep : Pruning.step g costs s = p at hmove
  cases hmove with
  | ends hleaves => exact Or.inr ⟨rfl, hleaves⟩
  | keeps hleaves hworth =>
    exact Or.inl ⟨_, rfl, h.keep hleaves hworth, by simp [load, hleaves]⟩
  | @drops v a leaves hleaves hpred hworth =>
    have hbare := h.head_bare hleaves
    have harcs := (perm_treeArcs_disconnect h.remnant.entering hbare hpred).length_eq
    refine Or.inl ⟨_, rfl, h.drop hleaves hpred h₀ hworth, ?_⟩
    show (if _ then _ else leaves).length + (s.tree.disconnect v).treeArcs.length < _
    rw [load, hleaves, harcs, List.length_cons, List.length_cons]
    split
    · rw [List.length_cons]
      omega
    · omega

/-- The leaves of a forest are to be looked at, each of them once. -/
theorem sound_start {children : Array Nat} (h : t.IsForest g) (hsize : children.size = g.nodeCount)
    (hcount : ∀ v, children.getD v 0 = t.childCount g v) :
    Sound g costs t (start t children) := by
  have hmem : ∀ {v}, v ∈ (start t children).leaves ↔
      t.contains v = true ∧ t.childCount g v = 0 := by
    intro v
    show v ∈ List.reverse _ ↔ _
    rw [List.mem_reverse, List.mem_filter, mem_nodes, hcount, beq_iff_eq]
  have hnodup : t.nodes.Nodup := List.nodup_range.filter _
  exact
    { remnant := h.remnant
      size := hsize
      counted := hcount
      leaf := fun v hv => hmem.mp hv
      nodup := List.nodup_reverse.mpr (hnodup.filter _)
      judged := fun v a hpred hnone hv =>
        absurd (hmem.mpr ⟨(h.entering v a hpred).2.2.1, hnone⟩) hv
      removed := by simp [start] }

omit [Weight α] in
/-- There is less to do than a pruning has fuel for. -/
theorem load_start_lt (children : Array Nat) (hsized : t.Sized g.nodeCount) :
    (start t children).load < 2 * g.nodeCount + 1 := by
  have hnodes : t.nodes.length ≤ g.nodeCount := by
    calc t.nodes.length ≤ (List.range t.capacity).length := List.length_filter_le _ _
      _ = t.capacity := List.length_range
      _ = g.nodeCount := hsized.connected
  have hleaves := List.length_filter_le (fun v => children.getD v 0 == 0) t.nodes
  have harcs : t.treeArcs.length ≤ t.nodes.length := List.length_filterMap_le _ _
  show List.length (List.reverse _) + t.treeArcs.length < _
  rw [List.length_reverse]
  omega

end Pruning

/-! ### Pruning -/

theorem prune_eq_of_run {children : Array Nat} {s : Pruning}
    (hchildren : t.nodes.foldlM (Pruning.countChild g t) (Array.replicate g.nodeCount 0) =
      .ok children)
    (hrun : Progress.run (Pruning.step g costs) () (2 * g.nodeCount + 1)
      (Pruning.start t children) = .ok ((), s)) :
    t.prune g costs = .ok (s.removed, s.tree) := by
  unfold prune
  dsimp only
  rw [hchildren, ok_bind]
  change (Progress.run (Pruning.step g costs) () (2 * g.nodeCount + 1)
    (Pruning.start t children) >>= _) = _
  rw [hrun]
  rfl

/-- A pruning keeps its invariant until nothing is left to look at. -/
theorem exists_prune_eq (hcosts : ∀ a, a < g.arcCount → (costs a).isSome = true)
    (h : t.IsForest g) :
    ∃ children s, t.nodes.foldlM (Pruning.countChild g t) (Array.replicate g.nodeCount 0) =
        .ok children ∧
      (∀ s', Progress.Reached (Pruning.step g costs) (Pruning.start t children) s' →
        Pruning.Sound g costs t s') ∧
      t.prune g costs = .ok (s.removed, s.tree) ∧ Pruning.Sound g costs t s ∧ s.leaves = [] := by
  have htail : ∀ v a, t.predOf v = some a → g.tailOf a < g.nodeCount := fun v a hpred =>
    h.sized.lt_of_contains (h.entering v a hpred).2.2.2
  obtain ⟨children, hchildren, hsize, hcount⟩ := countChildren htail h.entering
  have hsound : Pruning.Sound g costs t _ := Pruning.sound_start h hsize hcount
  have hruns : ∀ n s, (Pruning.Sound g costs t s ∧ s.load < n) → ∃ u s',
      Progress.Ends (Pruning.step g costs) s u s' ∧
        Progress.run (Pruning.step g costs) () n s = .ok (u, s') ∧
        Pruning.Sound g costs t s' ∧ s'.leaves = [] := by
    refine Progress.run_ends (fun s hs => Nat.not_lt_zero _ hs.2) fun n s hs => ?_
    obtain ⟨hs, hload⟩ := hs
    rcases hs.step hcosts h.entering with ⟨s', hstep, hs', hless⟩ | ⟨hstep, hempty⟩
    · exact Or.inl ⟨s', hstep, hs', by omega⟩
    · exact Or.inr ⟨(), s, hstep, hs, hempty⟩
  obtain ⟨_, s, -, hrun, hs, hempty⟩ :=
    hruns _ _ ⟨hsound, Pruning.load_start_lt children h.sized⟩
  refine ⟨children, s, hchildren, fun s' hreached => ?_, prune_eq_of_run hchildren hrun, hs, hempty⟩
  refine hreached.ensures hsound fun s₁ s₂ hs₁ hstep => ?_
  rcases hs₁.step hcosts h.entering with ⟨s₃, hstep', hs₃, -⟩ | ⟨hdone, -⟩
  · cases hstep.symm.trans hstep'
    exact hs₃
  · cases hstep.symm.trans hdone

/-- A part of a forest is one. -/
theorem Remnant.isForest (h : Remnant g costs t₀ t) (h₀ : t₀.IsForest g) : t.IsForest g where
  sized := h.sized
  entering := h.entering
  acyclic v hvv := by
    refine h₀.acyclic v (TransGen.mono (fun x y hxy => ?_) v v hvv)
    obtain ⟨a, hpred, htail⟩ := parent_iff.mp hxy
    exact parent_iff.mpr ⟨a, h.predOf_eq hpred, htail⟩

section Ends

variable (h₀ : t₀.IsForest g) (h : Remnant g costs t₀ t)
  (hleaves : ∀ v a, t.predOf v = some a → t.childCount g v = 0 → t₀.Worth g costs v)

include h₀ h hleaves

/-- Below every node with an arc there is something of worth, if the leaves are. -/
theorem Remnant.exists_worth (hpred : t.predOf v = some a) :
    ∃ w, t₀.Under g w v ∧ t₀.Worth g costs w := by
  induction v using (h.isForest h₀).wellFounded_child.induction generalizing a with
  | _ v ih =>
    by_cases hbare : t.childCount g v = 0
    · exact ⟨v, .refl, hleaves v a hpred hbare⟩
    · rw [childCount_eq_zero_iff h.entering] at hbare
      push Not at hbare
      obtain ⟨u, b, hb, htail⟩ := hbare
      obtain ⟨w, hwu, hworth⟩ := ih u (parent_iff.mpr ⟨b, hb, htail⟩) hb
      exact ⟨w, hwu.tail (parent_iff.mpr ⟨b, h.predOf_eq hb, htail⟩), hworth⟩

/-- What is left in the end, whatever the order was. -/
theorem Remnant.contains_iff : t.contains v = true ↔ t₀.contains v = true ∧
    (t₀.predOf v = none ∨ ∃ w, t₀.Under g w v ∧ t₀.Worth g costs w) := by
  constructor
  · intro hv
    refine ⟨h.within v hv, ?_⟩
    cases hpred : t₀.predOf v with
    | none => exact Or.inl rfl
    | some a => exact Or.inr (h.exists_worth h₀ hleaves ((h.kept v hv).trans hpred))
  · rintro ⟨hv, hwhy⟩
    by_contra hout
    obtain ⟨hsome, hnone⟩ := h.gone v hv (Bool.eq_false_iff.mpr hout)
    rcases hwhy with hpred | ⟨w, hwv, hworth⟩
    · exact hsome hpred
    · exact hnone w hwv hworth

end Ends

/-- Pruning leaves a tree as it is whose leaves are all of worth. -/
theorem prune_eq_self_of_worth (ht : t.Entering g)
    (htail : ∀ v a, t.predOf v = some a → g.tailOf a < g.nodeCount)
    (hleaves : ∀ v a, t.predOf v = some a → t.childCount g v = 0 → t.Worth g costs v) :
    t.prune g costs = .ok (0, t) := by
  obtain ⟨children, hchildren, -, hcount⟩ := countChildren htail ht
  have hruns : ∀ fuel (s : Pruning), (s.tree = t ∧ s.removed = 0 ∧
      ∀ v ∈ s.leaves, t.childCount g v = 0) →
      ∃ a s', Progress.run (Pruning.step g costs) () fuel s = .ok (a, s') ∧
        s'.tree = t ∧ s'.removed = 0 := by
    refine Progress.run_ensures (fun s hs => ⟨hs.1, hs.2.1⟩) fun _ s hs => ?_
    obtain ⟨rfl, hremoved, hbare⟩ := hs
    rcases Pruning.step_eq_of_worth fun v hv a hpred => hleaves v a hpred (hbare v hv) with
      hstep | ⟨leaves, hsub, hstep⟩
    · exact Or.inr ⟨(), s, hstep, rfl, hremoved⟩
    · exact Or.inl ⟨_, hstep, rfl, hremoved, fun v hv => hbare v (hsub v hv)⟩
  obtain ⟨_, s, hrun, htree, hremoved⟩ := hruns (2 * g.nodeCount + 1) (Pruning.start t children)
    ⟨rfl, rfl, fun v hv => by
      have hmem := (List.mem_filter.mp (List.mem_reverse.mp hv)).2
      rwa [beq_iff_eq, hcount] at hmem⟩
  rw [prune_eq_of_run hchildren hrun, htree, hremoved]

end Tree

end SteinerSearch
