import SteinerSearch.Proofs.Comparison
import SteinerSearch.Proofs.Queue.Slots

/-!
# The order of a queue of nodes

The sifts only need a preorder of keys that their comparisons respect: then each turns
a heap that is out of order only around the hole into an ordered one, and the node in
slot 1 comes before all others.  If the keys of the waiting nodes are equal or further
apart than rounding, the bare order of the keys is such a preorder.

## Main definitions

* `NodeQueue.OrderedBy R key q` — every node has a key that `R` admits above its own
  above it.
* `NodeQueue.Respects R key q` — comparing the keys of two waiting nodes tells which of
  them `R` admits above the other.
* `NodeQueue.ApartKeys key q` — the keys of the waiting nodes are apart.
* `NodeQueue.Ordered key q` — no node has a smaller key than the one above it.

## Main results

* `NodeQueue.orderedBy_siftUp`, `NodeQueue.orderedBy_siftDown` — the sifts restore the
  order.
* `NodeQueue.OrderedBy.top`, `NodeQueue.Ordered.top_le` — the node in slot 1 comes first.
-/

namespace SteinerSearch

namespace NodeQueue

section Preorder

variable {α : Type} {R : α → α → Prop} {key : Nat → α} {q : NodeQueue} {i v : Nat}

/-- The key of every waiting node may stand below that of the node above it. -/
def OrderedBy (R : α → α → Prop) (key : Nat → α) (q : NodeQueue) : Prop :=
  ∀ j, 2 ≤ j → j ≤ q.size → R (key (q.nodeAt (j / 2))) (key (q.nodeAt j))

/-- Only the node in slot `i` may be out of order with the one above it, and the nodes
below slot `i` are in order with the one above slot `i`. -/
def OrderedAbove (R : α → α → Prop) (key : Nat → α) (q : NodeQueue) (i : Nat) : Prop :=
  ∀ j, 2 ≤ j → j ≤ q.size → j ≠ i → R (key (q.nodeAt (j / 2))) (key (q.nodeAt j)) ∧
    (j / 2 = i → 2 ≤ i → R (key (q.nodeAt (i / 2))) (key (q.nodeAt j)))

/-- Only the nodes below slot `i` may be out of order with the node in slot `i`, and they
are in order with the one above slot `i`. -/
def OrderedBelow (R : α → α → Prop) (key : Nat → α) (q : NodeQueue) (i : Nat) : Prop :=
  ∀ j, 2 ≤ j → j ≤ q.size → (j / 2 ≠ i → R (key (q.nodeAt (j / 2))) (key (q.nodeAt j))) ∧
    (j / 2 = i → 2 ≤ i → R (key (q.nodeAt (i / 2))) (key (q.nodeAt j)))

/-- The node in slot 1 may stand above every other one. -/
theorem OrderedBy.top [Std.Refl R] [IsTrans α R] (hq : OrderedBy R key q) {j : Nat} (hj : 1 ≤ j)
    (hjs : j ≤ q.size) : R (key (q.nodeAt 1)) (key (q.nodeAt j)) := by
  induction j using Nat.strongRecOn with
  | ind j ih =>
    by_cases h : j = 1
    · rw [h]
      exact refl_of R _
    · exact trans_of R (ih (j / 2) (by omega) (by omega) (by omega)) (hq j (by omega) hjs)

theorem OrderedBy.mono {S : α → α → Prop} (hRS : ∀ a b, R a b → S a b) (hq : OrderedBy R key q) :
    OrderedBy S key q := fun j hj hjs => hRS _ _ (hq j hj hjs)

section Respects

variable [Weight α]

/-- Comparing the keys of two waiting nodes tells which of them may stand above the other. -/
def Respects (R : α → α → Prop) (key : Nat → α) (q : NodeQueue) : Prop :=
  ∀ u w, q.Waits u → q.Waits w →
    if Weight.below (key u) (key w) = true then R (key u) (key w) else R (key w) (key u)

theorem Respects.of_below {u w : Nat} (h : Respects R key q) (hu : q.Waits u) (hw : q.Waits w)
    (hb : Weight.below (key u) (key w) = true) : R (key u) (key w) := by
  simpa only [if_pos hb] using h u w hu hw

theorem Respects.of_not_below {u w : Nat} (h : Respects R key q) (hu : q.Waits u)
    (hw : q.Waits w) (hb : ¬ Weight.below (key u) (key w) = true) : R (key w) (key u) := by
  simpa only [if_neg hb] using h u w hu hw

theorem Rearranged.respects {r : NodeQueue} (h : Rearranged q r) (hq : Respects R key q) :
    Respects R key r :=
  fun u w hu hw => hq u w ((h.waits u).mp hu) ((h.waits w).mp hw)

end Respects

/-! ### Towards the root -/

/-- A node that may stand above the one above it changes places with it. -/
theorem OrderedAbove.move [IsTrans α R] (hi : 2 ≤ i) (his : i ≤ q.size)
    (hlt : R (key v) (key (q.nodeAt (i / 2)))) (hq : OrderedAbove R key (q.put i v) i) :
    OrderedAbove R key ((q.put i (q.nodeAt (i / 2))).put (i / 2) v) (i / 2) := by
  intro j hj hjs hji
  rw [size_put, size_put] at hjs
  have hmove := @nodeAt_move q i (i / 2) v (by omega) his (by omega) (by omega) (by omega)
  have hhole := @nodeAt_put q i v (by omega) his
  have hp : (q.put i v).nodeAt (i / 2) = q.nodeAt (i / 2) := by
    rw [hhole (by omega), if_neg (by omega)]
  -- the node that was above the hole is in order with the one above it in turn
  have habove : 2 ≤ i / 2 → R (key ((q.put i v).nodeAt (i / 2 / 2))) (key (q.nodeAt (i / 2))) := by
    intro h
    have := (hq (i / 2) h (by simp; omega) (by omega)).1
    rwa [hp] at this
  by_cases hjeq : j = i
  · -- the slot that was the hole
    have hnode : ((q.put i (q.nodeAt (i / 2))).put (i / 2) v).nodeAt j = q.nodeAt (i / 2) := by
      rw [hmove (by omega), if_neg hji, if_pos hjeq, hp]
    rw [hnode, hjeq, hmove (by omega), if_pos rfl]
    refine ⟨hlt, fun _ h2 => ?_⟩
    rw [hmove (by omega), if_neg (by omega), if_neg (by omega)]
    exact habove h2
  · obtain ⟨hpar, hgrand⟩ := hq j hj (by simpa using hjs) hjeq
    have hnode : ((q.put i (q.nodeAt (i / 2))).put (i / 2) v).nodeAt j = (q.put i v).nodeAt j := by
      rw [hmove (by omega), if_neg hji, if_neg hjeq]
    rw [hnode]
    by_cases hjb : j / 2 = i / 2
    · -- the other node below the one that moved
      rw [hjb, hp] at hpar
      refine ⟨?_, fun _ h2 => ?_⟩
      · rw [hjb, hmove (by omega), if_pos rfl]
        exact trans_of R hlt hpar
      · rw [hmove (by omega), if_neg (by omega), if_neg (by omega)]
        exact trans_of R (habove h2) hpar
    · refine ⟨?_, fun h => absurd h hjb⟩
      by_cases hjc : j / 2 = i
      · -- a node below the hole
        rw [hjc, hmove (by omega), if_neg (by omega), if_pos rfl]
        exact hgrand hjc hi
      · rw [hmove (by omega), if_neg hjb, if_neg hjc]
        exact hpar

theorem orderedBy_siftUp [Weight α] [IsTrans α R] (hi : 1 ≤ i) (his : i ≤ q.size)
    (hq : (q.put i v).Agrees) (hkey : Respects R key (q.put i v))
    (hord : OrderedAbove R key (q.put i v) i) : OrderedBy R key (siftUp key v q i) := by
  induction i using Nat.strongRecOn generalizing q with
  | ind i ih =>
    rw [siftUp]
    by_cases hlt : 1 < i
    · rw [if_pos hlt]
      have hp : (q.put i v).nodeAt (i / 2) = q.nodeAt (i / 2) := by
        rw [nodeAt_put hi his (by omega), if_neg (by omega)]
      have hv : (q.put i v).nodeAt i = v := by rw [nodeAt_put hi his hi, if_pos rfl]
      have hvw : (q.put i v).Waits v := ⟨i, hi, by simpa using his, hv⟩
      have hpw : (q.put i v).Waits (q.nodeAt (i / 2)) := ⟨i / 2, by omega, by simp; omega, hp⟩
      have hmove := rearranged_move hi his (j := i / 2) (by omega) (by omega) (by omega) hq
      dsimp only
      by_cases hb : Weight.below (key v) (key (q.nodeAt (i / 2))) = true
      · rw [if_pos hb]
        exact ih (i / 2) (by omega) (by omega) (by simp; omega) hmove.agrees
          (hmove.respects hkey) (hord.move (by omega) his (hkey.of_below hvw hpw hb))
      · rw [if_neg hb]
        intro j hj hjs
        by_cases hji : j = i
        · rw [hji, hp, hv]
          exact hkey.of_not_below hvw hpw hb
        · exact (hord j hj hjs hji).1
    · rw [if_neg hlt]
      intro j hj hjs
      exact (hord j hj hjs (by omega)).1

/-! ### Away from the root -/

/-- The lesser child may stand above the other one. -/
theorem lesserChild_before [Weight α] [Std.Refl R] (hi : 1 ≤ i) (hc : 2 * i ≤ q.size)
    (hkey : Respects R key q) {j : Nat} (hj : j ≤ q.size) (hji : j / 2 = i) :
    R (key (q.nodeAt (q.lesserChild key i))) (key (q.nodeAt j)) := by
  have hj' : j = 2 * i ∨ j = 2 * i + 1 := by omega
  unfold lesserChild
  by_cases hlt : 2 * i < q.size
  · have hleft : q.Waits (q.nodeAt (2 * i)) := ⟨_, by omega, hc, rfl⟩
    have hright : q.Waits (q.nodeAt (2 * i + 1)) := ⟨_, by omega, hlt, rfl⟩
    by_cases hb : Weight.below (key (q.nodeAt (2 * i + 1))) (key (q.nodeAt (2 * i))) = true
    · rw [if_pos (by simp [hlt, hb])]
      rcases hj' with rfl | rfl
      · exact hkey.of_below hright hleft hb
      · exact refl_of R _
    · rw [if_neg (by simp [hb])]
      rcases hj' with rfl | rfl
      · exact refl_of R _
      · exact hkey.of_not_below hright hleft hb
  · rw [if_neg (by simp [hlt])]
    rcases hj' with rfl | rfl
    · exact refl_of R _
    · omega

/-- A node changes places with one below it that may stand above all others there. -/
theorem OrderedBelow.move {c : Nat} (hi : 1 ≤ i) (his : i ≤ q.size) (hcs : c ≤ q.size)
    (hci : c / 2 = i) (hlt : R (key (q.nodeAt c)) (key v))
    (hmin : ∀ j, j ≤ q.size → j / 2 = i → R (key (q.nodeAt c)) (key (q.nodeAt j)))
    (hq : OrderedBelow R key (q.put i v) i) :
    OrderedBelow R key ((q.put i (q.nodeAt c)).put c v) c := by
  intro j hj hjs
  rw [size_put, size_put] at hjs
  have hmove := @nodeAt_move q i c v hi his (by omega) hcs (by omega)
  have hhole := @nodeAt_put q i v hi his
  have hc : (q.put i v).nodeAt c = q.nodeAt c := by rw [hhole (by omega), if_neg (by omega)]
  have hnodei : ((q.put i (q.nodeAt c)).put c v).nodeAt i = q.nodeAt c := by
    rw [hmove hi, if_neg (by omega), if_pos rfl, hc]
  obtain ⟨hpar, hgrand⟩ := hq j hj (by simpa using hjs)
  constructor
  · intro hjc
    by_cases hji : j / 2 = i
    · -- a node below the hole, or the sifted one
      rw [hji, hnodei, hmove (by omega)]
      by_cases hjeq : j = c
      · rw [if_pos hjeq]
        exact hlt
      · rw [if_neg hjeq, if_neg (by omega), hhole (by omega), if_neg (by omega)]
        exact hmin j hjs hji
    · by_cases hjeq : j = i
      · -- the slot that was the hole
        rw [hjeq, hnodei, hmove (by omega), if_neg (by omega), if_neg (by omega), ← hc]
        exact (hq c (by omega) (by simpa using hcs)).2 hci (by omega)
      · rw [hmove (by omega), if_neg hjc, if_neg hji, hmove (by omega), if_neg (by omega),
          if_neg hjeq]
        exact hpar hji
  · intro hjc _
    rw [hci, hnodei, hmove (by omega), if_neg (by omega), if_neg (by omega), ← hc, ← hjc]
    exact hpar (by omega)

theorem orderedBy_siftDown [Weight α] [Std.Refl R] [IsTrans α R] (hi : 1 ≤ i) (his : i ≤ q.size)
    (hq : (q.put i v).Agrees) (hkey : Respects R key (q.put i v))
    (hord : OrderedBelow R key (q.put i v) i) : OrderedBy R key (siftDown key v q i) := by
  induction hn : q.size - i using Nat.strongRecOn generalizing q i with
  | ind n ih =>
    subst hn
    have hv : (q.put i v).nodeAt i = v := by rw [nodeAt_put hi his hi, if_pos rfl]
    have hother : ∀ {j}, 1 ≤ j → j ≠ i → (q.put i v).nodeAt j = q.nodeAt j := by
      intro j hj hji
      rw [nodeAt_put hi his hj, if_neg hji]
    rw [siftDown]
    by_cases hcs : 2 * i ≤ q.size
    · rw [if_pos ⟨by omega, hcs⟩]
      have hchild : q.lesserChild key i = (q.put i v).lesserChild key i := by
        simp only [lesserChild, size_put]
        rw [hother (by omega) (by omega), hother (by omega) (by omega)]
        rfl
      have hc := lesserChild_cases key q i
      have hmin : ∀ j, j ≤ q.size → j / 2 = i →
          R (key (q.nodeAt (q.lesserChild key i))) (key (q.nodeAt j)) := by
        intro j hj hji
        have := lesserChild_before hi (by simpa using hcs) hkey (by simpa using hj) hji
        rwa [← hchild, hother (by omega) (by omega), hother (by omega) (by omega)] at this
      generalize q.lesserChild key i = c at hc hmin ⊢
      have hcw : (q.put i v).Waits (q.nodeAt c) :=
        ⟨c, by omega, by simp; omega, hother (by omega) (by omega)⟩
      have hvw : (q.put i v).Waits v := ⟨i, hi, by simpa using his, hv⟩
      have hmove := rearranged_move hi his (j := c) (by omega) (by omega) (by omega) hq
      dsimp only
      by_cases hb : Weight.below (key (q.nodeAt c)) (key v) = true
      · rw [if_pos hb]
        exact ih _ (by simp; omega) (by omega) (by simp; omega) hmove.agrees
          (hmove.respects hkey)
          (hord.move hi his (by omega) (by omega) (hkey.of_below hcw hvw hb) hmin) rfl
      · rw [if_neg hb]
        intro j hj hjs
        rw [size_put] at hjs
        by_cases hji : j / 2 = i
        · rw [hji, hv, hother (by omega) (by omega)]
          exact trans_of R (hkey.of_not_below hcw hvw hb) (hmin j hjs hji)
        · exact (hord j hj (by simpa using hjs)).1 hji
    · rw [if_neg (by omega)]
      intro j hj hjs
      rw [size_put] at hjs
      exact (hord j hj (by simpa using hjs)).1 (by omega)

end Preorder

/-! ### Keys that are apart -/

section Apart

variable {key : Nat → ℚ} {q : NodeQueue}

/-- The keys of the waiting nodes are equal or further apart than rounding. -/
def ApartKeys (key : Nat → ℚ) (q : NodeQueue) : Prop :=
  ∀ u w, q.Waits u → q.Waits w → Weight.Apart (key u) (key w)

/-- No waiting node has a smaller key than the one above it. -/
def Ordered (key : Nat → ℚ) (q : NodeQueue) : Prop :=
  ∀ j, 2 ≤ j → j ≤ q.size → key (q.nodeAt (j / 2)) ≤ key (q.nodeAt j)

theorem Ordered.top_le (hq : Ordered key q) {j : Nat} (hj : 1 ≤ j) (hjs : j ≤ q.size) :
    key (q.nodeAt 1) ≤ key (q.nodeAt j) :=
  OrderedBy.top (R := (· ≤ ·)) hq hj hjs

theorem ApartKeys.respects (hq : ApartKeys key q) : Respects (· ≤ ·) key q :=
  fun u w hu hw => (hq u w hu hw).ordered

end Apart

end NodeQueue

end SteinerSearch
