import SteinerSearch.Proofs.Queue.Operations
import SteinerSearch.Queue.KeyedQueue

/-!
# Queues with their own keys

A queue with its own keys does what a queue with outside keys does, as long as the
keys of its entries are those of their nodes.  So what is known of the one kind of
queue holds for the other.

## Main definitions

* `KeyedQueue.bare q` — the queue without its keys.
* `KeyedQueue.Keyed key q` — the entries have the keys of their nodes.

## Main results

* `KeyedQueue.bare_siftUp`, `KeyedQueue.bare_siftDown`, `KeyedQueue.bare_insert`,
  `KeyedQueue.bare_popMin?`, `KeyedQueue.bare_empty` — the operations agree.
* `KeyedQueue.queued_insert`, `KeyedQueue.extracted_popMin?` — what they do.
* `KeyedQueue.queued_insert_any`, `KeyedQueue.extracted_popMin?_any` — which nodes wait, whatever
  the keys are.
-/

namespace SteinerSearch

/-- The state of a node in this place. -/
def Place.toState : Place → NodeState
  | .unknown => .unknown
  | .slot i => .queued i
  | .removed => .settled

namespace KeyedQueue

variable {α : Type}

/-- The queue without its keys. -/
def bare (q : KeyedQueue α) (usage : Usage := {}) : NodeQueue where
  slots := q.entries.map KeyedNode.node
  count := q.count
  state := q.place.map Place.toState
  usage := usage
  count_le := by simpa using q.count_le

variable [Weight α] {key key₀ : Nat → α}

/-- Every entry has the key of its node, except that slot `i` may be a hole. -/
def KeyedExcept (key : Nat → α) (q : KeyedQueue α) (i : Nat) : Prop :=
  ∀ j, 1 ≤ j → j ≤ q.size → j ≠ i → (q.entryAt j).key = key (q.entryAt j).node

/-- Every entry has the key of its node. -/
def Keyed (key : Nat → α) (q : KeyedQueue α) : Prop :=
  ∀ j, 1 ≤ j → j ≤ q.size → (q.entryAt j).key = key (q.entryAt j).node

/-! ### Reading and writing slots -/

section Slots

variable {q : KeyedQueue α} {u : Usage}

omit [Weight α] in
@[simp] theorem size_bare : (q.bare u).size = q.size := rfl

omit [Weight α] in
@[simp] theorem capacity_bare : (q.bare u).capacity = q.capacity := by
  simp [bare, NodeQueue.capacity, capacity]

omit [Weight α] in
@[simp] theorem stateOf_bare (v : Nat) : (q.bare u).stateOf v = (q.placeOf v).toState := by
  simp only [bare, NodeQueue.stateOf, placeOf, Array.getD_eq_getD_getElem?, Array.getElem?_map]
  cases q.place[v]? <;> rfl

omit [Weight α] in
theorem isSettled_bare {v : Nat} : (q.bare u).isSettled v = true ↔ q.placeOf v = .removed := by
  rw [NodeQueue.isSettled_iff, stateOf_bare]
  cases q.placeOf v <;> simp [Place.toState]

omit [Weight α] in
theorem placeOf_eq_slot_iff {v i : Nat} : q.placeOf v = .slot i ↔ q.bare.stateOf v = .queued i := by
  rw [stateOf_bare]
  cases q.placeOf v <;> simp [Place.toState]

@[simp] theorem nodeAt_bare (i : Nat) : (q.bare u).nodeAt i = (q.entryAt i).node := by
  simp only [bare, NodeQueue.nodeAt, entryAt, Array.getD_eq_getD_getElem?, Array.getElem?_map]
  cases q.entries[i - 1]? <;> rfl

omit [Weight α] in
@[simp] theorem bare_put (i : Nat) (e : KeyedNode α) :
    (q.put i e).bare u = (q.bare u).put i e.node := by
  exact NodeQueue.ext Array.map_setIfInBounds rfl Array.map_setIfInBounds rfl

theorem entryAt_put {i j : Nat} (hi : 1 ≤ i) (his : i ≤ q.size) (hj : 1 ≤ j) (e : KeyedNode α) :
    (q.put i e).entryAt j = if j = i then e else q.entryAt j := by
  have his := Nat.le_trans his q.count_le
  by_cases h : j = i
  · rw [if_pos h, h]
    exact Array.getD_setIfInBounds_self (by omega) e _
  · rw [if_neg h]
    exact Array.getD_setIfInBounds_of_ne (by omega) e _

/-- Writing an entry with the right key into the hole leaves no hole. -/
theorem KeyedExcept.put {i : Nat} (h : KeyedExcept key q i) (hi : 1 ≤ i) (his : i ≤ q.size)
    {e : KeyedNode α} (he : e.key = key e.node) : Keyed key (q.put i e) := by
  intro j hj hjs
  rw [size_put] at hjs
  rw [entryAt_put hi his hj]
  by_cases hji : j = i
  · rw [if_pos hji, he]
  · rw [if_neg hji]
    exact h j hj hjs hji

/-- The entry of another slot moves into the hole. -/
theorem KeyedExcept.move {i j : Nat} (h : KeyedExcept key q i) (hi : 1 ≤ i) (his : i ≤ q.size)
    (hj : 1 ≤ j) (hjs : j ≤ q.size) (hne : j ≠ i) : KeyedExcept key (q.put i (q.entryAt j)) j :=
  fun l hl hls _ => h.put hi his (h j hj hjs hne) l hl hls

end Slots

/-! ### Sifting -/

theorem bare_siftUp {e : KeyedNode α} (he : e.key = key e.node) {q : KeyedQueue α} {i : Nat}
    (hi : 1 ≤ i) (his : i ≤ q.size) (h : KeyedExcept key q i) (u : Usage) :
    (siftUp e q i).bare u = NodeQueue.siftUp key e.node (q.bare u) i ∧
      Keyed key (siftUp e q i) := by
  induction i using Nat.strongRecOn generalizing q with
  | ind i ih =>
    rw [siftUp, NodeQueue.siftUp]
    by_cases hlt : 1 < i
    · have hp : (q.entryAt (i / 2)).key = key (q.entryAt (i / 2)).node :=
        h (i / 2) (by omega) (by omega) (by omega)
      rw [if_pos hlt, if_pos hlt]
      dsimp only
      rw [nodeAt_bare, he, ← hp]
      split
      · rw [← bare_put]
        exact ih (i / 2) (by omega) (by omega) (by simp; omega)
          (h.move hi his (by omega) (by omega) (by omega))
      · exact ⟨bare_put i e, h.put hi his he⟩
    · rw [if_neg hlt, if_neg hlt]
      exact ⟨bare_put i e, h.put hi his he⟩

/-- Both kinds of queue choose the same child. -/
theorem lesserChild_bare {q : KeyedQueue α} {i : Nat} (hi : 1 ≤ i) (his : 2 * i ≤ q.size)
    (h : KeyedExcept key q i) (u : Usage) :
    (q.bare u).lesserChild key i = q.lesserChild i := by
  unfold NodeQueue.lesserChild lesserChild
  rw [size_bare, nodeAt_bare, nodeAt_bare]
  by_cases hlt : 2 * i < q.size
  · rw [h (2 * i) (by omega) his (by omega), h (2 * i + 1) (by omega) (by omega) (by omega)]
  · simp [hlt]

theorem bare_siftDown {e : KeyedNode α} (he : e.key = key e.node) {q : KeyedQueue α} {i : Nat}
    (hi : 1 ≤ i) (his : i ≤ q.size) (h : KeyedExcept key q i) (u : Usage) :
    (siftDown e q i).bare u = NodeQueue.siftDown key e.node (q.bare u) i ∧
      Keyed key (siftDown e q i) := by
  induction hn : q.size - i using Nat.strongRecOn generalizing q i with
  | ind n ih =>
    subst hn
    rw [siftDown, NodeQueue.siftDown, size_bare]
    by_cases hlt : 0 < i ∧ 2 * i ≤ q.size
    · have hchild := lesserChild_bare hi hlt.2 h u
      have hcases := NodeQueue.lesserChild_cases key (q.bare u) i
      rw [hchild, size_bare] at hcases
      have hc : 1 ≤ q.lesserChild i := by omega
      have hcs : q.lesserChild i ≤ q.size := by omega
      have hkey := h _ hc hcs (by omega)
      rw [if_pos hlt, if_pos hlt]
      dsimp only
      rw [hchild, nodeAt_bare, he, ← hkey]
      split
      · rw [← bare_put]
        exact ih _ (by simp; omega) hc (by simpa using hcs) (h.move hi his hc hcs (by omega)) rfl
      · exact ⟨bare_put i e, h.put hi his he⟩
    · rw [if_neg hlt, if_neg hlt]
      exact ⟨bare_put i e, h.put hi his he⟩

/-! ### Making a node wait -/

section Insert

variable {q : KeyedQueue α} {v : Nat}

theorem Keyed.except {v i : Nat} (h : Keyed key₀ q) (hq : q.bare.Consistent)
    (hv : q.placeOf v = .slot i) (heq : ∀ u, u ≠ v → key u = key₀ u) : KeyedExcept key q i := by
  intro j hj hjs hji
  have hne : (q.entryAt j).node ≠ v := by
    intro hnode
    have hstate := hq.agrees j hj (by rwa [size_bare])
    rw [nodeAt_bare, hnode, stateOf_bare, hv] at hstate
    exact hji (NodeState.queued.inj hstate).symm
  rw [heq _ hne]
  exact h j hj hjs

/-- An entry for a node that does not wait goes into a new slot. -/
theorem Keyed.append (h : Keyed key₀ q) (hw : ¬ q.bare.Waits v)
    (heq : ∀ u, u ≠ v → key u = key₀ u) (e : KeyedNode α) :
    KeyedExcept key (q.append e) (q.size + 1) := by
  intro j hj hjs hjq
  have hjs' : j ≤ q.size := by
    change j ≤ q.size + 1 at hjs
    omega
  have hentry : (q.append e).entryAt j = q.entryAt j := by
    unfold size at hjs'
    exact Buffer.getD_write_of_ne q.count_le (by omega) e _
  rw [hentry]
  have hne : (q.entryAt j).node ≠ v := fun hnode =>
    hw ⟨j, hj, by rwa [size_bare], by rwa [nodeAt_bare]⟩
  rw [heq _ hne]
  exact h j hj hjs'

omit [Weight α] in
/-- Appending an entry appends its node. -/
theorem bare_append (e : KeyedNode α) (u₀ : Usage) :
    (q.append e).bare ((q.bare u₀).append e.node).usage = (q.bare u₀).append e.node :=
  NodeQueue.ext (Buffer.map_write ..) rfl rfl rfl

/-- An entry that does not wait, or gets a smaller key, is inserted like a node that is
opened again.  The counters are not part of what is said about a queue. -/
theorem bare_insert (hq : q.bare.Consistent) (hkeyed : Keyed key₀ q)
    (heq : ∀ u, u ≠ v → key u = key₀ u)
    (hle : q.bare.Waits v → Weight.below (key v) (key₀ v) = true) (u₀ : Usage) :
    (∃ u, (q.insert v (key v)).bare u = (q.bare u₀).reopen key v) ∧
      Keyed key (q.insert v (key v)) := by
  have hnew : (∀ i, q.placeOf v ≠ .slot i) →
      (∃ u, (siftUp ⟨key v, v⟩ (q.append ⟨key v, v⟩) (q.size + 1)).bare u =
          (q.bare u₀).push key v) ∧
        Keyed key (siftUp ⟨key v, v⟩ (q.append ⟨key v, v⟩) (q.size + 1)) := by
    intro hplace
    have hw : ¬ q.bare.Waits v := by
      rw [hq.waits_iff, stateOf_bare]
      rintro ⟨i, hi⟩
      cases hp : q.placeOf v with
      | slot j => exact hplace j hp
      | unknown => rw [hp] at hi; cases hi
      | removed => rw [hp] at hi; cases hi
    obtain ⟨hbare, hkeyed'⟩ := bare_siftUp (q := q.append ⟨key v, v⟩) (e := ⟨key v, v⟩)
      (i := q.size + 1) rfl (by omega) le_rfl (hkeyed.append hw heq ⟨key v, v⟩)
      ((q.bare u₀).append v).usage
    rw [bare_append] at hbare
    exact ⟨⟨_, hbare⟩, hkeyed'⟩
  cases hp : q.placeOf v with
  | slot i =>
    have hstate : (q.bare u₀).stateOf v = .queued i := by rw [stateOf_bare, hp]; rfl
    obtain ⟨hi, his, hnode⟩ := hq.placed v i hstate
    rw [nodeAt_bare] at hnode
    have hold : (q.entryAt i).key = key₀ v := by rw [hkeyed i hi his, hnode]
    have hbelow := hle (hq.waits_iff.mpr ⟨i, hstate⟩)
    obtain ⟨hbare, hkeyed'⟩ := bare_siftUp (q := q) (e := ⟨key v, v⟩) rfl hi his
      (hkeyed.except hq hp heq) u₀
    simp only [insert, NodeQueue.reopen, hp, hold, hbelow, hstate, if_true]
    exact ⟨⟨u₀, hbare⟩, hkeyed'⟩
  | unknown =>
    have hstate : (q.bare u₀).stateOf v = .unknown := by rw [stateOf_bare, hp]; rfl
    simp only [insert, NodeQueue.reopen, hp, hstate]
    exact hnew fun i hi => by rw [hp] at hi; cases hi
  | removed =>
    have hstate : (q.bare u₀).stateOf v = .settled := by rw [stateOf_bare, hp]; rfl
    simp only [insert, NodeQueue.reopen, hp, hstate]
    exact hnew fun i hi => by rw [hp] at hi; cases hi

/-- A waiting node keeps its entry unless it gets a smaller key. -/
theorem insert_of_not_below (hq : q.bare.Consistent) (hkeyed : Keyed key₀ q) (hv : q.bare.Waits v)
    {x : α} (hx : Weight.below x (key₀ v) = false) : q.insert v x = q := by
  obtain ⟨i, hstate⟩ := hq.waits_iff.mp hv
  obtain ⟨hi, his, hnode⟩ := hq.placed v i hstate
  rw [nodeAt_bare] at hnode
  have hplace : q.placeOf v = .slot i := placeOf_eq_slot_iff.mpr hstate
  have hold : (q.entryAt i).key = key₀ v := by rw [hkeyed i hi his, hnode]
  simp only [insert, hplace, hold, hx, Bool.false_eq_true, if_false]

/-- If a node that waits gets no other key than a smaller one, inserting it leaves it
waiting with this key, and nothing else is changed. -/
theorem queued_insert (hq : q.bare.Consistent) (hkeyed : Keyed key₀ q) (hv : v < q.capacity)
    (heq : ∀ u, u ≠ v → key u = key₀ u)
    (hle : q.bare.Waits v → Weight.below (key v) (key₀ v) = true ∨ key v = key₀ v) :
    NodeQueue.Queued q.bare v (q.insert v (key v)).bare ∧ Keyed key (q.insert v (key v)) := by
  by_cases hlower : q.bare.Waits v → Weight.below (key v) (key₀ v) = true
  · obtain ⟨⟨u, hbare⟩, hkeyed'⟩ := bare_insert hq hkeyed heq hlower {}
    have h := NodeQueue.queued_reopen key hq (by rwa [capacity_bare])
    rw [← hbare] at h
    exact ⟨⟨⟨h.consistent.agrees, h.consistent.placed⟩, h.capacity, h.waits, h.frame⟩, hkeyed'⟩
  · rw [Classical.not_imp, Bool.not_eq_true] at hlower
    obtain ⟨hw, hnot⟩ := hlower
    have hsame : key = key₀ := by
      funext u
      by_cases hu : u = v
      · rw [hu, (hle hw).resolve_left (by rw [hnot]; exact Bool.false_ne_true)]
      · exact heq u hu
    rw [insert_of_not_below hq hkeyed hw hnot, hsame]
    refine ⟨⟨hq, rfl, fun u => ⟨Or.inl, ?_⟩, fun u _ _ => rfl⟩, hkeyed⟩
    rintro (hu | rfl)
    · exact hu
    · exact hw

/-- The entries of a consistent queue have some keys, those that they come with. -/
theorem exists_keyed (hq : q.bare.Consistent) : ∃ key, Keyed key q := by
  refine ⟨fun v => (q.keyOf? v).getD 0, fun j hj hjs => ?_⟩
  have hstate := hq.agrees j hj hjs
  rw [nodeAt_bare, ← placeOf_eq_slot_iff] at hstate
  show _ = (q.keyOf? (q.entryAt j).node).getD 0
  rw [keyOf?, hstate, Option.getD_some]

/-- Whatever key it gets, a node is made to wait, and no other node is. -/
theorem queued_insert_any (hq : q.bare.Consistent) (hv : v < q.capacity) (x : α) :
    NodeQueue.Queued q.bare v (q.insert v x).bare := by
  obtain ⟨key, hkeyed⟩ := exists_keyed hq
  by_cases hkeep : q.bare.Waits v ∧ Weight.below x (key v) = false
  · rw [insert_of_not_below hq hkeyed hkeep.1 hkeep.2]
    refine ⟨hq, rfl, fun u => ⟨Or.inl, ?_⟩, fun u _ _ => rfl⟩
    rintro (hu | rfl)
    · exact hu
    · exact hkeep.1
  · have hself : Function.update key v x v = x := Function.update_self v x key
    have h := (queued_insert hq hkeyed hv (fun u hu => Function.update_of_ne hu x key)
      fun hwaits => by
        rw [not_and, Bool.not_eq_false] at hkeep
        rw [hself]
        exact Or.inl (hkeep hwaits)).1
    rwa [hself] at h

end Insert

/-! ### Extraction -/

section Extract

variable {q r : KeyedQueue α} {top : KeyedNode α}

theorem popMin?_eq_none_iff : q.popMin? = none ↔ q.size = 0 := by
  simp [popMin?, peekMin?]

/-- The queue with the entry of its last slot sifted down from slot 1. -/
def refilled (q : KeyedQueue α) : KeyedQueue α :=
  if q.size = 1 then q.shorten else siftDown (q.entryAt q.size) q.shorten 1

/-- The queue with `v`, which is in no slot, removed. -/
def remove (q : KeyedQueue α) (v : Nat) : KeyedQueue α :=
  { q with place := q.place.setIfInBounds v .removed }

omit [Weight α] in
@[simp] theorem size_shorten : q.shorten.size = q.size - 1 := rfl

theorem popMin?_of_pos (hq : 0 < q.size) :
    q.popMin? = some (q.entryAt 1, q.refilled.remove (q.entryAt 1).node) := by
  have htop : q.peekMin? = some (q.entryAt 1) := if_neg (by omega)
  have hfill : (if q.shorten.size = 0 then q.shorten
      else siftDown (q.entryAt q.size) q.shorten 1) = q.refilled := by
    unfold refilled
    rw [size_shorten]
    by_cases h1 : q.size = 1
    · rw [if_pos h1, if_pos (by omega)]
    · rw [if_neg h1, if_neg (by omega)]
  unfold popMin?
  rw [htop, Option.map_some, ← hfill]
  rfl

theorem entryAt_shorten (j : Nat) : q.shorten.entryAt j = q.entryAt j := rfl

theorem bare_refilled (hq : 0 < q.size) (hkeyed : Keyed key q) (u : Usage) :
    q.refilled.bare u = (q.bare u).refilled key ∧ Keyed key q.refilled := by
  have hshort : q.shorten.bare u = (q.bare u).shorten := rfl
  have hrest : Keyed key q.shorten := by
    intro j hj hjs
    rw [size_shorten] at hjs
    rw [entryAt_shorten]
    exact hkeyed j hj (by omega)
  unfold refilled NodeQueue.refilled
  rw [size_bare]
  by_cases h1 : q.size = 1
  · rw [if_pos h1, if_pos h1]
    exact ⟨hshort, hrest⟩
  · rw [if_neg h1, if_neg h1, nodeAt_bare, ← hshort]
    exact bare_siftDown (hkeyed q.size hq le_rfl) le_rfl (by rw [size_shorten]; omega)
      (fun j hj hjs _ => hrest j hj hjs) u

/-- Extraction takes out the same node, with its key. -/
theorem bare_popMin? (hkeyed : Keyed key q) (h : q.popMin? = some (top, r)) (u₀ : Usage) :
    (∃ u, (q.bare u₀).popMin? key = some (top.node, r.bare u)) ∧ Keyed key r ∧
      top.key = key top.node := by
  have hpos : 0 < q.size := by
    rw [Nat.pos_iff_ne_zero]
    intro h0
    rw [popMin?_eq_none_iff.mpr h0] at h
    cases h
  rw [popMin?_of_pos hpos, Option.some.injEq, Prod.mk.injEq] at h
  obtain ⟨rfl, rfl⟩ := h
  obtain ⟨hbare, hrefilled⟩ := bare_refilled hpos hkeyed u₀
  refine ⟨⟨{ u₀ with pops := u₀.pops + 1 }, ?_⟩, hrefilled,
    hkeyed 1 le_rfl hpos⟩
  rw [NodeQueue.popMin?_of_pos (by rwa [size_bare]), nodeAt_bare, ← hbare]
  simp only [NodeQueue.settle, bare, remove, Array.map_setIfInBounds, Place.toState]

theorem extracted_popMin? (hq : q.bare.Consistent) (hkeyed : Keyed key q)
    (h : q.popMin? = some (top, r)) :
    NodeQueue.Extracted q.bare top.node r.bare ∧ Keyed key r ∧ top.key = key top.node := by
  obtain ⟨⟨u, hpop⟩, hrest⟩ := bare_popMin? hkeyed h {}
  have hex := NodeQueue.extracted_popMin? hq hpop
  exact ⟨⟨hex.waited, ⟨hex.consistent.agrees, hex.consistent.placed⟩, hex.capacity, hex.waits,
    hex.settled, hex.frame⟩, hrest⟩

/-- Whatever the keys are, one node that waits is taken out, and no other one. -/
theorem extracted_popMin?_any (hq : q.bare.Consistent) (h : q.popMin? = some (top, r)) :
    NodeQueue.Extracted q.bare top.node r.bare := by
  obtain ⟨key, hkeyed⟩ := exists_keyed hq
  exact (extracted_popMin? hq hkeyed h).1

end Extract

/-! ### Emptying a queue -/

section Empty

variable {q : KeyedQueue α}

theorem waiting_bare : q.bare.waiting = q.waiting :=
  List.map_congr_left fun i _ => nodeAt_bare i

theorem bare_empty : q.empty.bare = q.bare.clear := by
  have hfold : ∀ (vs : List Nat) (place : Array Place),
      (vs.foldl (fun ps v => ps.setIfInBounds v .unknown) place).map Place.toState =
        vs.foldl (fun st v => st.setIfInBounds v .unknown) (place.map Place.toState) := by
    intro vs
    induction vs with
    | nil => exact fun place => rfl
    | cons v vs ih =>
      intro place
      rw [List.foldl_cons, List.foldl_cons, ih, Array.map_setIfInBounds]
      rfl
  refine NodeQueue.ext rfl rfl ?_ rfl
  rw [NodeQueue.clear, waiting_bare]
  exact hfold _ _

@[simp] theorem size_empty : q.empty.size = 0 := rfl

end Empty

end KeyedQueue

end SteinerSearch
