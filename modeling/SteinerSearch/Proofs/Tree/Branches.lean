import SteinerSearch.Proofs.Chains
import SteinerSearch.Proofs.Workspace
import SteinerSearch.Tree.Growth

/-!
# Joining a branch

When a node is connected, its labeled path joins the tree: the path is read off the
labels, which joining does not change.  So a splice is a fold over the nodes of the path.

## Main definitions

* `Tree.Sized t n` — the tables of a tree are for `n` nodes.
* `Workspace.Reopened w m d p w'` — `w'` is `w` with a label of `m`, which waits.
* `Growth.Branch g s v vs` — the labels lead from `v` over `vs` back to the tree.
* `Growth.joinAll g vs s` — the nodes `vs` join one after the other.

## Main results

* `Growth.splice_eq` — a splice joins the nodes of the branch, and no others.
-/

namespace SteinerSearch

/-! ### Tables of a tree -/

namespace Tree

/-- The tables are for `n` nodes. -/
structure Sized (t : Tree) (n : Nat) : Prop where
  connected : t.connected.size = n
  pred : t.pred.size = n

variable {t : Tree} {n u v : Nat} {p : Option Nat}

theorem sized_empty (n : Nat) : (empty n).Sized n := ⟨Array.size_replicate, Array.size_replicate⟩

@[simp] theorem contains_empty : (empty n).contains v = false := Array.getD_replicate _ _ _

@[simp] theorem predOf_empty : (empty n).predOf v = none := Array.getD_replicate _ _ _

theorem Sized.connect (ht : t.Sized n) : (t.connect v p).Sized n := by
  constructor
  · rw [Tree.connect, Array.size_setIfInBounds, ht.connected]
  · rw [Tree.connect, Array.size_setIfInBounds, ht.pred]

theorem contains_connect_self (ht : t.Sized n) (hv : v < n) :
    (t.connect v p).contains v = true :=
  Array.getD_setIfInBounds_self (by rwa [ht.connected]) _ _

theorem contains_connect_of_ne (hne : u ≠ v) : (t.connect v p).contains u = t.contains u :=
  Array.getD_setIfInBounds_of_ne hne _ _

theorem predOf_connect_self (ht : t.Sized n) (hv : v < n) : (t.connect v p).predOf v = p :=
  Array.getD_setIfInBounds_self (by rwa [ht.pred]) _ _

theorem predOf_connect_of_ne (hne : u ≠ v) : (t.connect v p).predOf u = t.predOf u :=
  Array.getD_setIfInBounds_of_ne hne _ _

theorem contains_connect (ht : t.Sized n) (hv : v < n) :
    (t.connect v p).contains u = true ↔ u = v ∨ t.contains u = true := by
  by_cases huv : u = v
  · rw [huv, contains_connect_self ht hv]
    simp
  · rw [contains_connect_of_ne huv]
    simp [huv]

theorem Sized.disconnect (ht : t.Sized n) : (t.disconnect v).Sized n := by
  constructor
  · rw [Tree.disconnect, Array.size_setIfInBounds, ht.connected]
  · rw [Tree.disconnect, Array.size_setIfInBounds, ht.pred]

theorem contains_disconnect :
    (t.disconnect v).contains u = if u = v then false else t.contains u :=
  Array.getD_setIfInBounds_default ..

theorem predOf_disconnect : (t.disconnect v).predOf u = if u = v then none else t.predOf u :=
  Array.getD_setIfInBounds_default ..

end Tree

/-! ### A label that makes a node wait again -/

namespace Workspace

variable {α : Type} [Weight α]

/-- `w'` is `w` with a label of `m`, which waits whether it was settled or not. -/
structure Reopened (w : Workspace α) (m : Nat) (d : α) (p : Option Nat) (w' : Workspace α) :
    Prop where
  sized : w'.Sized
  capacity : w'.capacity = w.capacity
  queued : NodeQueue.Queued w.queue m w'.queue
  dist_self : w'.distOf m = d
  dist_ne : ∀ u, u ≠ m → w'.distOf u = w.distOf u
  pred_self : w'.predOf m = p
  pred_ne : ∀ u, u ≠ m → w'.predOf u = w.predOf u
  visited_self : w'.isVisited m = true
  visited_ne : ∀ u, u ≠ m → w'.isVisited u = w.isVisited u

variable {w w' : Workspace α} {m : Nat} {d : α} {p : Option Nat}

theorem Sized.reopen (hw : w.Sized) (hq : (w.reopen m).queue.capacity = w.queue.capacity) :
    (w.reopen m).Sized :=
  hw.withQueue hq

theorem reopened_setLabel (hw : w.Sized) (hq : w.queue.Consistent) (hm : m < w.capacity) :
    w.Reopened m d p ((w.setLabel m d p).reopen m) := by
  have hqueued : NodeQueue.Queued w.queue m ((w.setLabel m d p).reopen m).queue := by
    change NodeQueue.Queued w.queue m ((w.setLabel m d p).queue.reopen _ m)
    rw [queue_setLabel]
    exact NodeQueue.queued_reopen _ hq (by rwa [hw.queue])
  exact
    { sized := hw.setLabel.reopen (by rw [hqueued.capacity, queue_setLabel])
      capacity := capacity_setLabel (p := p)
      queued := hqueued
      dist_self := distOf_setLabel_self (p := p) hm
      dist_ne := fun u hu => distOf_setLabel_of_ne (d := d) (p := p) hu
      pred_self := predOf_setLabel_self (d := d) hw hm
      pred_ne := fun u hu => predOf_setLabel_of_ne (d := d) (p := p) hu
      visited_self := isVisited_setLabel_self (d := d) (p := p) hw hm
      visited_ne := fun u hu => isVisited_setLabel_of_ne (d := d) (p := p) hu }

theorem reopened_setDist (hw : w.Sized) (hq : w.queue.Consistent) (hm : m < w.capacity)
    (hvisited : w.isVisited m = true) :
    w.Reopened m d (w.predOf m) ((w.setDist m d).reopen m) := by
  have hqueued : NodeQueue.Queued w.queue m ((w.setDist m d).reopen m).queue :=
    NodeQueue.queued_reopen (keyIn (w.dist.setIfInBounds m d)) hq (by rwa [hw.queue])
  have hcap : ((w.setDist m d).reopen m).capacity = w.capacity := Array.size_setIfInBounds
  exact
    { sized := by
        refine ⟨?_, ?_, ?_, ?_, ?_, ?_, ?_⟩ <;> rw [hcap]
        · exact hw.pred
        · exact hqueued.capacity.trans hw.queue
        · exact hw.visited
        · exact hw.claimed
        · exact hw.credited
        · exact hw.creditedOther
        · exact hw.traversed
      capacity := hcap
      queued := hqueued
      dist_self := Array.getD_setIfInBounds_self hm _ _
      dist_ne := fun u hu => Array.getD_setIfInBounds_of_ne hu _ _
      pred_self := rfl
      pred_ne := fun u _ => rfl
      visited_self := hvisited
      visited_ne := fun u _ => rfl }

theorem Reopened.visited_mono (h : w.Reopened m d p w') {u : Nat} (hu : w.isVisited u = true) :
    w'.isVisited u = true := by
  by_cases hum : u = m
  · rw [hum]
    exact h.visited_self
  · rw [h.visited_ne u hum, hu]

/-- A node without a label neither got one nor waits. -/
theorem Reopened.of_not_visited (h : w.Reopened m d p w') {u : Nat}
    (hu : w'.isVisited u = false) : u ≠ m ∧ w.isVisited u = false := by
  have hum : u ≠ m := by
    rintro rfl
    rw [h.visited_self] at hu
    cases hu
  exact ⟨hum, (h.visited_ne u hum).symm.trans hu⟩

end Workspace

/-! ### Splicing -/

namespace Growth

variable {α : Type} [Weight α] {g : Network α} {s : State α} {v : Nat} {vs : List Nat}

/-- The labels lead from `v` over the nodes `vs` back to the tree. -/
def Branch (g : Network α) (s : State α) : Nat → List Nat → Prop :=
  Chain (fun v => (s.space.predOf v).map g.tailOf) fun v => s.tree.contains v = true

/-- The nodes `vs` join one after the other. -/
def joinAll (g : Network α) (vs : List Nat) (s : State α) : State α :=
  vs.foldl (fun s v => join g v s) s

@[simp] theorem joinAll_nil : joinAll g [] s = s := rfl

@[simp] theorem joinAll_cons : joinAll g (v :: vs) s = joinAll g vs (join g v s) := rfl

@[simp] theorem predOf_join (u : Nat) : (join g v s).space.predOf u = s.space.predOf u := rfl

theorem contains_join_of_ne {u : Nat} (hne : u ≠ v) :
    (join g v s).tree.contains u = s.tree.contains u :=
  Tree.contains_connect_of_ne hne

theorem contains_join_mono {u : Nat} (hu : s.tree.contains u = true) :
    (join g v s).tree.contains u = true := by
  by_cases huv : u = v
  · have hsize : v < s.tree.connected.size := by
      by_contra hv
      rw [huv, Tree.contains, Array.getD_of_size_le (Nat.le_of_not_lt hv)] at hu
      cases hu
    rw [huv]
    exact Array.getD_setIfInBounds_self hsize _ _
  · rwa [contains_join_of_ne huv]

/-- A branch that does not pass through `v` is there after `v` joined. -/
theorem Branch.join {u : Nat} (h : Branch g s u vs) (hv : v ∉ vs) :
    Branch g (join g v s) u vs := by
  refine Chain.congr h (fun x _ => rfl) (fun x hx => ?_) fun x hx => contains_join_mono hx
  rw [contains_join_of_ne]
  · exact h.not_stop x hx
  · rintro rfl
    exact hv hx

/-- A splice joins the nodes of the branch, and no others. -/
theorem splice_eq (h : Branch g s v vs) :
    ∀ {fuel : Nat}, vs.length ≤ fuel → splice g fuel v s = joinAll g vs s := by
  induction vs generalizing v s with
  | nil =>
    intro fuel _
    cases h with
    | stop hv =>
      cases fuel with
      | zero => rfl
      | succ fuel => rw [splice, if_pos hv, joinAll_nil]
  | cons x vs ih =>
    intro fuel hfuel
    have hnodup := List.nodup_cons.mp h.nodup
    cases h with
    | cons hv hnext hrest =>
      obtain ⟨fuel, rfl⟩ : ∃ n, fuel = n + 1 := ⟨fuel - 1, by rw [List.length_cons] at hfuel; omega⟩
      obtain ⟨a, ha, rfl⟩ := Option.map_eq_some_iff.mp hnext
      rw [splice, if_neg hv, ha, joinAll_cons]
      -- `x` is on the branch only once, so the rest is a branch after `x` has joined
      exact ih (Branch.join hrest hnodup.1) (by rw [List.length_cons] at hfuel; omega)

end Growth

end SteinerSearch
