import Mathlib.Data.List.Nodup
import Mathlib.Logic.Relation

/-!
# Following pointers

Predecessor tables are read by following them from a node until some condition holds.
A chain that gets there visits no node twice, so it is as short as the table.

## Main definitions

* `Chain next stop v vs` — following `next` from `v` leads over the nodes `vs` to one where
  `stop` holds.

## Main results

* `Chain.nodup`, `Chain.length_le` — a chain visits no node twice.
* `Chain.acyclic` — its nodes are on no circle.
* `Chain.next_of_mem`, `Chain.prev_of_mem` — what comes after a node of a chain, and before it.
-/

namespace SteinerSearch

/-- Following `next` from `v` leads over the nodes `vs`, of which `v` is the first, to one
where `stop` holds. -/
inductive Chain (next : Nat → Option Nat) (stop : Nat → Prop) : Nat → List Nat → Prop
  /-- The chain is over. -/
  | stop {v : Nat} (hv : stop v) : Chain next stop v []
  /-- The chain goes on. -/
  | cons {v u : Nat} {vs : List Nat} (hv : ¬ stop v) (hnext : next v = some u)
      (h : Chain next stop u vs) : Chain next stop v (v :: vs)

namespace Chain

variable {next next' : Nat → Option Nat} {stop stop' : Nat → Prop} {v : Nat} {vs : List Nat}

/-- There is one chain from a node. -/
theorem unique {us : List Nat} (hus : Chain next stop v us) (hvs : Chain next stop v vs) :
    us = vs := by
  induction hus generalizing vs with
  | stop hv =>
    cases hvs with
    | stop _ => rfl
    | cons hv' _ _ => exact absurd hv hv'
  | cons hv hnext _ ih =>
    cases hvs with
    | stop hv' => exact absurd hv' hv
    | cons _ hnext' h' =>
      obtain rfl := Option.some.inj (hnext.symm.trans hnext')
      rw [ih h']

theorem not_stop (h : Chain next stop v vs) : ∀ u ∈ vs, ¬ stop u := by
  induction h with
  | stop _ => exact fun u hu => absurd hu List.not_mem_nil
  | cons hv _ _ ih =>
    intro u hu
    rcases List.mem_cons.mp hu with rfl | hu
    · exact hv
    · exact ih u hu

/-- From a node of a chain the chain goes on over its last nodes. -/
theorem exists_suffix (h : Chain next stop v vs) {u : Nat} (hu : u ∈ vs) :
    ∃ us, Chain next stop u us ∧ us <:+ vs := by
  induction h with
  | stop _ => exact absurd hu List.not_mem_nil
  | @cons v x vs hv hnext h ih =>
    rcases List.mem_cons.mp hu with rfl | hu
    · exact ⟨u :: vs, .cons hv hnext h, List.suffix_refl _⟩
    · obtain ⟨us, hus, hsuffix⟩ := ih hu
      exact ⟨us, hus, hsuffix.trans (List.suffix_cons v vs)⟩

/-- A chain that came back to a node would not end. -/
theorem nodup (h : Chain next stop v vs) : vs.Nodup := by
  induction h with
  | stop _ => exact List.nodup_nil
  | @cons v x vs hv hnext h ih =>
    refine List.nodup_cons.mpr ⟨fun hmem => ?_, ih⟩
    -- the chain from `v` would be a part of its own rest
    obtain ⟨us, hus, hsuffix⟩ := h.exists_suffix hmem
    obtain rfl := hus.unique (.cons hv hnext h)
    have hle := hsuffix.length_le
    rw [List.length_cons] at hle
    omega

/-- What comes after a node of a chain is on the chain, or ends it. -/
theorem next_of_mem (h : Chain next stop v vs) {u : Nat} (hu : u ∈ vs) :
    ∃ x, next u = some x ∧ (stop x ∨ x ∈ vs) := by
  induction h with
  | stop _ => exact absurd hu List.not_mem_nil
  | @cons v x vs hv hnext h ih =>
    rcases List.mem_cons.mp hu with rfl | hu
    · refine ⟨x, hnext, ?_⟩
      cases h with
      | stop hx => exact Or.inl hx
      | cons _ _ _ => exact Or.inr (by simp)
    · obtain ⟨y, hy, hmem⟩ := ih hu
      exact ⟨y, hy, hmem.imp_right (List.mem_cons_of_mem v)⟩

/-- Every node of a chain but the first comes after another one. -/
theorem prev_of_mem (h : Chain next stop v vs) {u : Nat} (hu : u ∈ vs) :
    u = v ∨ ∃ x ∈ vs, next x = some u := by
  induction h with
  | stop _ => exact absurd hu List.not_mem_nil
  | @cons v x vs hv hnext h ih =>
    rcases List.mem_cons.mp hu with rfl | hu
    · exact Or.inl rfl
    · right
      rcases ih hu with rfl | ⟨y, hy, hnext'⟩
      · exact ⟨v, List.mem_cons_self, hnext⟩
      · exact ⟨y, List.mem_cons_of_mem v hy, hnext'⟩

/-- A chain through some of `n` nodes is no longer than their number. -/
theorem length_le {n : Nat} (h : Chain next stop v vs) (hn : ∀ u ∈ vs, u < n) :
    vs.length ≤ n := by
  have hle := h.nodup.length_le_of_subset fun u hu => List.mem_range.mpr (hn u hu)
  rwa [List.length_range] at hle

/-- A chain that ends in a node below `n` is shorter. -/
theorem length_lt {n r : Nat} (h : Chain next (· = r) v vs) (hn : ∀ u ∈ vs, u < n)
    (hr : r < n) : vs.length < n := by
  have hnodup : (r :: vs).Nodup := by
    refine List.nodup_cons.mpr ⟨fun hmem => ?_, h.nodup⟩
    exact h.not_stop r hmem rfl
  have hsub : r :: vs ⊆ List.range n := by
    intro u hu
    rw [List.mem_range]
    rcases List.mem_cons.mp hu with rfl | hu
    · exact hr
    · exact hn u hu
  have hle := hnodup.length_le_of_subset hsub
  rwa [List.length_range, List.length_cons] at hle

/-- A chain is read off its own nodes only. -/
theorem congr (h : Chain next stop v vs) (hnext : ∀ u ∈ vs, next' u = next u)
    (hopen : ∀ u ∈ vs, ¬ stop' u) (hstop : ∀ u, stop u → stop' u) :
    Chain next' stop' v vs := by
  induction h with
  | stop hv => exact .stop (hstop _ hv)
  | cons hv hx _ ih =>
    refine .cons (hopen _ List.mem_cons_self) ((hnext _ List.mem_cons_self).trans hx) ?_
    exact ih (fun u hu => hnext u (List.mem_cons_of_mem _ hu))
      fun u hu => hopen u (List.mem_cons_of_mem _ hu)

/-- What lies ahead on a chain is less far from its end. -/
theorem exists_shorter (hstop : ∀ v, stop v → next v = none) (h : Chain next stop v vs) {u : Nat}
    (hvu : Relation.TransGen (fun v u => next v = some u) v u) :
    ∃ us, Chain next stop u us ∧ us.length < vs.length := by
  induction hvu using Relation.TransGen.head_induction_on generalizing vs with
  | single hnext =>
    cases h with
    | stop hv => exact absurd ((hstop _ hv).symm.trans hnext) (by simp)
    | cons hv hnext' hrest =>
      obtain rfl := Option.some.inj (hnext'.symm.trans hnext)
      exact ⟨_, hrest, by simp⟩
  | head hnext _ ih =>
    cases h with
    | stop hv => exact absurd ((hstop _ hv).symm.trans hnext) (by simp)
    | cons hv hnext' hrest =>
      obtain rfl := Option.some.inj (hnext'.symm.trans hnext)
      obtain ⟨us, hus, hlen⟩ := ih hrest
      exact ⟨us, hus, by rw [List.length_cons]; omega⟩

/-- A node from which a chain leads to its end is on no circle. -/
theorem acyclic (hstop : ∀ v, stop v → next v = none) (h : Chain next stop v vs) :
    ¬ Relation.TransGen (fun v u => next v = some u) v v := by
  intro hvv
  obtain ⟨us, hus, hlen⟩ := h.exists_shorter hstop hvv
  rw [hus.unique h] at hlen
  exact Nat.lt_irrefl _ hlen

end Chain

end SteinerSearch
