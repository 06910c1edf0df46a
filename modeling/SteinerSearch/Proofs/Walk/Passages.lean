import SteinerSearch.Proofs.Network.Paths
import SteinerSearch.Proofs.Walk.Credits

/-!
# Passages

A passage is a path whose inner nodes are marked; neither of its ends need be.  A walk
search only looks at paths that neither come back to the start nor go on from the goal.
That is no loss: a passage may leave out what comes before its last visit to the start and
after its first visit to the goal.

## Main definitions

* `Network.IsPassage g u as v` — the arcs `as` lead from `u` to `v`, and in between through
  marked nodes only.
* `Network.IsPassageDistance g c u v d` — `d` is the length of a shortest passage.
* `Walk.Plain t as v` — a path that the search `t` may follow from its start.

## Main results

* `Network.exists_isPassageDistance` — where there is a passage there is a shortest one.
* `Walk.exists_plain` — for each passage there is a plain path that is not longer.
* `Walk.Plain.isPassage` — a plain path to the goal is a passage.
-/

namespace SteinerSearch

namespace Network

variable {α : Type} {g : Network α} {c : Nat → ℚ} {u v : Nat} {as : List Nat} {d e : ℚ}

/-- A path that enters marked nodes only, its end apart. -/
structure IsPassage (g : Network α) (u : Nat) (as : List Nat) (v : Nat) : Prop where
  /-- It is a path. -/
  path : g.IsPath u as v
  /-- The nodes between its ends are marked. -/
  inner : ∀ a ∈ as.dropLast, g.isMarked (g.headOf a) = true

/-- `d` is the length of a shortest passage from `u` to `v`. -/
structure IsPassageDistance (g : Network α) (c : Nat → ℚ) (u v : Nat) (d : ℚ) : Prop where
  /-- Some passage has this length. -/
  attained : ∃ as, g.IsPassage u as v ∧ pathLength c as = d
  /-- No passage is shorter. -/
  least : ∀ as, g.IsPassage u as v → d ≤ pathLength c as

theorem exists_isPassageDistance (hc : ∀ a, a < g.arcCount → Weight.IsWhole (c a))
    (h : g.IsPassage u as v) : ∃ d, g.IsPassageDistance c u v d := by
  obtain ⟨bs, hbs, hleast⟩ := Weight.exists_least_of_isWhole
    (P := fun as => g.IsPassage u as v) (f := pathLength c)
    (fun cs hcs => isWhole_pathLength fun a ha => hc a (hcs.path.lt_arcCount a ha)) h
  exact ⟨_, ⟨bs, hbs, rfl⟩, hleast⟩

/-- The first arc of a passage to another node may be all of it. -/
theorem IsPassage.of_cons {a : Nat} (h : g.IsPassage u (a :: as) v) (hne : g.headOf a ≠ v) :
    g.isMarked (g.headOf a) = true ∧ g.IsPassage (g.headOf a) as v := by
  obtain ⟨-, -, hpath⟩ := h.path
  cases as with
  | nil => exact absurd hpath hne
  | cons b bs =>
    refine ⟨h.inner a List.mem_cons_self, hpath, fun x hx => h.inner x ?_⟩
    exact List.mem_cons_of_mem a hx

/-- A passage to `v` from elsewhere may go on from its last visit to `s`, if it visits `s` at
all, and end with its first visit to `v`. -/
theorem IsPassage.exists_direct (hc : ∀ a, a < g.arcCount → 0 ≤ c a) {s : Nat} (hsv : s ≠ v)
    (huv : u ≠ v) (h : g.IsPassage u as v) :
    ∃ w bs, (w = u ∨ w = s) ∧ g.IsPath w bs v ∧ pathLength c bs ≤ pathLength c as ∧
      ∀ b ∈ bs, g.tailOf b ≠ v ∧ g.headOf b ≠ s ∧
        (g.headOf b = v ∨ g.isMarked (g.headOf b) = true) := by
  induction as generalizing u with
  | nil => exact absurd h.path huv
  | cons a as ih =>
    obtain ⟨ha, rfl, hrest⟩ := h.path
    rw [pathLength_cons]
    by_cases hv : g.headOf a = v
    · refine ⟨g.tailOf a, [a], Or.inl rfl, ⟨ha, rfl, hv⟩, ?_, ?_⟩
      · rw [pathLength_cons, pathLength_nil]
        have hnonneg := pathLength_nonneg fun b hb => hc b (hrest.lt_arcCount b hb)
        linarith
      · intro b hb
        rw [List.mem_singleton.mp hb]
        exact ⟨huv, fun hs => hsv (hs.symm.trans hv), Or.inl hv⟩
    · obtain ⟨hmark, hpass⟩ := h.of_cons hv
      have hcost := hc a ha
      obtain ⟨w, bs, hw, hbs, hlen, hall⟩ := ih hv hpass
      by_cases hws : w = s
      · -- the visit to `s` is still to come
        exact ⟨w, bs, Or.inr hws, hbs, by linarith, hall⟩
      · obtain rfl := hw.resolve_right hws
        refine ⟨g.tailOf a, a :: bs, Or.inl rfl, ⟨ha, rfl, hbs⟩, ?_, fun b hb => ?_⟩
        · rw [pathLength_cons]
          linarith
        · rcases List.mem_cons.mp hb with rfl | hb
          · exact ⟨huv, hws, Or.inr hmark⟩
          · exact hall b hb

/-- After an arc that is not the last one a path goes on from its head. -/
theorem IsPath.exists_next (h : g.IsPath u as v) {a : Nat} (ha : a ∈ as.dropLast) :
    ∃ b ∈ as, g.tailOf b = g.headOf a := by
  induction as generalizing u with
  | nil => exact absurd ha List.not_mem_nil
  | cons x xs ih =>
    obtain ⟨-, -, hrest⟩ := h
    cases xs with
    | nil => exact absurd ha List.not_mem_nil
    | cons y ys =>
      rcases List.mem_cons.mp ha with rfl | ha
      · exact ⟨y, by simp, hrest.2.1⟩
      · obtain ⟨b, hb, htail⟩ := ih hrest ha
        exact ⟨b, List.mem_cons_of_mem x hb, htail⟩

end Network

namespace Walk

/-- An arc that a search may take: it does not leave the goal, and it leads to the goal or to
a marked node. -/
def Passable {α : Type} (t : Walk α) (a : Nat) : Prop :=
  t.network.tailOf a ≠ t.query.goal ∧
    (t.network.headOf a = t.query.goal ∨ t.network.isMarked (t.network.headOf a) = true)

/-- A path from the start that a search may follow. -/
structure Plain {α : Type} (t : Walk α) (as : List Nat) (v : Nat) : Prop where
  path : t.network.IsPath t.query.start as v
  passable : ∀ a ∈ as, t.Passable a

section Plain

variable {α : Type} {t : Walk α} {as : List Nat} {a v : Nat}

theorem plain_nil : t.Plain [] v ↔ t.query.start = v :=
  ⟨fun h => h.path, fun h => ⟨h, fun _ ha => absurd ha List.not_mem_nil⟩⟩

theorem plain_concat : t.Plain (as ++ [a]) v ↔
    t.Plain as (t.network.tailOf a) ∧ a < t.network.arcCount ∧ t.Passable a ∧
      t.network.headOf a = v := by
  constructor
  · rintro ⟨hpath, hpass⟩
    obtain ⟨has, ha, hv⟩ := Network.isPath_concat.mp hpath
    exact ⟨⟨has, fun b hb => hpass b (List.mem_append_left _ hb)⟩, ha, hpass a (by simp), hv⟩
  · rintro ⟨⟨has, hpass⟩, ha, hpa, hv⟩
    refine ⟨Network.isPath_concat.mpr ⟨has, ha, hv⟩, fun b hb => ?_⟩
    rcases List.mem_append.mp hb with hb | hb
    · exact hpass b hb
    · rwa [List.mem_singleton.mp hb]

end Plain

section Passages

variable {α : Type} {g : Network α} {costs : CostView α} {ledger : Ledger}
  {query : WalkQuery α} {as : List Nat}

/-- For each passage from the start to the goal there is a plain path that is not longer. -/
theorem exists_plain {c : Nat → ℚ} (hc : ∀ a, a < g.arcCount → 0 ≤ c a)
    (hne : query.start ≠ query.goal) (h : g.IsPassage query.start as query.goal) :
    ∃ bs, Plain ⟨g.masked query.start query.goal, costs, ledger, query⟩ bs query.goal ∧
      Network.pathLength c bs ≤ Network.pathLength c as := by
  obtain ⟨w, bs, hw, hbs, hlen, hall⟩ := h.exists_direct hc hne hne
  obtain rfl := hw.elim id id
  refine ⟨bs, ⟨Network.isPath_masked.mpr hbs, fun b hb => ?_⟩, hlen⟩
  obtain ⟨htail, hstart, hhead⟩ := hall b hb
  refine ⟨htail, ?_⟩
  by_cases hgoal : g.headOf b = query.goal
  · exact Or.inl hgoal
  · exact Or.inr (Network.isMarked_masked.mpr ⟨hstart, hgoal, hhead.resolve_left hgoal⟩)

/-- A plain path goes on from none of its inner nodes but marked ones. -/
theorem Plain.isPassage {v : Nat}
    (h : Plain ⟨g.masked query.start query.goal, costs, ledger, query⟩ as v) :
    g.IsPassage query.start as v := by
  have hpath := Network.isPath_masked.mp h.path
  refine ⟨hpath, fun a ha => ?_⟩
  obtain ⟨b, hb, htail⟩ := hpath.exists_next ha
  have hinner : g.headOf a ≠ query.goal := fun hgoal =>
    (h.passable b hb).1 (htail.trans hgoal)
  have hhead := (h.passable a ((List.dropLast_sublist _).subset ha)).2.resolve_left hinner
  exact (Network.isMarked_masked.mp hhead).2.2

end Passages

end Walk

end SteinerSearch
