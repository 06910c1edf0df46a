import SteinerSearch.Proofs.Tree.Starts

/-!
# The best of several starts

The starts share one workspace, but each finds it as new, so that each tree is the one its start
leads to alone.  The loop over the starts keeps the first of the best trees.  Whether there is
one does not depend on the starts: within the marked part of the network a required terminal
reaches all others if any start does.

The candidates are shuffled, and the first of them are drawn.  Nothing is used of the shuffle but
that it is a permutation.

## Main definitions

* `Multistart.drawn`, `Multistart.bestIn` — the starts and the best tree for an order of the
  candidates.
* `Multistart.Alone` — what a start leads to in a workspace of its own.
* `Multistart.FirstLeast` — the first of the best trees.

## Main results

* `Multistart.foldl_better` — the loop over the starts keeps the first of the best trees.
* `Multistart.reaches_all_iff` — which terminals are reached does not depend on the start.
* `Multistart.best_spans` — the best tree spans, and when there is one.
* `Multistart.best_minimal` — the best tree is the best that any of the starts leads to.
-/

namespace SteinerSearch

namespace Multistart

variable {g : Network ℚ} {costs : CostView ℚ} {settings : Settings} {start v : Nat}
  {starts order : List Nat} {w w' w₁ : Workspace ℚ} {r r' : RootedTree ℚ}

/-- The starts that are drawn if the candidates are shuffled into `order`. -/
def drawn (settings : Settings) (order : List Nat) : List Nat :=
  order.take (Nat.max settings.treeStarts.toNat 1)

/-- The best tree if the candidates are shuffled into `order`. -/
def bestIn (g : Network ℚ) (costs : CostView ℚ) (settings : Settings) (order : List Nat)
    (w : Workspace ℚ) : Except Fault (Option (RootedTree ℚ) × Workspace ℚ) :=
  bestOf g costs settings (drawn settings order) none w

/-- In the workspace `w` the start leads to the tree `r`. -/
def Alone (g : Network ℚ) (costs : CostView ℚ) (settings : Settings) (w : Workspace ℚ)
    (start : Nat) (r : RootedTree ℚ) : Prop :=
  ∃ u, treeFrom g costs settings start w = .ok (some r, u)

/-! ### Orders of the candidates -/

/-- The seed matters for the order of the candidates only. -/
theorem bestOf_withSeed (seed : UInt64) (best? : Option (RootedTree ℚ)) :
    bestOf g costs { settings with seed := seed } starts best? w =
      bestOf g costs settings starts best? w := by
  induction starts generalizing best? w with
  | nil => rfl
  | cons start starts ih =>
    unfold bestOf
    simp only [ih]
    rfl

/-- Whatever the seed is, some order of the candidates is used. -/
theorem exists_order (hroot : g.root = none) (seed : UInt64) :
    ∃ order, order.Perm (candidates g) ∧
      best g costs { settings with seed := seed } w = bestIn g costs settings order w := by
  unfold best bestIn drawn
  rw [bestOf_withSeed]
  unfold starts
  cases hcandidates : candidates g with
  | nil => exact ⟨[], .refl _, by simp⟩
  | cons u us =>
    rw [hroot]
    exact ⟨_, Generator.shuffle_perm _ _, rfl⟩

/-! ### Candidates -/

/-- If there are marked required terminals, the candidates are these. -/
theorem candidates_eq (h : g.markedRequired ≠ []) : candidates g = g.markedRequired := by
  unfold candidates
  split
  · next hnone => exact absurd hnone h
  · rfl

/-- Every candidate is a marked terminal. -/
theorem of_mem_candidates (hv : v ∈ candidates g) :
    g.isTerminal v = true ∧ g.isMarked v = true := by
  by_cases hnone : g.markedRequired = []
  · simp only [candidates, hnone] at hv
    obtain ⟨hterminal, hmark⟩ := List.mem_filter.mp hv
    exact ⟨(List.mem_filter.mp hterminal).2, hmark⟩
  · rw [candidates_eq hnone, Growth.mem_markedRequired] at hv
    obtain ⟨-, hreq, hmark⟩ := hv
    refine ⟨?_, hmark⟩
    rw [Network.isTerminal, decide_eq_true_eq]
    intro hkind
    rw [Network.isRequired, hkind] at hreq
    cases hreq

/-- There is a candidate if there is a marked terminal. -/
theorem candidates_ne_nil_iff :
    candidates g ≠ [] ↔ ∃ v, g.isTerminal v = true ∧ g.isMarked v = true := by
  constructor
  · intro hne
    obtain ⟨v, hv⟩ := List.exists_mem_of_ne_nil _ hne
    exact ⟨v, of_mem_candidates hv⟩
  · rintro ⟨v, hterminal, hmark⟩ hnil
    have hnode : v < g.nodeCount := by
      by_contra hsize
      rw [Network.isMarked, Array.getD_of_size_le (Nat.le_of_not_lt hsize)] at hmark
      cases hmark
    by_cases hnone : g.markedRequired = []
    · simp only [candidates, hnone] at hnil
      rw [List.filter_eq_nil_iff] at hnil
      refine hnil v ?_ hmark
      exact List.mem_filter.mpr ⟨List.mem_range.mpr hnode, hterminal⟩
    · rw [candidates_eq hnone] at hnil
      exact hnone hnil

/-- A candidate reaches all required terminals if these reach each other. -/
theorem reaches_all_iff (hg : g.Built) (hstart : start ∈ candidates g) :
    (∀ v ∈ g.markedRequired, g.IsReachable start v) ↔
      ∀ u ∈ g.markedRequired, ∀ v ∈ g.markedRequired, g.IsReachable u v := by
  constructor
  · intro h u hu v hv
    exact ((h u hu).symm hg.wellFormed (of_mem_candidates hstart).2).trans (h v hv)
  · intro h v hv
    rw [candidates_eq (List.ne_nil_of_mem hv)] at hstart
    exact h start hstart v hv

/-! ### The first of the best trees -/

/-- `r` is the first of the best trees that the starts lead to. -/
def FirstLeast (tree : Nat → Option (RootedTree ℚ)) (starts : List Nat) (r : RootedTree ℚ) :
    Prop :=
  ∃ before start after, starts = before ++ start :: after ∧ tree start = some r ∧
    (∀ v ∈ before, ∀ r', tree v = some r' → r.objective < r'.objective) ∧
    ∀ v ∈ after, ∀ r', tree v = some r' → r.objective ≤ r'.objective

section FirstLeast

variable {tree : Nat → Option (RootedTree ℚ)}

theorem FirstLeast.exists_start (h : FirstLeast tree starts r) : ∃ v ∈ starts, tree v = some r := by
  obtain ⟨before, start, after, rfl, hr, -⟩ := h
  exact ⟨start, by simp, hr⟩

theorem FirstLeast.le (h : FirstLeast tree starts r) (hv : v ∈ starts) (hr' : tree v = some r') :
    r.objective ≤ r'.objective := by
  obtain ⟨before, start, after, rfl, hr, hbefore, hafter⟩ := h
  rcases List.mem_append.mp hv with hv | hv
  · exact (hbefore v hv r' hr').le
  · rcases List.mem_cons.mp hv with rfl | hv
    · rw [hr] at hr'
      cases hr'
      exact le_rfl
    · exact hafter v hv r' hr'

/-- In whatever order the starts are, the best trees have the same objective. -/
theorem FirstLeast.objective_eq {starts' : List Nat} (hperm : starts.Perm starts')
    (h : FirstLeast tree starts r) (h' : FirstLeast tree starts' r') :
    r'.objective = r.objective := by
  obtain ⟨v, hv, hr⟩ := h.exists_start
  obtain ⟨v', hv', hr'⟩ := h'.exists_start
  apply le_antisymm
  · exact h'.le (hperm.mem_iff.mp hv) hr
  · exact h.le (hperm.mem_iff.mpr hv') hr'

/-- A start that leads to no better tree changes nothing. -/
theorem FirstLeast.keep (h : FirstLeast tree starts r)
    (hv : ∀ r', tree v = some r' → r.objective ≤ r'.objective) :
    FirstLeast tree (starts ++ [v]) r := by
  obtain ⟨before, start, after, rfl, hr, hbefore, hafter⟩ := h
  refine ⟨before, start, after ++ [v], by simp, hr, hbefore, ?_⟩
  intro u hu r' hr'
  rcases List.mem_append.mp hu with hu | hu
  · exact hafter u hu r' hr'
  · rw [List.mem_singleton.mp hu] at hr'
    exact hv r' hr'

/-- A start that leads to a better tree than all before it is the first to do so. -/
theorem FirstLeast.replace (hr : tree v = some r)
    (h : ∀ u ∈ starts, ∀ r', tree u = some r' → r.objective < r'.objective) :
    FirstLeast tree (starts ++ [v]) r :=
  ⟨starts, v, [], rfl, hr, h, by simp⟩

/-- The loop over the starts keeps the first of the best trees, if there are any. -/
theorem foldl_better (tree : Nat → Option (RootedTree ℚ)) (starts : List Nat)
    (hwhole : ∀ v ∈ starts, ∀ r, tree v = some r → Weight.IsWhole r.objective) :
    let best? := starts.foldl (fun best? v => better best? (tree v)) none
    (best? = none → ∀ v ∈ starts, tree v = none) ∧
      ∀ r, best? = some r → FirstLeast tree starts r := by
  refine foldl_ensures (f := fun best? v => better best? (tree v))
    (J := fun done best? => (best? = none → ∀ v ∈ done, tree v = none) ∧
      ∀ r, best? = some r → FirstLeast tree done r) starts ?_ ?_
  · intro done v best? hdone ⟨hnone, hsome⟩
    cases best? with
    | none =>
      have hnone := hnone rfl
      show (tree v = none → _) ∧ ∀ r, tree v = some r → _
      refine ⟨fun hv u hu => ?_, fun r hr => .replace hr fun u hu r' hr' => ?_⟩
      · rcases List.mem_append.mp hu with hu | hu
        · exact hnone u hu
        · rw [List.mem_singleton.mp hu, hv]
      · rw [hnone u hu] at hr'
        cases hr'
    | some best =>
      have hbest := hsome best rfl
      cases hv : tree v with
      | none =>
        refine ⟨fun hnone => (by cases hnone), ?_⟩
        rintro r ⟨⟩
        exact hbest.keep fun r' hr' => by rw [hv] at hr'; cases hr'
      | some new =>
        -- whole objectives are compared exactly
        have hnew := hwhole v (mem_of_appended hdone) new hv
        obtain ⟨u, hu, hbestu⟩ := hbest.exists_start
        have hold := hwhole u (List.IsPrefix.subset hdone (List.mem_append_left _ hu)) best hbestu
        have hbelow := Weight.below_iff (hnew.apart hold)
        unfold better
        dsimp only
        split
        · next hlt =>
          refine ⟨fun hnone => (by cases hnone), ?_⟩
          rintro r ⟨⟩
          refine .replace hv fun x hx r' hr' => ?_
          exact (hbelow.mp hlt).trans_le (hbest.le hx hr')
        · next hge =>
          refine ⟨fun hnone => (by cases hnone), ?_⟩
          rintro r ⟨⟩
          refine hbest.keep fun r' hr' => ?_
          rw [hv] at hr'
          cases hr'
          exact not_lt.mp (mt hbelow.mpr hge)
  · exact ⟨fun _ => by simp, fun r hr => by cases hr⟩

end FirstLeast

/-! ### One start after the other -/

/-- The tree that the start leads to in the workspace `w`, if there is one. -/
def aloneTree (g : Network ℚ) (costs : CostView ℚ) (settings : Settings) (w : Workspace ℚ)
    (start : Nat) : Option (RootedTree ℚ) :=
  match treeFrom g costs settings start w with
  | .ok (new?, _) => new?
  | .error _ => none

theorem aloneTree_eq_some_iff :
    aloneTree g costs settings w start = some r ↔ Alone g costs settings w start r := by
  unfold aloneTree Alone
  cases treeFrom g costs settings start w with
  | error e => simp
  | ok x => simp [Prod.ext_iff]

theorem lt_of_mem_drawn (horder : order.Perm (candidates g)) (hv : v ∈ drawn settings order) :
    v < g.nodeCount :=
  candidates_lt (horder.mem_iff.mp (List.mem_of_mem_take hv))

/-- All candidates are drawn if there are no more of them than starts are asked for. -/
theorem drawn_eq_self (horder : order.Perm (candidates g))
    (hmany : (candidates g).length ≤ settings.treeStarts.toNat) :
    drawn settings order = order := by
  have hlen := horder.length_eq
  have hmax : settings.treeStarts.toNat ≤ Nat.max settings.treeStarts.toNat 1 :=
    Nat.le_max_left _ _
  exact List.take_of_length_le (by omega)

/-- Some start is drawn if there is a candidate. -/
theorem drawn_ne_nil (horder : order.Perm (candidates g)) (hne : candidates g ≠ []) :
    drawn settings order ≠ [] := by
  have hpos : 1 ≤ Nat.max settings.treeStarts.toNat 1 := Nat.le_max_right _ _
  rw [drawn, Ne, List.take_eq_nil_iff, not_or]
  refine ⟨by omega, ?_⟩
  rintro rfl
  exact hne (List.nil_perm.mp horder)

section Runs

variable (settings : Settings) (h : Measured g costs) (hw₁ : w₁.Ready)
  (hroom : g.nodeCount ≤ w₁.capacity)

include h hw₁ hroom

/-- Each start finds the workspace as new, and leaves it so. -/
theorem treeFrom_eq_alone (hstart : start < g.nodeCount) (hw : w.Ready)
    (hsize : Workspace.SameSize w₁ w) :
    ∃ u, treeFrom g costs settings start w = .ok (aloneTree g costs settings w₁ start, u) ∧
      u.Ready ∧ Workspace.SameSize w₁ u := by
  have hboth : BothOk (SameAnswer _) (treeFrom g costs settings start w)
      (treeFrom g costs settings start w₁) :=
    treeFrom_together h.built (fun a ha => (h.cost a ha).imp' _ fun _ => id)
      Weight.looksFar_faraway hroom (hw.rested hw₁ hsize) hstart
  obtain ⟨⟨new?, u⟩, ⟨new?', u'⟩, hrun, hrun', hsame, hrested⟩ := hboth
  obtain rfl : new? = new?' := hsame
  refine ⟨u, ?_, hrested.clean.ready, hrested.sameSize⟩
  rw [hrun, aloneTree, hrun']

/-- The loop over the starts compares the trees that they lead to alone. -/
theorem bestOf_eq_foldl (hstarts : ∀ v ∈ starts, v < g.nodeCount) :
    ∀ {best? : Option (RootedTree ℚ)} {w : Workspace ℚ}, w.Ready → Workspace.SameSize w₁ w →
      ∃ u, bestOf g costs settings starts best? w = .ok (starts.foldl
        (fun best? v => better best? (aloneTree g costs settings w₁ v)) best?, u) := by
  induction starts with
  | nil => exact fun _ _ => ⟨_, rfl⟩
  | cons start starts ih =>
    intro best? w hw hsize
    obtain ⟨u, hrun, hu, husize⟩ := treeFrom_eq_alone settings h hw₁ hroom
      (hstarts start List.mem_cons_self) hw hsize
    rw [bestOf, hrun, ok_bind, List.foldl_cons]
    exact ih (fun v hv => hstarts v (List.mem_cons_of_mem _ hv)) hu husize

/-- What a start leads to alone. -/
theorem alone_spec (hstart : start < g.nodeCount) :
    ((∃ r, Alone g costs settings w₁ start r) ↔
      ∀ v ∈ g.markedRequired, g.IsReachable start v) ∧
    ∃ outcome t u x, Growth.growFrom ⟨g, costs, growthRule g⟩ start w₁ = .ok (outcome, t, u) ∧
      t.objective g costs = .ok x ∧
      ∀ r, Alone g costs settings w₁ start r → r.start = start ∧ r.Spans g costs ∧
        Weight.IsWhole r.objective ∧ r.objective ≤ x := by
  obtain ⟨new?, w', outcome, t, u, x, hrun, hgrow, hx, hiff, hspec⟩ :=
    treeFrom_spec settings h hstart hw₁ hroom
  have halone : ∀ r, Alone g costs settings w₁ start r ↔ new? = some r := by
    intro r
    unfold Alone
    rw [hrun]
    simp [Prod.ext_iff]
  refine ⟨?_, outcome, t, u, x, hgrow, hx, fun r hr => hspec r ((halone r).mp hr)⟩
  rw [← hiff, Option.isSome_iff_exists]
  exact exists_congr halone

/-- The best tree of some starts is the first of the best that they lead to alone. -/
theorem bestOf_spec (hstarts : ∀ v ∈ starts, v < g.nodeCount) (hw : w.Ready)
    (hsize : Workspace.SameSize w₁ w) :
    ∃ best? u, bestOf g costs settings starts none w = .ok (best?, u) ∧
      (best? = none → ∀ v ∈ starts, aloneTree g costs settings w₁ v = none) ∧
      ∀ r, best? = some r → FirstLeast (aloneTree g costs settings w₁) starts r := by
  obtain ⟨u, hrun⟩ : ∃ u, bestOf g costs settings starts none w = .ok (_, u) :=
    bestOf_eq_foldl settings h hw₁ hroom hstarts hw hsize
  refine ⟨_, u, hrun, foldl_better (aloneTree g costs settings w₁) starts fun v hv r hr => ?_⟩
  obtain ⟨-, _, _, _, _, -, -, hspec⟩ := alone_spec settings h hw₁ hroom (hstarts v hv)
  exact (hspec r (aloneTree_eq_some_iff.mp hr)).2.2.1

/-- The best tree is the first of the best that the drawn starts lead to alone, and there is one
if the required terminals reach each other. -/
theorem bestIn_spec (horder : order.Perm (candidates g)) (hw : w.Ready)
    (hsize : Workspace.SameSize w₁ w) :
    ∃ best? u, bestIn g costs settings order w = .ok (best?, u) ∧
      (best?.isSome = true ↔ (∃ v, g.isTerminal v = true ∧ g.isMarked v = true) ∧
        ∀ u ∈ g.markedRequired, ∀ v ∈ g.markedRequired, g.IsReachable u v) ∧
      ∀ r, best? = some r →
        FirstLeast (aloneTree g costs settings w₁) (drawn settings order) r := by
  have hnode : ∀ v ∈ drawn settings order, v < g.nodeCount := fun v hv =>
    lt_of_mem_drawn horder hv
  have hcandidate : ∀ v ∈ drawn settings order, v ∈ candidates g := fun v hv =>
    horder.mem_iff.mp (List.mem_of_mem_take hv)
  obtain ⟨best?, u, hrun, hnone, hsome⟩ := bestOf_spec settings h hw₁ hroom hnode hw hsize
  refine ⟨best?, u, hrun, ?_, hsome⟩
  rw [Option.isSome_iff_exists, ← candidates_ne_nil_iff]
  constructor
  · rintro ⟨r, hr⟩
    obtain ⟨v, hv, hvr⟩ := (hsome r hr).exists_start
    have hreach := (alone_spec settings h hw₁ hroom (hnode v hv)).1.mp
      ⟨r, aloneTree_eq_some_iff.mp hvr⟩
    have hmem := hcandidate v hv
    exact ⟨List.ne_nil_of_mem hmem, (reaches_all_iff h.built hmem).mp hreach⟩
  · rintro ⟨hne, hall⟩
    obtain ⟨v, hv⟩ := List.exists_mem_of_ne_nil _ (drawn_ne_nil horder hne)
    obtain ⟨r, hr⟩ := (alone_spec settings h hw₁ hroom (hnode v hv)).1.mpr
      ((reaches_all_iff h.built (hcandidate v hv)).mpr hall)
    apply Option.ne_none_iff_exists'.mp
    intro hbest
    have hno := hnone hbest v hv
    rw [aloneTree_eq_some_iff.mpr hr] at hno
    cases hno

end Runs

/-! ### The best tree -/

/-- Two required terminals with an optional one between them, at distances 2 and 3. -/
def bridge : Network ℚ :=
  let path := (((Network.empty 3).pushArc 0 1 (2 : ℚ)).pushArc 1 0 2).pushArc 1 2 3
  { path.pushArc 2 1 3 with kind := #[.proper, .pseudo, .proper], prize := #[0, 1, 0] }

theorem built_bridge : bridge.Built := by
  have hone := (Network.Built.empty 3).addArcPair
    (show Network.addArcPair _ 0 1 (2 : ℚ) 2 = .ok (0, _) from rfl)
  have htwo := hone.addArcPair (show Network.addArcPair _ 1 2 3 3 = .ok (1, _) from rfl)
  have hkind₀ := htwo.setTerminal (show Network.setTerminal _ 0 .proper = .ok _ from rfl)
  have hkind₁ := hkind₀.setTerminal (show Network.setTerminal _ 1 .pseudo = .ok _ from rfl)
  have hkind₂ := hkind₁.setTerminal (show Network.setTerminal _ 2 .proper = .ok _ from rfl)
  exact hkind₂.setPrize (show Network.setPrize _ 1 1 = .ok _ from rfl)

theorem measured_bridge : Measured bridge (.ofArray bridge.cost) := by
  have hcost : ∀ a, a < bridge.arcCount →
      ∃ n : ℕ, CostView.ofArray bridge.cost a = some (n : ℚ) := by
    intro a ha
    change a < 4 at ha
    obtain rfl | rfl | rfl | rfl : a = 0 ∨ a = 1 ∨ a = 2 ∨ a = 3 := by omega
    · exact ⟨2, rfl⟩
    · exact ⟨2, rfl⟩
    · exact ⟨3, rfl⟩
    · exact ⟨3, rfl⟩
  refine ⟨built_bridge, hcost, fun v hv => ?_, ?_⟩
  · change v < 3 at hv
    obtain rfl | rfl | rfl : v = 0 ∨ v = 1 ∨ v = 2 := by omega
    · exact ⟨0, rfl⟩
    · exact ⟨1, rfl⟩
    · exact ⟨0, rfl⟩
  · refine Network.distancesInReach_of_sum (fun a ha => ?_) ?_
    · obtain ⟨n, hn⟩ := hcost a ha
      rw [hn, Option.getD_some]
      exact Nat.cast_nonneg n
    · change (2 : ℚ) + (2 + (3 + (3 + 0))) < 1000000000000000
      norm_num

/-- The two required terminals reach each other. -/
theorem reaches_bridge :
    (∃ v, bridge.isTerminal v = true ∧ bridge.isMarked v = true) ∧
      ∀ u ∈ bridge.markedRequired, ∀ v ∈ bridge.markedRequired, bridge.IsReachable u v := by
  have hzero : 0 ∈ candidates bridge := by decide
  refine ⟨⟨0, by decide, by decide⟩, (reaches_all_iff built_bridge hzero).mp ?_⟩
  intro v hv
  change v ∈ [0, 2] at hv
  simp only [List.mem_cons, List.not_mem_nil, or_false] at hv
  rcases hv with rfl | rfl
  · exact Network.isReachable_refl bridge 0
  · exact ⟨[0, 2], Network.isMarkedPath_cons.mpr ⟨⟨by decide, rfl⟩, rfl,
      Network.isMarkedPath_cons.mpr ⟨⟨by decide, rfl⟩, rfl, Network.isMarkedPath_nil.mpr rfl⟩⟩⟩

/-- **The best tree spans, and there is one whenever there can be.**  Whatever the candidates are
shuffled into, a tree is found if there is a marked terminal and the marked required terminals
reach each other.  It is rooted at a start that was drawn, has every marked required terminal,
its cost and objective are those of its arcs, and every leaf is worth the arc that enters it. -/
theorem best_spans (settings : Settings) (hroot : g.root = none) (h : Measured g costs)
    (hw : w.Ready) (hroom : g.nodeCount ≤ w.capacity) :
    (∃ order, order.Perm (candidates g) ∧
      best g costs settings w = bestIn g costs settings order w) ∧
    ∀ order, order.Perm (candidates g) →
      ∃ best? u, bestIn g costs settings order w = .ok (best?, u) ∧
        (best?.isSome = true ↔ (∃ v, g.isTerminal v = true ∧ g.isMarked v = true) ∧
          ∀ u ∈ g.markedRequired, ∀ v ∈ g.markedRequired, g.IsReachable u v) ∧
        ∀ r, best? = some r → r.start ∈ drawn settings order ∧ r.Spans g costs := by
  refine ⟨exists_order hroot settings.seed, fun order horder => ?_⟩
  obtain ⟨best?, u, hrun, hiff, hbest⟩ := bestIn_spec settings h hw hroom horder hw (.refl w)
  refine ⟨best?, u, hrun, hiff, fun r hr => ?_⟩
  obtain ⟨v, hv, hvr⟩ := (hbest r hr).exists_start
  obtain ⟨-, _, _, _, _, -, -, hspec⟩ :=
    alone_spec settings h hw hroom (lt_of_mem_drawn horder hv)
  obtain ⟨rfl, hspans, -⟩ := hspec r (aloneTree_eq_some_iff.mp hvr)
  exact ⟨hv, hspans⟩

/-- From one of the two required terminals to the other. -/
theorem best_spans_on_bridge :
    ∃ r u, best bridge (.ofArray bridge.cost) {} (.fresh 3 0) = .ok (some r, u) ∧
      r.tree.RootedAt bridge r.start ∧ r.tree.contains 0 = true ∧ r.tree.contains 2 = true := by
  obtain ⟨⟨order, horder, hbest⟩, hall⟩ := best_spans {} rfl measured_bridge
    (Workspace.fresh_ready 3 0) (by decide)
  obtain ⟨best?, u, hrun, hiff, hspec⟩ := hall order horder
  obtain ⟨r, rfl⟩ := Option.isSome_iff_exists.mp (hiff.mpr reaches_bridge)
  obtain ⟨-, hspans⟩ := hspec r rfl
  exact ⟨r, u, hbest.trans hrun, hspans.rooted, hspans.required 0 (by decide),
    hspans.required 2 (by decide)⟩

/-- **The best tree is minimal.**  It is the first of the best trees that the drawn starts lead
to, each in a workspace of its own.  No tree that is only grown from one of these starts has a
smaller objective.  If all candidates are drawn, the objective is the same for every order of
them, so for every seed. -/
theorem best_minimal (settings : Settings) (hroot : g.root = none) (h : Measured g costs)
    (hw : w.Ready) (hroom : g.nodeCount ≤ w.capacity) (hw₁ : w₁.Ready)
    (hsize : Workspace.SameSize w₁ w) :
    (∀ seed, ∃ order, order.Perm (candidates g) ∧
      best g costs { settings with seed := seed } w = bestIn g costs settings order w) ∧
    ∀ order, order.Perm (candidates g) → ∀ r u, bestIn g costs settings order w = .ok (some r, u) →
      (∃ before after, drawn settings order = before ++ r.start :: after ∧
        Alone g costs settings w₁ r.start r ∧
        (∀ start ∈ before, ∀ r', Alone g costs settings w₁ start r' →
          r.objective < r'.objective) ∧
        ∀ start ∈ after, ∀ r', Alone g costs settings w₁ start r' →
          r.objective ≤ r'.objective) ∧
      (∀ start ∈ drawn settings order,
        ((∃ r', Alone g costs settings w₁ start r') ↔
          ∀ v ∈ g.markedRequired, g.IsReachable start v) ∧
        ∃ outcome t u x,
          Growth.growFrom ⟨g, costs, growthRule g⟩ start w₁ = .ok (outcome, t, u) ∧
          t.objective g costs = .ok x ∧ r.objective ≤ x) ∧
      ((candidates g).length ≤ settings.treeStarts.toNat → ∀ order',
        order'.Perm (candidates g) → ∃ r' u', bestIn g costs settings order' w = .ok (some r', u') ∧
          r'.objective = r.objective) := by
  refine ⟨exists_order hroot, fun order horder r u hrun => ?_⟩
  have hroom₁ : g.nodeCount ≤ w₁.capacity := hroom.trans_eq hsize.capacity
  obtain ⟨best?, u', hrun', hiff, hbest⟩ := bestIn_spec settings h hw₁ hroom₁ horder hw hsize
  cases hrun.symm.trans hrun'
  have hfirst := hbest r rfl
  obtain ⟨hterminal, hall⟩ := hiff.mp rfl
  refine ⟨?_, fun start hstart => ?_, fun hmany order' horder' => ?_⟩
  · obtain ⟨before, start, after, hdrawn, hr, hbefore, hafter⟩ := hfirst
    have hstart : start ∈ drawn settings order := by simp [hdrawn]
    have halone := aloneTree_eq_some_iff.mp hr
    obtain ⟨-, _, _, _, _, -, -, hspec⟩ :=
      alone_spec settings h hw₁ hroom₁ (lt_of_mem_drawn horder hstart)
    obtain ⟨rfl, -⟩ := hspec r halone
    exact ⟨before, after, hdrawn, halone,
      fun v hv r' hr' => hbefore v hv r' (aloneTree_eq_some_iff.mpr hr'),
      fun v hv r' hr' => hafter v hv r' (aloneTree_eq_some_iff.mpr hr')⟩
  · obtain ⟨hreach, outcome, t, u, x, hgrow, hx, hspec⟩ :=
      alone_spec settings h hw₁ hroom₁ (lt_of_mem_drawn horder hstart)
    obtain ⟨r', hr'⟩ := hreach.mpr
      ((reaches_all_iff h.built (horder.mem_iff.mp (List.mem_of_mem_take hstart))).mpr hall)
    refine ⟨hreach, outcome, t, u, x, hgrow, hx, ?_⟩
    exact (hfirst.le hstart (aloneTree_eq_some_iff.mpr hr')).trans (hspec r' hr').2.2.2
  · obtain ⟨best?, u', hrun', hiff', hbest'⟩ := bestIn_spec settings h hw₁ hroom₁ horder' hw hsize
    obtain ⟨r', rfl⟩ := Option.isSome_iff_exists.mp (hiff'.mpr ⟨hterminal, hall⟩)
    have hfirst' := hbest' r' rfl
    -- all candidates are drawn, in either order
    rw [drawn_eq_self horder hmany] at hfirst
    rw [drawn_eq_self horder' hmany] at hfirst'
    exact ⟨r', u', hrun', hfirst.objective_eq (horder.trans horder'.symm) hfirst'⟩

/-- Both required terminals are drawn, in either order. -/
theorem best_minimal_on_bridge :
    ∃ r u, bestIn bridge (.ofArray bridge.cost) {} [0, 2] (.fresh 3 0) = .ok (some r, u) ∧
      Alone bridge (.ofArray bridge.cost) {} (.fresh 3 0) r.start r ∧
      ∃ r' u', bestIn bridge (.ofArray bridge.cost) {} [2, 0] (.fresh 3 0) = .ok (some r', u') ∧
        r'.objective = r.objective := by
  have hw : (Workspace.fresh 3 0 : Workspace ℚ).Ready := Workspace.fresh_ready 3 0
  have horder : [0, 2].Perm (candidates bridge) := by decide
  have horder' : [2, 0].Perm (candidates bridge) := by decide
  obtain ⟨best?, u, hrun, hiff, -⟩ := bestIn_spec {} measured_bridge hw (by decide)
    horder hw (.refl _)
  obtain ⟨r, rfl⟩ := Option.isSome_iff_exists.mp (hiff.mpr reaches_bridge)
  obtain ⟨⟨_, _, -, halone, -⟩, -, hsame⟩ :=
    (best_minimal {} rfl measured_bridge hw (by decide) hw (.refl _)).2 [0, 2] horder r u hrun
  exact ⟨r, u, hrun, halone, hsame (by decide) [2, 0] horder'⟩

end Multistart

end SteinerSearch
