import SteinerSearch.Proofs.Reuse.Multistarts
import SteinerSearch.Proofs.Reuse.Traversals
import SteinerSearch.Proofs.Reuse.Walks

/-!
# Using one workspace for many searches

Every search that uses a workspace writes down which nodes it touched, so a reset that
visits these nodes leaves the workspace as if it was new.  What is left behind it, in slots
and rows that are not in use, has no influence on later searches.  Both statements are about
all searches, with all limits and all outcomes.

## Main definitions

* `SearchCall` — a search with its arguments.
* `SearchCall.perform` — its answer, the network after it, and the workspace after it.
* `SearchCall.Fits call n` — what a search asks for, in a workspace for `n` nodes.
* `SearchCall.Moment call w u` — the workspace is `u` at a moment of a search that starts
  in `w`.
* `SearchHistory n k w` — `w` was used by some searches, each followed by a reset.

## Main results

* `SearchCall.restores` — after a search and a reset nothing is left of the search.
* `SearchHistory.forgets` — a used workspace cannot be told from a new one.
-/

namespace SteinerSearch

/-- The costs of a network serve all of its arcs. -/
theorem Network.Built.exists_cost {α : Type} [Weight α] {g : Network α} (hg : g.Built) {a : Nat}
    (ha : a < g.arcCount) : ∃ c, CostView.ofArray g.cost a = some c := by
  rw [← hg.wellFormed.cost_size] at ha
  exact ⟨_, Array.getElem?_eq_getElem ha⟩

/-- A search that uses a workspace. -/
inductive SearchCall (α : Type) where
  /-- A traversal from given sources. -/
  | traversal (t : Traversal α) (sources : List Nat)
  /-- A traversal from the marked required terminals. -/
  | fromTerminals (g : Network α) (costs : CostView α) (limits : Limits α)
  /-- A traversal backwards from the root. -/
  | toRoot (g : Network α) (costs : Array α) (limits : Limits α)
  /-- A walk search. -/
  | walk (g : Network α) (costs : CostView α) (ledger : Ledger) (query : WalkQuery α)
  /-- The growth of a tree from a node. -/
  | growth (c : Growth α) (start : Nat)
  /-- The extension of a tree. -/
  | extension (c : Growth α) (rounds : Nat) (t : Tree)
  /-- The best tree from several starts. -/
  | best (g : Network α) (costs : CostView α) (settings : Settings)

/-- What a search answers, besides what it leaves in the workspace. -/
inductive SearchAnswer (α : Type) where
  /-- How a traversal ended. -/
  | traversed (outcome : TraversalOutcome)
  /-- What a walk search found. -/
  | walked (outcome : WalkOutcome α)
  /-- How a growth ended, and the tree. -/
  | grown (outcome : GrowthOutcome) (t : Tree)
  /-- The number of nodes that were added, and the tree. -/
  | extended (added : Nat) (t : Tree)
  /-- The best tree, if there is one. -/
  | best (tree? : Option (RootedTree α))

namespace SearchCall

variable {α : Type}

/-- The network that is searched. -/
def network : SearchCall α → Network α
  | .traversal t _ => t.network
  | .fromTerminals g _ _ | .toRoot g _ _ | .walk g _ _ _ | .best g _ _ => g
  | .growth c _ | .extension c _ _ => c.network

/-- The arc costs that are used. -/
def costs : SearchCall α → CostView α
  | .traversal t _ => t.costs
  | .fromTerminals _ costs _ | .walk _ costs _ _ | .best _ costs _ => costs
  | .toRoot _ costs _ => .reversed costs
  | .growth c _ | .extension c _ _ => c.costs

/-- The nodes that the arguments speak of. -/
def nodes : SearchCall α → List Nat
  | .traversal _ sources => sources
  | .walk _ _ _ query => [query.start, query.goal]
  | .growth _ start => [start]
  | .fromTerminals .. | .toRoot .. | .extension .. | .best .. => []

/-- The tree that is to be extended. -/
def tree? : SearchCall α → Option Tree
  | .extension _ _ t => some t
  | .traversal .. | .fromTerminals .. | .toRoot .. | .walk .. | .growth .. | .best .. => none

/-- Whether the search resets the workspace itself. -/
def resetsItself : SearchCall α → Bool
  | .growth .. | .extension .. | .best .. => true
  | .traversal .. | .fromTerminals .. | .toRoot .. | .walk .. => false

variable [Weight α]

/-- The answer of a search, the network after it, and the workspace after it. -/
def perform : SearchCall α → Workspace α → Except Fault (SearchAnswer α × Network α × Workspace α)
  | .traversal t sources, w => do
      let (outcome, w) ← t.run sources w
      return (.traversed outcome, t.network, w)
  | .fromTerminals g costs limits, w => do
      let (outcome, w) ← Traversal.fromTerminals g costs limits w
      return (.traversed outcome, g, w)
  | .toRoot g costs limits, w => do
      let (outcome, w) ← Traversal.toRoot g costs limits w
      return (.traversed outcome, g, w)
  | .walk g costs ledger query, w => do
      let (outcome, g, w) ← Walk.runOn g costs ledger query w
      return (.walked outcome, g, w)
  | .growth c start, w => do
      let (outcome, t, w) ← c.growFrom start w
      return (.grown outcome t, c.network, w)
  | .extension c rounds t, w => do
      let (added, t, w) ← c.extend rounds t w
      return (.extended added t, c.network, w)
  | .best g costs settings, w => do
      let (tree?, w) ← Multistart.best g costs settings w
      return (.best tree?, g, w)

/-- The workspace before the next search: reset, unless the search did that. -/
def cleared (call : SearchCall α) (w : Workspace α) : Workspace α :=
  if call.resetsItself then w else w.reset

/-- What a search asks for, in a workspace for `n` nodes: a network that is not too large,
a cost for each of its arcs, and arguments that are about the network. -/
structure Fits (call : SearchCall α) (n : Nat) : Prop where
  built : call.network.Built
  room : call.network.nodeCount ≤ n
  cost : ∀ a, a < call.network.arcCount → ∃ c, call.costs a = some c
  node : ∀ v ∈ call.nodes, v < call.network.nodeCount
  tree : ∀ t, call.tree? = some t → t.Sized call.network.nodeCount

/-- The workspace is `u` at a moment of a search that starts in `w`. -/
inductive Moment : SearchCall α → Workspace α → Workspace α → Prop
  /-- Nothing has happened. -/
  | before {call : SearchCall α} {w : Workspace α} : Moment call w w
  | traversal {t : Traversal α} {sources : List Nat} {w u : Workspace α}
      (h : t.Moment sources w u) : Moment (.traversal t sources) w u
  | fromTerminals {g : Network α} {costs : CostView α} {limits : Limits α} {w u : Workspace α}
      (h : Traversal.Moment ⟨g, costs, .pathLength, limits⟩ g.markedRequired w u) :
      Moment (.fromTerminals g costs limits) w u
  | toRoot {g : Network α} {costs : Array α} {limits : Limits α} {root : Nat} {w u : Workspace α}
      (hroot : g.root = some root)
      (h : Traversal.Moment ⟨g, .reversed costs, .pathLength, limits⟩ [root] w u) :
      Moment (.toRoot g costs limits) w u
  | walk {g : Network α} {costs : CostView α} {ledger : Ledger} {query : WalkQuery α}
      {w u : Workspace α} (hstart : g.degreeOf query.start ≠ 0) (hgoal : g.degreeOf query.goal ≠ 0)
      (h : Walk.Moment ⟨g.masked query.start query.goal, costs, ledger, query⟩ w u) :
      Moment (.walk g costs ledger query) w u
  | growth {c : Growth α} {start : Nat} {w u : Workspace α} (h : c.StartMoment start w u) :
      Moment (.growth c start) w u
  | extension {c : Growth α} {rounds : Nat} {t : Tree} {w u : Workspace α}
      (h : c.ExtendMoment (Nat.min rounds Growth.maxRounds) t w u) :
      Moment (.extension c rounds t) w u
  | best {g : Network α} {costs : CostView α} {settings : Settings} {w u : Workspace α}
      (h : Multistart.Moment g costs settings (Multistart.starts g settings) w u) :
      Moment (.best g costs settings) w u
  /-- The search is over. -/
  | after {call : SearchCall α} {w u : Workspace α} {answer : SearchAnswer α} {g : Network α}
      (h : call.perform w = .ok (answer, g, u)) : Moment call w u

/-! ### Traversals -/

theorem fits_fromTerminals {g : Network α} {costs : CostView α} {limits : Limits α} {n : Nat}
    (h : (SearchCall.fromTerminals g costs limits).Fits n) :
    Traversal.Fits ⟨g, costs, .pathLength, limits⟩ g.markedRequired where
  built := h.built
  cost := h.cost
  source _ hv := List.mem_range.mp (List.mem_of_mem_filter hv)

theorem fits_toRoot {g : Network α} {costs : Array α} {limits : Limits α} {n root : Nat}
    (h : (SearchCall.toRoot g costs limits).Fits n) (hroot : g.root = some root) :
    Traversal.Fits ⟨g, .reversed costs, .pathLength, limits⟩ [root] where
  built := h.built
  cost := h.cost
  source v hv := by
    rw [List.mem_singleton.mp hv]
    exact h.built.root_lt hroot

/-! ### Searches in lockstep -/

variable {far : α → Prop} {w₀ w w' : Workspace α} {call : SearchCall α}

/-- Two searches end with the same answer and the network that they were given, in
workspaces that are in lockstep, and ready for the next search once they are cleared. -/
structure Same (far : α → Prop) (w₀ : Workspace α) (call : SearchCall α)
    (x x' : SearchAnswer α × Network α × Workspace α) : Prop where
  answer : x'.1 = x.1
  network : x.2.1 = call.network
  network' : x'.2.1 = call.network
  space : Workspace.Lockstep far call.network.nodeCount w₀ x.2.2 x'.2.2
  cleared : Workspace.Rested far w₀ (call.cleared x.2.2) (call.cleared x'.2.2)

/-- A search that does not reset its workspace is followed by a reset. -/
theorem same_of_lockstep (call : SearchCall α) (hfar : far Weight.faraway)
    (hcall : call.resetsItself = false)
    {u u' : Workspace α} (h : Workspace.Lockstep far call.network.nodeCount w₀ u u')
    (answer : SearchAnswer α) :
    Same far w₀ call (answer, call.network, u) (answer, call.network, u') := by
  refine ⟨rfl, rfl, rfl, h, ?_⟩
  simp only [SearchCall.cleared, hcall]
  exact h.reset hfar

theorem same_of_rested (call : SearchCall α) (hcall : call.resetsItself = true)
    (hroom : call.network.nodeCount ≤ w₀.capacity) {u u' : Workspace α}
    (h : Workspace.Rested far w₀ u u') (answer : SearchAnswer α) :
    Same far w₀ call (answer, call.network, u) (answer, call.network, u') := by
  refine ⟨rfl, rfl, rfl, h.lockstep hroom, ?_⟩
  simp only [SearchCall.cleared, hcall]
  exact h

/-- A traversal answers with its outcome, and leaves the reset to its caller. -/
theorem same_of_traversed (call : SearchCall α) (hfar : far Weight.faraway)
    (hcall : call.resetsItself = false)
    {x x' : Except Fault (TraversalOutcome × Workspace α)}
    (h : BothOk (SameAnswer (Workspace.Lockstep far call.network.nodeCount w₀)) x x') :
    BothOk (Same far w₀ call)
      (x >>= fun y => .ok (.traversed y.1, call.network, y.2))
      (x' >>= fun y => .ok (.traversed y.1, call.network, y.2)) := by
  refine h.bind ?_
  rintro ⟨o, u⟩ ⟨o', u'⟩ ⟨ho, hu⟩
  obtain rfl : o = o' := ho
  exact .ok (same_of_lockstep call hfar hcall hu _)

/-- All searches keep workspaces in lockstep. -/
theorem perform_together (hfar : far Weight.faraway) (hcall : call.Fits w₀.capacity)
    (h : Workspace.Rested far w₀ w w') :
    BothOk (Same far w₀ call) (call.perform w) (call.perform w') := by
  have hlinked := hcall.built.wellFormed.toLinked
  cases call with
  | traversal t sources =>
    have ht : t.Fits sources := ⟨hcall.built, hcall.cost, hcall.node⟩
    exact same_of_traversed (.traversal t sources) hfar rfl
      (Traversal.run_together ht (h.lockstep hcall.room))
  | fromTerminals g costs limits =>
    exact same_of_traversed (.fromTerminals g costs limits) hfar rfl
      (Traversal.run_together (fits_fromTerminals hcall) (h.lockstep hcall.room))
  | toRoot g costs limits =>
    exact same_of_traversed (.toRoot g costs limits) hfar rfl
      (Traversal.toRoot_together (fun _ hroot => fits_toRoot hcall hroot)
        (h.lockstep hcall.room))
  | walk g costs ledger query =>
    have hstart : query.start < g.nodeCount := hcall.node _ (by simp [nodes])
    have hgoal : query.goal < g.nodeCount := hcall.node _ (by simp [nodes])
    refine (Walk.runOn_together hcall.built hcall.cost hstart hgoal
      (h.lockstep hcall.room)).bind ?_
    rintro ⟨o, g₁, u⟩ ⟨o', g₂, u'⟩ hx
    obtain rfl : o' = o := hx.answer
    obtain rfl : g₁ = g := hx.network
    obtain rfl : g₂ = g₁ := hx.network'
    exact .ok (same_of_lockstep (.walk _ costs ledger query) hfar rfl hx.space _)
  | growth c start =>
    have hstart : start < c.network.nodeCount := hcall.node start (by simp [nodes])
    refine (Growth.growFrom_together hlinked (fun _ _ => trivial)
      hcall.cost hfar hcall.room h hstart).bind ?_
    rintro ⟨o, t, u⟩ ⟨o', t', u'⟩ hx
    obtain rfl : o' = o := hx.answer
    obtain rfl : t' = t := hx.tree
    exact .ok (same_of_rested (.growth c start) rfl hcall.room hx.space _)
  | extension c rounds t =>
    have ht : t.Sized c.network.nodeCount := hcall.tree t rfl
    refine (Growth.extend_together hlinked (fun _ _ => trivial)
      hcall.cost hfar hcall.room h (fun _ _ _ => trivial) ht.connected rounds).bind ?_
    rintro ⟨o, t, u⟩ ⟨o', t', u'⟩ hx
    obtain rfl : o' = o := hx.answer
    obtain rfl : t' = t := hx.tree
    exact .ok (same_of_rested (.extension c rounds _) rfl hcall.room hx.space _)
  | best g costs settings =>
    refine (Multistart.best_together hcall.built hcall.cost hfar hcall.room h).bind ?_
    rintro ⟨o, u⟩ ⟨o', u'⟩ ⟨ho, hu⟩
    obtain rfl : o = o' := ho
    exact .ok (same_of_rested (.best g costs settings) rfl hcall.room hu _)

/-- At every moment of a search the workspace is tracked. -/
theorem Moment.tracked (hfar : far Weight.faraway) (hcall : call.Fits w₀.capacity)
    (h : Workspace.Rested far w₀ w w) {u : Workspace α} (hu : call.Moment w u) :
    Workspace.Tracked far call.network.nodeCount w₀ u := by
  have hlinked := hcall.built.wellFormed.toLinked
  have hw := (h.lockstep hcall.room).tracked
  cases hu with
  | before => exact hw
  | traversal hu => exact hu.tracked ⟨hcall.built, hcall.cost, hcall.node⟩ hw
  | fromTerminals hu => exact hu.tracked (fits_fromTerminals hcall) hw
  | toRoot hroot hu => exact hu.tracked (fits_toRoot hcall hroot) hw
  | @walk g costs ledger query _ _ _ _ hu =>
    have hcount : (g.masked query.start query.goal).nodeCount = g.nodeCount :=
      Network.nodeCount_masked
    have hstart : query.start < (g.masked query.start query.goal).nodeCount :=
      hcount ▸ hcall.node query.start (by simp [nodes])
    have hu := hu.tracked (hcall.built.masked _ _).wellFormed.toLinked hcall.cost hstart
      (hcount ▸ hw)
    exact hcount ▸ hu
  | growth hu =>
    exact hu.tracked hlinked (fun _ _ => trivial) hcall.cost hcall.room h
      (hcall.node _ (by simp [nodes]))
  | extension hu =>
    exact hu.tracked hlinked (fun _ _ => trivial) hcall.cost hfar
      hcall.room h (fun _ _ _ => trivial) (hcall.tree _ rfl).connected
  | best hu =>
    exact hu.tracked hcall.built hcall.cost hfar hcall.room
      (fun _ hv => Multistart.starts_lt hcall.built hv) h
  | after hrun => exact ((perform_together hfar hcall h).of_eq_ok hrun).space.tracked

/-! ### What is left of a search -/

/-- **A reset restores everything.**  A search that starts in a workspace that was reset finds an
entry for all that it looks up.  In whatever way it ends, the network is as it was, and the
workspace is as new after a reset; growths of trees need none.  At every moment of the search each
node whose entries are not those of a new workspace is in the list of touched nodes, once. -/
theorem restores (hfar : Weight.LooksFar (Weight.faraway : α)) (hw : w.Ready)
    (hcall : call.Fits w.capacity) :
    (∃ answer u, call.perform w = .ok (answer, call.network, u) ∧ u.reset.isPristine = true ∧
      (call.resetsItself = true → u.isPristine = true)) ∧
    ∀ u, call.Moment w u → u.touched.toList.Nodup ∧
      ∀ v, u.isBlankAt v = false → v ∈ u.touched.toList := by
  have hrested : Workspace.Rested Weight.LooksFar w w w := ⟨hw.clean hfar, .refl w, .refl w⟩
  constructor
  · -- the search is compared with itself
    have hboth := perform_together hfar hcall hrested
    obtain ⟨⟨answer, g, u⟩, -, hrun, -, -⟩ := id hboth
    have hsame := hboth.of_eq_ok hrun
    obtain rfl : g = call.network := hsame.network
    refine ⟨answer, u, hrun, (hsame.space.tracked.clean_reset hfar).ready.pristine, fun hself => ?_⟩
    have hclean := hsame.cleared.clean.ready.pristine
    simpa only [cleared, hself, if_true] using hclean
  · intro u hu
    have htracked := hu.tracked hfar hcall hrested
    refine ⟨htracked.nodup, fun v hv => ?_⟩
    -- a node that is not listed was not touched, and so is blank
    by_contra hnot
    have hunvisited : u.isVisited v = false :=
      Bool.eq_false_iff.mpr fun hvisited => hnot ((htracked.listed v).mp hvisited)
    rw [Workspace.isBlankAt_iff.mpr ⟨hunvisited, htracked.blank v hunvisited⟩] at hv
    cases hv

/-- A walk search that may not scan any arc, over an edge of cost 3. -/
theorem restores_on_edge :
    let g := ((Network.empty 2).pushArc 0 1 (3 : ℚ)).pushArc 1 0 3
    let call : SearchCall ℚ := .walk g (.ofArray g.cost) .split ⟨0, 1, 100, 0⟩
    (∃ answer u, call.perform (.fresh 2 1) = .ok (answer, g, u) ∧ u.reset.isPristine = true) ∧
      ∀ u, call.Moment (.fresh 2 1) u → u.touched.toList.Nodup := by
  intro g call
  have hadd : (Network.empty 2).addArcPair 0 1 (3 : ℚ) 3 = .ok (0, g) := rfl
  have hbuilt : g.Built := (Network.Built.empty 2).addArcPair hadd
  have hfar : Weight.LooksFar (Weight.faraway : ℚ) := by simp [Weight.LooksFar, Weight.same]
  have hfits : call.Fits (Workspace.fresh 2 1 : Workspace ℚ).capacity :=
    ⟨hbuilt, le_rfl, fun _ => hbuilt.exists_cost, by decide, fun t ht => by cases ht⟩
  obtain ⟨⟨answer, u, hrun, hreset, -⟩, hmoment⟩ :=
    restores hfar (Workspace.fresh_ready 2 1) hfits
  exact ⟨⟨answer, u, hrun, hreset⟩, fun u hu => (hmoment u hu).1⟩

end SearchCall

/-! ### Histories -/

/-- `w` was made for `n` nodes and lists of up to `k` ids, and used by some searches, each of
which found it reset. -/
inductive SearchHistory {α : Type} [Weight α] (n k : Nat) : Workspace α → Prop
  /-- No search has used it. -/
  | fresh : SearchHistory n k (.fresh n k)
  /-- One more search has used it. -/
  | call {w u : Workspace α} {call : SearchCall α} {answer : SearchAnswer α} {g : Network α}
      (h : SearchHistory n k w) (hcall : call.Fits n)
      (hrun : call.perform w = .ok (answer, g, u)) : SearchHistory n k (call.cleared u)
  /-- It was reset once more. -/
  | reset {w : Workspace α} (h : SearchHistory n k w) : SearchHistory n k w.reset

namespace SearchHistory

variable {α : Type} [Weight α] {n k : Nat} {w : Workspace α} {call : SearchCall α}

theorem fits_fresh (hcall : call.Fits n) :
    call.Fits (Workspace.fresh n k : Workspace α).capacity := by
  rw [Workspace.capacity_fresh]
  exact hcall

theorem of_clean (hw : w.Clean Weight.IsFar) (hsize : Workspace.SameSize (.fresh n k) w) :
    Workspace.Rested Weight.IsFar (.fresh n k) w (.fresh n k) :=
  ⟨hw, hsize, hw.alike (Workspace.clean_fresh n k) hsize.symm⟩

/-- A used workspace is clean, so it is like a new one. -/
theorem rested (h : SearchHistory n k w) :
    Workspace.Rested Weight.IsFar (.fresh n k) w (.fresh n k) := by
  induction h with
  | fresh => exact ⟨Workspace.clean_fresh n k, .refl _, .refl _⟩
  | call _ hcall hrun ih =>
    obtain ⟨x, x', hx, -, hsame⟩ :=
      SearchCall.perform_together Weight.isFar_faraway (fits_fresh hcall) ih
    obtain rfl := Except.ok.inj (hrun.symm.trans hx)
    exact of_clean hsame.cleared.clean hsame.cleared.sameSize
  | reset _ ih =>
    have hlock : Workspace.Lockstep Weight.IsFar 0 (.fresh n k) _ _ := ih.lockstep (Nat.zero_le _)
    have hreset := hlock.reset Weight.isFar_faraway
    exact of_clean hreset.clean hreset.sameSize

/-- **A used workspace cannot be told from a new one.**  Whatever searches have used it, the
next one answers the same as in a new workspace, with the same network after it, and leaves
a workspace that differs only where no search looks. -/
theorem forgets (h : SearchHistory n k w) (hcall : call.Fits n) :
    ∃ answer u u', call.perform w = .ok (answer, call.network, u) ∧
      call.perform (.fresh n k) = .ok (answer, call.network, u') ∧ u'.Alike u := by
  obtain ⟨⟨answer, g, u⟩, ⟨answer', g', u'⟩, hrun, hrun', hsame⟩ :=
    SearchCall.perform_together Weight.isFar_faraway (fits_fresh hcall) h.rested
  obtain rfl : answer' = answer := hsame.answer
  obtain rfl : g = call.network := hsame.network
  obtain rfl : g' = call.network := hsame.network'
  exact ⟨answer', u, u', hrun, hrun', hsame.space.alike.symm⟩

/-- A growth over an edge of cost 3, after a walk search that was cut short. -/
theorem forgets_on_edge :
    let g := ((Network.empty 2).pushArc 0 1 (3 : ℚ)).pushArc 1 0 3
    let walk : SearchCall ℚ := .walk g (.ofArray g.cost) .split ⟨0, 1, 100, 0⟩
    let growth : SearchCall ℚ := .growth ⟨g, .ofArray g.cost, .required⟩ 0
    ∃ answer u, walk.perform (.fresh 2 1) = .ok (answer, g, u) ∧
      ∃ answer v v', growth.perform u.reset = .ok (answer, g, v) ∧
        growth.perform (.fresh 2 1) = .ok (answer, g, v') ∧ v'.Alike v := by
  intro g walk growth
  have hadd : (Network.empty 2).addArcPair 0 1 (3 : ℚ) 3 = .ok (0, g) := rfl
  have hbuilt : g.Built := (Network.Built.empty 2).addArcPair hadd
  have hwalk : walk.Fits 2 :=
    ⟨hbuilt, le_rfl, fun _ => hbuilt.exists_cost, by decide, fun t ht => by cases ht⟩
  have hgrowth : growth.Fits 2 :=
    ⟨hbuilt, le_rfl, fun _ => hbuilt.exists_cost, by decide, fun t ht => by cases ht⟩
  obtain ⟨answer, u, -, hrun, -, -⟩ := forgets (k := 1) .fresh hwalk
  exact ⟨answer, u, hrun, forgets (SearchHistory.fresh.call hwalk hrun) hgrowth⟩

end SearchHistory

end SteinerSearch
