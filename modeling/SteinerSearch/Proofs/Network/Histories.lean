import SteinerSearch.Network.Calls
import SteinerSearch.Proofs.Network.Adjacency

/-!
# Networks after any calls

A network is built by calls, and some of them may be refused.  A call passes all of its
checks before it writes anything, so a refused call leaves no trace; the arcs of the network
are those of the calls that were not refused, in the order of the calls.  Whatever was
called, the tables of the network agree with each other.

## Main definitions

* `Network.Call.outcome g c` — what a call comes to, told by the construction steps.
* `Network.Call.Allowed n c` — a network of `n` nodes does not refuse the call.
* `Network.Call.arcs n c` — the arcs that the call adds to such a network.
* `Network.arcs g` — the arcs of `g` with their ends and costs, by number.

## Main results

* `Network.Call.perform_eq` — calls do what the construction steps do, or nothing.
* `Network.Call.perform_of_allowed`, `Network.Call.perform_of_not_allowed` — which calls are
  refused.
* `Network.arcs_afterCalls` — which arcs there are after some calls.
* `Network.calls_consistent` — a network is consistent after any calls.
-/

namespace SteinerSearch

namespace Network

variable {α : Type}

/-! ### Calls and construction steps -/

/-- What is left of a network by work in place that comes to an answer and a new network, or is
refused before it has written anything. -/
def settled (g : Network α) : Except (Refusal α) (Answer × Network α) →
    EStateM.Result (Refusal α) (Network α) Answer
  | .ok (answer, g') => .ok answer g'
  | .error r => .error r g

section Perform

variable {g : Network α} {u v : Nat}

theorem InPlace.run_ensure (check : Network α → Except (Refusal α) Unit) (g : Network α) :
    (ensure check).run g = match check g with
      | .ok () => .ok () g
      | .error r => .error r g := by
  unfold ensure
  cases h : check g <;> simp [h]

/-- A check in place is the check of a construction step: what comes after it is done by both, or
by neither. -/
theorem InPlace.run_ensure_bind {ε β : Type} {check : Network α → Except ε Unit}
    {refusal : ε → Refusal α} {k : Unit → InPlace α Answer} {k' : Unit → Except ε β}
    {f : β → Answer × Network α}
    (h : (k ()).run g = settled g (((k' ()).map f).mapError refusal)) :
    (ensure (fun g => (check g).mapError refusal) >>= k).run g =
      settled g (((check g >>= k').map f).mapError refusal) := by
  rw [EStateM.run_bind, run_ensure]
  cases check g with
  | ok u => exact h
  | error e => rfl

variable [Weight α]

/-- What a call comes to, told by the construction steps: an answer and a new network, or a
refusal. -/
def Call.outcome (g : Network α) : Call α → Except (Refusal α) (Answer × Network α)
  | .addEdge u v cost =>
      ((g.addEdge u v cost).map fun (e, g') => (.edge e, g')).mapError .disallowed
  | .addArcPair u v forward backward =>
      ((g.addArcPair u v forward backward).map fun (e, g') => (.edge e, g')).mapError .disallowed
  | .setTerminal v kind => ((g.setTerminal v kind).map fun g' => (.done, g')).mapError .disallowed
  | .setPrize v prize => ((g.setPrize v prize).map fun g' => (.done, g')).mapError .disallowed
  | .setRoot v => ((g.setRoot v).map fun g' => (.done, g')).mapError .disallowed
  | .setMark v mark => ((g.setMark? v mark).map fun g' => (.done, g')).mapError .absent

theorem InPlace.run_addArcPair (g : Network α) (u v : Nat) (forward backward : α) :
    (InPlace.addArcPair u v forward backward).run g =
      settled g ((Call.addArcPair u v forward backward).outcome g) := by
  apply run_ensure_bind
  apply run_ensure_bind
  by_cases huv : u = v
  · simp only [huv, if_true]
    rfl
  · simp only [huv, if_false]
    apply run_ensure_bind
    apply run_ensure_bind
    rfl

/-- A call in place comes to what the construction steps come to.  If it is refused, the network
is as it was. -/
theorem Call.perform_eq (c : Call α) (g : Network α) :
    c.perform.run g = settled g (c.outcome g) := by
  cases c with
  | addEdge u v cost => exact InPlace.run_addArcPair g u v cost cost
  | addArcPair u v forward backward => exact InPlace.run_addArcPair g u v forward backward
  | setTerminal v kind =>
    apply InPlace.run_ensure_bind
    rfl
  | setPrize v prize =>
    apply InPlace.run_ensure_bind
    by_cases h : Weight.admissible prize = true
    · simp only [h, if_true]
      rfl
    · simp only [h]
      rfl
  | setRoot v =>
    apply InPlace.run_ensure_bind
    rfl
  | setMark v mark =>
    apply InPlace.run_ensure_bind
    rfl

end Perform

/-! ### Which calls are refused -/

section Allowed

variable [Weight α] {g : Network α} {u v : Nat}

/-- A network of `n` nodes does not refuse the call. -/
def Call.Allowed (n : Nat) : Call α → Prop
  | .addEdge u v cost => u < n ∧ v < n ∧ u ≠ v ∧ Weight.admissible cost = true
  | .addArcPair u v forward backward => u < n ∧ v < n ∧ u ≠ v ∧
      Weight.admissible forward = true ∧ Weight.admissible backward = true
  | .setPrize v prize => v < n ∧ Weight.admissible prize = true
  | .setTerminal v _ | .setRoot v | .setMark v _ => v < n

instance (n : Nat) (c : Call α) : Decidable (c.Allowed n) :=
  match c with
  | .addEdge .. => inferInstanceAs (Decidable (_ ∧ _))
  | .addArcPair .. => inferInstanceAs (Decidable (_ ∧ _))
  | .setPrize .. => inferInstanceAs (Decidable (_ ∧ _))
  | .setTerminal v _ => inferInstanceAs (Decidable (v < n))
  | .setRoot v => inferInstanceAs (Decidable (v < n))
  | .setMark v _ => inferInstanceAs (Decidable (v < n))

omit [Weight α] in
/-- What a call answers if it is not refused. -/
def Call.answer (g : Network α) : Call α → Answer
  | .addEdge .. | .addArcPair .. => .edge g.edgeCount
  | .setTerminal .. | .setPrize .. | .setRoot .. | .setMark .. => .done

omit [Weight α] in
/-- The network that a call leads to if it is not refused. -/
def Call.effect (g : Network α) : Call α → Network α
  | .addEdge u v cost => (g.pushArc u v cost).pushArc v u cost
  | .addArcPair u v forward backward => (g.pushArc u v forward).pushArc v u backward
  | .setTerminal v kind => { g with kind := g.kind.setIfInBounds v kind }
  | .setPrize v prize => { g with prize := g.prize.setIfInBounds v prize }
  | .setRoot v => { g with root := some v }
  | .setMark v mark => g.setMark v mark

theorem addArcPair_of_allowed {forward backward : α}
    (h : (Call.addArcPair u v forward backward).Allowed g.nodeCount) :
    g.addArcPair u v forward backward =
      .ok (g.edgeCount, (g.pushArc u v forward).pushArc v u backward) := by
  obtain ⟨hu, hv, huv, hf, hb⟩ := h
  simp only [Network.addArcPair, requireNode, requireCost, hu, hv, huv, hf, hb, if_true, if_false]
  rfl

omit [Weight α] in
theorem requireNode_bind_of_lt {β : Type} (hv : v < g.nodeCount)
    (f : Unit → Except (NetworkError α) β) : (g.requireNode v >>= f) = f () := by
  rw [requireNode, if_pos hv]
  rfl

omit [Weight α] in
theorem requireNode_bind_of_not_lt {β : Type} (hv : ¬ v < g.nodeCount)
    (f : Unit → Except (NetworkError α) β) :
    (g.requireNode v >>= f) = .error (.nodeOutOfRange v g.nodeCount) := by
  rw [requireNode, if_neg hv]
  rfl

omit [Weight α] in
theorem setTerminal_of_lt (hv : v < g.nodeCount) (kind : TerminalKind) :
    g.setTerminal v kind = .ok { g with kind := g.kind.setIfInBounds v kind } :=
  requireNode_bind_of_lt hv _

theorem setPrize_of_allowed {prize : α} (h : (Call.setPrize v prize).Allowed g.nodeCount) :
    g.setPrize v prize = .ok { g with prize := g.prize.setIfInBounds v prize } := by
  rw [Network.setPrize, requireNode_bind_of_lt h.1, if_pos h.2]
  rfl

omit [Weight α] in
theorem setRoot_of_lt (hv : v < g.nodeCount) : g.setRoot v = .ok { g with root := some v } :=
  requireNode_bind_of_lt hv _

omit [Weight α] in
theorem setMark?_of_lt (hv : v < g.nodeCount) (mark : Bool) :
    g.setMark? v mark = .ok (g.setMark v mark) := by
  rw [setMark?, checkNode, if_pos hv]
  rfl

theorem Call.outcome_of_allowed {c : Call α} (h : c.Allowed g.nodeCount) :
    c.outcome g = .ok (c.answer g, c.effect g) := by
  cases c with
  | addEdge u v cost =>
    obtain ⟨hu, hv, huv, hc⟩ := h
    rw [outcome, Network.addEdge, addArcPair_of_allowed ⟨hu, hv, huv, hc, hc⟩]
    rfl
  | addArcPair u v forward backward =>
    rw [outcome, addArcPair_of_allowed h]
    rfl
  | setTerminal v kind =>
    rw [outcome, setTerminal_of_lt h]
    rfl
  | setPrize v prize =>
    rw [outcome, setPrize_of_allowed h]
    rfl
  | setRoot v =>
    rw [outcome, setRoot_of_lt h]
    rfl
  | setMark v mark =>
    rw [outcome, setMark?_of_lt h]
    rfl

theorem exists_error_of_not_allowed {forward backward : α}
    (h : ¬ (Call.addArcPair u v forward backward).Allowed g.nodeCount) :
    ∃ e, g.addArcPair u v forward backward = .error e := by
  cases hresult : g.addArcPair u v forward backward with
  | error e => exact ⟨e, rfl⟩
  | ok result =>
    obtain ⟨hu, hv, huv, hf, hb, -⟩ := addArcPair_eq_ok hresult
    exact absurd ⟨hu, hv, huv, hf, hb⟩ h

theorem Call.exists_refusal {c : Call α} (h : ¬ c.Allowed g.nodeCount) :
    ∃ r, c.outcome g = .error r := by
  cases c with
  | addEdge u v cost =>
    have hpair : ¬ (Call.addArcPair u v cost cost).Allowed g.nodeCount := by
      rintro ⟨hu, hv, huv, hc, -⟩
      exact h ⟨hu, hv, huv, hc⟩
    obtain ⟨e, he⟩ := exists_error_of_not_allowed hpair
    exact ⟨.disallowed e, by rw [outcome, Network.addEdge, he]; rfl⟩
  | addArcPair u v forward backward =>
    obtain ⟨e, he⟩ := exists_error_of_not_allowed h
    exact ⟨.disallowed e, by rw [outcome, he]; rfl⟩
  | setTerminal v kind =>
    rw [outcome, Network.setTerminal, requireNode_bind_of_not_lt h]
    exact ⟨_, rfl⟩
  | setPrize v prize =>
    rw [outcome, Network.setPrize]
    by_cases hv : v < g.nodeCount
    · rw [requireNode_bind_of_lt hv, if_neg fun hprize => h ⟨hv, hprize⟩]
      exact ⟨_, rfl⟩
    · rw [requireNode_bind_of_not_lt hv]
      exact ⟨_, rfl⟩
  | setRoot v =>
    rw [outcome, Network.setRoot, requireNode_bind_of_not_lt h]
    exact ⟨_, rfl⟩
  | setMark v mark =>
    have hv : ¬ v < g.nodeCount := h
    rw [outcome, setMark?, checkNode, if_neg hv]
    exact ⟨_, rfl⟩

end Allowed

/-! ### One call -/

/-- An arc with its ends and its cost. -/
structure ArcRecord (α : Type) where
  /-- The node it leaves. -/
  tail : Nat
  /-- The node it leads to. -/
  head : Nat
  /-- Its cost. -/
  cost : α
  deriving DecidableEq

section Step

variable [Weight α] {g : Network α} {c : Call α}

/-- The arcs of a network by number. -/
def arcs (g : Network α) : List (ArcRecord α) :=
  (List.range g.arcCount).map fun a => ⟨g.tailOf a, g.headOf a, g.costOf a⟩

@[simp] theorem length_arcs : g.arcs.length = g.arcCount := by
  simp [arcs]

theorem getElem?_arcs {a : Nat} (ha : a < g.arcCount) :
    g.arcs[a]? = some ⟨g.tailOf a, g.headOf a, g.costOf a⟩ := by
  simp [arcs, ha]

omit [Weight α] in
/-- The arcs that a call asks for. -/
def Call.newArcs : Call α → List (ArcRecord α)
  | .addEdge u v cost => [⟨u, v, cost⟩, ⟨v, u, cost⟩]
  | .addArcPair u v forward backward => [⟨u, v, forward⟩, ⟨v, u, backward⟩]
  | .setTerminal .. | .setPrize .. | .setRoot .. | .setMark .. => []

/-- The arcs that a call adds to a network of `n` nodes. -/
def Call.arcs (n : Nat) (c : Call α) : List (ArcRecord α) := if c.Allowed n then c.newArcs else []

theorem arcs_pushArc (hg : g.Linked) (u v : Nat) (cost : α) :
    (g.pushArc u v cost).arcs = g.arcs ++ [⟨u, v, cost⟩] := by
  -- the tables only grow, so the entries of older arcs are what they were
  have hold : (List.range g.arcCount).map (fun a => (⟨(g.pushArc u v cost).tailOf a,
      (g.pushArc u v cost).headOf a, (g.pushArc u v cost).costOf a⟩ : ArcRecord α)) = g.arcs := by
    refine List.map_congr_left fun a ha => ?_
    have hlt := List.mem_range.mp ha
    rw [tailOf_pushArc hg hlt, headOf_pushArc hlt, costOf_pushArc hg hlt]
  rw [arcs, arcCount_pushArc, List.range_succ, List.map_append, hold, List.map_singleton,
    tailOf_pushArc_last hg, headOf_pushArc_last, costOf_pushArc_last hg]

theorem arcs_pushArc_pushArc (hg : g.Linked) {u v : Nat} (hu : u < g.nodeCount)
    (hv : v < g.nodeCount) (huv : u ≠ v) (forward backward : α) :
    ((g.pushArc u v forward).pushArc v u backward).arcs =
      g.arcs ++ [⟨u, v, forward⟩, ⟨v, u, backward⟩] := by
  rw [arcs_pushArc (hg.pushArc hu hv huv.symm), arcs_pushArc hg, List.append_assoc]
  rfl

theorem arcs_effect (hg : g.Linked) (h : c.Allowed g.nodeCount) :
    (c.effect g).arcs = g.arcs ++ c.arcs g.nodeCount := by
  rw [Call.arcs, if_pos h]
  cases c with
  | addEdge u v cost => exact arcs_pushArc_pushArc hg h.1 h.2.1 h.2.2.1 cost cost
  | addArcPair u v forward backward =>
    exact arcs_pushArc_pushArc hg h.1 h.2.1 h.2.2.1 forward backward
  | setTerminal v kind => exact (List.append_nil _).symm
  | setPrize v prize => exact (List.append_nil _).symm
  | setRoot v => exact (List.append_nil _).symm
  | setMark v mark => exact (List.append_nil _).symm

omit [Weight α] in
theorem nodeCount_effect (g : Network α) (c : Call α) : (c.effect g).nodeCount = g.nodeCount := by
  cases c with
  | setMark v mark => exact Array.size_setIfInBounds
  | addEdge u v cost => rfl
  | addArcPair u v forward backward => rfl
  | setTerminal v kind => rfl
  | setPrize v prize => rfl
  | setRoot v => rfl

theorem Built.effect (hg : g.Built) (h : c.Allowed g.nodeCount) : (c.effect g).Built := by
  cases c with
  | addEdge u v cost =>
    obtain ⟨hu, hv, huv, hc⟩ := h
    exact hg.addEdge (addArcPair_of_allowed ⟨hu, hv, huv, hc, hc⟩)
  | addArcPair u v forward backward => exact hg.addArcPair (addArcPair_of_allowed h)
  | setTerminal v kind => exact hg.setTerminal (setTerminal_of_lt h kind)
  | setPrize v prize => exact hg.setPrize (setPrize_of_allowed h)
  | setRoot v => exact hg.setRoot (setRoot_of_lt h)
  | setMark v mark => exact hg.setMark v mark

/-- A call that is allowed writes what it is meant to write. -/
theorem Call.perform_of_allowed (h : c.Allowed g.nodeCount) :
    c.perform.run g = .ok (c.answer g) (c.effect g) := by
  rw [perform_eq, outcome_of_allowed h]
  rfl

/-- Any other call is refused, and the network is exactly as it was. -/
theorem Call.perform_of_not_allowed (h : ¬ c.Allowed g.nodeCount) :
    ∃ r, c.perform.run g = .error r g := by
  obtain ⟨r, hr⟩ := exists_refusal h
  rw [perform_eq, hr]
  exact ⟨r, rfl⟩

theorem afterCall_of_allowed (h : c.Allowed g.nodeCount) : g.afterCall c = c.effect g := by
  rw [afterCall, Call.perform_of_allowed h]

theorem afterCall_of_not_allowed (h : ¬ c.Allowed g.nodeCount) : g.afterCall c = g := by
  obtain ⟨r, hr⟩ := Call.perform_of_not_allowed h
  rw [afterCall, hr]

theorem Built.afterCall (hg : g.Built) (c : Call α) : (g.afterCall c).Built := by
  by_cases h : c.Allowed g.nodeCount
  · rw [afterCall_of_allowed h]
    exact hg.effect h
  · rw [afterCall_of_not_allowed h]
    exact hg

theorem nodeCount_afterCall (g : Network α) (c : Call α) :
    (g.afterCall c).nodeCount = g.nodeCount := by
  by_cases h : c.Allowed g.nodeCount
  · rw [afterCall_of_allowed h, nodeCount_effect]
  · rw [afterCall_of_not_allowed h]

theorem arcs_afterCall (hg : g.Linked) (c : Call α) :
    (g.afterCall c).arcs = g.arcs ++ c.arcs g.nodeCount := by
  by_cases h : c.Allowed g.nodeCount
  · rw [afterCall_of_allowed h, arcs_effect hg h]
  · rw [afterCall_of_not_allowed h, Call.arcs, if_neg h, List.append_nil]

/-! ### Any number of calls -/

theorem Built.afterCalls (hg : g.Built) (calls : List (Call α)) : (g.afterCalls calls).Built := by
  induction calls generalizing g with
  | nil => exact hg
  | cons c calls ih => exact ih (hg.afterCall c)

theorem nodeCount_afterCalls (g : Network α) (calls : List (Call α)) :
    (g.afterCalls calls).nodeCount = g.nodeCount := by
  induction calls generalizing g with
  | nil => rfl
  | cons c calls ih => exact (ih (g.afterCall c)).trans (nodeCount_afterCall g c)

/-- The arcs are those of the calls that were not refused, in the order of the calls. -/
theorem arcs_afterCalls (hg : g.Built) (calls : List (Call α)) :
    (g.afterCalls calls).arcs = g.arcs ++ calls.flatMap (Call.arcs g.nodeCount) := by
  induction calls generalizing g with
  | nil => simp [afterCalls]
  | cons c calls ih =>
    show ((g.afterCall c).afterCalls calls).arcs = _
    rw [ih (hg.afterCall c), arcs_afterCall hg.wellFormed.toLinked, nodeCount_afterCall,
      List.flatMap_cons, List.append_assoc]

/-- In floating point, a network without edges is consistent after any calls, refused or not.  Its
arcs are those of the calls that were allowed, numbered in the order of the calls.  The next call
is done if it is allowed; if not, it is refused and leaves the network exactly as it was. -/
theorem calls_consistent (n : Nat) (calls : List (Call Float)) :
    let g := (empty n).afterCalls calls
    g.Consistent ∧ g.nodeCount = n ∧ g.arcs = calls.flatMap (Call.arcs n) ∧
      ∀ c : Call Float,
        c.Allowed n ∧ c.perform.run g = .ok (c.answer g) (g.afterCall c) ∨
          ¬ c.Allowed n ∧ ∃ r, c.perform.run g = .error r g := by
  intro g
  have hempty : (empty n : Network Float).Built := .empty n
  have hcount : (empty n : Network Float).nodeCount = n := Array.size_replicate
  have hn : g.nodeCount = n := (nodeCount_afterCalls _ calls).trans hcount
  have hbuilt : g.Built := hempty.afterCalls calls
  refine ⟨hbuilt.consistent (by decide), hn, ?_, fun c => ?_⟩
  · have harcs := arcs_afterCalls hempty calls
    rwa [hcount] at harcs
  · by_cases h : c.Allowed n
    · left
      rw [← hn] at h
      rw [afterCall_of_allowed h, ← hn]
      exact ⟨h, Call.perform_of_allowed h⟩
    · right
      rw [← hn] at h ⊢
      exact ⟨h, Call.perform_of_not_allowed h⟩

/-- Two edges between the same two nodes, given in opposite directions, and other calls that are
refused.  The newest arc from the first node to the second is the one back of the second edge. -/
theorem calls_consistent_parallel :
    let calls : List (Call Float) := [.addEdge 0 1 2, .addEdge 1 1 2, .addArcPair 0 2 (-1) 3,
      .setPrize 2 (0 / 0), .addArcPair 1 0 4 5, .setMark 7 false, .setPrize 2 6]
    let g := (empty 3).afterCalls calls
    g.arcs = [⟨0, 1, 2⟩, ⟨1, 0, 2⟩, ⟨1, 0, 4⟩, ⟨0, 1, 5⟩] ∧ g.findArc 0 1 = some 3 ∧
      ∃ r, (Call.addEdge 2 7 1).perform.run g = .error r g := by
  intro calls g
  obtain ⟨hconsistent, -, harcs, hcalls⟩ := calls_consistent 3 calls
  have hlist : calls.flatMap (Call.arcs 3) = [⟨0, 1, 2⟩, ⟨1, 0, 2⟩, ⟨1, 0, 4⟩, ⟨0, 1, 5⟩] := rfl
  rw [hlist] at harcs
  have hcount : g.arcCount = 4 := by
    rw [← length_arcs, harcs]
    rfl
  refine ⟨harcs, ?_, ?_⟩
  · have hlt : 3 < g.arcCount := by
      rw [hcount]
      decide
    have hlast := getElem?_arcs hlt
    rw [harcs] at hlast
    obtain ⟨htail, hhead, -⟩ := ArcRecord.mk.inj (Option.some.inj hlast)
    rw [hconsistent.findArc_some]
    refine ⟨⟨hlt, htail.symm, hhead.symm⟩, ?_⟩
    intro b hb
    have hb4 : b < g.arcCount := hb.lt
    rw [hcount] at hb4
    exact Nat.le_of_lt_succ hb4
  · rcases hcalls (.addEdge 2 7 1) with ⟨hallowed, -⟩ | ⟨-, hrefused⟩
    · exact absurd hallowed.2.1 (by decide)
    · exact hrefused

end Step

end Network

end SteinerSearch
