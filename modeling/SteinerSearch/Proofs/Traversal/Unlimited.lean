import SteinerSearch.Proofs.Traversal.Exactness

/-!
# Traversals without limits

Without limits nothing but an empty queue ends a traversal.  If labels measure path lengths, it
has then labeled all that it can reach, with the distances.

## Main results

* `Traversal.run_exhausted` — only the empty queue ends the traversal.
* `Traversal.run_unlimited` — what is reached has its distance and a path of this length.
-/

namespace SteinerSearch.Traversal

section Outcome

variable {α : Type} [Weight α] {t : Traversal α} {sources : List Nat} {w w' : Workspace α}
  {s s' : State α} {k : Nat} {o : TraversalOutcome}

/-- Without a budget no scan exceeds it. -/
theorem scan_ne_overBudget (hlimits : t.limits = {}) (base : α) (s s' : State α) (a : Nat) :
    t.scan base s a ≠ .error (.overBudget s') := by
  have hbudget : ∀ n, t.exceeds n = false := fun n => by rw [exceeds, hlimits]
  unfold scan
  simp only [hbudget, Bool.false_eq_true, if_false]
  split
  · exact nofun
  · split
    · exact nofun
    · split <;> exact nofun

theorem expand_ne_done (hlimits : t.limits = {}) : t.expand k s ≠ .done o s' := by
  intro h
  obtain ⟨-, a, -, s₁, hscan⟩ := Progress.ofScan_done h
  exact scan_ne_overBudget hlimits _ s₁ s' a hscan

theorem settleNext_done (hlimits : t.limits = {}) (h : t.settleNext s = .done o s') :
    o = .exhausted := by
  unfold settleNext at h
  have hstop : t.limits.stopAt = none := by rw [hlimits]
  simp only [hstop, reduceCtorEq, false_and, if_false] at h
  split at h
  · cases h
    rfl
  · split at h
    · cases h
    · exact absurd h (expand_ne_done hlimits)

/-- Without limits only the empty queue ends a traversal. -/
theorem run_exhausted (hlimits : t.limits = {}) (h : t.run sources w = .ok (o, w')) :
    o = .exhausted := by
  unfold run at h
  cases hseed : sources.foldlM seed w with
  | error f =>
    rw [hseed] at h
    cases h
  | ok w₁ =>
    simp only [hseed, bind, Except.bind, pure, Except.pure] at h
    split at h
    · cases h
    · next x hrun =>
      obtain ⟨a, s⟩ := x
      cases h
      exact Progress.run_answer (P := (· = .exhausted)) rfl
        (fun s a s' => settleNext_done hlimits) _ _ _ _ hrun

end Outcome

variable {t : Traversal ℚ} {sources : List Nat} {w : Workspace ℚ}

/-- A traversal without limits ends by itself, and labels what it reaches with the distance, and
with a path of this length.  Nothing else is labeled. -/
theorem run_unlimited (ht : MeasuresWhole t) (hlimits : t.limits = {})
    (hnear : ∀ v d, t.network.IsDistance t.arcCost sources v d → d < Weight.faraway)
    (hsources : ∀ s ∈ sources, s < t.network.nodeCount) (hw : w.Ready)
    (hroom : t.network.nodeCount ≤ w.capacity) :
    ∃ w', t.Ends sources w .exhausted w' ∧ t.run sources w = .ok (.exhausted, w') ∧
      (∀ v d, t.network.IsDistance t.arcCost sources v d → w'.distOf v = d ∧
        ∃ as, pathArcs t.network w' v = .ok as ∧ as.length < t.network.nodeCount ∧
          (∃ s ∈ sources, t.network.IsMarkedPath s as v) ∧
          Network.pathLength t.arcCost as = d) ∧
      ∀ v, (∀ d, ¬ t.network.IsDistance t.arcCost sources v d) → w'.distOf v = Weight.faraway := by
  have hlimit : ∀ d, t.limits.maxDistance = some d → 0 ≤ d := by simp [hlimits]
  have hshort : ∀ d, t.tooLong d = false := fun d => by rw [tooLong, hlimits]
  obtain ⟨o, s, hends, hrun, hend⟩ := run_answers ht hlimit hsources hw hroom
  obtain rfl := run_exhausted hlimits hrun
  obtain ⟨hclosed, hempty⟩ := hend.exhausted rfl
  have hsound := hclosed.toSound
  refine ⟨s.space, hends, hrun, fun v d hd => ?_, fun v hv => ?_⟩
  · have hsettled : s.space.isSettled v = true := by
      by_contra hopen
      rcases hclosed.far_or_tooLong hempty (fun a ha => (ht.isWhole ha).nonneg)
        (Bool.eq_false_iff.mpr hopen) hd with hfar | hlong
      · exact absurd (hnear v d hd) (not_lt.mpr hfar)
      · rw [hshort] at hlong
        cases hlong
    obtain ⟨as, has, hlt, ⟨s', hs', -, hpath⟩, hlen⟩ :=
      hsound.pathArcs_eq (hsound.isVisited_of_settled hsettled)
    have hdist := (hsound.isDistance hsettled).unique hd
    exact ⟨hdist, as, has, hlt, ⟨s', hs', hpath⟩, hlen.trans hdist⟩
  · have hopen : s.space.isSettled v = false :=
      Bool.eq_false_iff.mpr fun hsettled => hv _ (hsound.isDistance hsettled)
    exact (hsound.blank v (hsound.isVisited_eq_false hempty hopen)).1

end SteinerSearch.Traversal
