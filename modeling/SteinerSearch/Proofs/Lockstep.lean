import SteinerSearch.Proofs.Stepping

/-!
# Two runs in lockstep

A program is run twice, from states that a relation holds between.  If every step takes
related states to related states, and takes the same way in both runs, then so does the
whole run.  A relation that ignores some part of the states shows that this part has no
influence; a run beside itself shows what each of its states satisfies.

## Main definitions

* `BothOk R x y` — two computations succeed, with results that `R` relates.
* `SameAnswer R` — two results with one answer and related states.
* `Halt.Together R`, `Progress.Together R` — two scans, or two steps, take the same way.

## Main results

* `BothOk.bind`, `BothOk.foldlM` — one computation after another.
* `Halt.foldlM_together` — scans over the same list.
* `Progress.run_together` — runs with the same fuel.
-/

namespace SteinerSearch

variable {σ τ β ω ε : Type}

/-- Both computations succeed, with results that `R` relates. -/
def BothOk (R : σ → τ → Prop) (x : Except ε σ) (y : Except ε τ) : Prop :=
  ∃ s t, x = .ok s ∧ y = .ok t ∧ R s t

/-- The answers are the same, and the states that come with them are related. -/
def SameAnswer (R : σ → τ → Prop) (x : ω × σ) (y : ω × τ) : Prop := x.1 = y.1 ∧ R x.2 y.2

namespace BothOk

variable {R : σ → τ → Prop} {x : Except ε σ} {y : Except ε τ} {s : σ} {t : τ}

theorem ok (h : R s t) : BothOk R (.ok s : Except ε σ) (.ok t : Except ε τ) := ⟨s, t, rfl, rfl, h⟩

/-- A computation that uses the results of both. -/
theorem bind {σ' τ' : Type} {R' : σ' → τ' → Prop} {f : σ → Except ε σ'} {g : τ → Except ε τ'}
    (h : BothOk R x y) (next : ∀ s t, R s t → BothOk R' (f s) (g t)) :
    BothOk R' (x >>= f) (y >>= g) := by
  obtain ⟨s, t, rfl, rfl, hR⟩ := h
  exact next s t hR

/-- A check that does not fail does nothing. -/
theorem checkNode {n v : Nat} (hv : v < n) {f : Unit → Except Fault σ}
    {g : Unit → Except Fault τ} (h : BothOk R (f ()) (g ())) :
    BothOk R (SteinerSearch.checkNode n v >>= f) (SteinerSearch.checkNode n v >>= g) := by
  rw [SteinerSearch.checkNode, if_pos hv]
  exact h

/-- The result of a computation beside itself. -/
theorem of_eq_ok {R : σ → σ → Prop} {x : Except ε σ} (h : BothOk R x x) (hs : x = .ok s) :
    R s s := by
  obtain ⟨s₁, s₂, h₁, h₂, hR⟩ := h
  rw [hs] at h₁ h₂
  rwa [← Except.ok.inj h₁, ← Except.ok.inj h₂] at hR

/-- Two folds over one list. -/
theorem foldlM {f : σ → β → Except ε σ} {g : τ → β → Except ε τ} (bs : List β)
    (step : ∀ b ∈ bs, ∀ s t, R s t → BothOk R (f s b) (g t b)) :
    ∀ s t, R s t → BothOk R (bs.foldlM f s) (bs.foldlM g t) := by
  induction bs with
  | nil => exact fun s t h => .ok h
  | cons b bs ih =>
    intro s t h
    rw [List.foldlM_cons, List.foldlM_cons]
    exact (step b List.mem_cons_self s t h).bind
      (ih fun b hb => step b (List.mem_cons_of_mem _ hb))

end BothOk

/-! ### Scans -/

namespace Halt

/-- Both scans go through or both exceed their budget, in related states. -/
inductive Together (R : σ → σ → Prop) : Except (Halt σ) σ → Except (Halt σ) σ → Prop
  | through {s s' : σ} (h : R s s') : Together R (.ok s) (.ok s')
  | overBudget {s s' : σ} (h : R s s') :
      Together R (.error (.overBudget s)) (.error (.overBudget s'))

variable {R : σ → σ → Prop}

theorem foldlM_together {f f' : σ → β → Except (Halt σ) σ} (bs : List β)
    (step : ∀ b ∈ bs, ∀ s s', R s s' → Together R (f s b) (f' s' b)) :
    ∀ s s', R s s' → Together R (bs.foldlM f s) (bs.foldlM f' s') := by
  induction bs with
  | nil => exact fun s s' h => .through h
  | cons b bs ih =>
    intro s s' h
    rw [List.foldlM_cons, List.foldlM_cons]
    -- what one scan does, the other does too
    cases hf : f s b with
    | ok s₁ =>
      have hstep := step b List.mem_cons_self s s' h
      rw [hf] at hstep
      generalize f' s' b = y at hstep ⊢
      cases hstep with
      | through h₁ => exact ih (fun b hb => step b (List.mem_cons_of_mem _ hb)) _ _ h₁
    | error e =>
      have hstep := step b List.mem_cons_self s s' h
      rw [hf] at hstep
      generalize f' s' b = y at hstep ⊢
      cases hstep with
      | overBudget h₁ => exact .overBudget h₁

/-- What is known of the first scan alone. -/
theorem Together.and_leads {Q : σ → Prop} {x x' : Except (Halt σ) σ} (h : Together R x x')
    (hx : Leads Q x) : Together (fun s s' => Q s ∧ R s s') x x' := by
  cases h with
  | through h => exact .through ⟨hx, h⟩
  | overBudget h => exact .overBudget ⟨hx, h⟩

theorem Together.of_eq_ok {x : Except (Halt σ) σ} (h : Together R x x) {s : σ} (hs : x = .ok s) :
    R s s := by
  subst hs
  cases h with
  | through h => exact h

end Halt

/-! ### Runs -/

namespace Progress

/-- Both steps go on or both end with the same answer, in related states. -/
inductive Together (R : σ → σ → Prop) : Progress σ ω → Progress σ ω → Prop
  | more {s s' : σ} (h : R s s') : Together R (.more s) (.more s')
  | done {a : ω} {s s' : σ} (h : R s s') : Together R (.done a s) (.done a s')

variable {R : σ → σ → Prop}

theorem ofScan_together {o : ω} {x x' : Except (Halt σ) σ} (h : Halt.Together R x x') :
    Together R (ofScan o x) (ofScan o x') := by
  cases h with
  | through h => exact .more h
  | overBudget h => exact .done h

/-- What two steps do together, two runs do. -/
theorem run_together {step step' : σ → Progress σ ω} {e : ω}
    (hstep : ∀ s s', R s s' → Together R (step s) (step' s')) :
    ∀ n s s', R s s' → BothOk (SameAnswer R) (run step e n s) (run step' e n s') := by
  intro n
  induction n with
  | zero => exact fun s s' h => .ok ⟨rfl, h⟩
  | succ n ih =>
    intro s s' h
    rw [run_succ, run_succ]
    have hnext := hstep s s' h
    generalize step s = x, step' s' = y at hnext
    cases hnext with
    | more h => exact ih _ _ h
    | done h => exact .ok ⟨rfl, h⟩

/-- A state that is reached beside itself. -/
theorem Reached.together {step : σ → Progress σ ω}
    (hstep : ∀ s s', R s s' → Together R (step s) (step s')) {s₀ s : σ} (h₀ : R s₀ s₀)
    (h : Reached step s₀ s) : R s s := by
  refine h.ensures (I := fun s => R s s) h₀ fun s s' hs hmore => ?_
  have hnext := hstep s s hs
  rw [hmore] at hnext
  cases hnext with
  | more h => exact h

end Progress

end SteinerSearch
