import SteinerSearch.Proofs.Stepping

/-!
# One run as a prefix of another

Two runs take the same steps, but one of them has less to spend.  Up to the moment when it
gives up there is only one sequence of states.  From there the other run goes on, and all
that is known of it is a relation `L`: what it has, compared with the state in which the
first run stopped.  Of the state in which it stopped itself a condition `C` tells, which is
what it gave up for.

That a state is fit for a search may be part of `L`, so `L s s` says no more than this.

## Main definitions

* `Halt.Truncates C L x y`, `Progress.Truncates o C L x y` — what the first run does, the second
  one does too, unless the first gives up.

## Main results

* `Halt.Truncates.guard`, `Halt.Truncates.charge` — one arc that is skipped or charged for.
* `Halt.foldlM_truncates`, `Progress.ofScan_truncates` — scans of which one may be shorter.
* `Progress.run_truncates` — runs of which one may be shorter.
-/

namespace SteinerSearch

variable {σ β ω : Type}

/-! ### Scans -/

namespace Halt

/-- Both scans come to the same, or the first exceeds its budget and the second leads
further from where the first stopped. -/
inductive Truncates (C : σ → Prop) (L : σ → σ → Prop) :
    Except (Halt σ) σ → Except (Halt σ) σ → Prop
  | same (x : Except (Halt σ) σ) : Truncates C L x x
  | cut {u : σ} {y : Except (Halt σ) σ} (hu : C u) (h : Leads (L u) y) :
      Truncates C L (.error (.overBudget u)) y

variable {C : σ → Prop} {L : σ → σ → Prop}

/-- What both scans skip does not matter. -/
theorem Truncates.guard {p : Prop} [Decidable p] {u : σ} {x y z : Except (Halt σ) σ}
    (hlater : Leads (L u) (if p then z else y)) (h : Leads (L u) y → Truncates C L x y) :
    Truncates C L (if p then z else x) (if p then z else y) := by
  split
  · exact .same z
  · next hp =>
    rw [if_neg hp] at hlater
    exact h hlater

/-- Both scans do the same unless a budget is exceeded, and the second budget is so only if the
first one is. -/
theorem Truncates.charge {b b' : Prop} [Decidable b] [Decidable b'] {u : σ}
    {x : Except (Halt σ) σ} (hb : b' → b) (hu : b → C u)
    (hlater : Leads (L u) (if b' then .error (.overBudget u) else x)) :
    Truncates C L (if b then .error (.overBudget u) else x)
      (if b' then .error (.overBudget u) else x) := by
  by_cases h : b
  · rw [if_pos h]
    exact .cut (hu h) hlater
  · rw [if_neg h, if_neg fun h' => h (hb h')]
    exact .same x

/-- Where one scan is cut short, the rest of the other one leads on. -/
theorem foldlM_truncates {f f' : σ → β → Except (Halt σ) σ} (bs : List β)
    (refl : ∀ u s, L u s → L s s)
    (cut : ∀ b ∈ bs, ∀ s, L s s → Truncates C L (f s b) (f' s b))
    (later : ∀ b ∈ bs, ∀ u s, L u s → Leads (L u) (f' s b)) :
    ∀ s, L s s → Truncates C L (bs.foldlM f s) (bs.foldlM f' s) := by
  induction bs with
  | nil => exact fun s _ => .same _
  | cons b bs ih =>
    intro s hs
    have hcut := cut b List.mem_cons_self s hs
    have hlater := later b List.mem_cons_self s s hs
    rw [List.foldlM_cons, List.foldlM_cons]
    generalize f s b = x, f' s b = y at hcut hlater
    have hrest : ∀ c ∈ bs, ∀ u s, L u s → Leads (L u) (f' s c) := fun c hc =>
      later c (List.mem_cons_of_mem _ hc)
    cases hcut with
    | same =>
      match x, hlater with
      | .ok s₁, h₁ =>
        exact ih (fun c hc => cut c (List.mem_cons_of_mem _ hc)) hrest s₁ (refl s s₁ h₁)
      | .error e, _ => exact .same _
    | @cut u _ hu h =>
      match y, h with
      | .ok s₁, h => exact .cut hu (foldlM_leads bs (fun c hc s => hrest c hc u s) s₁ h)
      | .error (.overBudget _), h => exact .cut hu h

end Halt

/-! ### Steps and runs -/

namespace Progress

/-- Both steps come to the same, or the first ends with `o` and the second leads further
from where the first stopped. -/
inductive Truncates (o : ω) (C : σ → Prop) (L : σ → σ → Prop) :
    Progress σ ω → Progress σ ω → Prop
  | same (x : Progress σ ω) : Truncates o C L x x
  | cut {u : σ} {y : Progress σ ω} (hu : C u) (h : Leads (L u) y) : Truncates o C L (.done o u) y

variable {C : σ → Prop} {L : σ → σ → Prop} {o : ω}

theorem ofScan_truncates {x y : Except (Halt σ) σ} (h : Halt.Truncates C L x y) :
    Truncates o C L (ofScan o x) (ofScan o y) := by
  cases h with
  | same => exact .same _
  | cut hu h => exact .cut hu (ofScan_leads h)

/-- Of two runs with the same fuel the second one leads further from where the first one stops.
They end alike, unless the first one ends with `o`. -/
theorem run_truncates {step step' : σ → Progress σ ω} {e : ω} (refl : ∀ u s, L u s → L s s)
    (cut : ∀ s, L s s → Truncates o C L (step s) (step' s))
    (later : ∀ u s, L u s → Leads (L u) (step' s)) :
    ∀ n s, L s s →
      ∃ a u a' s', run step e n s = .ok (a, u) ∧ run step' e n s = .ok (a', s') ∧ L u s' ∧
        ((a' = a ∧ s' = u) ∨ (a = o ∧ C u)) := by
  intro n
  induction n with
  | zero => exact fun s hs => ⟨e, s, e, s, rfl, rfl, hs, Or.inl ⟨rfl, rfl⟩⟩
  | succ n ih =>
    intro s hs
    have hcut := cut s hs
    have hlater := later s s hs
    rw [run_succ, run_succ]
    generalize step s = x, step' s = y at hcut hlater
    cases hcut with
    | same =>
      match x, hlater with
      | .more s₁, h₁ => exact ih s₁ (refl s s₁ h₁)
      | .done a s₁, h₁ => exact ⟨a, s₁, a, s₁, rfl, rfl, refl s s₁ h₁, Or.inl ⟨rfl, rfl⟩⟩
    | @cut u _ hu h =>
      match y, h with
      | .more s₁, h =>
        obtain ⟨a, s', hrun, hs'⟩ := run_leads (later u) n s₁ h
        exact ⟨o, u, a, s', rfl, hrun, hs', Or.inr ⟨rfl, hu⟩⟩
      | .done a s₁, h => exact ⟨o, u, a, s₁, rfl, rfl, h, Or.inr ⟨rfl, hu⟩⟩

end Progress

end SteinerSearch
