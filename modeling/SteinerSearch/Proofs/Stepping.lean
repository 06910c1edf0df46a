import SteinerSearch.Stepping

/-!
# What runs and scans ensure

A run repeats a step, and a scan folds over a list.  An invariant that each step
keeps, with a condition on the answers, gives the condition on the whole run or
scan, and says that there is an answer at all.

## Main definitions

* `Progress.Ends step s a s'` — steps from `s` end by themselves, with the answer `a`.
* `Progress.Reached step s₀ s` — some steps lead from `s₀` to `s`.
* `Progress.Passes step n s₀ m s` — a run of `n` steps does, and has `m` steps left there.
* `Halt.Leads Q x`, `Progress.Leads Q x` — no table lacked an entry, and `Q` holds of the
  state that a scan or a step leads to.

## Main results

* `Progress.run_ensures` — runs, with an invariant that may use the fuel left.
* `Progress.run_ends` — runs that need no more than their fuel.
* `Progress.run_eq_of_le` — more fuel than a run needs does not matter.
* `Progress.run_answer` — what is true of the answer of a run.
* `foldlM_ensures` — folds that may stop with an error.
* `Progress.ofScan_ensures` — scans that may exceed a budget.
* `Progress.ofScan_more` — scans that did not.
* `Halt.foldlM_leads`, `Progress.ofScan_leads`, `Progress.run_leads` — where one condition is kept.
-/

namespace SteinerSearch

/-- What comes after a step that succeeded. -/
theorem ok_bind {ε σ β : Type} (s : σ) (f : σ → Except ε β) : (Except.ok s >>= f) = f s := rfl

namespace Progress

variable {σ ω β : Type}

/-- A run answers, and its answer is as the last step leaves it.  The invariant may
mention the number of steps that are left. -/
theorem run_ensures {step : σ → Progress σ ω} {e : ω} {I : Nat → σ → Prop} {Q : ω → σ → Prop}
    (zero : ∀ s, I 0 s → Q e s)
    (succ : ∀ n s, I (n + 1) s →
      (∃ s', step s = .more s' ∧ I n s') ∨ ∃ a s', step s = .done a s' ∧ Q a s') :
    ∀ n s, I n s → ∃ a s', run step e n s = .ok (a, s') ∧ Q a s' := by
  intro n
  induction n with
  | zero =>
    intro s hs
    exact ⟨e, s, rfl, zero s hs⟩
  | succ n ih =>
    intro s hs
    rw [run_succ]
    rcases succ n s hs with ⟨s', hstep, hs'⟩ | ⟨a, s', hstep, hQ⟩
    · rw [hstep]
      exact ih s' hs'
    · rw [hstep]
      exact ⟨a, s', rfl, hQ⟩

/-- What is true of every answer of a step, and of the one for a run out of fuel, is true of the
answer of the run. -/
theorem run_answer {step : σ → Progress σ ω} {e : ω} {P : ω → Prop} (he : P e)
    (hstep : ∀ s a s', step s = .done a s' → P a) :
    ∀ n s a s', run step e n s = .ok (a, s') → P a := by
  intro n
  induction n with
  | zero =>
    intro s a s' h
    cases h
    exact he
  | succ n ih =>
    intro s a s' h
    rw [run_succ] at h
    cases hs : step s with
    | more s₁ =>
      rw [hs] at h
      exact ih s₁ a s' h
    | done b s₁ =>
      rw [hs] at h
      cases h
      exact hstep _ _ _ hs
    | fault f =>
      rw [hs] at h
      cases h

/-- Steps from `s`, as many as it takes, end with the answer `a` in `s'`. -/
inductive Ends (step : σ → Progress σ ω) : σ → ω → σ → Prop
  /-- The next step is the last one. -/
  | done {s s' : σ} {a : ω} (h : step s = .done a s') : Ends step s a s'
  /-- There are more steps. -/
  | more {s s₁ s' : σ} {a : ω} (h : step s = .more s₁) (hrest : Ends step s₁ a s') :
      Ends step s a s'

/-- Some steps lead from `s₀` to `s`. -/
inductive Reached (step : σ → Progress σ ω) (s₀ : σ) : σ → Prop
  /-- No step was made. -/
  | start : Reached step s₀ s₀
  /-- There was one more step. -/
  | more {s s' : σ} (hs : Reached step s₀ s) (h : step s = .more s') : Reached step s₀ s'

/-- What every step keeps holds in every state that is reached. -/
theorem Reached.ensures {step : σ → Progress σ ω} {s₀ s : σ} {I : σ → Prop} (start : I s₀)
    (more : ∀ s s', I s → step s = .more s' → I s') (h : Reached step s₀ s) : I s := by
  induction h with
  | start => exact start
  | more _ h ih => exact more _ _ ih h

/-- A run of `n` steps from `s₀` comes to `s`, where `m` steps are left. -/
inductive Passes (step : σ → Progress σ ω) (n : Nat) (s₀ : σ) : Nat → σ → Prop
  /-- No step was made. -/
  | start : Passes step n s₀ n s₀
  /-- There was one more step. -/
  | more {m : Nat} {s s' : σ} (hs : Passes step n s₀ (m + 1) s) (h : step s = .more s') :
      Passes step n s₀ m s'

theorem Passes.reached {step : σ → Progress σ ω} {n m : Nat} {s₀ s : σ}
    (h : Passes step n s₀ m s) : Reached step s₀ s := by
  induction h with
  | start => exact .start
  | more _ hstep ih => exact .more ih hstep

/-- A run can be taken up in any state that it passes. -/
theorem Passes.run_eq {step : σ → Progress σ ω} {n m : Nat} {s₀ s : σ}
    (h : Passes step n s₀ m s) (e : ω) : run step e m s = run step e n s₀ := by
  induction h with
  | start => rfl
  | more _ hstep ih => rw [← ih, run_succ, hstep]

/-- A run whose invariant rules out that the fuel is used up is not cut short by it. -/
theorem run_ends {step : σ → Progress σ ω} {e : ω} {I : Nat → σ → Prop} {Q : ω → σ → Prop}
    (zero : ∀ s, ¬ I 0 s)
    (succ : ∀ n s, I (n + 1) s →
      (∃ s', step s = .more s' ∧ I n s') ∨ ∃ a s', step s = .done a s' ∧ Q a s') :
    ∀ n s, I n s → ∃ a s', Ends step s a s' ∧ run step e n s = .ok (a, s') ∧ Q a s' := by
  intro n
  induction n with
  | zero => exact fun s hs => absurd hs (zero s)
  | succ n ih =>
    intro s hs
    rw [run_succ]
    rcases succ n s hs with ⟨s', hstep, hs'⟩ | ⟨a, s', hstep, hQ⟩
    · rw [hstep]
      obtain ⟨a, s'', hends, hrun, hQ⟩ := ih s' hs'
      exact ⟨a, s'', .more hstep hends, hrun, hQ⟩
    · rw [hstep]
      exact ⟨a, s', .done hstep, rfl, hQ⟩

/-- Where an invariant rules out that the fuel is used up, more fuel makes no difference. -/
theorem run_eq_of_le {step : σ → Progress σ ω} {e : ω} {I : Nat → σ → Prop}
    (zero : ∀ s, ¬ I 0 s)
    (succ : ∀ n s, I (n + 1) s →
      (∃ s', step s = .more s' ∧ I n s') ∨ ∃ a s', step s = .done a s') {m : Nat} :
    ∀ n s, I n s → n ≤ m → run step e m s = run step e n s := by
  induction m with
  | zero =>
    intro n s hs hn
    rw [Nat.le_zero.mp hn] at hs
    exact absurd hs (zero s)
  | succ m ih =>
    intro n s hs hn
    cases n with
    | zero => exact absurd hs (zero s)
    | succ n =>
      rw [run_succ, run_succ]
      rcases succ n s hs with ⟨s', hstep, hs'⟩ | ⟨a, s', hstep⟩
      · rw [hstep]
        exact ih n s' hs' (Nat.le_of_succ_le_succ hn)
      · rw [hstep]

end Progress

variable {σ ω β ε : Type}

/-- A fold either gets through the list or stops with an error, and the invariant
tells how far it got. -/
theorem foldlM_ensures {f : σ → β → Except ε σ} {J : List β → σ → Prop} {E : ε → Prop}
    (bs : List β)
    (step : ∀ done b s, done ++ [b] <+: bs → J done s →
      (∃ s', f s b = .ok s' ∧ J (done ++ [b]) s') ∨ ∃ e, f s b = .error e ∧ E e) :
    ∀ s, J [] s →
      (∃ s', bs.foldlM f s = .ok s' ∧ J bs s') ∨ ∃ e, bs.foldlM f s = .error e ∧ E e := by
  -- the fold over the rest of the list, from what was done before
  suffices h : ∀ rest done s, done ++ rest = bs → J done s →
      (∃ s', rest.foldlM f s = .ok s' ∧ J bs s') ∨ ∃ e, rest.foldlM f s = .error e ∧ E e by
    intro s hs
    exact h bs [] s rfl hs
  intro rest
  induction rest with
  | nil =>
    intro done s hbs hs
    left
    rw [List.append_nil] at hbs
    exact ⟨s, rfl, hbs ▸ hs⟩
  | cons b rest ih =>
    intro done s hbs hs
    have happend : done ++ [b] ++ rest = bs := by
      rw [List.append_assoc, List.singleton_append, hbs]
    rw [List.foldlM_cons]
    rcases step done b s ⟨rest, happend⟩ hs with ⟨s', hb, hs'⟩ | ⟨e, hb, he⟩
    · rw [hb]
      exact ih (done ++ [b]) s' happend hs'
    · rw [hb]
      exact Or.inr ⟨e, rfl, he⟩

theorem mem_of_appended {done bs : List β} {b : β} (h : done ++ [b] <+: bs) : b ∈ bs :=
  h.subset (List.mem_append_right _ List.mem_cons_self)

/-- A fold whose every step succeeds gets through the list. -/
theorem foldlM_ok {f : σ → β → Except ε σ} {J : List β → σ → Prop} (bs : List β)
    (step : ∀ done b s, done ++ [b] <+: bs → J done s → ∃ s', f s b = .ok s' ∧ J (done ++ [b]) s')
    {s : σ} (hs : J [] s) : ∃ s', bs.foldlM f s = .ok s' ∧ J bs s' := by
  rcases foldlM_ensures (E := fun _ => False) bs
    (fun done b s hb hJ => Or.inl (step done b s hb hJ)) s hs with h | ⟨e, -, he⟩
  · exact h
  · exact he.elim

/-- A fold keeps what each of its steps keeps. -/
theorem foldl_ensures {f : σ → β → σ} {J : List β → σ → Prop} (bs : List β)
    (step : ∀ done b s, done ++ [b] <+: bs → J done s → J (done ++ [b]) (f s b)) {s : σ}
    (hs : J [] s) : J bs (bs.foldl f s) := by
  obtain ⟨s', hs', hJ⟩ := foldlM_ok (ε := Empty) (f := fun s b => .ok (f s b)) bs
    (fun done b s hb hJ => ⟨_, rfl, step done b s hb hJ⟩) hs
  have : ∀ s, bs.foldlM (fun s b => (.ok (f s b) : Except Empty σ)) s = .ok (bs.foldl f s) := by
    clear hs hJ hs' step s
    induction bs with
    | nil => exact fun s => rfl
    | cons b bs ih => exact fun s => ih (f s b)
  rw [this s] at hs'
  rwa [Except.ok.inj hs']

/-- A fold fails where one of its steps fails. -/
theorem exists_of_foldlM_error {f : σ → β → Except ε σ} {bs : List β} {s : σ} {e : ε}
    (h : bs.foldlM f s = .error e) : ∃ b ∈ bs, ∃ s₁, f s₁ b = .error e := by
  induction bs generalizing s with
  | nil => cases h
  | cons b bs ih =>
    rw [List.foldlM_cons] at h
    cases hb : f s b with
    | ok s₁ =>
      rw [hb] at h
      obtain ⟨c, hc, hfail⟩ := ih h
      exact ⟨c, List.mem_cons_of_mem b hc, hfail⟩
    | error e' =>
      rw [hb] at h
      cases h
      exact ⟨b, List.mem_cons_self, s, hb⟩

namespace Progress

/-- A scan in which no table lacks an entry goes through or exceeds its budget, and the
invariant tells how far it got. -/
theorem ofScan_ensures_of_appended {f : σ → β → Except (Halt σ) σ} {J : List β → σ → Prop}
    {B : σ → Prop} (o : ω) (bs : List β)
    (step : ∀ done b s, done ++ [b] <+: bs → J done s →
      (∃ s', f s b = .ok s' ∧ J (done ++ [b]) s') ∨
        ∃ s', f s b = .error (.overBudget s') ∧ B s') {s : σ} (hs : J [] s) :
    (∃ s', ofScan o (bs.foldlM f s) = .more s' ∧ J bs s') ∨
      ∃ s', ofScan o (bs.foldlM f s) = .done o s' ∧ B s' := by
  rcases foldlM_ensures (E := fun h => ∃ s', h = Halt.overBudget s' ∧ B s') bs
    (fun done b s hb hJ => by
      rcases step done b s hb hJ with h | ⟨s', h, hB⟩
      · exact Or.inl h
      · exact Or.inr ⟨_, h, s', rfl, hB⟩) s hs with ⟨s', h, hJ⟩ | ⟨e, h, s', rfl, hB⟩
  · rw [h]
    exact Or.inl ⟨s', rfl, hJ⟩
  · rw [h]
    exact Or.inr ⟨s', rfl, hB⟩

/-- Where it does not matter how far a scan got, a step may be for any member of the list. -/
theorem ofScan_ensures {f : σ → β → Except (Halt σ) σ} {J : List β → σ → Prop} {B : σ → Prop}
    (o : ω) (bs : List β)
    (step : ∀ done b s, b ∈ bs → J done s →
      (∃ s', f s b = .ok s' ∧ J (done ++ [b]) s') ∨
        ∃ s', f s b = .error (.overBudget s') ∧ B s') {s : σ} (hs : J [] s) :
    (∃ s', ofScan o (bs.foldlM f s) = .more s' ∧ J bs s') ∨
      ∃ s', ofScan o (bs.foldlM f s) = .done o s' ∧ B s' :=
  ofScan_ensures_of_appended o bs (fun done b s hb => step done b s (mem_of_appended hb)) hs

/-- A step that goes on after a scan keeps what each part of the scan keeps. -/
theorem ofScan_more {f : σ → β → Except (Halt σ) σ} {J : σ → Prop} {o : ω} {bs : List β}
    (step : ∀ b s s', b ∈ bs → J s → f s b = .ok s' → J s') {s s' : σ} (hs : J s)
    (h : ofScan o (bs.foldlM f s) = .more s') : J s' := by
  rcases foldlM_ensures (J := fun _ => J) (E := fun _ => True) bs (fun done b s₁ hb hJ => by
    cases hf : f s₁ b with
    | ok s₂ => exact Or.inl ⟨s₂, hf, step b s₁ s₂ (mem_of_appended hb) hJ hf⟩
    | error e => exact Or.inr ⟨e, hf, trivial⟩) s hs with ⟨s₁, hfold, hJ⟩ | ⟨e, hfold, -⟩
  · rw [hfold] at h
    cases h
    exact hJ
  · rw [hfold] at h
    cases e with
    | overBudget _ => cases h
    | fault _ => cases h

/-- A step that ends with a scan ends over the budget, which some part of the scan exceeds. -/
theorem ofScan_done {f : σ → β → Except (Halt σ) σ} {o a : ω} {bs : List β} {s s' : σ}
    (h : ofScan o (bs.foldlM f s) = .done a s') :
    a = o ∧ ∃ b ∈ bs, ∃ s₁, f s₁ b = .error (.overBudget s') := by
  cases hfold : bs.foldlM f s with
  | ok s₁ =>
    rw [hfold] at h
    cases h
  | error e =>
    rw [hfold] at h
    cases e with
    | fault _ => cases h
    | overBudget s₁ =>
      cases h
      exact ⟨rfl, exists_of_foldlM_error hfold⟩

end Progress

/-! ### Where scans and steps lead -/

namespace Halt

/-- The scan goes through or exceeds its budget, in a state that `Q` holds of. -/
def Leads (Q : σ → Prop) : Except (Halt σ) σ → Prop
  | .ok s => Q s
  | .error (.overBudget s) => Q s
  | .error (.fault _) => False

theorem Leads.mono {Q R : σ → Prop} {x : Except (Halt σ) σ} (h : Leads Q x)
    (hQR : ∀ s, Q s → R s) : Leads R x := by
  match x, h with
  | .ok s, h => exact hQR s h
  | .error (.overBudget s), h => exact hQR s h

/-- A scan that leads somewhere goes through or exceeds its budget. -/
theorem Leads.cases {Q : σ → Prop} {x : Except (Halt σ) σ} (h : Leads Q x) :
    (∃ s, x = .ok s ∧ Q s) ∨ ∃ s, x = .error (.overBudget s) ∧ Q s := by
  match x, h with
  | .ok s, h => exact Or.inl ⟨s, rfl, h⟩
  | .error (.overBudget s), h => exact Or.inr ⟨s, rfl, h⟩

theorem foldlM_leads {Q : σ → Prop} {f : σ → β → Except (Halt σ) σ} (bs : List β)
    (step : ∀ b ∈ bs, ∀ s, Q s → Leads Q (f s b)) : ∀ s, Q s → Leads Q (bs.foldlM f s) := by
  induction bs with
  | nil => exact fun s hs => hs
  | cons b bs ih =>
    intro s hs
    have hb := step b List.mem_cons_self s hs
    rw [List.foldlM_cons]
    generalize f s b = x at hb
    match x, hb with
    | .ok s₁, hb => exact ih (fun b hb => step b (List.mem_cons_of_mem _ hb)) s₁ hb
    | .error (.overBudget _), hb => exact hb

end Halt

namespace Progress

/-- The step goes on or ends the run, in a state that `Q` holds of. -/
def Leads (Q : σ → Prop) : Progress σ ω → Prop
  | .more s => Q s
  | .done _ s => Q s
  | .fault _ => False

theorem ofScan_leads {Q : σ → Prop} {o : ω} {x : Except (Halt σ) σ} (h : Halt.Leads Q x) :
    Leads Q (ofScan o x) := by
  match x, h with
  | .ok _, h => exact h
  | .error (.overBudget _), h => exact h

theorem Leads.and {Q R : σ → Prop} {x : Progress σ ω} (h : Leads Q x) (h' : Leads R x) :
    Leads (fun s => Q s ∧ R s) x := by
  match x, h, h' with
  | .more _, h, h' => exact ⟨h, h'⟩
  | .done _ _, h, h' => exact ⟨h, h'⟩

/-- A step that leads somewhere goes on or ends the run. -/
theorem Leads.cases {Q : σ → Prop} {x : Progress σ ω} (h : Leads Q x) :
    (∃ s, x = .more s ∧ Q s) ∨ ∃ a s, x = .done a s ∧ Q s := by
  match x, h with
  | .more s, h => exact Or.inl ⟨s, rfl, h⟩
  | .done a s, h => exact Or.inr ⟨a, s, rfl, h⟩

/-- A run leads to where each of its steps leads. -/
theorem run_leads {Q : σ → Prop} {step : σ → Progress σ ω} {e : ω}
    (hstep : ∀ s, Q s → Leads Q (step s)) (n : Nat) (s : σ) (hs : Q s) :
    ∃ a s', run step e n s = .ok (a, s') ∧ Q s' :=
  run_ensures (I := fun _ => Q) (Q := fun _ => Q) (fun _ hs => hs)
    (fun _ s hs => (hstep s hs).cases) n s hs

/-- What a step leads to is kept by the rest of the run, if each step keeps it. -/
theorem run_succ_leads {Q : σ → Prop} {step : σ → Progress σ ω} {e : ω}
    (hstep : ∀ s, Q s → Leads Q (step s)) {m : Nat} {s : σ} (hs : Leads Q (step s)) :
    ∃ a s', run step e (m + 1) s = .ok (a, s') ∧ Q s' := by
  rw [run_succ]
  rcases hs.cases with ⟨s₁, h, hs₁⟩ | ⟨a, s₁, h, hs₁⟩
  · rw [h]
    exact run_leads hstep m s₁ hs₁
  · rw [h]
    exact ⟨a, s₁, rfl, hs₁⟩

end Progress

end SteinerSearch
