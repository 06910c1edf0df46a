import SteinerSearch.Proofs.Star.Reuse

/-!
# Arc limits cut star searches short

A star search reads its limit only to give up.  Of two searches that differ in their limits the
one with the lower limit is a prefix of the other one, which may report more arcs after that and
takes no report back.  The arc over which a search gives up is counted, so no more than one arc
is scanned beyond the limit.

## Main definitions

* `StarSearch.withLimit` — the same search with another limit.
* `StarSearch.OverLimit t u` — a state in which the search gives up.
* `StarSearch.Later t w₀ u s` — a state of the search after another one.

## Main results

* `StarSearch.settleNext_leads` — no step takes a report back.
* `StarSearch.settleNext_truncates` — steps of two searches with different limits.
* `StarSearch.run_scanned_le` — how many arcs a search scans.
* `StarSearch.limits_truncate` — **a limit only loses reports.**
-/

namespace SteinerSearch

namespace StarSearch

variable {α : Type} [Weight α] {t : StarSearch α} {u s s' : State α} {w w' w₀ : StarSpace α}
  {k l : Nat}

/-- The same search with another limit. -/
def withLimit (t : StarSearch α) (l : Nat) : StarSearch α := { t with arcLimit := l }

/-- In `u` more arcs were scanned than are allowed. -/
def OverLimit (t : StarSearch α) (u : State α) : Prop := t.arcLimit < u.scanned

/-- In `s`, a state of a search that started in `w₀`, all is reported that was reported in
`u`. -/
structure Later (t : StarSearch α) (w₀ : StarSpace α) (u s : State α) : Prop where
  tidy : Tidy t w₀ 0 s
  deletable : ∀ i, u.isDeletable i = true → s.isDeletable i = true
  found : u.found = true → s.found = true

theorem Later.refl (h : Later t w₀ u s) : Later t w₀ s s := ⟨h.tidy, fun _ => id, id⟩

/-! ### More reports -/

theorem Later.count (h : Later t w₀ u s) : Later t w₀ u s.count :=
  ⟨h.tidy.count, h.deletable, h.found⟩

theorem Later.take (h : Later t w₀ u s) {top : KeyedNode α} {r : KeyedQueue α}
    (hpop : s.space.queue.popMin? = some (top, r)) : Later t w₀ u (take top r s) where
  tidy := (h.tidy.take hpop).some_removals
  deletable i hi := by
    rw [isDeletable_take]
    exact h.deletable i hi
  found hf := by
    rw [found_take]
    exact h.found hf

/-- An arc to an open node may have one more arc reported. -/
theorem Later.meet (h : Later t w₀ u s) {m : Nat} (hm : m ≠ t.center ∧ m < t.rows.nodeCount)
    (hopen : ¬ s.space.Removed m) (base? : Option Nat) (d : α) :
    Later t w₀ u (t.meet k base? m d s) := by
  refine ⟨h.tidy.meet hm hopen base? d, fun i hi => ?_, fun hf => ?_⟩
  · have hi := h.deletable i hi
    change (t.report base? m d s).isDeletable i = true
    have hreport := report_cases t base? m d s
    generalize t.report base? m d s = s' at hreport
    cases hreport with
    | skip _ => exact hi
    | delete _ he _ _ _ =>
      exact (isDeletable_delete (h.tidy.tables.flags ▸ lt_length_of_getElem? he)).mpr (Or.inl hi)
  · have hf := h.found hf
    change (t.report base? m d s).found = true
    have hreport := report_cases t base? m d s
    generalize t.report base? m d s = s' at hreport
    cases hreport with
    | skip _ => exact hf
    | delete _ _ _ _ _ => rfl

section Steps

variable (hr : t.rows.WellFormed)

include hr

theorem scan_leads (h : Later t w₀ u s) {e : RowEntry α} (he : e ∈ t.rows.row k) (dist : α)
    (base? came? : Option Nat) : Halt.Leads (Later t w₀ u) (t.scan k dist base? came? s e) := by
  have hscan := scan_cases t k dist base? came? s e
  generalize t.scan k dist base? came? s e = x at hscan
  cases hscan with
  | skips _ => exact h
  | exceeds _ => exact h.count
  | passes _ _ _ => exact h.count
  | meets hc hopen _ => exact h.count.meet ⟨hc, hr.head_lt k e he⟩ hopen base? _

theorem settleNext_leads (h : Later t w₀ u s) :
    Progress.Leads (Later t w₀ u) (t.settleNext s) := by
  have hstep := settleNext_cases t s
  generalize t.settleNext s = p at hstep
  cases hstep with
  | ends _ => exact h
  | stops hpop _ => exact h.take hpop
  | scans hpop =>
    exact Progress.ofScan_leads (Halt.foldlM_leads _
      (fun e he s₁ hs₁ => scan_leads hr hs₁ he _ _ _) _ (h.take hpop))

/-! ### Prefixes -/

/-- Where the lower limit is exceeded, the search with the higher one goes on. -/
theorem scan_truncates (hl : l ≤ t.arcLimit) (h : Later t w₀ s s) {e : RowEntry α}
    (he : e ∈ t.rows.row k) (dist : α) (base? came? : Option Nat) :
    Halt.Truncates (t.withLimit l).OverLimit (Later t w₀)
      ((t.withLimit l).scan k dist base? came? s e) (t.scan k dist base? came? s e) := by
  have hfirst : Later t w₀ s.count s := ⟨h.tidy, h.deletable, h.found⟩
  have hlater := scan_leads hr hfirst he dist base? came?
  unfold scan at hlater ⊢
  refine .guard hlater fun hlater => ?_
  exact .charge (lt_of_le_of_lt hl) id hlater

theorem settleNext_truncates (hl : l ≤ t.arcLimit) (h : Later t w₀ s s) :
    Progress.Truncates () (t.withLimit l).OverLimit (Later t w₀) ((t.withLimit l).settleNext s)
      (t.settleNext s) := by
  unfold settleNext
  cases hpop : s.space.queue.popMin? with
  | none => exact .same _
  | some popped =>
    obtain ⟨top, r⟩ := popped
    have htaken := (h.take hpop).refl
    dsimp only
    rw [← StarSearch.take]
    generalize StarSearch.take top r s = s₁ at htaken
    -- that all arcs are decided is seen with any limit
    by_cases hall : t.centerRow.length ≤ s₁.decided
    · have hall' : (t.withLimit l).centerRow.length ≤ s₁.decided := hall
      rw [if_pos hall', if_pos hall]
      exact .same _
    · have hall' : ¬ (t.withLimit l).centerRow.length ≤ s₁.decided := hall
      rw [if_neg hall', if_neg hall]
      exact Progress.ofScan_truncates (Halt.foldlM_truncates (L := Later t w₀) _
        (fun _ _ => Later.refl) (fun e he s₂ hs₂ => scan_truncates hr hl hs₂ he _ _ _)
        (fun e he u s₂ hs₂ => scan_leads hr hs₂ he _ _ _) s₁ htaken)

end Steps

/-! ### How many arcs are scanned -/

/-- Within its limit a search goes on, or it gives up over one more arc. -/
theorem scan_scanned_le (hs : s.scanned ≤ t.arcLimit) (k : Nat) (dist : α)
    (base? came? : Option Nat) (e : RowEntry α) :
    (∃ s', t.scan k dist base? came? s e = .ok s' ∧ s'.scanned ≤ t.arcLimit) ∨
      ∃ s', t.scan k dist base? came? s e = .error (.overBudget s') ∧
        s'.scanned ≤ t.arcLimit + 1 := by
  unfold scan
  dsimp only
  split
  · exact Or.inl ⟨s, rfl, hs⟩
  · split
    · exact Or.inr ⟨_, rfl, Nat.succ_le_succ hs⟩
    · next hlimit =>
      have hlimit := Nat.le_of_not_lt hlimit
      split
      · exact Or.inl ⟨_, rfl, hlimit⟩
      · refine Or.inl ⟨_, rfl, ?_⟩
        dsimp only
        rw [scanned_report]
        exact hlimit

theorem settleNext_scanned_le (hs : s.scanned ≤ t.arcLimit) :
    (∃ s', t.settleNext s = .more s' ∧ s'.scanned ≤ t.arcLimit) ∨
      ∃ a s', t.settleNext s = .done a s' ∧ s'.scanned ≤ t.arcLimit + 1 := by
  have hstep := settleNext_cases t s
  generalize t.settleNext s = p at hstep
  cases hstep with
  | ends _ => exact Or.inr ⟨(), s, rfl, Nat.le_succ_of_le hs⟩
  | @stops top r _ _ =>
    refine Or.inr ⟨(), _, rfl, ?_⟩
    rw [scanned_take]
    exact Nat.le_succ_of_le hs
  | @scans top r _ =>
    have htaken : (StarSearch.take top r s).scanned ≤ t.arcLimit := by rwa [scanned_take]
    rcases Progress.ofScan_ensures (J := fun _ (s : State α) => s.scanned ≤ t.arcLimit)
      (B := fun s => s.scanned ≤ t.arcLimit + 1) () (t.rows.row top.node)
      (fun _ e s₁ _ hs₁ => scan_scanned_le hs₁ top.node top.key _ _ e) htaken with h | ⟨s', h⟩
    · exact Or.inl h
    · exact Or.inr ⟨(), s', h⟩

/-- Nothing is scanned at the start. -/
theorem scanned_seeded (t : StarSearch α) (w : StarSpace α) : (t.seeded w).scanned = 0 := by
  refine foldl_ensures (J := fun _ (s : State α) => s.scanned = 0) _ (fun _ b s _ hs => ?_) rfl
  have hseed := seed_cases t s b.1 b.2
  generalize t.seed s b = s' at hseed
  cases hseed with
  | first _ _ => exact hs
  | keep _ _ => exact hs
  | replace _ _ _ => exact hs

/-- No more than one arc is scanned beyond the limit. -/
theorem run_scanned_le (hc : t.center < t.rows.nodeCount) {answer : Answer α}
    (hrun : t.run w = .ok answer) : answer.space.scanned ≤ t.arcLimit + 1 := by
  by_cases hshort : t.centerRow.length ≤ 1
  · rw [run_of_short hc hshort w] at hrun
    rw [← Except.ok.inj hrun]
    exact Nat.zero_le _
  · obtain ⟨_, s, hsteps, hs⟩ := Progress.run_ensures (e := ())
      (I := fun _ s => s.scanned ≤ t.arcLimit) (Q := fun _ s => s.scanned ≤ t.arcLimit + 1)
      (fun _ hs => Nat.le_succ_of_le hs) (fun _ _ => settleNext_scanned_le) (w.capacity + 1)
      (t.seeded w) ((scanned_seeded t w).trans_le (Nat.zero_le _))
    rw [run_of_long hc hshort hsteps] at hrun
    rw [← Except.ok.inj hrun]
    dsimp only
    rw [StarSpace.scanned_reset]
    exact hs

/-! ### Searches -/

/-- Of two searches in the same tables the one with the higher limit reports all that the other
one does.  They answer alike, unless the one with the lower limit gives up. -/
theorem run_truncates (hfar : Weight.LooksFar (Weight.faraway : α)) (hr : t.rows.WellFormed)
    (hc : t.center < t.rows.nodeCount) (hw : w.Ready) (hroom : t.rows.nodeCount ≤ w.capacity)
    (hl : l ≤ t.arcLimit) :
    ∃ a a', (t.withLimit l).run w = .ok a ∧ t.run w = .ok a' ∧
      (∀ i, a.deletable.getD i false = true → a'.deletable.getD i false = true) ∧
      (a.found = true → a'.found = true) ∧ (a' = a ∨ l < a.space.scanned) := by
  by_cases hshort : t.centerRow.length ≤ 1
  · exact ⟨_, _, run_of_short (t := t.withLimit l) hc hshort w, run_of_short hc hshort w,
      fun _ => id, id, Or.inl rfl⟩
  · have htidy := tidy_seeded hfar hr hw hroom
    obtain ⟨_, u, _, s, hrun, hrun', hlater, hend⟩ := Progress.run_truncates (o := ()) (e := ())
      (C := (t.withLimit l).OverLimit) (L := Later t w) (fun _ _ => Later.refl)
      (fun s => settleNext_truncates hr hl) (fun u s => settleNext_leads hr) (w.capacity + 1)
      (t.seeded w) ⟨htidy, fun _ => id, id⟩
    refine ⟨_, _, run_of_long (t := t.withLimit l) hc hshort hrun, run_of_long hc hshort hrun',
      hlater.deletable, hlater.found, ?_⟩
    rcases hend with ⟨-, rfl⟩ | ⟨-, hover⟩
    · exact Or.inl rfl
    · right
      dsimp only
      rw [StarSpace.scanned_reset]
      exact hover

/-- **A limit only loses reports.**  Of two searches around one node, in any tables that are
ready, the one with the higher limit reports all that the other one does.  If the lower limit
is not exceeded, both report the same, after the same number of scans.  No more than one arc is
scanned beyond a limit.  The distance of an unreached node is the only weight that comparisons
take for it. -/
theorem limits_truncate (hfar : ∀ d : α, Weight.LooksFar d ↔ d = Weight.faraway) {r : Rows α}
    (hr : r.Built) (bias : Option (Bias α)) {c : Nat} (hc : c < r.nodeCount) {l l' : Nat}
    (hl : l ≤ l') (hw : w.Ready) (hroom : r.nodeCount ≤ w.capacity) (hw' : w'.Ready)
    (hroom' : r.nodeCount ≤ w'.capacity) :
    ∃ a a', run ⟨r, bias, c, l⟩ w = .ok a ∧ run ⟨r, bias, c, l'⟩ w' = .ok a' ∧
      (∀ i, a.deletable.getD i false = true → a'.deletable.getD i false = true) ∧
      (a.found = true → a'.found = true) ∧
      (a.space.scanned ≤ l → a.Same a') ∧
      a.space.scanned ≤ l + 1 ∧ a'.space.scanned ≤ l' + 1 := by
  have hlooks : Weight.LooksFar (Weight.faraway : α) := (hfar _).mpr rfl
  let t : StarSearch α := ⟨r, bias, c, l'⟩
  -- the tables do not matter, so both limits are compared in those of the first search
  obtain ⟨a, b, ha, hb, hdeletable, hfound, hends⟩ :=
    run_truncates (t := t) hlooks hr.wellFormed hc hw hroom hl
  obtain ⟨b', a', hb', ha', hsame⟩ := run_same (t := t) hfar hr.wellFormed hc hw hroom hw' hroom'
  obtain rfl := Except.ok.inj (hb.symm.trans hb')
  refine ⟨a, a', ha, ha', hsame.deletable.symm ▸ hdeletable, hsame.found.symm ▸ hfound, ?_,
    run_scanned_le (t := t.withLimit l) hc ha, run_scanned_le (t := t) hc ha'⟩
  intro hwithin
  rcases hends with rfl | hover
  · exact hsame
  · exact absurd hwithin (Nat.not_le_of_lt hover)

/-- Parallel arcs, around one end of them with no scans and with many. -/
theorem limits_truncate_on_double :
    let edge := ((Network.empty 2).pushArc 0 1 (2 : ℚ)).pushArc 1 0 2
    let g := (edge.pushArc 0 1 3).pushArc 1 0 3
    ∃ a a', run ⟨.ofNetwork g, none, 0, 0⟩ (.fresh 2) = .ok a ∧
      run ⟨.ofNetwork g, none, 0, 100⟩ (.fresh 5) = .ok a' ∧
      (∀ i, a.deletable.getD i false = true → a'.deletable.getD i false = true) ∧
      (a.found = true → a'.found = true) ∧ (a.space.scanned ≤ 0 → a.Same a') := by
  intro edge g
  have hone : (Network.empty 2).addArcPair 0 1 (2 : ℚ) 2 = .ok (0, edge) := rfl
  have htwo : edge.addArcPair 0 1 3 3 = .ok (1, g) := by
    simp only [edge, g]
    rfl
  have hg : g.Built := ((Network.Built.empty 2).addArcPair hone).addArcPair htwo
  have hcount : (Rows.ofNetwork g).nodeCount = 2 := Rows.nodeCount_ofNetwork g
  obtain ⟨a, a', ha, ha', hdeletable, hfound, hsame, -, -⟩ := limits_truncate
    (fun _ => Weight.looksFar_rat) (Or.inl ⟨g, hg, rfl⟩) none (hcount ▸ Nat.zero_lt_two)
    (Nat.zero_le 100) (StarSpace.fresh_ready 2) (by rw [hcount, StarSpace.capacity_fresh])
    (StarSpace.fresh_ready 5) (by rw [hcount, StarSpace.capacity_fresh]; decide)
  exact ⟨a, a', ha, ha', hdeletable, hfound, hsame⟩

end StarSearch

end SteinerSearch
