import Mathlib.Data.Finset.Card
import SteinerSearch.Proofs.Star.Steps

/-!
# The count of decided arcs

A star search stops early when it has counted as many decided arcs as there are.  It counts
an arc when it is reported, and when its head is taken out before that.  No arc is counted
twice, neither a parallel one nor one that gave its place to another, so at an early stop
every arc is reported or has a head that was taken out.

## Main definitions

* `AtLeast n P` — at least `n` numbers have the property `P`.
* `StarSearch.Judged s i` — the arc with place `i` is reported, or its head is taken out.
* `StarSearch.Counted t s` — no more arcs are counted than are judged.

## Main results

* `StarSearch.counted_seed`, `StarSearch.counted_take`, `StarSearch.Counted.report` — all steps
  keep the count.
* `StarSearch.Counted.judged` — at an early stop all arcs are judged.
-/

namespace SteinerSearch

/-! ### Counting -/

/-- At least `n` numbers have the property `P`. -/
def AtLeast (n : Nat) (P : Nat → Prop) : Prop := ∃ S : Finset Nat, S.card = n ∧ ∀ i ∈ S, P i

namespace AtLeast

variable {n m : Nat} {P Q : Nat → Prop}

theorem zero : AtLeast 0 P := ⟨∅, Finset.card_empty, fun i hi => absurd hi (Finset.notMem_empty i)⟩

theorem mono (h : AtLeast n P) (hPQ : ∀ i, P i → Q i) : AtLeast n Q := by
  obtain ⟨S, hcard, hS⟩ := h
  exact ⟨S, hcard, fun i hi => hPQ i (hS i hi)⟩

/-- One number more has the property. -/
theorem succ (h : AtLeast n P) (hPQ : ∀ i, P i → Q i) {i : Nat} (hi : ¬ P i) (hi' : Q i) :
    AtLeast (n + 1) Q := by
  obtain ⟨S, hcard, hS⟩ := h
  refine ⟨insert i S, ?_, fun j hj => ?_⟩
  · rw [Finset.card_insert_of_notMem fun hmem => hi (hS i hmem), hcard]
  · rcases Finset.mem_insert.mp hj with rfl | hj
    · exact hi'
    · exact hPQ j (hS j hj)

theorem subset_range (hP : ∀ i, P i → i < m) {S : Finset Nat} (hS : ∀ i ∈ S, P i) :
    S ⊆ Finset.range m := fun i hi => Finset.mem_range.mpr (hP i (hS i hi))

/-- There are only `m` numbers below `m`. -/
theorem le (h : AtLeast n P) (hP : ∀ i, P i → i < m) : n ≤ m := by
  obtain ⟨S, rfl, hS⟩ := h
  calc S.card ≤ (Finset.range m).card := Finset.card_le_card (subset_range hP hS)
    _ = m := Finset.card_range m

/-- If as many numbers below `m` have the property as there are, all have. -/
theorem all (h : AtLeast n P) (hP : ∀ i, P i → i < m) (hmn : m ≤ n) {i : Nat} (hi : i < m) :
    P i := by
  obtain ⟨S, rfl, hS⟩ := h
  have heq := Finset.eq_of_subset_of_card_le (subset_range hP hS)
    (by rwa [Finset.card_range])
  exact hS i (heq ▸ Finset.mem_range.mpr hi)

end AtLeast

namespace StarSearch

variable {α : Type} {t : StarSearch α} {s s' : State α}

/-! ### Judged arcs -/

/-- The arc with place `i` is reported, or its head is taken out. -/
def Judged (s : State α) (i : Nat) : Prop :=
  s.isDeletable i = true ∨ ∃ m, s.space.slotOf m = some i ∧ s.space.Removed m

/-- Where slots stay, arcs stay judged. -/
theorem Judged.mono {i : Nat} (h : Judged s i)
    (hflag : s.isDeletable i = true → s'.isDeletable i = true)
    (hslot : ∀ m, s'.space.slotOf m = s.space.slotOf m)
    (hrem : ∀ m, s.space.Removed m → s'.space.Removed m) : Judged s' i := by
  rcases h with h | ⟨m, hm, hrm⟩
  · exact Or.inl (hflag h)
  · exact Or.inr ⟨m, (hslot m).trans hm, hrem m hrm⟩

/-- The arc to a node that was not taken out is judged only if it is reported. -/
theorem not_judged (h : Tables t s) {m i : Nat} (hslot : s.space.slotOf m = some i)
    (hm : ¬ s.space.Removed m) (hopen : s.isDeletable i = false) : ¬ Judged s i := by
  rintro (hdel | ⟨u, hu, hrem⟩)
  · rw [hopen] at hdel
    cases hdel
  · rw [h.head_injective hu hslot] at hrem
    exact hm hrem

/-- No more arcs are counted than are judged. -/
def Counted (t : StarSearch α) (s : State α) : Prop :=
  AtLeast s.decided fun i => i < t.centerRow.length ∧ Judged s i

/-- At an early stop all arcs are judged. -/
theorem Counted.judged (h : Counted t s) (hall : t.centerRow.length ≤ s.decided) {i : Nat}
    (hi : i < t.centerRow.length) : Judged s i :=
  (AtLeast.all h (fun _ hj => hj.1) hall hi).2

/-- An arc that is reported is counted. -/
theorem Counted.delete (h : Counted t s) (htables : Tables t s) {i : Nat}
    (hi : i < t.centerRow.length) (hnot : ¬ Judged s i) : Counted t (s.delete i) := by
  have hsize : i < s.deletable.size := by rwa [htables.flags]
  refine AtLeast.succ h (fun j hj => ⟨hj.1, hj.2.mono (fun hdel => ?_) (fun _ => rfl)
    fun _ hm => hm⟩) (fun hj => hnot hj.2) ⟨hi, Or.inl ?_⟩
  · exact (isDeletable_delete hsize).mpr (Or.inl hdel)
  · exact (isDeletable_delete hsize).mpr (Or.inr rfl)

/-- Changes to the tables that keep slots and what was taken out. -/
theorem Counted.setSpace (h : Counted t s) {w : StarSpace α}
    (hslot : ∀ m, w.slotOf m = s.space.slotOf m)
    (hrem : ∀ m, s.space.Removed m → w.Removed m) : Counted t { s with space := w } :=
  AtLeast.mono h fun _ hj => ⟨hj.1, hj.2.mono id hslot hrem⟩

/-- As long as nothing is taken out, only the reports count. -/
theorem Counted.setSpace_of_not_removed (h : Counted t s) (hrem : ∀ v, ¬ s.space.Removed v)
    (w : StarSpace α) : Counted t { s with space := w } :=
  AtLeast.mono h fun _ hj => ⟨hj.1, Or.inl (hj.2.resolve_right fun ⟨m, _, hm⟩ => hrem m hm)⟩

/-! ### Steps -/

theorem counted_start (t : StarSearch α) (w : StarSpace α) : Counted t (t.start w) := AtLeast.zero

variable [Weight α]

/-- One more arc of the center. -/
theorem counted_seed {le : α → α → Prop} {n : Nat} {e : RowEntry α} (h : Counted t s)
    (hs : Seeding t le n s) (he : t.centerRow[n]? = some e) (hs' : Seeded t s e n s') :
    Counted t s' := by
  have hnot : ∀ {i}, s.isDeletable i = false → ¬ Judged s i := by
    rintro i hopen (hdel | ⟨m, -, hm⟩)
    · rw [hopen] at hdel
      cases hdel
    · exact hs.removed m hm
  cases hs' with
  | first _ _ => exact h.setSpace_of_not_removed hs.removed _
  | keep _ _ =>
    exact (h.delete hs.toTables (lt_length_of_getElem? he)
      (hnot (hs.fresh n le_rfl))).setSpace_of_not_removed hs.removed _
  | replace hslot _ _ =>
    obtain ⟨x, hx, -⟩ := hs.slot _ _ hslot
    exact (h.delete hs.toTables (lt_length_of_getElem? hx)
      (hnot (hs.slot_cost _ _ x hslot hx).2.2)).setSpace_of_not_removed hs.removed _

/-- The arc to the node that is taken out is counted, unless it was reported. -/
theorem counted_take (h : Counted t s) (htables : Tables t s) {top : KeyedNode α}
    {r : KeyedQueue α} (hpop : s.space.queue.popMin? = some (top, r)) :
    Counted t (take top r s) := by
  have hdequeued := StarSpace.dequeued htables.sized htables.consistent hpop
  have hmono : ∀ {i}, Judged s i → Judged { s with space := { s.space with queue := r } } i :=
    fun hi => hi.mono id (fun _ => rfl) fun m hm => (hdequeued.removed m).mpr (Or.inl hm)
  have hstep := decide_cases top.node { s with space := { s.space with queue := r } }
  unfold take
  generalize StarSearch.decide top.node _ = s' at hstep ⊢
  cases hstep with
  | same _ => exact AtLeast.mono h fun i hi => ⟨hi.1, hmono hi.2⟩
  | more hslot hopen =>
    have hslot : s.space.slotOf top.node = some _ := hslot
    obtain ⟨x, hx, -⟩ := htables.slot _ _ hslot
    refine AtLeast.succ h (fun i hi => ⟨hi.1, hmono hi.2⟩) (fun hi => ?_)
      ⟨lt_length_of_getElem? hx, Or.inr ⟨top.node, hslot,
        (hdequeued.removed _).mpr (Or.inr rfl)⟩⟩
    exact not_judged htables hslot
      (hdequeued.not_removed htables.consistent)
      hopen hi.2

/-- The arc to an open node is counted if it is reported. -/
theorem Counted.report (h : Counted t s) (htables : Tables t s) {base? : Option Nat} {m : Nat}
    {d : α} (hopen : ¬ s.space.Removed m) (hs' : Reported t base? m d s s') : Counted t s' := by
  cases hs' with
  | skip _ => exact h
  | delete hslot he _ hflag _ =>
    exact h.delete htables (lt_length_of_getElem? he) (not_judged htables hslot hopen hflag)

end StarSearch

end SteinerSearch
