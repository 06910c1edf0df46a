import SteinerSearch.Proofs.Workspace
import SteinerSearch.Walk.Ledger

/-!
# What a ledger remembers

Whatever way of keeping track is chosen, a ledger never forgets that a prize was
used.  What the walk to `k` has used counts as used at every node labeled from `k`,
and so does the prize that is credited with the label.  What is used at other nodes
stays used.

All three ledgers are dealt with through these rules, so a proof about walks does not
look at how the ledger keeps track.

## Main results

* `Ledger.mayCredit_record` — the walk that was extended.
* `Ledger.mayCredit_record_self` — the new credit.
* `Ledger.mayCredit_record_of_ne` — all other nodes.
-/

namespace SteinerSearch

namespace Ledger

variable {α : Type} {l : Ledger} {g : Network α} {w : Workspace α} {k m a u v : Nat}
  {credit : Bool}

/-! ### What a record leaves alone -/

section Frame

@[simp] theorem dist_record : (l.record g w k m a credit).dist = w.dist := by
  cases l <;> simp only [record, Workspace.claim]
  split <;> rfl

@[simp] theorem pred_record : (l.record g w k m a credit).pred = w.pred := by
  cases l <;> simp only [record, Workspace.claim]
  split <;> rfl

@[simp] theorem visited_record : (l.record g w k m a credit).visited = w.visited := by
  cases l <;> simp only [record, Workspace.claim]
  split <;> rfl

@[simp] theorem queue_record : (l.record g w k m a credit).queue = w.queue := by
  cases l <;> simp only [record, Workspace.claim]
  split <;> rfl

@[simp] theorem capacity_record : (l.record g w k m a credit).capacity = w.capacity :=
  congrArg Array.size dist_record

theorem size_claimed_record : (l.record g w k m a credit).claimed.size = w.claimed.size := by
  cases l <;> simp only [record, Workspace.claim]
  split
  · exact Array.size_setIfInBounds ..
  · rfl

theorem isVisited_record : (l.record g w k m a credit).isVisited u = w.isVisited u := by
  rw [Workspace.isVisited, visited_record, Workspace.isVisited]

end Frame

/-! ### Traces -/

section Traces

variable {n : Nat} {ls : TraceLists}

/-- A list that is copied from `k` to `m`, and grows if `grow` says so. -/
def extended (ls : TraceLists) (k m x : Nat) (grow : Bool) : TraceLists :=
  if grow then (ls.copy k m).push m x else ls.copy k m

theorem wellFormed_extended (hl : ls.WellFormed n) (hm : m < n) (hne : k ≠ m) (x : Nat)
    (grow : Bool) : (extended ls k m x grow).WellFormed n := by
  have hcopy := hl.copy hm hne
  unfold extended
  split
  · exact hcopy.push hm x
  · exact hcopy

theorem capacity_extended (hl : ls.WellFormed n) (hm : m < n) (hne : k ≠ m) (x : Nat)
    (grow : Bool) : (extended ls k m x grow).capacity = ls.capacity := by
  have hcopy : (ls.copy k m).capacity = ls.capacity := TraceLists.capacity_copy hl hm hne
  unfold extended
  split
  · rw [TraceLists.capacity_push, hcopy]
  · exact hcopy

/-- The list of `m` is that of `k`, unless one of the two is saturated. -/
theorem get?_extended (hl : ls.WellFormed n) (hm : m < n) (hne : k ≠ m) {x : Nat} {grow : Bool}
    {old ids : List Nat} (hold : ls.get? m = some old) (hids : ls.get? k = some ids)
    (hroom : grow = true → ids.length < ls.capacity) :
    (extended ls k m x grow).get? m = some (if grow = true then ids ++ [x] else ids) := by
  have hcopy : (ls.copy k m).get? m = some ids := by
    rw [TraceLists.get?_copy hl hm hne, hold, hids, Option.bind_some]
  unfold extended
  split
  · next hgrow =>
    rw [TraceLists.get?_push (hl.copy hm hne) hm, hcopy, Option.bind_some,
      TraceLists.capacity_copy hl hm hne, if_pos (hroom hgrow)]
  · exact hcopy

/-- A list that is not saturated was copied from one that is not. -/
theorem exists_of_get?_extended (hl : ls.WellFormed n) (hm : m < n) (hne : k ≠ m) {x : Nat}
    {grow : Bool} {ids : List Nat} (h : (extended ls k m x grow).get? m = some ids) :
    ∃ old, ls.get? k = some old ∧ ids = if grow = true then old ++ [x] else old := by
  have hcopy : ∀ {old}, (ls.copy k m).get? m = some old → ls.get? k = some old := by
    intro old hold
    rw [TraceLists.get?_copy hl hm hne] at hold
    obtain ⟨_, -, hk⟩ := Option.bind_eq_some_iff.mp hold
    exact hk
  unfold extended at h
  cases grow with
  | false => exact ⟨ids, hcopy h, rfl⟩
  | true =>
    rw [if_pos rfl, TraceLists.get?_push (hl.copy hm hne) hm] at h
    obtain ⟨old, hold, hpush⟩ := Option.bind_eq_some_iff.mp h
    split at hpush
    · exact ⟨old, hcopy hold, (Option.some.inj hpush).symm⟩
    · cases hpush

theorem mayContain_extended (hl : ls.WellFormed n) (hm : m < n) (hne : k ≠ m) {x y : Nat}
    {grow : Bool} (h : ls.mayContain k y = true ∨ y = x ∧ grow = true) :
    (extended ls k m x grow).mayContain m y = true := by
  unfold extended
  split
  · next hgrow =>
    refine TraceLists.mayContain_push (hl.copy hm hne) hm x ?_
    exact h.imp (TraceLists.mayContain_copy hl hm hne) fun h => h.1
  · next hgrow =>
    rcases h with h | h
    · exact TraceLists.mayContain_copy hl hm hne h
    · exact absurd h.2 hgrow

theorem get?_extended_of_ne (hl : ls.WellFormed n) (hm : m < n) (hne : k ≠ m) (hv : v ≠ m)
    (x : Nat) (grow : Bool) : (extended ls k m x grow).get? v = ls.get? v := by
  have hcopy := TraceLists.get?_copy_of_ne hl hm hne hv
  unfold extended
  split
  · exact (TraceLists.get?_push_of_ne (hl.copy hm hne) hv x).trans hcopy
  · exact hcopy

theorem mayContain_extended_of_ne (hl : ls.WellFormed n) (hm : m < n) (hne : k ≠ m)
    (hv : v ≠ m) (x : Nat) (grow : Bool) (y : Nat) :
    (extended ls k m x grow).mayContain v y = ls.mayContain v y :=
  TraceLists.mayContain_congr (get?_extended_of_ne hl hm hne hv x grow) y

end Traces

theorem credited_combined : (Ledger.combined.record g w k m a credit).credited =
    extended w.credited k m m credit := rfl

theorem credited_split : (Ledger.split.record g w k m a credit).credited =
    extended w.credited k m m (credit && g.isRequired m) := rfl

theorem creditedOther_split : (Ledger.split.record g w k m a credit).creditedOther =
    extended w.creditedOther k m m (credit && !g.isRequired m) := rfl

theorem traversed_split : (Ledger.split.record g w k m a credit).traversed =
    extended w.traversed k m (Arc.edge a) true := rfl

theorem traced_record (hw : w.Traced) (hm : m < w.capacity) (hne : k ≠ m) :
    (l.record g w k m a credit).Traced := by
  cases l with
  | firstVisit =>
    simp only [record, Workspace.claim]
    split
    · exact ⟨hw.credited, hw.creditedOther, hw.traversed⟩
    · exact hw
  | combined =>
    exact ⟨wellFormed_extended hw.credited hm hne m credit, hw.creditedOther, hw.traversed⟩
  | split =>
    exact ⟨wellFormed_extended hw.credited hm hne m _,
      wellFormed_extended hw.creditedOther hm hne m _,
      (hw.traversed.copy hm hne).push hm _⟩

theorem sized_record (hs : w.Sized) (hw : w.Traced) (hm : m < w.capacity) (hne : k ≠ m) :
    (l.record g w k m a credit).Sized := by
  have ht : (l.record g w k m a credit).Traced := traced_record hw hm hne
  refine ⟨?_, ?_, ?_, ?_, ht.credited.toSized, ht.creditedOther.toSized, ht.traversed.toSized⟩ <;>
    rw [capacity_record]
  · rw [pred_record, hs.pred]
  · rw [queue_record, hs.queue]
  · rw [visited_record, hs.visited]
  · rw [size_claimed_record, hs.claimed]

/-! ### What is remembered -/

theorem mayCredit_firstVisit :
    Ledger.firstVisit.mayCredit g w k u = false ↔ w.isVisited u = true := by
  simp [mayCredit]

theorem mayCredit_combined :
    Ledger.combined.mayCredit g w k u = false ↔ w.credited.mayContain k u = true := by
  simp [mayCredit]

theorem mayCredit_split : Ledger.split.mayCredit g w k u = false ↔
    (g.isRequired u = true → w.credited.mayContain k u = true) ∧
      (g.isRequired u = false → w.creditedOther.mayContain k u = true) := by
  cases h : g.isRequired u <;> simp [mayCredit, h]

/-- What the walk to `k` has used is used by the walk that goes on to `m`. -/
theorem mayCredit_record (hw : w.Traced) (hm : m < w.capacity) (hne : k ≠ m)
    (h : l.mayCredit g w k u = false) :
    l.mayCredit g (l.record g w k m a credit) m u = false := by
  cases l with
  | firstVisit =>
    rw [mayCredit_firstVisit] at h ⊢
    rwa [isVisited_record]
  | combined =>
    rw [mayCredit_combined] at h ⊢
    exact mayContain_extended hw.credited hm hne (Or.inl h)
  | split =>
    rw [mayCredit_split] at h ⊢
    exact ⟨fun hu => mayContain_extended hw.credited hm hne (Or.inl (h.1 hu)),
      fun hu => mayContain_extended hw.creditedOther hm hne (Or.inl (h.2 hu))⟩

/-- A prize that is credited is used from then on. -/
theorem mayCredit_record_self (hw : w.Traced) (hm : m < w.capacity) (hne : k ≠ m)
    (hvisited : w.isVisited m = true) : l.mayCredit g (l.record g w k m a true) m m = false := by
  cases l with
  | firstVisit =>
    rw [mayCredit_firstVisit, isVisited_record]
    exact hvisited
  | combined =>
    rw [mayCredit_combined]
    exact mayContain_extended hw.credited hm hne (Or.inr ⟨rfl, rfl⟩)
  | split =>
    rw [mayCredit_split]
    refine ⟨fun hu => mayContain_extended hw.credited hm hne (Or.inr ⟨rfl, ?_⟩),
      fun hu => mayContain_extended hw.creditedOther hm hne (Or.inr ⟨rfl, ?_⟩)⟩
    · rw [hu, Bool.and_self]
    · rw [hu, Bool.not_false, Bool.and_self]

/-- What is used by walks to other nodes stays used. -/
theorem mayCredit_record_of_ne (hw : w.Traced) (hm : m < w.capacity) (hne : k ≠ m) (hv : v ≠ m)
    (h : l.mayCredit g w v u = false) :
    l.mayCredit g (l.record g w k m a credit) v u = false := by
  cases l with
  | firstVisit =>
    rw [mayCredit_firstVisit] at h ⊢
    rwa [isVisited_record]
  | combined =>
    rw [mayCredit_combined] at h ⊢
    rwa [credited_combined, mayContain_extended_of_ne hw.credited hm hne hv]
  | split =>
    rw [mayCredit_split] at h ⊢
    rwa [credited_split, creditedOther_split, mayContain_extended_of_ne hw.credited hm hne hv,
      mayContain_extended_of_ne hw.creditedOther hm hne hv]

/-- A ledger looks at the traces and at the touched nodes only. -/
theorem mayCredit_mono {w' : Workspace α} (hcredited : w'.credited = w.credited)
    (hother : w'.creditedOther = w.creditedOther)
    (hvisited : w.isVisited u = true → w'.isVisited u = true)
    (h : l.mayCredit g w v u = false) : l.mayCredit g w' v u = false := by
  cases l with
  | firstVisit =>
    rw [mayCredit_firstVisit] at h ⊢
    exact hvisited h
  | combined =>
    rw [mayCredit_combined] at h ⊢
    rwa [hcredited]
  | split =>
    rw [mayCredit_split] at h ⊢
    rwa [hcredited, hother]

end Ledger

end SteinerSearch
