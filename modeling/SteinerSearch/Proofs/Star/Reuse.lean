import Mathlib.Data.List.Forall2
import SteinerSearch.Proofs.Lockstep
import SteinerSearch.Proofs.Reuse.KeyedQueues
import SteinerSearch.Proofs.Star.Tracking

/-!
# Using one set of tables for many star searches

A star search resets its tables itself.  It looks at the entries of nodes of its own network
only, and all of these are as in new tables before every search.  What else there may be, room
for more nodes, old entries in slots of the queue that are not in use, reports of an earlier
search in the buffer, has no influence.

## Main definitions

* `StarSpace.Alike n w w'` — the tables say the same of every node, and are for `n` nodes.
* `StarSearch.State.Alike n s s'` — two states differ in their tables only, which are alike.
* `StarSearch.Answer.Same` — two answers report the same.
* `StarSearch.runAll` — searches one after the other in the same tables.

## Main results

* `StarSearch.settleNext_together` — steps keep states alike.
* `StarSearch.run_ready` — a search leaves tables that are ready for the next one.
* `StarSearch.run_same` — it reports the same in all tables that are ready.
* `StarSearch.runAll_forgets` — so the tables have no memory.
-/

namespace SteinerSearch

namespace StarSpace

variable {α : Type} [Weight α] {w w' : StarSpace α} {n v : Nat}

/-- The tables have room for `n` nodes and say the same of every node, and the same nodes wait
in the same order.  Neither list of touched nodes is looked at before the end. -/
structure Alike (n : Nat) (w w' : StarSpace α) : Prop where
  queue : KeyedQueue.Alike n w.queue w'.queue
  dist : Array.Agree n Weight.faraway w.dist w'.dist
  base : Array.Agree n none w.base w'.base
  prev : Array.Agree n none w.prev w'.prev
  slot : Array.Agree n none w.slot w'.slot

namespace Alike

theorem distOf (h : Alike n w w') (v : Nat) : w'.distOf v = w.distOf v := h.dist.getD v

theorem baseOf (h : Alike n w w') (v : Nat) : w'.baseOf v = w.baseOf v := h.base.getD v

theorem prevOf (h : Alike n w w') (v : Nat) : w'.prevOf v = w.prevOf v := h.prev.getD v

theorem slotOf (h : Alike n w w') (v : Nat) : w'.slotOf v = w.slotOf v := h.slot.getD v

theorem setSlot (h : Alike n w w') (hv : v < n) (i : Nat) :
    Alike n (w.setSlot v i) (w'.setSlot v i) :=
  ⟨h.queue, h.dist, h.base, h.prev, h.slot.set hv (some i)⟩

theorem setDist (h : Alike n w w') (hv : v < n) (d : α) :
    Alike n (w.setDist v d) (w'.setDist v d) :=
  ⟨h.queue, h.dist.set hv d, h.base, h.prev, h.slot⟩

theorem label (h : Alike n w w') (hv : v < n) (d : α) (b p : Nat) :
    Alike n (w.label v d b p) (w'.label v d b p) :=
  ⟨h.queue, h.dist.set hv d, h.base.set hv (some b), h.prev.set hv (some p), h.slot⟩

theorem enqueue (h : Alike n w w') (hq : w.queue.bare.Consistent) (hv : v < n) (x : α) :
    Alike n (w.enqueue v x) (w'.enqueue v x) :=
  ⟨h.queue.insert hq hv x, h.dist, h.base, h.prev, h.slot⟩

theorem withQueue (h : Alike n w w') {q q' : KeyedQueue α} (hq : KeyedQueue.Alike n q q') :
    Alike n { w with queue := q } { w' with queue := q' } :=
  ⟨hq, h.dist, h.base, h.prev, h.slot⟩

end Alike

/-- Any two sets of tables that are ready are alike.  Where comparisons see more than one
weight as the distance of an unreached node, tables could hold different ones. -/
theorem Ready.alike (hfar : ∀ d : α, Weight.LooksFar d ↔ d = Weight.faraway) (hw : w.Ready)
    (hw' : w'.Ready) (hroom : n ≤ w.capacity) (hroom' : n ≤ w'.capacity) : Alike n w w' := by
  have hlooks : Weight.LooksFar (Weight.faraway : α) := (hfar _).mpr rfl
  have hblank := hw.blankAt hlooks
  have hblank' := hw'.blankAt hlooks
  refine ⟨?_, ⟨hroom, hroom', fun v => ?_⟩, ⟨?_, ?_, fun v => ?_⟩, ⟨?_, ?_, fun v => ?_⟩,
    ⟨?_, ?_, fun v => ?_⟩⟩
  · exact KeyedQueue.alike_of_size hw.size_queue hw'.size_queue (by rwa [hw.sized.queue])
      (by rwa [hw'.sized.queue]) (fun v => (hblank v).place) fun v => (hblank' v).place
  · exact ((hfar _).mp (hblank' v).dist).trans ((hfar _).mp (hblank v).dist).symm
  · rwa [hw.sized.base]
  · rwa [hw'.sized.base]
  · exact (hblank' v).base.trans (hblank v).base.symm
  · rwa [hw.sized.prev]
  · rwa [hw'.sized.prev]
  · exact (hblank' v).prev.trans (hblank v).prev.symm
  · rwa [hw.sized.slot]
  · rwa [hw'.sized.slot]
  · exact (hblank' v).slot.trans (hblank v).slot.symm

end StarSpace

namespace StarSearch

variable {α : Type} [Weight α] {t : StarSearch α} {s s' : State α} {w w' w₀ : StarSpace α}
  {n k m : Nat}

/-- The states differ in their tables only, and these are alike. -/
inductive State.Alike (n : Nat) (s : State α) : State α → Prop
  | mk {w : StarSpace α} (h : s.space.Alike n w) : State.Alike n s { s with space := w }

/-! ### One arc -/

theorem alike_decide (h : s.Alike n s') (k : Nat) : (decide k s).Alike n (decide k s') := by
  obtain ⟨h⟩ := h
  unfold decide
  dsimp only
  rw [h.slotOf]
  cases s.space.slotOf k with
  | none => exact ⟨h⟩
  | some i =>
    change State.Alike n (if s.isDeletable i = true then _ else _)
      (if s.isDeletable i = true then _ else _)
    split
    · exact ⟨h⟩
    · exact ⟨h⟩

/-- What is reported depends on the slots alone. -/
theorem report_setSpace (hslot : ∀ v, w.slotOf v = s.space.slotOf v) (base? : Option Nat)
    (m : Nat) (d : α) :
    t.report base? m d { s with space := w } = { t.report base? m d s with space := w } := by
  unfold report
  dsimp only
  rw [hslot]
  cases s.space.slotOf m with
  | none => rfl
  | some i =>
    change (if t.replaces s base? m i d = true then _ else _) = _
    dsimp only
    split
    · rfl
    · rfl

theorem alike_improve (h : w.Alike n w') (hq : w.queue.bare.Consistent) (hm : m < n)
    (base? : Option Nat) (d : α) : (improve k base? m d w).Alike n (improve k base? m d w') := by
  unfold improve
  rw [h.distOf]
  split
  · exact (h.label hm d _ k).enqueue hq hm d
  · exact h

theorem alike_meet (h : s.Alike n s') (hq : s.space.queue.bare.Consistent) (hm : m < n)
    (base? : Option Nat) (d : α) : (t.meet k base? m d s).Alike n (t.meet k base? m d s') := by
  obtain ⟨h⟩ := h
  unfold meet
  rw [report_setSpace h.slotOf]
  refine ⟨?_⟩
  dsimp only
  rw [space_report]
  exact alike_improve h hq hm base? d

theorem alike_seed (h : s.Alike n s') (hq : s.space.queue.bare.Consistent) {e : RowEntry α}
    (he : e.head < n) (i : Nat) : (t.seed s (e, i)).Alike n (t.seed s' (e, i)) := by
  obtain ⟨h⟩ := h
  rename_i w'
  -- all ways end with the neighbour waiting under its distance
  have henqueue : ∀ {u v : StarSpace α}, u.Alike n v → u.queue = s.space.queue →
      (u.enqueue e.head (u.distOf e.head)).Alike n (v.enqueue e.head (v.distOf e.head)) := by
    intro u v huv hu
    rw [huv.distOf]
    exact huv.enqueue (hu ▸ hq) he _
  unfold seed
  dsimp only
  rw [h.slotOf]
  cases s.space.slotOf e.head with
  | none => exact ⟨henqueue ((h.label he e.cost e.head t.center).setSlot he i) rfl⟩
  | some j =>
    dsimp only
    rw [h.distOf]
    split
    · have hkept := henqueue h rfl
      exact ⟨hkept⟩
    · exact ⟨henqueue ((h.setSlot he i).setDist he e.cost) rfl⟩

theorem scan_together (h : s.Alike n s') (hq : s.space.queue.bare.Consistent) {e : RowEntry α}
    (he : e.head < n) (dist : α) (base? came? : Option Nat) :
    Halt.Together (State.Alike n) (t.scan k dist base? came? s e)
      (t.scan k dist base? came? s' e) := by
  obtain ⟨h⟩ := h
  unfold scan
  dsimp only
  rw [h.queue.placeOf]
  split
  · exact .through ⟨h⟩
  · split
    · exact .overBudget ⟨h⟩
    · split
      · exact .through ⟨h⟩
      · exact .through (alike_meet (s := s.count) ⟨h⟩ hq he base? _)

/-! ### Steps -/

section Steps

variable (hr : t.rows.WellFormed)

include hr

/-- States of which the first is tidy stay alike along the row of a node. -/
theorem scans_together (hs : Tidy t w₀ n s) (h : s.Alike t.rows.nodeCount s') (k : Nat) (dist : α)
    (base? came? : Option Nat) :
    Halt.Together (fun s s' => Tidy t w₀ n s ∧ s.Alike t.rows.nodeCount s')
      ((t.rows.row k).foldlM (t.scan k dist base? came?) s)
      ((t.rows.row k).foldlM (t.scan k dist base? came?) s') := by
  refine Halt.foldlM_together _ (fun e he u u' hu => ?_) s s' ⟨hs, h⟩
  obtain ⟨htidy, halike⟩ := hu
  exact (scan_together halike htidy.tables.consistent (hr.head_lt k e he) dist base?
    came?).and_leads (htidy.scan hr he dist base? came?)

theorem settleNext_together (hs : Tidy t w₀ 0 s) (h : s.Alike t.rows.nodeCount s') :
    Progress.Together (fun s s' => Tidy t w₀ 0 s ∧ s.Alike t.rows.nodeCount s')
      (t.settleNext s) (t.settleNext s') := by
  have hqueue : KeyedQueue.Alike t.rows.nodeCount s.space.queue s'.space.queue := by
    obtain ⟨h⟩ := h
    exact h.queue
  unfold settleNext
  rcases hqueue.popMin? with ⟨hpop, hpop'⟩ | ⟨top, q, q', hpop, hpop', hq⟩
  · rw [hpop, hpop']
    exact .done ⟨hs, h⟩
  · rw [hpop, hpop']
    dsimp only
    rw [← take, ← take]
    have htidy := (hs.take hpop).some_removals
    have htaken : (take top q s).Alike t.rows.nodeCount (take top q' s') := by
      obtain ⟨h⟩ := h
      exact alike_decide (s := { s with space := { s.space with queue := q } })
        ⟨h.withQueue hq⟩ top.node
    generalize take top q s = u, take top q' s' = u' at htidy htaken
    obtain ⟨hu⟩ := htaken
    dsimp only
    split
    · exact .done ⟨htidy, ⟨hu⟩⟩
    · rw [hu.baseOf, hu.prevOf]
      exact Progress.ofScan_together (scans_together hr htidy ⟨hu⟩ top.node top.key _ _)

end Steps

/-! ### Runs -/

/-- Where both begin in tables that are alike, the states after the start are alike. -/
theorem seeded_together (hr : t.rows.WellFormed) (hw : w.Ready)
    (hroom : t.rows.nodeCount ≤ w.capacity) (h : w.Alike t.rows.nodeCount w') :
    (t.seeded w).Alike t.rows.nodeCount (t.seeded w') := by
  have hall := seeding_ensures_of_prefix (w := w)
    (P := fun done s => s.Alike t.rows.nodeCount (done.foldl t.seed (t.start w')))
    (ranks_any t) hr hw hroom ⟨⟨h.queue, h.dist, h.base, h.prev, h.slot⟩⟩
    fun done s e hs he h => by
      rw [List.foldl_append]
      exact alike_seed h hs.consistent (head_ok hr he).2 done.length
  exact hall.2

/-- A search settles every node once at most, so it does not matter how much room there is
beyond the nodes of the network. -/
theorem run_eq_of_room (hr : t.rows.WellFormed) (hs : Tidy t w₀ 0 s) {m : Nat}
    (hm : t.rows.nodeCount ≤ m) :
    Progress.run t.settleNext () (m + 1) s =
      Progress.run t.settleNext () (t.rows.nodeCount + 1) s := by
  refine Progress.run_eq_of_le
    (I := fun n s => ∃ c, Tidy t w₀ c s ∧ c + n = t.rows.nodeCount + 1) ?_ ?_ _ s
    ⟨0, hs, Nat.zero_add _⟩ (Nat.succ_le_succ hm)
  · rintro s ⟨c, hc, heq⟩
    have hle := hc.le_nodeCount
    omega
  · rintro n s ⟨c, hc, heq⟩
    rcases hc.settleNext hr with ⟨s', hstep, hs'⟩ | ⟨s', hstep, -⟩
    · exact Or.inl ⟨s', hstep, c + 1, hs', by omega⟩
    · exact Or.inr ⟨(), s', hstep⟩

/-- A run ends in a state that is tidy. -/
theorem exists_run (hr : t.rows.WellFormed) (hs : Tidy t w₀ 0 s) (n : Nat) :
    ∃ s', Progress.run t.settleNext () n s = .ok ((), s') ∧ Tidy t w₀ 0 s' := by
  have hstep : ∀ s, Tidy t w₀ 0 s → (∃ s', t.settleNext s = .more s' ∧ Tidy t w₀ 0 s') ∨
      ∃ a s', t.settleNext s = .done a s' ∧ Tidy t w₀ 0 s' := by
    intro s hs
    rcases hs.settleNext hr with ⟨s', hmore, hs'⟩ | ⟨s', hdone, hs'⟩
    · exact Or.inl ⟨s', hmore, hs'.some_removals⟩
    · exact Or.inr ⟨(), s', hdone, hs'⟩
  obtain ⟨_, s', hrun, hs'⟩ := Progress.run_ensures (e := ()) (I := fun _ => Tidy t w₀ 0)
    (Q := fun _ => Tidy t w₀ 0) (fun s hs => hs) (fun _ => hstep) n s hs
  exact ⟨s', hrun, hs'⟩

/-! ### Searches -/

/-- A search ends, and leaves its tables as ready as it found them. -/
theorem run_ready (hfar : Weight.LooksFar (Weight.faraway : α)) (hr : t.rows.WellFormed)
    (hc : t.center < t.rows.nodeCount) (hw : w.Ready) (hroom : t.rows.nodeCount ≤ w.capacity) :
    ∃ answer, t.run w = .ok answer ∧ answer.space.Ready ∧ answer.space.capacity = w.capacity := by
  by_cases hshort : t.centerRow.length ≤ 1
  · exact ⟨_, run_of_short hc hshort w, hw.setScanned 0, rfl⟩
  · obtain ⟨s, hrun, hs⟩ := exists_run hr (tidy_seeded hfar hr hw hroom) (w.capacity + 1)
    exact ⟨_, run_of_long hc hshort hrun, hs.ready_reset hfar s.scanned⟩

/-- Both answers report the same, after the same number of scans. -/
structure Answer.Same (a a' : Answer α) : Prop where
  found : a'.found = a.found
  deletable : a'.deletable = a.deletable
  scanned : a'.space.scanned = a.space.scanned

/-- All tables that are ready serve a search alike. -/
theorem run_same (hfar : ∀ d : α, Weight.LooksFar d ↔ d = Weight.faraway)
    (hr : t.rows.WellFormed) (hc : t.center < t.rows.nodeCount) (hw : w.Ready)
    (hroom : t.rows.nodeCount ≤ w.capacity) (hw' : w'.Ready)
    (hroom' : t.rows.nodeCount ≤ w'.capacity) : BothOk Answer.Same (t.run w) (t.run w') := by
  by_cases hshort : t.centerRow.length ≤ 1
  · rw [run_of_short hc hshort w, run_of_short hc hshort w']
    exact .ok ⟨rfl, rfl, rfl⟩
  · have hlooks : Weight.LooksFar (Weight.faraway : α) := (hfar _).mpr rfl
    have htidy := tidy_seeded hlooks hr hw hroom
    have htidy' := tidy_seeded hlooks hr hw' hroom'
    have halike := seeded_together hr hw hroom (hw.alike hfar hw' hroom hroom')
    -- in both tables the run needs one step more than there are nodes
    obtain ⟨⟨_, s⟩, ⟨_, s'⟩, hrun, hrun', -, -, hend⟩ := Progress.run_together (e := ())
      (fun s s' hs => settleNext_together hr hs.1 hs.2) (t.rows.nodeCount + 1) _ _
      ⟨htidy, halike⟩
    rw [← run_eq_of_room hr htidy hroom] at hrun
    rw [← run_eq_of_room hr htidy' hroom'] at hrun'
    rw [run_of_long hc hshort hrun, run_of_long hc hshort hrun']
    obtain ⟨-⟩ := hend
    refine .ok ⟨rfl, rfl, ?_⟩
    dsimp only
    rw [StarSpace.scanned_reset, StarSpace.scanned_reset]

/-! ### Sequences of searches -/

/-- Searches one after the other in the same tables, each with a buffer for its reports. -/
def runAll : List (StarSearch α × Array Bool) → StarSpace α → Except Fault (List (Answer α))
  | [], _ => .ok []
  | (t, buffer) :: calls, w => do
      let answer ← t.runInto buffer w
      let answers ← runAll calls answer.space
      return answer :: answers

/-- What a search asks for, in tables for `n` nodes: rows that are not too large, a center in
them, and a buffer with an entry for each arc of the center. -/
structure Fits (t : StarSearch α) (buffer : Array Bool) (n : Nat) : Prop where
  built : t.rows.Built
  center : t.center < t.rows.nodeCount
  room : t.rows.nodeCount ≤ n
  buffer : buffer.size = t.centerRow.length

/-- **The tables have no memory.**  Searches one after the other in tables that are ready, with
whatever limits and profits, find an entry for all that they look up, and each leaves tables in
which nothing is left of any search.  Each reports what it reports in new tables, whatever its
buffer held before.  Costs may be anything, the distance of an unreached node included; this
distance is the only weight that comparisons take for it. -/
theorem runAll_forgets (hfar : ∀ d : α, Weight.LooksFar d ↔ d = Weight.faraway)
    {calls : List (StarSearch α × Array Bool)} {w : StarSpace α} (hw : w.Ready)
    (hcalls : ∀ call ∈ calls, call.1.Fits call.2 w.capacity) :
    ∃ answers, runAll calls w = .ok answers ∧
      List.Forall₂ (fun call answer => answer.space.isPristine = true ∧
        ∀ n (buffer : Array Bool), call.1.rows.nodeCount ≤ n →
          buffer.size = call.1.centerRow.length →
          ∃ alone, call.1.runInto buffer (.fresh n) = .ok alone ∧ answer.Same alone)
        calls answers := by
  have hlooks : Weight.LooksFar (Weight.faraway : α) := (hfar _).mpr rfl
  induction calls generalizing w with
  | nil => exact ⟨[], rfl, .nil⟩
  | cons call calls ih =>
    obtain ⟨t, buffer⟩ := call
    have hcall : t.Fits buffer w.capacity := hcalls _ List.mem_cons_self
    have hr := hcall.built.wellFormed
    obtain ⟨answer, hrun, hready, hcap⟩ := run_ready hlooks hr hcall.center hw hcall.room
    -- the tables are ready for the rest of the searches
    obtain ⟨answers, hruns, hall⟩ := ih hready fun c hc => by
      rw [hcap]
      exact hcalls c (List.mem_cons_of_mem _ hc)
    refine ⟨answer :: answers, ?_, .cons ⟨hready.pristine, fun n b hn hb => ?_⟩ hall⟩
    · rw [runAll, runInto_eq_run hcall.buffer, hrun, ok_bind, hruns]
      rfl
    · obtain ⟨a, alone, ha, halone, hsame⟩ := run_same hfar hr hcall.center hw hcall.room
        (StarSpace.ready_fresh hlooks n) (by rwa [StarSpace.capacity_fresh])
      obtain rfl := Except.ok.inj (hrun.symm.trans ha)
      exact ⟨alone, (runInto_eq_run hb _).trans halone, hsame⟩

/-- A search with profits around a node whose arc costs as much as an unreached node is far,
and then one that may not scan any arc. -/
theorem runAll_forgets_on_triangle :
    let edge := ((Network.empty 3).pushArc 0 1 (1000000000000000 : ℚ)).pushArc 1 0 1000000000000000
    let path := (edge.pushArc 1 2 1).pushArc 2 1 1
    let g := (path.pushArc 0 2 5).pushArc 2 0 5
    let first : StarSearch ℚ := ⟨.ofNetwork g, some ((Bias.zero 3).set 2 1 none), 0, 100⟩
    let second : StarSearch ℚ := ⟨.ofNetwork g, none, 1, 0⟩
    let all (t : StarSearch ℚ) : Array Bool := Array.replicate t.centerRow.length true
    ∃ a b alone,
      runAll [(first, all first), (second, all second)] (.fresh 3) = .ok [a, b] ∧
      a.space.isPristine = true ∧ b.space.isPristine = true ∧
      second.runInto (all second) (.fresh 5) = .ok alone ∧ b.Same alone := by
  intro edge path g first second all
  have hone : (Network.empty 3).addArcPair 0 1 (1000000000000000 : ℚ) 1000000000000000 =
      .ok (0, edge) := rfl
  have htwo : edge.addArcPair 1 2 1 1 = .ok (1, path) := by
    simp only [edge, path]
    rfl
  have hthree : path.addArcPair 0 2 5 5 = .ok (2, g) := by
    simp only [edge, path, g]
    rfl
  have hg : g.Built := (((Network.Built.empty 3).addArcPair hone).addArcPair htwo).addArcPair hthree
  have hcount : (Rows.ofNetwork g).nodeCount = 3 := Rows.nodeCount_ofNetwork g
  have hfits : ∀ call ∈ [(first, all first), (second, all second)],
      call.1.Fits call.2 (StarSpace.fresh 3 : StarSpace ℚ).capacity := by
    intro call hcall
    rw [StarSpace.capacity_fresh]
    rcases List.mem_cons.mp hcall with rfl | hcall
    · exact ⟨Or.inl ⟨g, hg, rfl⟩, hcount ▸ Nat.zero_lt_succ 2, hcount.le, Array.size_replicate⟩
    · obtain rfl := List.mem_singleton.mp hcall
      exact ⟨Or.inl ⟨g, hg, rfl⟩, hcount ▸ Nat.one_lt_succ_succ 1, hcount.le,
        Array.size_replicate⟩
  obtain ⟨answers, hruns, hall⟩ := runAll_forgets (fun _ => Weight.looksFar_rat)
    (StarSpace.fresh_ready 3) hfits
  cases hall with
  | cons ha hrest =>
    cases hrest with
    | cons hb hnil =>
      cases hnil
      obtain ⟨alone, halone, hsame⟩ := hb.2 5 (all second) (by rw [hcount]; decide)
        Array.size_replicate
      exact ⟨_, _, alone, hruns, ha.1, hb.1, halone, hsame⟩

end StarSearch

end SteinerSearch
