import SteinerSearch.Proofs.Star.Counting
import SteinerSearch.Proofs.Star.Distances

/-!
# Settled nodes of a star search

With whole costs and profits the distances at which nodes leave the queue never fall, and
the distance of a node that has left it is final.  An arc that was scanned leads to a node
that is no farther away than its cost allows, or the path over it is too long.  A bias only
makes distances smaller, so this holds with one as it does without.

An open node cannot be the base of the node whose row is scanned, since a base has left the
queue.  So an arc of the center whose head is found to be nearer than the arc is long is
always reported.

## Main definitions

* `StarSearch.Searching t due x n s` — what holds after the start, with `n` nodes taken out,
  none of them farther away than `x`; the arcs that are `due` are still to be scanned.
* `StarSearch.Spreading t k x n base? done s` — the scan of the row of `k` has got past `done`.

## Main results

* `StarSearch.searching_seeded` — the invariant after the start.
* `StarSearch.Searching.take`, `StarSearch.Spreading.scan` — the parts of a step.
-/

namespace SteinerSearch

namespace StarSearch

variable {t : StarSearch ℚ} {s s' : State ℚ} {due due' : Nat → RowEntry ℚ → Prop} {x : ℚ}
  {n : Nat}

/-- What holds after the start. -/
structure Searching (t : StarSearch ℚ) (due : Nat → RowEntry ℚ → Prop) (x : ℚ) (n : Nat)
    (s : State ℚ) : Prop extends Tables t s where
  measured : s.space.Measured
  /-- Every arc is in a slot, or reported for one that costs no more. -/
  seeded : ∀ i e, t.centerRow[i]? = some e → Seated t (· ≤ ·) s i e
  /-- A neighbour is no farther away than its arc is long. -/
  slot_le : ∀ m j e, s.space.slotOf m = some j → t.centerRow[j]? = some e →
    s.space.distOf m ≤ e.cost
  /-- If it is nearer, the arc is reported. -/
  slot_ge : ∀ m j e, s.space.slotOf m = some j → t.centerRow[j]? = some e →
    s.isDeletable j = false → e.cost ≤ s.space.distOf m
  /-- A node with a distance has been queued. -/
  reached : ∀ v, s.space.distOf v < Weight.faraway → s.space.Waits v ∨ s.space.Removed v
  /-- The distances of nodes that were taken out are below those of nodes that wait. -/
  settled_le : ∀ v, s.space.Removed v → s.space.distOf v ≤ x
  le_waiting : ∀ v, s.space.Waits v → x ≤ s.space.distOf v
  /-- An arc that was scanned leads no farther than its cost, or beyond the radius. -/
  closed : ∀ v, s.space.Removed v → ∀ e ∈ t.rows.row v, e.head ≠ t.center → ¬ due v e →
    s.space.distOf e.head ≤ s.space.distOf v + e.cost ∨ t.radius < s.space.distOf v + e.cost
  /-- A base other than the node itself was taken out. -/
  based : ∀ v b, s.space.baseOf v = some b → b = v ∨ s.space.Removed b
  counted : Counted t s
  removals : AtLeast n fun v => v < t.rows.nodeCount ∧ s.space.Removed v

/-! ### The start -/

/-- What else holds while arcs are started at. -/
structure Starting (t : StarSearch ℚ) (s : State ℚ) : Prop where
  measured : s.space.Measured
  blank : ∀ v, s.space.slotOf v = none → s.space.distOf v = Weight.faraway
  based : ∀ v b, s.space.baseOf v = some b → b = v
  counted : Counted t s

theorem starting_start {w : StarSpace ℚ} (hw : w.Ready) : Starting t (t.start w) where
  measured := (hw.setScanned 0).measured
  blank v _ := (hw.setScanned 0).distOf_eq v
  based v b hb := by
    have hnone := (hw.setScanned 0).baseOf_eq v
    rw [show (t.start w).space.baseOf v = none from hnone] at hb
    cases hb
  counted := counted_start t w

theorem Starting.seed {le : ℚ → ℚ → Prop} {e : RowEntry ℚ} (h : Starting t s)
    (hs : Seeding t le n s) (ht : t.Integral) (he : t.centerRow[n]? = some e)
    (hs' : Seeded t s e n s') : Starting t s' := by
  have hmeasured := measured_seed h.measured hs ht he hs'
  have hcounted := counted_seed h.counted hs he hs'
  have hm : e.head < s.space.capacity := lt_of_lt_of_le (head_ok ht.wellFormed he).2 hs.room
  -- the nodes without a slot are left as they are
  have hblank : ∀ {w : StarSpace ℚ}, s.space.Placed e.head n e.cost w → ∀ v, w.slotOf v = none →
      w.distOf v = Weight.faraway := by
    intro w hw v hv
    have hne : v ≠ e.head := by
      rintro rfl
      rw [hw.slot_self] at hv
      cases hv
    rw [hw.dist_ne v hne]
    exact h.blank v ((hw.slot_ne v hne).symm.trans hv)
  cases hs' with
  | first _ hw =>
    subst hw
    have hplaced := StarSpace.placed_label (i := n) (d := e.cost) (b := e.head) (p := t.center)
      hs.sized hm
    refine ⟨hmeasured, fun v hv => hblank hplaced v hv, fun v b hb => ?_, hcounted⟩
    by_cases hv : v = e.head
    · have hself : (s.space.label e.head e.cost e.head t.center).baseOf e.head = some e.head :=
        StarSpace.baseOf_label_self hs.sized hm
      rw [hv] at hb ⊢
      exact (Option.some.inj (hself.symm.trans hb)).symm
    · refine h.based v b (Eq.trans ?_ hb)
      exact (StarSpace.baseOf_label_of_ne (d := e.cost) (b := e.head) (p := t.center) hv).symm
  | keep _ _ => exact ⟨hmeasured, h.blank, h.based, hcounted⟩
  | replace _ _ hw =>
    subst hw
    have hplaced := StarSpace.placed_setDist (i := n) (d := e.cost) hs.sized hm
    exact ⟨hmeasured, fun v hv => hblank hplaced v hv, h.based, hcounted⟩

/-- Among whole costs the arc that is kept is the cheapest. -/
theorem Integral.ranks (ht : t.Integral) : Ranks t (· ≤ ·) where
  keep y hy z hz h :=
    (Weight.atMost_iff ((ht.cost _ y hy).apart (ht.cost _ z hz))).mp h
  replace y hy z hz h := by
    rw [← Bool.not_eq_true, Weight.atMost_iff ((ht.cost _ y hy).apart (ht.cost _ z hz)),
      not_le] at h
    exact h.le
  trans _ _ _ := le_trans

/-- The invariant after the start, when nothing has been taken out. -/
theorem searching_seeded (ht : t.Integral) {w : StarSpace ℚ} (hw : w.Ready)
    (hroom : t.rows.nodeCount ≤ w.capacity) :
    Searching t (fun _ _ => False) 0 0 (t.seeded w) := by
  obtain ⟨hs, h⟩ := seeding_ensures (P := Starting t) ht.ranks ht.wellFormed hw hroom
    (starting_start hw) fun n s e s' hs he hs' h => h.seed hs ht he hs'
  exact {
    toTables := hs.toTables
    measured := h.measured
    seeded := fun i e he => hs.seeded i e (lt_length_of_getElem? he) he
    slot_le := fun m j e hj he => (hs.slot_cost m j e hj he).2.1.le
    slot_ge := fun m j e hj he _ => (hs.slot_cost m j e hj he).2.1.ge
    reached := fun v hv => by
      left
      rw [hs.slot_waits, ← Option.ne_none_iff_exists']
      exact fun hnone => absurd (h.blank v hnone) hv.ne
    settled_le := fun v hv => absurd hv (hs.removed v)
    le_waiting := fun v _ => (h.measured.whole v).nonneg
    closed := fun v hv => absurd hv (hs.removed v)
    based := fun v b hb => Or.inl (h.based v b hb)
    counted := h.counted
    removals := AtLeast.zero }

/-! ### A node is taken out -/

/-- The counters are not part of what holds. -/
theorem Searching.count (h : Searching t due x n s) : Searching t due x n s.count :=
  ⟨h.toTables.recount _ _, h.measured, h.seeded, h.slot_le, h.slot_ge, h.reached, h.settled_le,
    h.le_waiting, h.closed, h.based, h.counted, h.removals⟩

/-- The node that is taken out is the farthest one so far, and its row is due. -/
theorem Searching.take (h : Searching t (fun _ _ => False) x n s) {top : KeyedNode ℚ}
    {r : KeyedQueue ℚ} (hpop : s.space.queue.popMin? = some (top, r)) :
    Searching t (fun v _ => v = top.node) top.key (n + 1) (take top r s) ∧
      (StarSearch.take top r s).space.Removed top.node ∧
      (StarSearch.take top r s).space.distOf top.node = top.key := by
  obtain ⟨htables, hdequeued⟩ := h.toTables.take hpop
  obtain ⟨hmeasured, hkey, hleast⟩ := h.measured.popMin? hpop
  have hcounted := counted_take h.counted h.toTables hpop
  have hspace := space_take top r s
  have hopen := isDeletable_take top r s
  generalize StarSearch.take top r s = s' at htables hdequeued hcounted hspace hopen ⊢
  have hdist := hdequeued.dist
  have hfloor : x ≤ top.key := hkey ▸ h.le_waiting _ hdequeued.waited
  have hmono : ∀ {v}, s.space.Removed v → s'.space.Removed v := fun hv =>
    (hdequeued.removed _).mpr (Or.inl hv)
  have htop : s'.space.Removed top.node := (hdequeued.removed _).mpr (Or.inr rfl)
  refine ⟨?_, htop, (hdist _).trans hkey.symm⟩
  exact {
    toTables := htables
    measured := hspace ▸ hmeasured
    seeded := fun i e he => (h.seeded i e he).mono (hdequeued.slot _) (hopen i).trans
    slot_le := fun m j e hj he => by
      rw [hdist]
      exact h.slot_le m j e ((hdequeued.slot m).symm.trans hj) he
    slot_ge := fun m j e hj he hdel => by
      rw [hdist]
      exact h.slot_ge m j e ((hdequeued.slot m).symm.trans hj) he ((hopen j).symm.trans hdel)
    reached := fun v hv => by
      rw [hdequeued.waits, hdequeued.removed]
      rw [hdist] at hv
      by_cases hvt : v = top.node
      · exact Or.inr (Or.inr hvt)
      · exact (h.reached v hv).imp (fun hw => ⟨hw, hvt⟩) Or.inl
    settled_le := fun v hv => by
      rw [hdist]
      rcases (hdequeued.removed v).mp hv with hv | rfl
      · exact (h.settled_le v hv).trans hfloor
      · exact hkey.ge
    le_waiting := fun v hv => by
      rw [hdist, hkey]
      exact hleast v ((hdequeued.waits v).mp hv).1
    closed := fun v hv e he hc hnot => by
      rw [hdist, hdist]
      exact h.closed v (((hdequeued.removed v).mp hv).resolve_right hnot) e he hc id
    based := fun v b hb => by
      rw [hdequeued.base] at hb
      exact (h.based v b hb).imp_right hmono
    counted := hcounted
    removals := h.removals.succ (fun v hv => ⟨hv.1, hmono hv.2⟩) 
      (fun hv => hdequeued.not_removed h.consistent hv.2)
      ⟨(h.waiting _ hdequeued.waited).2, htop⟩ }

/-! ### An arc to an open node -/

/-- After the report an arc that is not reported is shorter than the path. -/
theorem Searching.report (h : Searching t due x n s) (ht : t.Integral) {base? : Option Nat}
    {m : Nat} (hbase : base? ≠ some m) (hopen : ¬ s.space.Removed m) {d : ℚ}
    (hd : Weight.IsWhole d) (hs' : Reported t base? m d s s') :
    Searching t due x n s' ∧ ∀ j e, s'.space.slotOf m = some j → t.centerRow[j]? = some e →
      s'.isDeletable j = false → e.cost < d := by
  have hcounted := h.counted.report h.toTables hopen hs'
  cases hs' with
  | skip hskip =>
    refine ⟨h, fun j e hj he hdel => ?_⟩
    rcases hskip j e hj he with heq | hflag | hlt
    · exact absurd heq hbase
    · rw [hdel] at hflag
      cases hflag
    · rwa [← Bool.not_eq_true, Weight.atMost_iff (hd.apart (ht.cost _ e (mem_centerRow he))),
        not_le] at hlt
  | @delete i e hslot he _ _ _ =>
    have hi := lt_length_of_getElem? he
    have hsize : i < s.deletable.size := by rwa [h.flags]
    refine ⟨⟨h.toTables.delete hi, h.measured, fun j y hy => ?_, h.slot_le,
      fun v j y hj hy hdel => ?_, h.reached, h.settled_le, h.le_waiting, h.closed, h.based,
      hcounted, h.removals⟩, fun j y hj hy hdel => ?_⟩
    · exact (h.seeded j y hy).mono rfl fun hdel => (isDeletable_delete hsize).mpr (Or.inl hdel)
    · exact h.slot_ge v j y hj hy ((isDeletable_delete_eq_false hsize).mp hdel).1
    · have hji : j = i := Option.some.inj (hj.symm.trans hslot)
      exact absurd hji ((isDeletable_delete_eq_false hsize).mp hdel).2

/-- An open node is labeled with a shorter path, which is longer than an arc to the node that is
not reported. -/
theorem Searching.label (h : Searching t due x n s) {m b : Nat} {d : ℚ} {w : StarSpace ℚ}
    (htables : Tables t { s with space := w }) (hmeasured : w.Measured)
    (hw : s.space.Labeled m d b w) (hopen : ¬ s.space.Removed m) (hlt : d < s.space.distOf m)
    (hx : x ≤ d)
    (hslot : ∀ j e, s.space.slotOf m = some j → t.centerRow[j]? = some e →
      s.isDeletable j = false → e.cost < d) (hb : s.space.Removed b) :
    Searching t due x n { s with space := w } := by
  have hne : ∀ {v}, s.space.Removed v → v ≠ m := fun hv heq => hopen (heq ▸ hv)
  have hle : ∀ v, w.distOf v ≤ s.space.distOf v := fun v => by
    by_cases hv : v = m
    · rw [hv, hw.dist_self]
      exact hlt.le
    · exact (hw.dist_ne v hv).le
  exact {
    toTables := htables
    measured := hmeasured
    seeded := fun i e he => (h.seeded i e he).mono (hw.slot _) id
    slot_le := fun v j e hj he => (hle v).trans (h.slot_le v j e ((hw.slot v).symm.trans hj) he)
    slot_ge := fun v j e hj he hdel => by
      have hj := (hw.slot v).symm.trans hj
      change e.cost ≤ w.distOf v
      by_cases hv : v = m
      · rw [hv, hw.dist_self]
        exact (hslot j e (hv ▸ hj) he hdel).le
      · rw [hw.dist_ne v hv]
        exact h.slot_ge v j e hj he hdel
    reached := fun v hv => by
      change w.Waits v ∨ w.Removed v
      rw [hw.waits, hw.removed]
      by_cases hvm : v = m
      · exact Or.inl (Or.inr hvm)
      · exact (h.reached v ((hw.dist_ne v hvm).symm.trans_lt hv)).imp_left Or.inl
    settled_le := fun v hv => (hle v).trans (h.settled_le v ((hw.removed v).mp hv))
    le_waiting := fun v hv => by
      change x ≤ w.distOf v
      by_cases hvm : v = m
      · rwa [hvm, hw.dist_self]
      · rw [hw.dist_ne v hvm]
        exact h.le_waiting v (((hw.waits v).mp hv).resolve_right hvm)
    closed := fun v hv e he hc hnot => by
      have hv := (hw.removed v).mp hv
      change w.distOf e.head ≤ w.distOf v + e.cost ∨ t.radius < w.distOf v + e.cost
      rw [hw.dist_ne v (hne hv)]
      exact (h.closed v hv e he hc hnot).imp_left (hle _).trans
    based := fun v b' hb' => by
      change w.baseOf v = some b' at hb'
      by_cases hvm : v = m
      · rw [hvm, hw.base_self] at hb'
        exact Or.inr ((hw.removed b').mpr (Option.some.inj hb' ▸ hb))
      · rw [hw.base_ne v hvm] at hb'
        exact (h.based v b' hb').imp_right (hw.removed b').mpr
    counted := h.counted.setSpace hw.slot fun v hv => (hw.removed v).mpr hv
    removals := h.removals.mono fun v hv => ⟨hv.1, (hw.removed v).mpr hv.2⟩ }

/-- A path over `k` to an open node, which is longer than an arc to the node that is not
reported. -/
theorem Searching.improve (h : Searching t due x n s) {m : Nat}
    (hm : m ≠ t.center ∧ m < t.rows.nodeCount) (hopen : ¬ s.space.Removed m) {d : ℚ}
    (hd : Weight.IsWhole d) (hx : x ≤ d)
    (hslot : ∀ j e, s.space.slotOf m = some j → t.centerRow[j]? = some e →
      s.isDeletable j = false → e.cost < d) {k : Nat} (hk : s.space.Removed k)
    {base? : Option Nat} (hbase : ∀ b, base? = some b → s.space.Removed b) {w : StarSpace ℚ}
    (hw : Improved k base? m d s.space w) :
    Searching t due x n { s with space := w } ∧ w.distOf m ≤ d ∧
      ∀ v, s.space.Removed v → w.Removed v ∧ w.distOf v = s.space.distOf v := by
  have hmeasured := h.measured.improve (lt_of_lt_of_le hm.2 h.room) hd hw
  have hapart := hd.apart (h.measured.whole m)
  cases hw with
  | skip hnot =>
    refine ⟨h, ?_, fun v hv => ⟨hv, rfl⟩⟩
    rwa [← Bool.not_eq_true, Weight.below_iff hapart, not_lt] at hnot
  | label hlt =>
    obtain ⟨htables, hlabeled⟩ := h.toTables.label hm hopen d (base?.getD k) k
    have hb : s.space.Removed (base?.getD k) := by
      cases base? with
      | none => exact hk
      | some b => exact hbase b rfl
    exact ⟨h.label htables hmeasured hlabeled hopen ((Weight.below_iff hapart).mp hlt) hx hslot hb,
      hlabeled.dist_self.le, fun v hv => ⟨(hlabeled.removed v).mpr hv,
        hlabeled.dist_ne v fun heq => hopen (heq ▸ hv)⟩⟩

/-! ### Scans -/

/-- An arc is no longer due once it leads no farther than its cost, or beyond the radius. -/
theorem Searching.close (h : Searching t due x n s) {k : Nat} {e : RowEntry ℚ}
    (he : e.head ≠ t.center → s.space.distOf e.head ≤ s.space.distOf k + e.cost ∨
      t.radius < s.space.distOf k + e.cost)
    (hdue : ∀ v y, due v y → due' v y ∨ v = k ∧ y = e) : Searching t due' x n s :=
  { h with
    closed := fun v hv y hy hc hnot => by
      by_cases hvy : v = k ∧ y = e
      · obtain ⟨rfl, rfl⟩ := hvy
        exact he hc
      · exact h.closed v hv y hy hc fun hd => (hdue v y hd).elim hnot hvy }

/-- The scan of the row of `k`, which was taken out at the distance `x`, has got past `done`. -/
structure Spreading (t : StarSearch ℚ) (k : Nat) (x : ℚ) (n : Nat) (base? : Option Nat)
    (done : List (RowEntry ℚ)) (s : State ℚ) : Prop where
  searching : Searching t (fun v e => v = k ∧ e ∉ done) x n s
  settled : s.space.Removed k
  dist : s.space.distOf k = x
  base : ∀ b, base? = some b → s.space.Removed b

/-- At first the whole row is due. -/
theorem Searching.spreading {k : Nat} (h : Searching t (fun v _ => v = k) x n s)
    (hk : s.space.Removed k) (hdist : s.space.distOf k = x) {base? : Option Nat}
    (hbase : s.space.baseOf k = base?) : Spreading t k x n base? [] s where
  searching := { h with
    closed := fun v hv e he hc hnot => h.closed v hv e he hc fun hvk =>
      hnot ⟨hvk, List.not_mem_nil⟩ }
  settled := hk
  dist := hdist
  base b hb := by
    rcases h.based k b (hbase.trans hb) with rfl | hrem
    · exact hk
    · exact hrem

/-- The next arc of the row is not due any more. -/
theorem Spreading.advance {k : Nat} {base? : Option Nat} {done : List (RowEntry ℚ)}
    {e : RowEntry ℚ} (h : Spreading t k x n base? done s)
    (he : e.head ≠ t.center → s.space.distOf e.head ≤ x + e.cost ∨ t.radius < x + e.cost) :
    Spreading t k x n base? (done ++ [e]) s := by
  refine ⟨h.searching.close (e := e) (by rwa [h.dist]) fun v y hd => ?_, h.settled, h.dist, h.base⟩
  by_cases hye : y = e
  · exact Or.inr ⟨hd.1, hye⟩
  · refine Or.inl ⟨hd.1, fun hmem => ?_⟩
    rcases List.mem_append.mp hmem with hmem | hmem
    · exact hd.2 hmem
    · exact hye (List.mem_singleton.mp hmem)

/-- A path over the next arc reaches an open node. -/
theorem Spreading.meet {k : Nat} {base? : Option Nat} {done : List (RowEntry ℚ)}
    (h : Spreading t k x n base? done s) (ht : t.Integral) {m : Nat}
    (hm : m ≠ t.center ∧ m < t.rows.nodeCount) (hopen : ¬ s.space.Removed m) {d : ℚ}
    (hd : Weight.IsWhole d) (hx : x ≤ d) (hs' : Reported t base? m d s s') {w : StarSpace ℚ}
    (hw : Improved k base? m d s'.space w) :
    Spreading t k x n base? done { s' with space := w } ∧ w.distOf m ≤ d := by
  have hspace := hs'.space_eq
  have hbase : base? ≠ some m := fun heq => hopen (h.base m heq)
  obtain ⟨hreported, hslot⟩ := h.searching.report ht hbase hopen hd hs'
  have hnext : Spreading t k x n base? done s' :=
    ⟨hreported, hspace ▸ h.settled, hspace ▸ h.dist, hspace ▸ h.base⟩
  obtain ⟨himproved, hnear, hkept⟩ := hreported.improve hm (hspace ▸ hopen) hd hx hslot
    hnext.settled hnext.base hw
  obtain ⟨hsettled, hdist⟩ := hkept k hnext.settled
  exact ⟨⟨himproved, hsettled, hdist.trans hnext.dist, fun b hb =>
    (hkept b (hnext.base b hb)).1⟩, hnear⟩

theorem Spreading.scan {k : Nat} {base? came? : Option Nat} {done : List (RowEntry ℚ)}
    {e : RowEntry ℚ} {o : Except (Halt (State ℚ)) (State ℚ)}
    (h : Spreading t k x n base? done s) (ht : t.Integral) (he : e ∈ t.rows.row k)
    (ho : Scanned t k x base? came? s e o) :
    (∃ s', o = .ok s' ∧ Spreading t k x n base? (done ++ [e]) s') ∨
      ∃ s', o = .error (.overBudget s') ∧ t.arcLimit < s'.scanned := by
  have hx : Weight.IsWhole x := h.dist ▸ h.searching.measured.whole k
  have hcost := (ht.cost k e he).nonneg
  obtain ⟨hwhole, hge, hle⟩ := ht.lengthOver he hx came?
  have hcount : Spreading t k x n base? done s.count :=
    ⟨h.searching.count, h.settled, h.dist, h.base⟩
  cases ho with
  | exceeds hlimit => exact Or.inr ⟨_, rfl, hlimit⟩
  | skips hskip =>
    refine Or.inl ⟨s, rfl, h.advance fun hc => ?_⟩
    -- the head was taken out, and so no later than `k`
    have hsettled := h.searching.settled_le _ (hskip.resolve_left hc)
    exact Or.inl (by linarith)
  | passes _ _ hfar =>
    refine Or.inl ⟨_, rfl, hcount.advance fun _ => ?_⟩
    rw [Weight.above_rat] at hfar
    have htol := Weight.tolerance_pos
    exact Or.inr (by linarith)
  | meets hc hopen _ =>
    obtain ⟨hmet, hnear⟩ := hcount.meet ht ⟨hc, ht.wellFormed.head_lt k e he⟩ hopen hwhole hge
      (report_cases ..) (improve_cases ..)
    exact Or.inl ⟨_, rfl, hmet.advance fun _ => Or.inl (hnear.trans hle)⟩

/-- After the scan of a whole row nothing is due. -/
theorem Spreading.searching_of_all {k : Nat} {base? : Option Nat}
    (h : Spreading t k x n base? (t.rows.row k) s) : Searching t (fun _ _ => False) x n s :=
  { h.searching with
    closed := fun v hv e he hc _ => h.searching.closed v hv e he hc fun ⟨hvk, hnot⟩ =>
      hnot (hvk ▸ he) }

end StarSearch

end SteinerSearch
