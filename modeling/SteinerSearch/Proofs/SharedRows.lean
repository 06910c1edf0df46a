import Mathlib.Logic.Function.Basic
import SteinerSearch.Proofs.Reuse.Traces

/-!
# Lists that share a buffer

The bounded lists of all nodes live in one buffer, a row for each node, and a list that is
given up leaves its ids behind in its row.  None of this shows: whatever is done to the
lists, each of them is what it would be if the lists were kept apart, and a change to the
list of a node stays in the row of this node.

## Main definitions

* `BoundedList bound` — a list of at most `bound` ids, or a saturated one, kept by itself.
* `TraceLists.Edit n` — a change to one of the lists of `n` nodes.
* `TraceLists.Edit.perform`, `TraceLists.Edit.performApart` — what it does to rows of one
  buffer, and to lists that are kept apart.
* `TraceLists.Guarded.push`, `TraceLists.Guarded.copy`, `TraceLists.Guarded.get?` — the
  operations with a check before every entry that is read or written.
* `TraceLists.Shows l lists` — the rows of `l` show these lists.
* `TraceLists.KeepsTo v l l'` — between `l` and `l'` only the row of `v` was written to.

## Main results

* `TraceLists.Shows.apply` — a change does the same to rows and to lists kept apart.
* `TraceLists.Edit.guarded_eq` — no check fails.
* `TraceLists.Edit.keepsTo_apply` — a change stays in its row.
* `TraceLists.edits_independent` — all of this after any number of changes.
-/

namespace SteinerSearch

open Function (update)

/-! ### Lists kept apart -/

/-- A list of at most `bound` ids, or one that has outgrown its bound. -/
inductive BoundedList (bound : Nat) where
  /-- The ids, in the order in which they came. -/
  | holding (ids : List Nat) (fits : ids.length ≤ bound)
  /-- The ids are given up. -/
  | saturated

namespace BoundedList

variable {bound : Nat}

/-- The list without ids. -/
def nil : BoundedList bound := .holding [] (Nat.zero_le bound)

/-- Appends `id`, or saturates the list if it has `bound` ids. -/
def push (b : BoundedList bound) (id : Nat) : BoundedList bound :=
  match b with
  | .holding ids _ =>
      if room : ids.length < bound then
        .holding (ids ++ [id]) (by rw [List.length_append]; exact room)
      else .saturated
  | .saturated => .saturated

/-- Takes over another list, unless this one is saturated. -/
def replace (b source : BoundedList bound) : BoundedList bound :=
  match b with
  | .holding .. => source
  | .saturated => .saturated

/-- The ids, or `none` for a saturated list. -/
def ids? : BoundedList bound → Option (List Nat)
  | .holding ids _ => some ids
  | .saturated => none

/-- How much of a row the list takes up. -/
def fill : BoundedList bound → Fill
  | .holding ids _ => .holding ids.length
  | .saturated => .saturated

/-- Whether `id` may be in the list; a saturated list may contain anything. -/
def mayContain : BoundedList bound → Nat → Bool
  | .holding ids _, id => ids.contains id
  | .saturated, _ => true

@[simp] theorem ids?_nil : (nil : BoundedList bound).ids? = some [] := rfl

theorem ids?_push (b : BoundedList bound) (id : Nat) :
    (b.push id).ids? =
      b.ids?.bind fun ids => if ids.length < bound then some (ids ++ [id]) else none := by
  cases b with
  | saturated => rfl
  | holding ids fits => by_cases room : ids.length < bound <;> simp [push, ids?, room]

theorem ids?_replace (b source : BoundedList bound) :
    (b.replace source).ids? = b.ids?.bind fun _ => source.ids? := by
  cases b with
  | saturated => rfl
  | holding ids fits => rfl

end BoundedList

namespace TraceLists

/-! ### Operations with checks -/

/-- Passes if position `p` is in the row of `v`, and there is an entry for it. -/
def checkEntry (l : TraceLists) (v p : Nat) : Option Unit :=
  if v * l.capacity ≤ p ∧ p < (v + 1) * l.capacity ∧ p < l.ids.size then some () else none

namespace Guarded

/-- Entry `i` of the row of `v`, with a check. -/
def read (l : TraceLists) (v i : Nat) : Option Nat := do
  checkEntry l v (l.position v i)
  return l.entry v i

/-- `TraceLists.write` with a check. -/
def write (l : TraceLists) (v i id : Nat) : Option TraceLists := do
  checkEntry l v (l.position v i)
  return l.write v i id

/-- `TraceLists.get?` with checks. -/
def get? (l : TraceLists) (v : Nat) : Option (Option (List Nat)) :=
  match l.fillOf v with
  | .holding count => do return some (← (List.range count).mapM (read l v))
  | .saturated => return none

/-- `TraceLists.push` with a check. -/
def push (l : TraceLists) (v id : Nat) : Option TraceLists :=
  match l.fillOf v with
  | .holding count =>
      if count < l.capacity then do
        return (← write l v count id).setFill v (.holding (count + 1))
      else return l.setFill v .saturated
  | .saturated => return l

/-- One entry is copied, with checks. -/
def copyEntry (source target : Nat) (l : TraceLists) (i : Nat) : Option TraceLists := do
  write l target i (← read l source i)

/-- `TraceLists.copy` with checks. -/
def copy (l : TraceLists) (source target : Nat) : Option TraceLists :=
  match l.fillOf target, l.fillOf source with
  | .saturated, _ => return l
  | .holding _, .saturated => return l.setFill target .saturated
  | .holding _, .holding count => do
      return (← (List.range count).foldlM (copyEntry source target) l).setFill target
        (.holding count)

variable {l : TraceLists} {n v : Nat}

theorem checkEntry_of_lt (hl : l.Sized n) (hv : v < n) {i : Nat} (hi : i < l.capacity) :
    checkEntry l v (l.position v i) = some () := by
  refine if_pos ⟨Nat.le_add_right _ _, ?_, position_lt hl hv hi⟩
  rw [position, Nat.succ_mul]
  omega

theorem read_eq (hl : l.Sized n) (hv : v < n) {i : Nat} (hi : i < l.capacity) :
    read l v i = some (l.entry v i) := by
  simp [read, checkEntry_of_lt hl hv hi]

theorem write_eq (hl : l.Sized n) (hv : v < n) {i : Nat} (hi : i < l.capacity) (id : Nat) :
    write l v i id = some (l.write v i id) := by
  simp [write, checkEntry_of_lt hl hv hi]

/-- Reading a list stays in its row. -/
theorem get?_eq (hl : l.WellFormed n) (hv : v < n) : get? l v = some (l.get? v) := by
  unfold get?
  cases hfill : l.fillOf v with
  | saturated =>
    rw [get?_of_saturated hfill]
    rfl
  | holding count =>
    have hread : ∀ is : List Nat, (∀ i ∈ is, i < l.capacity) →
        is.mapM (read l v) = some (is.map (l.entry v)) := by
      intro is
      induction is with
      | nil => exact fun _ => rfl
      | cons i is ih =>
        intro his
        simp [read_eq hl.toSized hv (his i List.mem_cons_self),
          ih fun j hj => his j (List.mem_cons_of_mem i hj)]
    have hcount := hl.bounded v count hfill
    rw [get?_of_holding hfill]
    show ((List.range count).mapM (read l v)).bind _ = _
    rw [hread _ fun i hi => Nat.lt_of_lt_of_le (List.mem_range.mp hi) hcount]
    rfl

theorem push_eq (hl : l.Sized n) (hv : v < n) (id : Nat) : push l v id = some (l.push v id) := by
  unfold push TraceLists.push
  cases l.fillOf v with
  | saturated => rfl
  | holding count =>
    by_cases hlt : count < l.capacity
    · simp [hlt, write_eq hl hv hlt]
    · simp [hlt]

theorem copy_eq {source target : Nat} (hl : l.WellFormed n) (hs : source < n) (ht : target < n) :
    copy l source target = some (l.copy source target) := by
  unfold copy TraceLists.copy
  cases l.fillOf target with
  | saturated => rfl
  | holding c =>
    cases hfs : l.fillOf source with
    | saturated => rfl
    | holding count =>
      -- the buffer keeps its size while it is written to
      have hcopied : ∀ is : List Nat, ∀ l' : TraceLists, l'.Sized n →
          (∀ i ∈ is, i < l'.capacity) → is.foldlM (copyEntry source target) l' =
            some (is.foldl (fun l i => l.write target i (l.entry source i)) l') := by
        intro is
        induction is with
        | nil => exact fun _ _ _ => rfl
        | cons i is ih =>
          intro l' hl' his
          have hi := his i List.mem_cons_self
          have hrest := ih _ (hl'.write target i (l'.entry source i)) fun j hj =>
            his j (List.mem_cons_of_mem i hj)
          simp only [List.foldlM_cons, List.foldl_cons, copyEntry, read_eq hl' hs hi,
            Option.bind_eq_bind, Option.bind_some, write_eq hl' ht hi]
          exact hrest
      have hcount := hl.bounded source count hfs
      have hall : ∀ i ∈ List.range count, i < l.capacity := fun i hi =>
        Nat.lt_of_lt_of_le (List.mem_range.mp hi) hcount
      show ((List.range count).foldlM (copyEntry source target) l).bind _ = _
      rw [hcopied _ l hl.toSized hall]
      rfl

end Guarded

/-! ### Changes -/

/-- A change to one of the lists of `n` nodes. -/
inductive Edit (n : Nat) where
  /-- An id is appended to the list of `v`. -/
  | push (v : Fin n) (id : Nat)
  /-- The list of `target` is replaced by that of another node. -/
  | copy (source target : Fin n) (distinct : source ≠ target)
  /-- The list of `v` is given up. -/
  | saturate (v : Fin n)
  /-- The list of `v` is emptied. -/
  | clear (v : Fin n)

namespace Edit

variable {n bound : Nat}

/-- The node whose list is changed. -/
def target : Edit n → Fin n
  | .push v _ | .saturate v | .clear v => v
  | .copy _ target _ => target

/-- The change as it is asked for, by a caller who names nodes by their numbers. -/
def perform (l : TraceLists) : Edit n → Except Fault TraceLists
  | .push v id => l.withNode v (·.push v id)
  | .copy source target _ => l.copy? source target
  | .saturate v => l.withNode v (·.saturate v)
  | .clear v => l.withNode v (·.clear v)

/-- The change to rows of one buffer. -/
def apply (l : TraceLists) : Edit n → TraceLists
  | .push v id => l.push v id
  | .copy source target _ => l.copy source target
  | .saturate v => l.saturate v
  | .clear v => l.clear v

/-- The change to rows of one buffer, with checks. -/
def guarded (l : TraceLists) : Edit n → Option TraceLists
  | .push v id => Guarded.push l v id
  | .copy source target _ => Guarded.copy l source target
  | .saturate v => some (l.saturate v)
  | .clear v => some (l.clear v)

/-- The change to lists that are kept apart. -/
def performApart (lists : Fin n → BoundedList bound) : Edit n → Fin n → BoundedList bound
  | .push v id => update lists v ((lists v).push id)
  | .copy source target _ => update lists target ((lists target).replace (lists source))
  | .saturate v => update lists v .saturated
  | .clear v => update lists v .nil

variable {l : TraceLists}

/-- Nodes that have rows are not refused. -/
theorem perform_eq (hl : l.Sized n) (e : Edit n) : e.perform l = .ok (e.apply l) := by
  have hcheck : ∀ v : Fin n, checkNode l.size v = .ok () := fun v =>
    if_pos (Nat.lt_of_lt_of_eq v.isLt hl.fill.symm)
  cases e with
  | push v id => simp [perform, apply, withNode, hcheck, ok_bind, pure, Except.pure]
  | copy source target distinct =>
    simp [perform, apply, copy?, hcheck, ok_bind, pure, Except.pure]
  | saturate v => simp [perform, apply, withNode, hcheck, ok_bind, pure, Except.pure]
  | clear v => simp [perform, apply, withNode, hcheck, ok_bind, pure, Except.pure]

/-- What is read and written is in the rows that the change speaks of. -/
theorem guarded_eq (hl : l.WellFormed n) (e : Edit n) : e.guarded l = some (e.apply l) := by
  cases e with
  | push v id => exact Guarded.push_eq hl.toSized v.isLt id
  | copy source target distinct => exact Guarded.copy_eq hl source.isLt target.isLt
  | saturate v => rfl
  | clear v => rfl

end Edit

/-! ### What a change leaves alone -/

/-- Between `l` and `l'` nothing changed but the row of `v`. -/
structure KeepsTo (v : Nat) (l l' : TraceLists) : Prop where
  /-- All other lists are what they were. -/
  get? : ∀ u, u ≠ v → l'.get? u = l.get? u
  /-- What is in the buffer before the row of `v` and after it is what it was. -/
  entries : ∀ p, p < v * l.capacity ∨ (v + 1) * l.capacity ≤ p → l'.ids[p]? = l.ids[p]?

section Entries

variable {l : TraceLists} {n v p : Nat}

theorem getElem?_write {i : Nat} (hi : i < l.capacity)
    (hp : p < v * l.capacity ∨ (v + 1) * l.capacity ≤ p) (id : Nat) :
    (l.write v i id).ids[p]? = l.ids[p]? := by
  have hne : l.position v i ≠ p := by
    intro h
    rw [position] at h
    rw [Nat.succ_mul] at hp
    omega
  exact Array.getElem?_setIfInBounds_ne hne

theorem getElem?_push (hp : p < v * l.capacity ∨ (v + 1) * l.capacity ≤ p) (id : Nat) :
    (l.push v id).ids[p]? = l.ids[p]? := by
  unfold push
  cases l.fillOf v with
  | saturated => rfl
  | holding count =>
    by_cases hlt : count < l.capacity
    · simp only [hlt, if_true]
      exact getElem?_write hlt hp id
    · simp [hlt, setFill]

theorem getElem?_copied {source count : Nat} (hcount : count ≤ l.capacity)
    (hp : p < v * l.capacity ∨ (v + 1) * l.capacity ≤ p) :
    (l.copied source v count).ids[p]? = l.ids[p]? := by
  have h := foldl_ensures
    (f := fun l i => TraceLists.write l v i (l.ids.getD (l.position source i) 0))
    (J := fun _ l' => l'.capacity = l.capacity ∧ l'.ids[p]? = l.ids[p]?)
    (List.range count) ?_ (s := l) ⟨rfl, rfl⟩
  · exact h.2
  -- rows keep their length on the way, so each position that is written to is in the row of `v`
  · intro done i l' hi ⟨hcapacity, hsame⟩
    have hic := Nat.lt_of_lt_of_le (List.mem_range.mp (mem_of_appended hi)) hcount
    refine ⟨hcapacity, Eq.trans ?_ hsame⟩
    apply getElem?_write
    · rwa [hcapacity]
    · rwa [hcapacity]

theorem getElem?_copy {source : Nat} (hl : l.WellFormed n)
    (hp : p < v * l.capacity ∨ (v + 1) * l.capacity ≤ p) :
    (l.copy source v).ids[p]? = l.ids[p]? := by
  cases hft : l.fillOf v with
  | saturated => rw [copy_to_saturated hft]
  | holding c =>
    cases hfs : l.fillOf source with
    | saturated =>
      rw [copy_of_saturated hft hfs]
      rfl
    | holding count =>
      rw [copy_of_holding hft hfs]
      exact getElem?_copied (hl.bounded source count hfs) hp

end Entries

theorem Edit.keepsTo_apply {l : TraceLists} {n : Nat} (hl : l.WellFormed n) (e : Edit n) :
    KeepsTo e.target l (e.apply l) := by
  cases e with
  | push v id => exact ⟨fun u hu => get?_push_of_ne hl hu id, fun p hp => getElem?_push hp id⟩
  | copy source target distinct =>
    have hne : source.val ≠ target.val := Fin.val_ne_of_ne distinct
    exact ⟨fun u hu => get?_copy_of_ne hl target.isLt hne hu, fun p hp => getElem?_copy hl hp⟩
  | saturate v => exact ⟨fun u hu => get?_setFill_of_ne hl hu _, fun _ _ => rfl⟩
  | clear v => exact ⟨fun u hu => get?_setFill_of_ne hl hu _, fun _ _ => rfl⟩

/-! ### Rows and lists kept apart -/

variable {n bound : Nat}

/-- The rows of `l` show these lists, and nothing else can be seen of them. -/
structure Shows (l : TraceLists) (lists : Fin n → BoundedList bound) : Prop where
  /-- The buffer is made of a row for each node. -/
  wellFormed : l.WellFormed n
  /-- Rows are as long as the lists may be. -/
  capacity : l.capacity = bound
  /-- The ids are read from the row of the node. -/
  read : ∀ v : Fin n, Guarded.get? l v = some (l.get? v)
  /-- They are the ids of the list. -/
  get? : ∀ v : Fin n, l.get? v = (lists v).ids?
  /-- The fill is that of the list. -/
  fillOf : ∀ v : Fin n, l.fillOf v = (lists v).fill
  /-- So is what the list may contain. -/
  mayContain : ∀ (v : Fin n) (id : Nat), l.mayContain v id = (lists v).mayContain id
  /-- If 16 bits hold the bound, they hold every count, and a count never runs over. -/
  narrow : bound < UInt16.size → ∀ v count, l.fillOf v = .holding count → count < UInt16.size

variable {l l' : TraceLists} {lists : Fin n → BoundedList bound}

/-- All that is known of a list can be told from its ids. -/
theorem shows_of_get? (hl : l.WellFormed n) (hcapacity : l.capacity = bound)
    (hget : ∀ v : Fin n, l.get? v = (lists v).ids?) : l.Shows lists where
  wellFormed := hl
  capacity := hcapacity
  read v := Guarded.get?_eq hl v.isLt
  get? := hget
  fillOf v := by
    rw [fillOf_eq, hget]
    cases lists v with
    | holding ids fits => rfl
    | saturated => rfl
  mayContain v id := by
    rw [TraceLists.mayContain, hget]
    cases lists v with
    | holding ids fits => rfl
    | saturated => rfl
  narrow hbound v count hcount := by
    have hle := hl.bounded v count hcount
    omega

theorem shows_empty (n bound : Nat) :
    (empty n bound).Shows fun _ : Fin n => (.nil : BoundedList bound) := by
  have hempty : ∀ v, (empty n bound).fillOf v = .holding 0 := fun v => Array.getD_replicate n v _
  refine shows_of_get? ((sized_empty n bound).wellFormed_of_empty hempty) rfl fun v => ?_
  rw [get?_of_holding (hempty v)]
  rfl

/-- One list is changed, and its row shows the new one. -/
theorem Shows.update (h : l.Shows lists) {v : Fin n} {b : BoundedList bound}
    (hl' : l'.WellFormed n) (hcapacity : l'.capacity = l.capacity) (hkeeps : KeepsTo v l l')
    (hget : l'.get? v = b.ids?) : l'.Shows (update lists v b) := by
  refine shows_of_get? hl' (hcapacity.trans h.capacity) fun u => ?_
  by_cases huv : u = v
  · rw [huv, hget, Function.update_self]
  · rw [hkeeps.get? u (Fin.val_ne_of_ne huv), h.get?, Function.update_of_ne huv]

/-- A change does the same to rows of one buffer and to lists that are kept apart. -/
theorem Shows.apply (h : l.Shows lists) (e : Edit n) :
    (e.apply l).Shows (e.performApart lists) := by
  have hl := h.wellFormed
  have hkeeps := Edit.keepsTo_apply hl e
  cases e with
  | push v id =>
    apply h.update (hl.push v.isLt id) (capacity_push id) hkeeps
    show (l.push v id).get? v = _
    rw [get?_push hl v.isLt, h.get?, h.capacity, BoundedList.ids?_push]
  | copy source target distinct =>
    have hne : source.val ≠ target.val := Fin.val_ne_of_ne distinct
    apply h.update (hl.copy target.isLt hne) (capacity_copy hl target.isLt hne) hkeeps
    show (l.copy source target).get? target = _
    rw [get?_copy hl target.isLt hne, h.get?, h.get?, BoundedList.ids?_replace]
  | saturate v =>
    apply h.update (hl.setFill v.isLt ?_) rfl hkeeps
    · exact get?_of_saturated (fillOf_setFill_self hl.toSized v.isLt _)
    · intro count hcount
      cases hcount
  | clear v =>
    apply h.update (hl.setFill v.isLt ?_) rfl hkeeps
    · show (l.clear v).get? v = _
      simp [get?_clear]
    · intro count hcount
      cases hcount
      exact Nat.zero_le _

/-- No change is refused, and what holds of one change holds of all of them. -/
theorem Shows.run (h : l.Shows lists) (edits : List (Edit n)) :
    ∃ l', edits.foldlM Edit.perform l = .ok l' ∧
      l'.Shows (edits.foldl Edit.performApart lists) := by
  induction edits generalizing l lists with
  | nil => exact ⟨l, rfl, h⟩
  | cons e edits ih =>
    obtain ⟨l', hrun, hshows⟩ := ih (h.apply e)
    refine ⟨l', ?_, hshows⟩
    rw [List.foldlM_cons, e.perform_eq h.wellFormed.toSized]
    exact hrun

/-- Lists that share a buffer are independent of each other.  After any changes to the lists
of any number of nodes, with any bound, each list is what it would be if the lists were kept
apart.  The next change is not refused, reads and writes no entry outside the rows it speaks
of, and leaves all that is not in its own row as it was. -/
theorem edits_independent (n bound : Nat) (edits : List (Edit n)) :
    ∃ l, edits.foldlM Edit.perform (empty n bound) = .ok l ∧
      l.Shows (edits.foldl Edit.performApart fun _ => (.nil : BoundedList bound)) ∧
      ∀ e : Edit n, ∃ l', e.perform l = .ok l' ∧ e.guarded l = some l' ∧
        KeepsTo e.target l l' := by
  obtain ⟨l, hrun, hshows⟩ := (shows_empty n bound).run edits
  have hl := hshows.wellFormed
  refine ⟨l, hrun, hshows, fun e => ⟨e.apply l, ?_, ?_, ?_⟩⟩
  · exact e.perform_eq hl.toSized
  · exact e.guarded_eq hl
  · exact e.keepsTo_apply hl

/-- Three lists of at most two ids.  The first is copied, emptied and begun again, and what it
held before does not show; the second is full when an id comes to what was copied into it. -/
theorem edits_independent_three :
    let edits : List (Edit 3) := [.push 0 10, .push 0 11, .copy 0 1 (by decide), .clear 0,
      .push 0 12, .push 1 13]
    ∃ l, edits.foldlM Edit.perform (empty 3 2) = .ok l ∧ l.get? 0 = some [12] ∧
      l.mayContain 0 11 = false ∧ l.fillOf 1 = .saturated ∧ l.get? 2 = some [] ∧
      ∃ l', l.copy? 0 2 = .ok l' ∧ l'.get? 0 = l.get? 0 ∧ l'.ids[1]? = l.ids[1]? := by
  intro edits
  obtain ⟨l, hrun, hshows, hnext⟩ := edits_independent 3 2 edits
  obtain ⟨l', hcopy, -, hkeeps⟩ := hnext (.copy 0 2 (by decide))
  have hrow : 1 < 2 * l.capacity := by
    rw [hshows.capacity]
    decide
  exact ⟨l, hrun, hshows.get? 0, hshows.mayContain 0 11, hshows.fillOf 1, hshows.get? 2, l',
    hcopy, hkeeps.get? 0 (by decide), hkeeps.entries 1 (Or.inl hrow)⟩

end TraceLists

end SteinerSearch
