import Mathlib.Data.List.Nodup
import Mathlib.Data.List.Perm.Subperm
import VbaRefactor.Permutation

/-!
# Permutations of places

A list of places is a permutation if it holds every place once. Items beyond the last place of a
permutation keep their places when a list is arranged by it; arranging by the inverse undoes it.
-/

namespace VbaRefactor

open List

namespace Permutation

/-- The list of old places holds every place once. -/
def Valid (p : Permutation) : Prop := isOrder p.oldPlaces p.size = true

instance (p : Permutation) : Decidable p.Valid := inferInstanceAs (Decidable (_ = _))

/-- The items in the new order, those beyond the last place behind them. -/
def arrange {α : Type} (p : Permutation) (items : List α) : List α :=
  p.apply items ++ items.drop p.size

/-- The place from which the item at a new place comes. -/
def source (p : Permutation) (new : Nat) : Nat := if new < p.size then p.oldPlace new else new

/-- The table of new places, written over zeros: each new place into the cell of its old place. -/
def written (p : Permutation) : List Nat :=
  p.oldPlaces.zipIdx.foldl (fun table entry => table.set entry.1 entry.2) (replicate p.size 0)

section

variable {α β : Type} {p : Permutation} {items : List α} {old : Nat}

/-- The places of a list are read one after another, each new and below the length of the table of
those that have been seen. -/
def seesAll (seen : List Bool) : List Nat → Bool
  | [] => true
  | place :: rest => seen[place]? == some false && seesAll (seen.set place true) rest

theorem seesAll_iff (seen : List Bool) (order : List Nat) :
    seesAll seen order = true ↔ (∀ place ∈ order, seen[place]? = some false) ∧ order.Nodup := by
  induction order generalizing seen with
  | nil => simp [seesAll]
  | cons place rest ih =>
    rw [seesAll, Bool.and_eq_true, beq_iff_eq, ih, forall_mem_cons, nodup_cons, and_assoc]
    refine and_congr_right fun hplace => ?_
    constructor
    · rintro ⟨hrest, hnodup⟩
      have hnew : place ∉ rest := by
        intro hmem
        have := hrest place hmem
        rw [getElem?_set_self' , hplace] at this
        cases this
      refine ⟨fun other hother => ?_, hnew, hnodup⟩
      have hne : place ≠ other := fun heq => hnew (heq ▸ hother)
      rw [← hrest other hother, getElem?_set_ne hne]
    · rintro ⟨hrest, hnew, hnodup⟩
      refine ⟨fun other hother => ?_, hnodup⟩
      have hne : place ≠ other := fun heq => hnew (heq ▸ hother)
      rw [getElem?_set_ne hne, hrest other hother]

/-- A list is an order if a scan with a table of seen places goes through. -/
theorem isOrder_eq_seesAll (order : List Nat) (n : Nat) :
    isOrder order n = (decide (order.length = n) && seesAll (replicate n false) order) := by
  rw [Bool.eq_iff_iff, isOrder, Bool.and_eq_true, Bool.and_eq_true, Bool.and_eq_true, seesAll_iff,
    and_assoc, all_eq_true, decide_eq_true_iff, decide_eq_true_iff (p := order.Nodup)]
  refine and_congr_right fun _ => and_congr_left fun _ => forall₂_congr fun place _ => ?_
  rw [getElem?_replicate, decide_eq_true_iff]
  split <;> simp_all

theorem Valid.lt (h : p.Valid) : ∀ old ∈ p.oldPlaces, old < p.size := by
  intro old hold
  simp only [Valid, isOrder, Bool.and_eq_true, all_eq_true, decide_eq_true_eq] at h
  exact h.1.2 old hold

theorem Valid.nodup (h : p.Valid) : p.oldPlaces.Nodup := by
  simp only [Valid, isOrder, Bool.and_eq_true, decide_eq_true_eq] at h
  exact h.2

theorem Valid.perm_range (h : p.Valid) : p.oldPlaces.Perm (List.range p.size) := by
  refine (subperm_of_subset h.nodup ?_).perm_of_length_le ?_
  · intro old hold
    exact mem_range.mpr (h.lt old hold)
  · rw [length_range]
    exact Nat.le_refl _

theorem Valid.mem (h : p.Valid) (hold : old < p.size) : old ∈ p.oldPlaces :=
  h.perm_range.mem_iff.mpr (mem_range.mpr hold)

theorem oldPlace_eq {new : Nat} (hnew : new < p.size) : p.oldPlaces[new]? = some (p.oldPlace new) := by
  rw [oldPlace, getElem?_eq_getElem hnew]
  rfl

theorem Valid.source_lt (h : p.Valid) {new n : Nat} (hn : p.size ≤ n) (hnew : new < n) :
    p.source new < n := by
  rw [source]
  split
  · rename_i hlt
    have hmem := mem_of_getElem? (oldPlace_eq hlt)
    have hold := h.lt _ hmem
    omega
  · exact hnew

/-! ## Arranged lists -/

theorem getElem?_filterMap {f : α → Option β} {xs : List α} (h : ∀ x ∈ xs, (f x).isSome = true)
    (i : Nat) : (xs.filterMap f)[i]? = xs[i]?.bind f := by
  induction xs generalizing i with
  | nil => rfl
  | cons x xs ih =>
    obtain ⟨y, hy⟩ := Option.isSome_iff_exists.mp (h x mem_cons_self)
    have ih := ih (forall_mem_cons.mp h).2
    rw [filterMap_cons_some hy]
    cases i with
    | zero => simp [hy]
    | succ i => simp [ih]

theorem Valid.length_apply (h : p.Valid) (hlen : p.size ≤ items.length) :
    (p.apply items).length = p.size := by
  rw [apply, filterMap_length_eq_length.mpr]
  · rfl
  · intro old hold
    have hlt := h.lt old hold
    rw [getElem?_eq_getElem (by omega)]
    rfl

theorem Valid.getElem?_arrange (h : p.Valid) (hlen : p.size ≤ items.length) (i : Nat) :
    (p.arrange items)[i]? = items[p.source i]? := by
  have hsome : ∀ old ∈ p.oldPlaces, (items[old]?).isSome = true := by
    intro old hold
    have hlt := h.lt old hold
    rw [getElem?_eq_getElem (by omega)]
    rfl
  have hsize := h.length_apply hlen
  rw [arrange, source]
  split
  · rename_i hlt
    rw [getElem?_append_left (by omega), apply, getElem?_filterMap hsome, oldPlace_eq hlt]
    rfl
  · rw [getElem?_append_right (by omega), hsize, getElem?_drop]
    congr 1
    omega

theorem filterMap_range_getElem? (n : Nat) (items : List α) :
    (List.range n).filterMap (fun old => items[old]?) = items.take n := by
  induction n with
  | zero => rfl
  | succ n ih =>
    rw [range_succ, filterMap_append, ih, take_add_one]
    cases hget : items[n]? <;> simp [hget]

theorem Valid.perm_arrange (h : p.Valid) (items : List α) : (p.arrange items).Perm items := by
  calc
    (p.arrange items).Perm
        ((List.range p.size).filterMap (fun old => items[old]?) ++ items.drop p.size) :=
      (h.perm_range.filterMap _).append_right _
    _ = items := by rw [filterMap_range_getElem?, take_append_drop]

theorem Valid.length_arrange (h : p.Valid) (items : List α) :
    (p.arrange items).length = items.length :=
  (h.perm_arrange items).length_eq

theorem arrange_map (p : Permutation) (f : α → β) (items : List α) :
    p.arrange (items.map f) = (p.arrange items).map f := by
  rw [arrange, arrange, map_append, map_drop, apply, apply, map_filterMap]
  congr 2
  funext old
  rw [getElem?_map]

theorem size_identity (n : Nat) : (identity n).size = n := length_range

theorem oldPlace_identity {n i : Nat} (h : i < n) : (identity n).oldPlace i = i := by
  rw [oldPlace, identity, getElem?_range h]
  rfl

theorem valid_identity (n : Nat) : (identity n).Valid := by
  rw [Valid, size_identity, isOrder]
  simp [identity, nodup_range]

theorem arrange_identity (n : Nat) (items : List α) : (identity n).arrange items = items := by
  rw [arrange, size_identity, apply, identity, filterMap_range_getElem?, take_append_drop]

/-! ## The inverse -/

theorem size_inverse (p : Permutation) : p.inverse.size = p.size := by
  simp [inverse, newPlaces, size]

theorem oldPlace_inverse (hold : old < p.size) :
    p.inverse.oldPlace old = p.oldPlaces.idxOf old := by
  rw [oldPlace, inverse, newPlaces, getElem?_map, getElem?_range hold]
  rfl

theorem Valid.oldPlace_idxOf (h : p.Valid) (hold : old < p.size) :
    p.oldPlaces.idxOf old < p.size ∧ p.oldPlace (p.oldPlaces.idxOf old) = old := by
  have hlt : p.oldPlaces.idxOf old < p.oldPlaces.length := idxOf_lt_length_of_mem (h.mem hold)
  refine ⟨hlt, ?_⟩
  rw [oldPlace, getElem?_eq_getElem hlt, getElem_idxOf]
  rfl

theorem Valid.inverse (h : p.Valid) : p.inverse.Valid := by
  have hall : ∀ new ∈ p.newPlaces, new < p.size := by
    exact forall_mem_map.mpr fun old hold => (h.oldPlace_idxOf (mem_range.mp hold)).1
  have hnodup : p.newPlaces.Nodup := by
    refine List.Nodup.map_on ?_ nodup_range
    intro a ha b hb hab
    rw [← (h.oldPlace_idxOf (mem_range.mp ha)).2, hab, (h.oldPlace_idxOf (mem_range.mp hb)).2]
  rw [Valid, size_inverse, isOrder]
  simp only [Bool.and_eq_true, all_eq_true, decide_eq_true_eq]
  exact ⟨⟨size_inverse p, hall⟩, hnodup⟩

theorem Valid.source_source_inverse (h : p.Valid) (i : Nat) : p.source (p.inverse.source i) = i := by
  by_cases hlt : i < p.size
  · obtain ⟨hnew, hold⟩ := h.oldPlace_idxOf hlt
    rw [source, source, size_inverse, if_pos hlt, oldPlace_inverse hlt, if_pos hnew, hold]
  · rw [source, source, size_inverse, if_neg hlt, if_neg hlt]

/-- Arranging by the inverse undoes an arrangement. -/
theorem Valid.arrange_inverse (h : p.Valid) (hlen : p.size ≤ items.length) :
    p.inverse.arrange (p.arrange items) = items := by
  have hlen' : p.inverse.size ≤ (p.arrange items).length := by
    rw [size_inverse, h.length_arrange]
    exact hlen
  apply ext_getElem?
  intro i
  rw [h.inverse.getElem?_arrange hlen', h.getElem?_arrange hlen, h.source_source_inverse]

theorem Valid.inverse_inverse (h : p.Valid) : p.inverse.inverse = p := by
  have hsize : p.inverse.inverse.size = p.size := by rw [size_inverse, size_inverse]
  suffices p.inverse.inverse.oldPlaces = p.oldPlaces from congrArg mk this
  refine ext_getElem?' fun i hi => ?_
  rw [← size, ← size, hsize, Nat.max_self] at hi
  have hsource := h.source_source_inverse (p.inverse.inverse.source i)
  rw [h.inverse.source_source_inverse, source, source, hsize, if_pos hi, if_pos hi] at hsource
  rw [oldPlace_eq (hsize ▸ hi), oldPlace_eq hi, hsource]

theorem Valid.newPlaces_oldPlace (h : p.Valid) {new : Nat} (hnew : new < p.size) :
    p.newPlaces[p.oldPlace new]? = some new := by
  have hplace := oldPlace_eq hnew
  have hold := h.lt _ (mem_of_getElem? hplace)
  obtain ⟨_, hget⟩ := List.getElem?_eq_some_iff.mp hplace
  rw [newPlaces, getElem?_map, getElem?_range hold, ← hget, Option.map_some, h.nodup.idxOf_getElem]

/-- On lists that have no items beyond the last place, the inverse undoes a permutation. -/
theorem Valid.apply_inverse (h : p.Valid) (hlen : items.length = p.size) :
    p.inverse.apply (p.apply items) = items := by
  have hback := h.arrange_inverse (Nat.le_of_eq hlen.symm)
  have happly := h.length_apply (Nat.le_of_eq hlen.symm)
  rwa [arrange, arrange, size_inverse, drop_eq_nil_of_le (Nat.le_of_eq hlen), append_nil,
    drop_eq_nil_of_le (Nat.le_of_eq happly), append_nil] at hback

/-- With one place or none there is only the identity. -/
theorem Valid.two_le_size (h : p.Valid) (hid : p.isIdentity = false) : 2 ≤ p.size := by
  by_contra hsmall
  have hperm := h.perm_range
  have hsame : p.oldPlaces = List.range p.size := by
    rcases (by omega : p.size = 0 ∨ p.size = 1) with hsize | hsize
    · rw [hsize] at hperm ⊢
      exact hperm.eq_nil
    · rw [hsize] at hperm ⊢
      exact perm_singleton.mp hperm
  simp [isIdentity, hsame] at hid

theorem eq_identity (h : p.isIdentity = true) : p = identity p.size := by
  rw [isIdentity, decide_eq_true_eq] at h
  rw [identity, ← h]

theorem inverse_identity (n : Nat) : (identity n).inverse = identity n := by
  rw [inverse, newPlaces, size_identity, identity, mk.injEq]
  refine (map_congr_left ?_).trans (List.map_id _)
  intro old hold
  have hlt : old < (List.range n).length := by simpa using hold
  have hplace := nodup_range.idxOf_getElem old hlt
  rwa [getElem_range] at hplace

theorem isIdentity_identity (n : Nat) : (identity n).isIdentity = true := by
  rw [isIdentity, size_identity, identity, decide_eq_true_eq]

theorem isIdentity_inverse (h : p.isIdentity = true) : p.inverse.isIdentity = true := by
  rw [eq_identity h, inverse_identity]
  exact isIdentity_identity _

/-! ## Writing the table of new places -/

variable {table : List Nat} {entries : List (Nat × Nat)} {place value : Nat}

theorem length_foldl_set :
    (entries.foldl (fun table entry => table.set entry.1 entry.2) table).length = table.length := by
  induction entries generalizing table with
  | nil => rfl
  | cons entry entries ih => rw [foldl_cons, ih, length_set]

/-- A cell that is written once holds what was written. -/
theorem getElem?_foldl_set (hcells : (entries.map Prod.fst).Nodup)
    (hvalue : (place, value) ∈ entries ∨ place ∉ entries.map Prod.fst ∧ table[place]? = some value)
    (hplace : place < table.length) :
    (entries.foldl (fun table entry => table.set entry.1 entry.2) table)[place]? = some value := by
  induction entries generalizing table with
  | nil => simpa using hvalue
  | cons entry entries ih =>
    rw [map_cons, nodup_cons] at hcells
    refine ih hcells.2 ?_ (by rwa [length_set])
    rcases hvalue with hmem | ⟨hmem, hget⟩
    · rcases mem_cons.mp hmem with rfl | hmem
      · exact .inr ⟨hcells.1, getElem?_set_self hplace⟩
      · exact .inl hmem
    · rw [map_cons, mem_cons, not_or] at hmem
      exact .inr ⟨hmem.2, by rwa [getElem?_set_ne (Ne.symm hmem.1)]⟩

/-- Every cell is written exactly once, so no zero of the table is left by accident. -/
theorem Valid.written_eq (h : p.Valid) : p.written = p.newPlaces := by
  refine ext_getElem?' fun old hold => ?_
  rw [written, length_foldl_set, length_replicate, newPlaces, length_map, length_range,
    Nat.max_self] at hold
  rw [written, newPlaces, getElem?_map, getElem?_range hold]
  refine getElem?_foldl_set ?_ (.inl ?_) (by rwa [length_replicate])
  · rw [zipIdx_map_fst]
    exact h.nodup
  · rw [mk_mem_zipIdx_iff_getElem?, getElem?_idxOf (h.mem hold)]

/-! ## Orders -/

/-- The inverse of an accepted order is accepted and undoes it on both sides; the table written
cell by cell is that of the inverse. -/
theorem inverse_undoes {order : List Nat} {n : Nat} (h : ofOrder order n = .ok p) :
    ofOrder p.inverse.oldPlaces n = .ok p.inverse ∧ p.written = p.newPlaces ∧
      (∀ {α : Type} (items : List α), items.length = n →
        p.inverse.apply (p.apply items) = items ∧ p.apply (p.inverse.apply items) = items) ∧
      p.inverse.inverse = p ∧ (∀ new < n, p.newPlaces[p.oldPlace new]? = some new) ∧
      (p.isIdentity = true ↔ p.inverse.isIdentity = true) := by
  rw [ofOrder] at h
  split at h
  · rename_i horder
    cases h
    obtain rfl : order.length = n := by simp_all [isOrder]
    have hvalid : Valid ⟨order⟩ := horder
    have hback := hvalid.inverse_inverse
    refine ⟨?_, hvalid.written_eq, fun items hlen => ⟨hvalid.apply_inverse hlen, ?_⟩, hback,
      fun new hnew => hvalid.newPlaces_oldPlace hnew, isIdentity_inverse, fun hid => ?_⟩
    · have hinverse := hvalid.inverse
      rw [Valid, size_inverse] at hinverse
      exact if_pos hinverse
    · have hundone := hvalid.inverse.apply_inverse (hlen.trans (size_inverse _).symm)
      rwa [hback] at hundone
    · rw [← hback]
      exact isIdentity_inverse hid
  · cases h

/-- Three places that go round. -/
theorem inverse_undoes_cycle :
    ofOrder [2, 0, 1] 3 = .ok ⟨[2, 0, 1]⟩ ∧ ofOrder [1, 2, 0] 3 = .ok ⟨[1, 2, 0]⟩ ∧
      (⟨[2, 0, 1]⟩ : Permutation).newPlaces = [1, 2, 0] ∧
      (⟨[1, 2, 0]⟩ : Permutation).apply ['c', 'a', 'b'] = ['a', 'b', 'c'] := by
  have horder : ofOrder [2, 0, 1] 3 = .ok ⟨[2, 0, 1]⟩ := rfl
  obtain ⟨hok, -, happly, -⟩ := inverse_undoes horder
  exact ⟨horder, hok, rfl, (happly ['a', 'b', 'c'] rfl).1⟩

end

end Permutation

end VbaRefactor
