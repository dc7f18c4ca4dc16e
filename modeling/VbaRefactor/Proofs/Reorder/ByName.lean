import Mathlib.Data.List.Forall2
import VbaRefactor.Reorder
import VbaRefactor.Proofs.Permutation

/-!
# Orders given by name

An order that lists names is turned into places by looking each name up among the parameters. Where
the parameters have different names the lookup gives different places for different names, so the
places are a permutation exactly when the names are those of the parameters in some order.
-/

namespace VbaRefactor

open List

namespace ReorderRequest

/-- The name is that of a parameter that can change places. -/
def Known (target : Declaration) (name : Text) : Prop :=
  ∃ p ∈ target.reorderable, p.name.SameName name

instance (target : Declaration) (name : Text) : Decidable (Known target name) :=
  inferInstanceAs (Decidable (∃ p ∈ _, _))

/-- The names are those of the parameters that can change places, in any order. -/
def Rearranges (target : Declaration) (names : List Text) : Prop :=
  (names.map Text.fold).Perm (target.reorderable.map (·.name.fold))

instance (target : Declaration) (names : List Text) : Decidable (Rearranges target names) :=
  inferInstanceAs (Decidable (Perm _ _))

section

variable {target : Declaration} {name : Text} {names : List Text} {places : List Nat}

/-- The place of the first parameter with a name. -/
def placeOf? (target : Declaration) (name : Text) : Option Nat :=
  target.reorderable.findIdx? fun p => decide (p.name.SameName name)

theorem placeOf?_eq_none_iff : placeOf? target name = none ↔ ¬ Known target name := by
  simp [placeOf?, Known]

/-- At the place of a name stands a parameter of that name. -/
theorem exists_parameter {place : Nat} (h : placeOf? target name = some place) :
    ∃ p, target.reorderable[place]? = some p ∧ p.name.SameName name := by
  obtain ⟨hlt, hsame, -⟩ := findIdx?_eq_some_iff_getElem.mp h
  exact ⟨_, getElem?_eq_getElem hlt, of_decide_eq_true hsame⟩

/-- The lookup goes on as long as the names are known. -/
theorem placesOf_cons (name : Text) (rest : List Text) :
    placesOf target (name :: rest) = match placeOf? target name with
      | none => .error (.declarationNotFound (.parameter name target.qualifiedName))
      | some place => (placesOf target rest).map (place :: ·) := by
  rw [placesOf, ← placeOf?]
  cases placeOf? target name with
  | none => rfl
  | some place => cases placesOf target rest <;> rfl

/-- The lookup of names fails at the first that is not known. -/
theorem placesOf_of_find? (h : names.find? (¬ Known target ·) = some name) :
    placesOf target names =
      .error (.declarationNotFound (.parameter name target.qualifiedName)) := by
  induction names with
  | nil => cases h
  | cons first rest ih =>
    rw [placesOf_cons]
    by_cases hknown : Known target first
    · rw [find?_cons_of_neg (by simp [hknown])] at h
      cases hplace : placeOf? target first with
      | none => exact absurd hknown (placeOf?_eq_none_iff.mp hplace)
      | some place => simp only [ih h, Except.map]
    · rw [find?_cons_of_pos (by simp [hknown])] at h
      rw [placeOf?_eq_none_iff.mpr hknown, Option.some.inj h]

/-- These are the places of the names. -/
def Places (target : Declaration) (places : List Nat) (names : List Text) : Prop :=
  Forall₂ (fun place name => placeOf? target name = some place) places names

theorem exists_places (h : names.find? (¬ Known target ·) = none) :
    ∃ places, placesOf target names = .ok places ∧ Places target places names := by
  induction names with
  | nil => exact ⟨[], rfl, .nil⟩
  | cons first rest ih =>
    simp only [find?_eq_none, forall_mem_cons, decide_eq_true_eq, Decidable.not_not] at h ih
    obtain ⟨places, hplaces, hall⟩ := ih h.2
    cases hplace : placeOf? target first with
    | none => exact absurd h.1 (placeOf?_eq_none_iff.mp hplace)
    | some place =>
      refine ⟨place :: places, ?_, .cons hplace hall⟩
      rw [placesOf_cons, hplace, hplaces]
      rfl

section

variable (h : Places target places names)

include h

/-- The parameters at the places of names have these names. -/
theorem Places.named :
    Forall₂ (fun p name => p.name.SameName name) (places.filterMap (target.reorderable[·]?)) names := by
  induction h with
  | nil => exact .nil
  | cons hplace _ ih =>
    obtain ⟨p, hp, hname⟩ := exists_parameter hplace
    rw [filterMap_cons_some hp]
    exact .cons hname ih

theorem Places.lt : ∀ place ∈ places, place < target.reorderable.length := by
  induction h with
  | nil => simp
  | cons hplace _ ih => exact forall_mem_cons.mpr ⟨(findIdx?_eq_some_iff_getElem.mp hplace).1, ih⟩

/-- Names that differ have places that differ. -/
theorem Places.nodup (hnames : (names.map Text.fold).Nodup) : places.Nodup := by
  have hmap : places.map (fun place => (target.reorderable[place]?).map (·.name.fold)) =
      (names.map Text.fold).map some := by
    clear hnames
    induction h with
    | nil => rfl
    | cons hplace _ ih =>
      obtain ⟨p, hp, hname⟩ := exists_parameter hplace
      simp only [map_cons, ih, hp, Option.map_some]
      rw [hname]
  apply Nodup.of_map
  rw [hmap]
  exact hnames.map fun _ _ => Option.some.inj

/-- The places are a permutation exactly when the names are those of the parameters in some order. -/
theorem Places.isOrder_iff
    (hdistinct : target.reorderable.Pairwise fun p q => ¬ p.name.SameName q.name) :
    Permutation.isOrder places target.reorderable.length = true ↔ Rearranges target names := by
  have hnamed : (places.filterMap (target.reorderable[·]?)).map (·.name.fold) = names.map Text.fold := by
    rw [← forall₂_eq_eq_eq, forall₂_map_left_iff, forall₂_map_right_iff]
    exact h.named
  constructor
  · intro horder
    have hlength : places.length = target.reorderable.length := by
      simp only [Permutation.isOrder, Bool.and_eq_true, decide_eq_true_eq] at horder
      exact horder.1.1
    have hvalid : (⟨places⟩ : Permutation).Valid := by rwa [← hlength] at horder
    have hperm := (hvalid.perm_arrange target.reorderable).map (·.name.fold)
    rw [Permutation.arrange, Permutation.size, hlength, drop_length, append_nil] at hperm
    rwa [Rearranges, ← hnamed]
  · intro hperm
    have hlength : places.length = target.reorderable.length := by
      simpa [Forall₂.length_eq h] using hperm.length_eq
    have hnodup := h.nodup (hperm.nodup_iff.mpr (pairwise_map.mpr hdistinct))
    simpa [Permutation.isOrder, hlength, hnodup] using h.lt

end

end

/-- Where the parameters that can change places have different names, an order given by names is
accepted exactly when the names are theirs in some order, and it lists the parameters as the names do.
Otherwise the first name that is not known is reported, or that the places are no permutation. -/
theorem ofNames_lists_named (target : Declaration) (names : List Text)
    (hdistinct : target.reorderable.Pairwise fun p q => ¬ p.name.SameName q.name) :
    ((∃ request, ofNames target names = .ok request) ↔ Rearranges target names) ∧
    (∀ request, ofNames target names = .ok request → request.target = target.id ∧
      Forall₂ (fun p name => p.name.SameName name) (request.permutation.apply target.reorderable)
        names) ∧
    (¬ Rearranges target names →
      match names.find? (¬ Known target ·) with
      | some name => ofNames target names =
          .error (.declarationNotFound (.parameter name target.qualifiedName))
      | none => ∃ places, ofNames target names =
          .error (.invalidOrder (.notAPermutation target.reorderable.length places))) := by
  cases hfind : names.find? (¬ Known target ·) with
  | some name =>
    have herror : ofNames target names =
        .error (.declarationNotFound (.parameter name target.qualifiedName)) := by
      rw [ofNames, placesOf_of_find? hfind]
    have hnot : ¬ Rearranges target names := by
      intro hperm
      have hmem := hperm.mem_iff.mp (mem_map_of_mem (mem_of_find?_eq_some hfind))
      obtain ⟨p, hp, hname⟩ := mem_map.mp hmem
      have hunknown : ¬ Known target name := by simpa using find?_some hfind
      exact hunknown ⟨p, hp, hname⟩
    simp [herror, hnot]
  | none =>
    obtain ⟨places, hplaces, h⟩ := exists_places hfind
    rw [← h.isOrder_iff hdistinct]
    by_cases horder : Permutation.isOrder places target.reorderable.length = true
    · have hok : ofNames target names = .ok ⟨target.id, ⟨places⟩⟩ := by
        rw [ofNames, hplaces]
        simp only [ofOrder, Permutation.ofOrder, if_pos horder]
      refine ⟨iff_of_true ⟨_, hok⟩ horder, ?_, fun hnot => absurd horder hnot⟩
      intro request hrequest
      rw [hok] at hrequest
      cases hrequest
      exact ⟨rfl, h.named⟩
    · have herror : ofNames target names =
          .error (.invalidOrder (.notAPermutation target.reorderable.length places)) := by
        rw [ofNames, hplaces]
        simp only [ofOrder, Permutation.ofOrder, if_neg horder]
      simp [herror, horder]

/-- A property with two parameters and the assigned value, which no order can name. -/
def cellProperty : Declaration :=
  { (default : Declaration) with
    name := "Cell", kind := .propertyLet,
    parameters := ["row", "column", "value"].map fun name =>
      { (default : Parameter) with name := String.toList name } }

theorem ofNames_lists_named_accessor :
    (cellProperty.reorderable.Pairwise fun p q => ¬ p.name.SameName q.name) ∧
      (∃ request, ofNames cellProperty ["COLUMN", "Row"] = .ok request) ∧
      (∃ places, ofNames cellProperty ["row", "ROW"] = .error (.invalidOrder (.notAPermutation 2 places))) ∧
      ofNames cellProperty ["row", "value", "other"] =
        .error (.declarationNotFound (.parameter "value" ".Cell")) := by
  have hdistinct : cellProperty.reorderable.Pairwise fun p q => ¬ p.name.SameName q.name := by decide
  refine ⟨hdistinct, (ofNames_lists_named _ _ hdistinct).1.mpr (by decide), ?_, ?_⟩
  · exact (ofNames_lists_named _ ["row", "ROW"] hdistinct).2.2 (by decide)
  · exact (ofNames_lists_named _ ["row", "value", "other"] hdistinct).2.2 (by decide)

end ReorderRequest

end VbaRefactor
