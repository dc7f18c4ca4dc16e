import Mathlib.Data.List.Nodup
import Mathlib.Logic.Relation
import VbaRefactor.Affected

/-!
# Declarations that change together

From a target the change of its parameters spreads along three relations: to the accessors of the same
property, to the implementations of an interface member, and to the handlers of an event. What
`Index.affected` collects from its stack is the closure of the target under these relations, each
declaration once, and it fails exactly if a declaration of the closure does not fit its neighbours.
-/

namespace VbaRefactor

open List

namespace Index

/-- The number of every declaration is its place. -/
def Numbered (index : Index) : Prop :=
  index.declarations.map Declaration.id = List.range index.declarations.length

instance (index : Index) : Decidable index.Numbered := inferInstanceAs (Decidable (_ = _))

/-- The parameters of a declaration change directly with those of `d`. -/
inductive Tied (index : Index) (d : Declaration) : Declaration → Prop
  | accessor {e : Declaration} : d.kind.isProperty = true → e ∈ index.accessorsOf d → Tied index d e
  | implementation {e : Declaration} : e ∈ index.implementationsOf d.id → Tied index d e
  | handler {e : Declaration} : d.kind = .event → e ∈ index.handlersOf d.id → Tied index d e

/-- The least set of declarations that has the target and all that is tied to one of its members. -/
def ChangesWith (index : Index) (target : Declaration) : Declaration → Prop :=
  Relation.ReflTransGen index.Tied target

/-- A declaration fits the ones that are tied to it: no accessor of its property occurs twice, those
there are have the same parameters, and its counterparts have as many. -/
structure Fits (index : Index) (d : Declaration) : Prop where
  once : d.kind.isProperty = true → ∀ a ∈ index.accessorsOf d, ∀ b ∈ index.accessorsOf d,
    a.kind = b.kind → a = b
  agree : d.kind.isProperty = true → ∀ a ∈ index.accessorsOf d, a ≠ d → d.sameParameters a = true
  implementations : ∀ e ∈ index.implementationsOf d.id, e.parameters.length = d.parameters.length
  handlers : d.kind = .event →
    ∀ e ∈ index.handlersOf d.id, e.parameters.length = d.parameters.length

section

variable {index : Index} {d e target : Declaration} {found : List (Declaration × ChangeReason)}
  {unseen : List DeclarationId} {id : DeclarationId}

/-! ## Numbered declarations -/

theorem Numbered.id_eq (hindex : index.Numbered) {i : Nat} (h : index.declarations[i]? = some d) :
    d.id = i := by
  have hmap := congrArg (·[i]?) hindex
  obtain ⟨hi, rfl⟩ := List.getElem?_eq_some_iff.mp h
  simpa [hi] using hmap

theorem Numbered.get?_id (hindex : index.Numbered) (hd : d ∈ index.declarations) :
    index.get? d.id = some d := by
  obtain ⟨i, hi⟩ := mem_iff_getElem?.mp hd
  rw [hindex.id_eq hi]
  exact hi

theorem Numbered.eq_of_id (hindex : index.Numbered) (hd : d ∈ index.declarations)
    (he : e ∈ index.declarations) (h : d.id = e.id) : d = e := by
  have hget := hindex.get?_id hd
  rw [h, hindex.get?_id he] at hget
  exact (Option.some.inj hget).symm

theorem Numbered.nodup (hindex : index.Numbered) : index.declarations.Nodup := by
  refine List.Nodup.of_map Declaration.id ?_
  rw [hindex]
  exact nodup_range

/-! ## What is tied to a declaration -/

theorem mem_of_mem_declaredIn {m : ModuleName} {name : Text} (h : d ∈ index.declaredIn m name) :
    d ∈ index.declarations :=
  mem_of_mem_filter (mem_of_mem_filter h)

theorem mem_of_mem_accessorsOf (h : e ∈ index.accessorsOf d) : e ∈ index.declarations :=
  mem_of_mem_filter (mem_of_mem_filter h)

theorem mem_of_mem_implementationsOf (h : e ∈ index.implementationsOf id) :
    e ∈ index.declarations := by
  rw [implementationsOf] at h
  split at h
  · split at h
    · obtain ⟨m, -, hm⟩ := mem_flatMap.mp (mem_of_mem_filter h)
      exact mem_of_mem_declaredIn hm
    · cases h
  · cases h

theorem mem_of_mem_handlersOf (h : e ∈ index.handlersOf id) :
    e ∈ index.declarations ∧ ∃ event, index.get? id = some event ∧ event.kind = .event := by
  rw [handlersOf] at h
  split at h
  · rename_i event hevent
    split at h
    · rename_i hkind
      obtain ⟨field, -, hfield⟩ := mem_flatMap.mp (mem_of_mem_filter h)
      exact ⟨mem_of_mem_declaredIn hfield, event, hevent, hkind⟩
    · cases h
  · cases h

theorem Tied.mem (h : index.Tied d e) : e ∈ index.declarations := by
  cases h with
  | accessor _ h => exact mem_of_mem_accessorsOf h
  | implementation h => exact mem_of_mem_implementationsOf h
  | handler _ h => exact (mem_of_mem_handlersOf h).1

/-- At most one accessor of each kind is there. -/
theorem find?_repeated_eq_none_iff {accessors : List Declaration} (hnodup : accessors.Nodup)
    (hkinds : ∀ a ∈ accessors, a.kind.isProperty = true) :
    ([DeclarationKind.propertyGet, .propertyLet, .propertySet].find? fun kind =>
      1 < (accessors.filter (·.kind = kind)).length) = none ↔
      ∀ a ∈ accessors, ∀ b ∈ accessors, a.kind = b.kind → a = b := by
  rw [find?_eq_none]
  constructor
  · intro h a ha b hb hkind
    have hmem : a.kind ∈ [DeclarationKind.propertyGet, .propertyLet, .propertySet] := by
      have := hkinds a ha
      revert this
      cases a.kind <;> simp [DeclarationKind.isProperty]
    have hshort := h a.kind hmem
    have ha' : a ∈ accessors.filter (·.kind = a.kind) := by simp [ha]
    have hb' : b ∈ accessors.filter (·.kind = a.kind) := by simp [hb, hkind]
    generalize accessors.filter (·.kind = a.kind) = same at hshort ha' hb'
    match same with
    | [] => cases ha'
    | [x] => rw [mem_singleton.mp ha', mem_singleton.mp hb']
    | x :: y :: rest => simp at hshort
  · intro h kind _ hlong
    have hsame : (accessors.filter (·.kind = kind)).Nodup := hnodup.filter _
    have heq : ∀ a ∈ accessors.filter (·.kind = kind), ∀ b ∈ accessors.filter (·.kind = kind),
        a = b := by
      intro a ha b hb
      simp only [mem_filter, decide_eq_true_eq] at ha hb
      exact h a ha.1 b hb.1 (ha.2.trans hb.2.symm)
    generalize accessors.filter (·.kind = kind) = same at hlong hsame heq
    match same with
    | [] => simp at hlong
    | [x] => simp at hlong
    | x :: y :: rest =>
      have : x = y := heq x (by simp) y (by simp)
      simp [this] at hsame

theorem relatedAccessors_eq_ok_iff (hindex : index.Numbered) (hd : d ∈ index.declarations) :
    index.relatedAccessors d = .ok found ↔ (d.kind.isProperty = true →
        (∀ a ∈ index.accessorsOf d, ∀ b ∈ index.accessorsOf d, a.kind = b.kind → a = b) ∧
        ∀ a ∈ index.accessorsOf d, a ≠ d → d.sameParameters a = true) ∧
      found = if d.kind.isProperty = true then
        ((index.accessorsOf d).filter (·.id ≠ d.id)).map (·, .accessor) else [] := by
  rw [relatedAccessors]
  by_cases hproperty : d.kind.isProperty = true
  · have hnodup : (index.accessorsOf d).Nodup := (hindex.nodup.filter _).filter _
    have hkinds : ∀ a ∈ index.accessorsOf d, a.kind.isProperty = true := by
      intro a ha
      have := (mem_filter.mp ha).2
      simp only [Bool.and_eq_true] at this
      exact this.1.1
    have hother (a : Declaration) (ha : a ∈ index.accessorsOf d) : a.id ≠ d.id ↔ a ≠ d := by
      refine not_congr ⟨hindex.eq_of_id (mem_of_mem_accessorsOf ha) hd, ?_⟩
      rintro rfl
      rfl
    have hagree : (((index.accessorsOf d).filter (·.id ≠ d.id)).find? fun other =>
        !d.sameParameters other) = none ↔
        ∀ a ∈ index.accessorsOf d, a ≠ d → d.sameParameters a = true := by
      rw [find?_eq_none]
      simp only [mem_filter, decide_eq_true_eq, Bool.not_eq_true', Bool.not_eq_false, and_imp]
      exact forall₂_congr fun a ha => by rw [hother a ha]
    rw [if_pos hproperty]
    simp only [hproperty, true_implies, if_true]
    rw [← find?_repeated_eq_none_iff hnodup hkinds, ← hagree]
    split
    · rename_i kind hkind
      rw [hkind]
      simp
    · rename_i hnone
      split
      · rename_i other hother
        rw [hother]
        simp
      · rename_i hnone'
        rw [hnone, hnone']
        simp [eq_comm]
  · rw [if_neg hproperty, if_neg hproperty, Except.ok.injEq, eq_comm]
    simp [hproperty]

theorem counterparts_eq_ok_iff {reason : ChangeReason} {others : List Declaration} :
    counterparts d reason others = .ok found ↔
      (∀ other ∈ others, other.parameters.length = d.parameters.length) ∧
        found = others.map (·, reason) := by
  have hsame : (others.find? fun other => other.parameters.length ≠ d.parameters.length) = none ↔
      ∀ other ∈ others, other.parameters.length = d.parameters.length := by
    simp
  rw [counterparts, ← hsame]
  split
  · rename_i other hother
    rw [hother]
    simp
  · rename_i hnone
    rw [hnone]
    simp [eq_comm]

/-- What is tied to a declaration, itself apart, with the reasons. -/
def neighbours (index : Index) (d : Declaration) : List (Declaration × ChangeReason) :=
  (if d.kind.isProperty = true then
    ((index.accessorsOf d).filter (·.id ≠ d.id)).map (·, .accessor) else [])
    ++ (index.implementationsOf d.id).map (·, .implementation)
    ++ (index.handlersOf d.id).map (·, .handler)

theorem mem_neighbours_iff : e ∈ (index.neighbours d).map Prod.fst ↔
    (d.kind.isProperty = true ∧ e ∈ index.accessorsOf d ∧ e.id ≠ d.id) ∨
      e ∈ index.implementationsOf d.id ∨ e ∈ index.handlersOf d.id := by
  rw [neighbours]
  split
  · rename_i hproperty
    simp [hproperty]
  · rename_i hproperty
    simp [hproperty]

section

variable (hindex : index.Numbered) (hd : d ∈ index.declarations)

include hindex hd

theorem event_of_mem_handlersOf (h : e ∈ index.handlersOf d.id) : d.kind = .event := by
  obtain ⟨event, hevent, hkind⟩ := (mem_of_mem_handlersOf h).2
  rw [hindex.get?_id hd] at hevent
  cases hevent
  exact hkind

theorem tied_of_mem_neighbours (h : e ∈ (index.neighbours d).map Prod.fst) : index.Tied d e := by
  rcases mem_neighbours_iff.mp h with ⟨hproperty, he, -⟩ | he | he
  · exact .accessor hproperty he
  · exact .implementation he
  · exact .handler (event_of_mem_handlersOf hindex hd he) he

theorem mem_neighbours_of_tied (h : index.Tied d e) (hne : e ≠ d) :
    e ∈ (index.neighbours d).map Prod.fst := by
  rw [mem_neighbours_iff]
  cases h with
  | accessor hproperty he =>
    exact .inl ⟨hproperty, he, fun hid => hne (hindex.eq_of_id (mem_of_mem_accessorsOf he) hd hid)⟩
  | implementation he => exact .inr (.inl he)
  | handler _ he => exact .inr (.inr he)

/-- The neighbours of a declaration are found if it fits them. -/
theorem related_eq_ok_iff :
    index.related d = .ok found ↔ index.Fits d ∧ found = index.neighbours d := by
  rw [related]
  constructor
  · intro h
    split at h
    · cases h
    rename_i accessors haccessors
    split at h
    · cases h
    rename_i implementations himplementations
    split at h
    · cases h
    · rename_i handlers hhandlers
      cases h
      obtain ⟨hfit, rfl⟩ := (relatedAccessors_eq_ok_iff hindex hd).mp haccessors
      obtain ⟨himplemented, rfl⟩ := counterparts_eq_ok_iff.mp himplementations
      obtain ⟨hhandled, rfl⟩ := counterparts_eq_ok_iff.mp hhandlers
      exact ⟨⟨fun h => (hfit h).1, fun h => (hfit h).2, himplemented, fun _ => hhandled⟩, rfl⟩
  · rintro ⟨hfits, rfl⟩
    have hhandled : ∀ e ∈ index.handlersOf d.id, e.parameters.length = d.parameters.length :=
      fun e he => hfits.handlers (event_of_mem_handlersOf hindex hd he) e he
    rw [(relatedAccessors_eq_ok_iff hindex hd).mpr
        ⟨fun hproperty => ⟨hfits.once hproperty, hfits.agree hproperty⟩, rfl⟩,
      counterparts_eq_ok_iff.mpr ⟨hfits.implementations, rfl⟩,
      counterparts_eq_ok_iff.mpr ⟨hhandled, rfl⟩]
    rfl

end

/-! ## Collecting from a stack -/

theorem mem_takeUnseen_ids_iff {i : DeclarationId} :
    i ∈ (takeUnseen unseen found).2 ↔ i ∈ unseen ∧ ∀ e ∈ found.map Prod.fst, e.id ≠ i := by
  induction found generalizing unseen with
  | nil => simp [takeUnseen]
  | cons head rest ih =>
    obtain ⟨d, reason⟩ := head
    rw [takeUnseen]
    split
    · rw [ih]
      simp only [mem_filter, decide_eq_true_eq, map_cons, mem_cons, forall_eq_or_imp]
      rw [and_assoc, ne_comm]
    · rename_i hseen
      rw [ih]
      simp only [map_cons, mem_cons, forall_eq_or_imp]
      refine and_congr_right fun hi => (and_iff_right ?_).symm
      rintro rfl
      exact hseen hi

theorem mem_of_mem_takeUnseen {entry : Declaration × ChangeReason}
    (h : entry ∈ (takeUnseen unseen found).1) : entry ∈ found ∧ entry.1.id ∈ unseen := by
  induction found generalizing unseen with
  | nil => cases h
  | cons head rest ih =>
    obtain ⟨d, reason⟩ := head
    rw [takeUnseen] at h
    split at h
    · rename_i hunseen
      rcases mem_cons.mp h with rfl | h
      · exact ⟨mem_cons_self, hunseen⟩
      · obtain ⟨hrest, hid⟩ := ih h
        exact ⟨mem_cons_of_mem _ hrest, mem_of_mem_filter hid⟩
    · obtain ⟨hrest, hid⟩ := ih h
      exact ⟨mem_cons_of_mem _ hrest, hid⟩

theorem nodup_takeUnseen : (((takeUnseen unseen found).1.map Prod.fst).map Declaration.id).Nodup := by
  induction found generalizing unseen with
  | nil => simp [takeUnseen]
  | cons head rest ih =>
    obtain ⟨d, reason⟩ := head
    rw [takeUnseen]
    split
    · refine nodup_cons.mpr ⟨?_, ih⟩
      intro hmem
      simp only [map_map, mem_map, Function.comp_apply] at hmem
      obtain ⟨entry, hentry, hid⟩ := hmem
      have hunseen := (mem_of_mem_takeUnseen hentry).2
      simp [hid] at hunseen
    · exact ih

/-- An unseen declaration among those found is taken, or another one with its number. -/
theorem exists_mem_takeUnseen (he : e ∈ found.map Prod.fst) (hid : e.id ∈ unseen) :
    ∃ e' ∈ (takeUnseen unseen found).1.map Prod.fst, e'.id = e.id := by
  induction found generalizing unseen with
  | nil => cases he
  | cons head rest ih =>
    obtain ⟨d, reason⟩ := head
    rw [takeUnseen]
    rcases mem_cons.mp he with rfl | he
    · rw [if_pos hid]
      exact ⟨e, mem_cons_self, rfl⟩
    · split
      · by_cases hsame : d.id = e.id
        · exact ⟨d, mem_cons_self, hsame⟩
        · have hrest : e.id ∈ unseen.filter (· ≠ d.id) := by simp [hid, Ne.symm hsame]
          obtain ⟨e', he', hid'⟩ := ih he hrest
          exact ⟨e', mem_cons_of_mem _ he', hid'⟩
      · exact ih he hid

/-- What holds while declarations are collected: those found change with the target and are found
once, those unseen are the others, and those that are not on the stack any more fit and have all that
is tied to them among those found. -/
structure Collecting (index : Index) (target : Declaration) (unseen : List DeclarationId)
    (found : List (Declaration × ChangeReason)) (stack : List Declaration) : Prop where
  reached : ∀ d ∈ found.map Prod.fst, index.ChangesWith target d
  declared : ∀ d ∈ found.map Prod.fst, d ∈ index.declarations
  nodup : (found.map Prod.fst).Nodup
  unseen_iff : ∀ d ∈ index.declarations, d.id ∈ unseen ↔ d ∉ found.map Prod.fst
  stacked : ∀ d ∈ stack, d ∈ found.map Prod.fst
  done : ∀ d ∈ found.map Prod.fst, d ∈ stack ∨
    index.Fits d ∧ ∀ e, index.Tied d e → e ∈ found.map Prod.fst

theorem collecting_start (ht : target ∈ index.declarations) (hindex : index.Numbered) :
    Collecting index target ((index.declarations.map Declaration.id).filter (· ≠ target.id))
      [(target, .direct)] [target] := by
  refine ⟨?_, ?_, by simp, ?_, by simp, by simp⟩
  · exact forall_mem_singleton.mpr .refl
  · exact forall_mem_singleton.mpr ht
  · intro d hd
    have hid : d.id = target.id ↔ d = target := ⟨hindex.eq_of_id hd ht, fun h => by rw [h]⟩
    have hmem : d.id ∈ index.declarations.map Declaration.id := mem_map_of_mem hd
    simp [hid, hmem]

/-- What is taken of the neighbours of a declaration is tied to it, and was not found before. -/
theorem tied_of_mem_takeUnseen (hindex : index.Numbered) (hd : d ∈ index.declarations)
    (he : e ∈ (takeUnseen unseen (index.neighbours d)).1.map Prod.fst) :
    index.Tied d e ∧ e.id ∈ unseen := by
  obtain ⟨entry, hentry, rfl⟩ := mem_map.mp he
  obtain ⟨hmem, hid⟩ := mem_of_mem_takeUnseen hentry
  exact ⟨tied_of_mem_neighbours hindex hd (mem_map_of_mem hmem), hid⟩

section

variable {stack : List Declaration} (hindex : index.Numbered)

include hindex

/-- After a declaration's neighbours are taken, all that is tied to it is found. -/
theorem Collecting.mem_of_tied (h : Collecting index target unseen found stack)
    (hd : d ∈ found.map Prod.fst) (he : index.Tied d e) :
    e ∈ (found ++ (takeUnseen unseen (index.neighbours d)).1).map Prod.fst := by
  have hdeclared := h.declared d hd
  rw [map_append, mem_append]
  by_cases hold : e ∈ found.map Prod.fst
  · exact .inl hold
  · have hne : e ≠ d := fun heq => hold (heq ▸ hd)
    obtain ⟨e', he', hid⟩ := exists_mem_takeUnseen (mem_neighbours_of_tied hindex hdeclared he hne)
      ((h.unseen_iff e he.mem).mpr hold)
    right
    rwa [hindex.eq_of_id he.mem (tied_of_mem_takeUnseen hindex hdeclared he').1.mem hid.symm]

/-- The declaration on top of the stack is replaced by its new neighbours. -/
theorem Collecting.step (h : Collecting index target unseen found (d :: stack))
    (hfits : index.Fits d) :
    Collecting index target (takeUnseen unseen (index.neighbours d)).2
      (found ++ (takeUnseen unseen (index.neighbours d)).1)
      (((takeUnseen unseen (index.neighbours d)).1.map Prod.fst).reverse ++ stack) := by
  have hd : d ∈ found.map Prod.fst := h.stacked d mem_cons_self
  have hdeclared := h.declared d hd
  have hfresh (e : Declaration) (he : e ∈ (takeUnseen unseen (index.neighbours d)).1.map Prod.fst) :=
    tied_of_mem_takeUnseen hindex hdeclared he
  have htied (e : Declaration) (he : index.Tied d e) := h.mem_of_tied hindex hd he
  refine ⟨?_, ?_, ?_, ?_, ?_, ?_⟩
  · rw [map_append, forall_mem_append]
    exact ⟨h.reached, fun e he => (h.reached d hd).tail (hfresh e he).1⟩
  · rw [map_append, forall_mem_append]
    exact ⟨h.declared, fun e he => (hfresh e he).1.mem⟩
  · rw [map_append, nodup_append]
    refine ⟨h.nodup, List.Nodup.of_map _ nodup_takeUnseen, ?_⟩
    rintro e hold e' he rfl
    obtain ⟨he, hid⟩ := hfresh e he
    exact (h.unseen_iff e he.mem).mp hid hold
  · intro e he
    rw [mem_takeUnseen_ids_iff, h.unseen_iff e he, map_append, mem_append, not_or]
    refine and_congr_right fun hnew => ?_
    constructor
    · intro hnone hmem
      obtain ⟨entry, hentry, rfl⟩ := mem_map.mp hmem
      exact hnone entry.1 (mem_map_of_mem (mem_of_mem_takeUnseen hentry).1) rfl
    · intro hnot e' he' hid
      have htied' := tied_of_mem_neighbours hindex hdeclared he'
      rw [hindex.eq_of_id htied'.mem he hid] at htied'
      have hmem := htied e htied'
      rw [map_append] at hmem
      exact (mem_append.mp hmem).elim hnew hnot
  · intro e he
    rw [map_append]
    rcases mem_append.mp he with he | he
    · exact mem_append_right _ (mem_reverse.mp he)
    · exact mem_append_left _ (h.stacked e (mem_cons_of_mem _ he))
  · intro e he
    rw [map_append] at he
    rcases mem_append.mp he with he | he
    · rcases h.done e he with hstack | ⟨hfits', hall⟩
      · rcases mem_cons.mp hstack with rfl | hstack
        · exact .inr ⟨hfits, htied⟩
        · exact .inl (mem_append_right _ hstack)
      · refine .inr ⟨hfits', ?_⟩
        intro e' he'
        rw [map_append]
        exact mem_append_left _ (hall e' he')
    · exact .inl (mem_append_left _ (mem_reverse.mpr he))

/-- A run from a stack ends with all of it done, or at a declaration that does not fit. -/
theorem Collecting.run (h : Collecting index target unseen found stack) :
    (∃ more rest, index.collect unseen found stack = .ok (found ++ more) ∧
      Collecting index target rest (found ++ more) []) ∨
    ∃ error d, index.collect unseen found stack = .error error ∧ index.ChangesWith target d ∧
      ¬ index.Fits d := by
  fun_induction collect index unseen found stack with
  | case1 unseen found => exact .inl ⟨[], unseen, by simp, by simpa using h⟩
  | case2 unseen found d stack error herror =>
    have hd := h.stacked d mem_cons_self
    refine .inr ⟨error, d, rfl, h.reached d hd, ?_⟩
    intro hfits
    have hok := (related_eq_ok_iff hindex (h.declared d hd)).mpr ⟨hfits, rfl⟩
    rw [herror] at hok
    cases hok
  | case3 unseen found d stack related hrelated fresh ih =>
    have hd := h.stacked d mem_cons_self
    obtain ⟨hfits, rfl⟩ := (related_eq_ok_iff hindex (h.declared d hd)).mp hrelated
    rcases ih (h.step hindex hfits) with ⟨more, rest, hok, hdone⟩ | hfail
    · rw [append_assoc] at hok hdone
      exact .inl ⟨fresh.1 ++ more, rest, hok, hdone⟩
    · exact .inr hfail

end

/-- What is found when nothing is left on the stack is the closure. -/
theorem Collecting.mem_iff (h : Collecting index target unseen found [])
    (ht : target ∈ found.map Prod.fst) : d ∈ found.map Prod.fst ↔ index.ChangesWith target d := by
  refine ⟨h.reached d, ?_⟩
  intro hd
  induction hd with
  | refl => exact ht
  | tail _ htied ih =>
    rcases h.done _ ih with hstack | ⟨-, hall⟩
    · cases hstack
    · exact hall _ htied

theorem collecting_of_affected (hindex : index.Numbered) (ht : target ∈ index.declarations)
    (h : index.affected target = .ok found) :
    found.head? = some (target, .direct) ∧ ∃ rest, Collecting index target rest found [] := by
  rw [affected] at h
  rcases (collecting_start ht hindex).run hindex with ⟨more, rest, hok, hdone⟩ | ⟨error, d, herror, -⟩
  · rw [hok] at h
    cases h
    exact ⟨rfl, rest, hdone⟩
  · rw [herror] at h
    cases h

theorem not_fits_of_affected (hindex : index.Numbered) (ht : target ∈ index.declarations)
    {error : Error} (h : index.affected target = .error error) :
    ∃ d, index.ChangesWith target d ∧ ¬ index.Fits d := by
  rw [affected] at h
  rcases (collecting_start ht hindex).run hindex with ⟨more, rest, hok, -⟩ | ⟨error, d, -, hd, hnot⟩
  · rw [hok] at h
    cases h
  · exact ⟨d, hd, hnot⟩

/-- The affected declarations are the closure of the target. They can be collected if and only if all
of them fit, whichever is looked at first. -/
theorem affected_exact (hindex : index.Numbered) (ht : target ∈ index.declarations) :
    ((∃ found, index.affected target = .ok found) ↔
      ∀ d, index.ChangesWith target d → index.Fits d) ∧
    ∀ found, index.affected target = .ok found →
      found.head? = some (target, .direct) ∧ (found.map Prod.fst).Nodup ∧
        ∀ d, d ∈ found.map Prod.fst ↔ index.ChangesWith target d := by
  have hclosure (found : List (Declaration × ChangeReason)) (h : index.affected target = .ok found) :
      found.head? = some (target, .direct) ∧ (∀ d ∈ found.map Prod.fst, index.Fits d) ∧
        (found.map Prod.fst).Nodup ∧ ∀ d, d ∈ found.map Prod.fst ↔ index.ChangesWith target d := by
    obtain ⟨hhead, rest, hdone⟩ := collecting_of_affected hindex ht h
    refine ⟨hhead, ?_, hdone.nodup, fun d => hdone.mem_iff ?_⟩
    · intro d hd
      rcases hdone.done d hd with hstack | ⟨hfits, -⟩
      · cases hstack
      · exact hfits
    · exact List.mem_map_of_mem (List.mem_of_mem_head? hhead)
  refine ⟨⟨?_, ?_⟩, fun found h => ⟨(hclosure found h).1, (hclosure found h).2.2⟩⟩
  · rintro ⟨found, h⟩ d hd
    obtain ⟨-, hfits, -, hmem⟩ := hclosure found h
    exact hfits d ((hmem d).mpr hd)
  · intro hall
    cases h : index.affected target with
    | ok found => exact ⟨found, rfl⟩
    | error error =>
      obtain ⟨d, hd, hnot⟩ := not_fits_of_affected hindex ht h
      exact absurd (hall d hd) hnot

end

/-- A property of an interface changes with its other accessor and with both implementations, which
lead to each other on two ways. -/
theorem affected_exact_interface :
    let interface : ModuleName := ⟨"P", "IStore"⟩
    let store : ModuleName := ⟨"P", "Store"⟩
    let key : Parameter := { (default : Parameter) with name := "key" }
    let value : Parameter := { (default : Parameter) with name := "value", position := 1 }
    let declared (id : DeclarationId) (name : Text) (kind : DeclarationKind) (m : ModuleName)
        (parent? : Option DeclarationId) (parameters : List Parameter) : Declaration :=
      { (default : Declaration) with id, name, kind, module := m, parent?, parameters }
    let getter := declared 1 "Item" .propertyGet interface (some 0) [key]
    let letter := declared 2 "Item" .propertyLet interface (some 0) [key, value]
    let storeGetter := declared 4 "IStore_Item" .propertyGet store (some 3) [key]
    let storeLetter := declared 5 "IStore_Item" .propertyLet store (some 3) [key, value]
    let index : Index := ⟨[declared 0 "IStore" .module interface none [], getter, letter,
      declared 3 "Store" .module store none [], storeGetter, storeLetter], [], [(store, ["IStore"])]⟩
    index.Numbered ∧ getter ∈ index.declarations ∧
      ∀ d, index.ChangesWith getter d ↔ d ∈ [getter, letter, storeGetter, storeLetter] := by
  intro interface store key value declared getter letter storeGetter storeLetter index
  have hindex : index.Numbered := by decide
  have hgetter : getter ∈ index.declarations := by simp [index]
  have haffected : index.affected getter = .ok [(getter, .direct), (letter, .accessor),
      (storeGetter, .implementation), (storeLetter, .accessor)] := by
    decide +kernel
  refine ⟨hindex, hgetter, ?_⟩
  intro d
  rw [← ((affected_exact hindex hgetter).2 _ haffected).2.2 d]
  rfl

end Index

end VbaRefactor
