import VbaRefactor.Proofs.Reorder.Sources

/-!
# The rules on parameters along a reordering

Only the member that a request names is held against the rules: required parameters first, a
`ParamArray` last. The same order is then written into every signature that changes with it. Whether
such a signature keeps the rules depends on how many of its parameters are required and on whether
it has a `ParamArray`, which the comparison of signatures does not look at.
-/

namespace VbaRefactor

open List

variable {parameters : List Parameter} {order : Permutation} {α : Type}

namespace Parameter

/-- A call has to have an argument for the parameter. -/
def isRequired (p : Parameter) : Bool := !p.isOptional && !p.isParamArray

/-- Both rules: no required parameter follows an optional one, and a `ParamArray` comes last. -/
def KeepRules (parameters : List Parameter) : Prop :=
  optionalsLast parameters = true ∧ paramArrayLast parameters = true

instance (parameters : List Parameter) : Decidable (KeepRules parameters) :=
  inferInstanceAs (Decidable (_ ∧ _))

theorem isNone_requiredAfterOptional?_iff (seen : Bool) :
    (requiredAfterOptional? seen parameters).isNone = true ↔
      parameters.Pairwise (fun a b => a.isOptional = true → b.isRequired = false) ∧
        (seen = true → ∀ b ∈ parameters, b.isRequired = false) := by
  induction parameters generalizing seen with
  | nil => simp [requiredAfterOptional?]
  | cons p rest ih =>
    rw [requiredAfterOptional?, pairwise_cons, forall_mem_cons]
    by_cases hoptional : p.isOptional = true
    · have hp : p.isRequired = false := by simp [isRequired, hoptional]
      rw [if_pos hoptional, ih true]
      simp only [hoptional, hp, forall_const, true_and]
      exact ⟨fun h => ⟨⟨h.2, h.1⟩, fun _ => h.2⟩, fun h => ⟨h.1.2, h.1.1⟩⟩
    · rw [if_neg hoptional]
      by_cases hstop : (seen && !p.isParamArray) = true
      · obtain ⟨rfl, harray⟩ := Bool.and_eq_true_iff.mp hstop
        have hp : p.isRequired = true := by
          simpa [isRequired, Bool.not_eq_true _ |>.mp hoptional] using harray
        simp [hstop, hp]
      · rw [if_neg hstop, ih seen]
        have hp : seen = true → p.isRequired = false := by
          intro hseen
          simpa [isRequired, hseen, hoptional] using hstop
        simp only [hoptional]
        constructor
        · rintro ⟨hpairs, hall⟩
          exact ⟨⟨fun _ _ h => absurd h (by simp), hpairs⟩, fun hseen => ⟨hp hseen, hall hseen⟩⟩
        · rintro ⟨⟨-, hpairs⟩, hall⟩
          exact ⟨hpairs, fun hseen => (hall hseen).2⟩

theorem paramArrayLast_iff :
    paramArrayLast parameters = true ↔ ∀ p ∈ parameters.dropLast, p.isParamArray = false := by
  rw [paramArrayLast, earlyParamArray?, Option.isNone_iff_eq_none, find?_eq_none]
  simp

/-- With a `ParamArray` last at most, what is not required is optional unless it is the last. -/
theorem keepRules_iff_pairwise :
    KeepRules parameters ↔ parameters.Pairwise (fun a b => b.isRequired = true → a.isRequired = true) ∧
      ∀ p ∈ parameters.dropLast, p.isParamArray = false := by
  rw [KeepRules, paramArrayLast_iff, optionalsLast, isNone_requiredAfterOptional?_iff]
  simp only [Bool.false_eq_true, false_implies, and_true, and_congr_left_iff]
  intro harray
  induction parameters with
  | nil => simp
  | cons p rest ih =>
    cases rest with
    | nil => simp
    | cons q rest =>
      rw [dropLast_cons_cons, forall_mem_cons] at harray
      rw [pairwise_cons, pairwise_cons (a := p), ih harray.2]
      have hp : p.isOptional = true ↔ p.isRequired = false := by simp [isRequired, harray.1]
      refine and_congr_left' (forall_congr' fun b => imp_congr_right fun _ => ?_)
      rw [hp]
      cases p.isRequired <;> cases b.isRequired <;> simp

/-- What holds of an item only if it holds of all before it, holds of the first ones. -/
theorem pairwise_iff_lt_countP {f : α → Bool} {xs : List α} :
    xs.Pairwise (fun a b => f b = true → f a = true) ↔
      ∀ i x, xs[i]? = some x → (f x = true ↔ i < xs.countP f) := by
  induction xs with
  | nil => simp
  | cons a rest ih =>
    rw [pairwise_cons]
    by_cases ha : f a = true
    · rw [countP_cons_of_pos ha, ih]
      constructor
      · rintro ⟨-, hall⟩ (_ | i) x hx
        · cases hx
          simp [ha]
        · rw [hall i x hx, Nat.add_lt_add_iff_right]
      · intro hall
        refine ⟨fun _ _ _ => ha, fun i x hx => ?_⟩
        rw [hall (i + 1) x hx, Nat.add_lt_add_iff_right]
    · rw [countP_cons_of_neg ha]
      constructor
      · rintro ⟨hnone, -⟩ i x hx
        have hzero : rest.countP f = 0 := by
          rw [countP_eq_zero]
          exact fun b hb hf => ha (hnone b hb hf)
        rw [hzero]
        refine iff_of_false ?_ (Nat.not_lt_zero i)
        rcases mem_cons.mp (mem_of_getElem? hx) with rfl | hmem
        · exact ha
        · exact fun hf => ha (hnone x hmem hf)
      · intro hall
        have hzero : rest.countP f = 0 := Nat.eq_zero_of_not_pos (mt (hall 0 a rfl).mpr ha)
        rw [countP_eq_zero] at hzero
        exact ⟨fun b hb hf => absurd hf (hzero b hb),
          pairwise_of_forall_mem_list fun _ _ b hb hf => absurd hf (hzero b hb)⟩

/-- Where it holds of as many first items as there are at all, it holds of no others. -/
theorem lt_countP_iff_of_front {f : α → Bool} {xs : List α}
    (h : ∀ i < xs.countP f, ∀ x, xs[i]? = some x → f x = true) {i : Nat} {x : α}
    (hx : xs[i]? = some x) : f x = true ↔ i < xs.countP f := by
  refine ⟨fun hf => ?_, fun hlt => h i hlt x hx⟩
  by_contra hle
  have hfront : (xs.take (xs.countP f)).countP f = xs.countP f := by
    have hall : ∀ y ∈ xs.take (xs.countP f), f y = true := by
      intro y hy
      obtain ⟨j, hj⟩ := mem_iff_getElem?.mp hy
      rw [getElem?_take] at hj
      split at hj
      · exact h j (by assumption) y hj
      · cases hj
    rw [countP_eq_length.mpr hall, length_take, Nat.min_eq_left countP_le_length]
  have hsum : xs.countP f = (xs.take (xs.countP f)).countP f + (xs.drop (xs.countP f)).countP f := by
    rw [← countP_append, take_append_drop]
  have hnone : (xs.drop (xs.countP f)).countP f = 0 := by omega
  have hmem : x ∈ xs.drop (xs.countP f) := by
    apply mem_of_getElem? (i := i - xs.countP f)
    rw [getElem?_drop, Nat.add_sub_cancel' (Nat.le_of_not_lt hle), hx]
  exact countP_eq_zero.mp hnone x hmem hf

/-- The rules say which places the parameters have: the required ones the first, and a `ParamArray`
the last. -/
theorem keepRules_iff : KeepRules parameters ↔
    ∀ i p, parameters[i]? = some p → (p.isRequired = true ↔ i < parameters.countP isRequired) ∧
      (p.isParamArray = true → i + 1 = parameters.length) := by
  have harray : (∀ p ∈ parameters.dropLast, p.isParamArray = false) ↔
      ∀ i p, parameters[i]? = some p → p.isParamArray = true → i + 1 = parameters.length := by
    constructor
    · intro hall i p hp hpa
      by_contra hne
      obtain ⟨hi, -⟩ := List.getElem?_eq_some_iff.mp hp
      have hmem : p ∈ parameters.dropLast := by
        apply mem_of_getElem? (i := i)
        rw [getElem?_dropLast, if_pos (by omega), hp]
      rw [hall p hmem] at hpa
      cases hpa
    · intro hall p hmem
      obtain ⟨i, hi⟩ := mem_iff_getElem?.mp hmem
      rw [getElem?_dropLast] at hi
      split at hi
      · rename_i hlt
        by_contra hpa
        have := hall i p hi (by simpa using hpa)
        omega
      · cases hi
  rw [keepRules_iff_pairwise, pairwise_iff_lt_countP, harray]
  simp only [← forall_and]

end Parameter

/-! ## New orders -/

/-- The order suits parameters that keep the rules: the required ones stay in front of the others, and
a `ParamArray` stays last. -/
def Permutation.Suits (order : Permutation) (parameters : List Parameter) : Prop :=
  (∀ new < parameters.countP Parameter.isRequired,
    order.oldPlace new < parameters.countP Parameter.isRequired) ∧
  (parameters.any Parameter.isParamArray = true →
    order.oldPlace (parameters.length - 1) = parameters.length - 1)

instance (order : Permutation) (parameters : List Parameter) : Decidable (order.Suits parameters) :=
  inferInstanceAs (Decidable (_ ∧ _))

namespace Parameter

section

variable (ho : order.Valid) (hsize : order.size = parameters.length)

include hsize

theorem arrange_eq_apply : order.arrange parameters = order.apply parameters := by
  rw [Permutation.arrange, hsize, drop_length, append_nil]

include ho

theorem perm_apply : (order.apply parameters).Perm parameters := by
  rw [← arrange_eq_apply hsize]
  exact ho.perm_arrange parameters

theorem getElem?_apply {new : Nat} (hnew : new < parameters.length) :
    (order.apply parameters)[new]? = parameters[order.oldPlace new]? := by
  rw [← arrange_eq_apply hsize, ho.getElem?_arrange (Nat.le_of_eq hsize), Permutation.source,
    if_pos (by omega)]

/-- Parameters that keep the rules keep them in a new order if and only if it suits them. -/
theorem keepRules_apply_iff (hold : KeepRules parameters) :
    KeepRules (order.apply parameters) ↔ order.Suits parameters := by
  have hperm := perm_apply ho hsize
  have hlen := hperm.length_eq
  have hcount := hperm.countP_eq isRequired
  have hplaces := keepRules_iff.mp hold
  have hget {i : Nat} {p : Parameter} (hp : (order.apply parameters)[i]? = some p) :
      i < parameters.length ∧ parameters[order.oldPlace i]? = some p := by
    obtain ⟨hi, -⟩ := List.getElem?_eq_some_iff.mp hp
    rw [hlen] at hi
    exact ⟨hi, by rw [← getElem?_apply ho hsize hi, hp]⟩
  have hinj {i j : Nat} (hi : i < parameters.length) (hj : j < parameters.length)
      (hij : order.oldPlace i = order.oldPlace j) : i = j := by
    rw [← hsize] at hi hj
    have heq : order.oldPlaces[i]? = order.oldPlaces[j]? := by
      rw [Permutation.oldPlace_eq hi, Permutation.oldPlace_eq hj, hij]
    exact (getElem?_inj hi ho.nodup).mp heq
  constructor
  · intro hnew
    rw [keepRules_iff, hcount, hlen] at hnew
    refine ⟨?_, ?_⟩
    · intro new hlt
      have hbound : new < parameters.length := Nat.lt_of_lt_of_le hlt countP_le_length
      rw [← hlen] at hbound
      have hp := getElem?_eq_getElem hbound
      rw [← (hplaces _ _ (hget hp).2).1]
      exact (hnew new _ hp).1.mpr hlt
    · -- the place to which the array goes is the last one
      intro hany
      obtain ⟨p, hmem, harray⟩ := any_eq_true.mp hany
      obtain ⟨i, hi⟩ := mem_iff_getElem?.mp hmem
      have hlast := (hplaces i p hi).2 harray
      obtain ⟨hlt, hback⟩ := ho.oldPlace_idxOf (show i < order.size by omega)
      have hp : (order.apply parameters)[order.oldPlaces.idxOf i]? = some p := by
        rw [getElem?_apply ho hsize (by omega), hback, hi]
      have := (hnew _ p hp).2 harray
      rw [show parameters.length - 1 = order.oldPlaces.idxOf i by omega, hback]
      omega
  · rintro ⟨hfront, hlast⟩
    have hrequired : ∀ i < (order.apply parameters).countP isRequired, ∀ p,
        (order.apply parameters)[i]? = some p → p.isRequired = true := by
      intro i hi p hp
      rw [hcount] at hi
      exact (hplaces _ p (hget hp).2).1.mpr (hfront i hi)
    rw [keepRules_iff, hlen]
    intro i p hp
    refine ⟨lt_countP_iff_of_front hrequired hp, ?_⟩
    intro harray
    obtain ⟨hi, hold⟩ := hget hp
    have hat := (hplaces _ p hold).2 harray
    have hany : parameters.any isParamArray = true :=
      any_eq_true.mpr ⟨p, mem_of_getElem? hold, harray⟩
    have := hinj hi (by omega) (j := parameters.length - 1) (by rw [hlast hany]; omega)
    omega

end

end Parameter

/-! ## Runs -/

namespace Reorder

open Parameter

variable {p : Project} {request : ReorderRequest} {answers : Answers} {outcome : Outcome}
  {target : Declaration}

/-- The member that is changed for another: itself, or a member of an interface that it implements. -/
def ChangedFor (index : Index) (requested target : Declaration) : Prop :=
  (index.implementedBy requested.id = [] ∧ target = requested) ∨
    target ∈ index.implementedBy requested.id

theorem changedFor_of_answer {requested : Declaration} {question : Question}
    (hquestion : question? p.index requested = some question)
    (h : question.answer answers = .ok target) : ChangedFor p.index requested target := by
  right
  rw [question?] at hquestion
  split at hquestion
  · cases hquestion
  · rename_i member hmember
    cases hquestion
    rw [Question.answer] at h
    split at h
    · cases h
      rw [hmember]
      exact mem_singleton_self _
    · cases h
  · cases hquestion
    rw [Question.answer] at h
    split at h
    · cases h
    · split at h
      · rename_i hfind
        cases h
        exact mem_of_find?_eq_some hfind
      · cases h

/-- What has gone well in a reordering that succeeded with a new order. -/
theorem exists_target_of_reorder (h : (p.reorder request answers).result = .ok outcome)
    (hid : request.permutation.isIdentity = false) :
    ∃ requested target, p.declaration request.target = .ok requested ∧
      checkOrder requested.reorderable request.permutation = .ok () ∧
      ChangedFor p.index requested target ∧ perform p target request.permutation = .ok outcome := by
  rw [Project.reorder] at h
  cases hcheck : check p request with
  | error e =>
    rw [hcheck] at h
    cases h
  | ok todo =>
    obtain ⟨requested, hfound, -, -, hcases⟩ := of_check_ok hcheck
    rw [hcheck] at h
    rcases hcases with ⟨hsame, -⟩ | ⟨-, hrules, rfl⟩
    · rw [hid] at hsame
      cases hsame
    refine ⟨requested, ?_⟩
    cases hquestion : question? p.index requested with
    | none =>
      simp only [hquestion] at h
      refine ⟨requested, hfound, hrules, .inl ⟨?_, rfl⟩, h⟩
      rw [question?] at hquestion
      split at hquestion
      · assumption
      · cases hquestion
      · cases hquestion
    | some question =>
      simp only [hquestion] at h
      obtain ⟨target, hanswer, h⟩ := bind_eq_ok_iff.mp h
      exact ⟨target, hfound, hrules, changedFor_of_answer hquestion hanswer, h⟩

/-- A signature is never skipped. -/
theorem exists_signatureRefill_of_planSites {plan plan' : Plan} {sites : List ChangedPlace}
    (h : planSites p order plan sites = .ok plan') {site : ChangedPlace} (hsite : site ∈ sites)
    (hnone : site.reference? = none) : ∃ r, signatureRefill p site.declaration order = .ok r := by
  have hmanage : Manageable p order site := by
    induction sites generalizing plan with
    | nil => cases hsite
    | cons head rest ih =>
      rcases mem_cons.mp hsite with rfl | hmem
      · rcases planSites_cons h with ⟨m, r, hfound, -⟩ | ⟨hmanage, -⟩ | ⟨-, hsome, -⟩
        · exact hfound.manageable
        · exact hmanage
        · rw [hnone] at hsome
          cases hsome
      · rcases planSites_cons h with ⟨m, r, -, hrest⟩ | ⟨-, -, hrest⟩ | ⟨-, -, -, skipped, hrest⟩
        · exact ih hrest hmem
        · exact ih hrest hmem
        · exact ih hrest hmem
  rw [Manageable, hnone] at hmanage
  exact hmanage

/-- Every affected signature is written in the new order. -/
theorem exists_affected_of_perform (h : perform p target order = .ok outcome) :
    ∃ found, p.index.affected target = .ok found ∧
      ∀ d ∈ found.map Prod.fst, ∃ r, signatureRefill p d order = .ok r := by
  obtain ⟨sites, plan, hsites, hplan⟩ := of_perform_ok h
  obtain ⟨found, hfound, hmem⟩ := mem_changedPlaces_iff hsites
  refine ⟨found, hfound, ?_⟩
  refine forall_mem_map.mpr fun ⟨d', reason⟩ hentry => ?_
  exact exists_signatureRefill_of_planSites hplan ((hmem ⟨d', reason, none⟩).mpr
    ⟨d', reason, hentry, .inl rfl⟩) rfl

/-- A reordering that succeeds has held the requested member against the rules. Another signature that
it rewrites, and that kept the rules, keeps them if and only if the order suits its own required
parameters and its own `ParamArray`; so it does where these are as in the requested member. -/
theorem reorder_keepRules_iff (ho : request.permutation.Valid)
    (hid : request.permutation.isIdentity = false)
    (h : (p.reorder request answers).result = .ok outcome) :
    ∃ requested target found, p.declaration request.target = .ok requested ∧
      ChangedFor p.index requested target ∧ p.index.affected target = .ok found ∧
      KeepRules (request.permutation.apply requested.reorderable) ∧
      ∀ d ∈ found.map Prod.fst,
        (∃ r, signatureRefill p d request.permutation = .ok r ∧
          r.fills = (request.permutation.arrange r.slots).map Fill.source) ∧
        (KeepRules d.reorderable → (KeepRules (request.permutation.apply d.reorderable) ↔
          request.permutation.Suits d.reorderable)) ∧
        (d.reorderable.map Parameter.rank = requested.reorderable.map Parameter.rank →
          KeepRules (request.permutation.apply d.reorderable)) := by
  obtain ⟨requested, target, hrequested, hrules, hchanged, hperform⟩ := exists_target_of_reorder h hid
  obtain ⟨found, hfound, hwritten⟩ := exists_affected_of_perform hperform
  obtain ⟨hsize, hoptional, harray⟩ := checkOrder_eq_ok_iff.mp hrules
  rw [arrange_eq_apply hsize] at hoptional harray
  refine ⟨requested, target, found, hrequested, hchanged, hfound, ⟨hoptional, harray⟩, ?_⟩
  intro d hd
  obtain ⟨r, hr⟩ := hwritten d hd
  obtain ⟨node, list, -, -, -, hlen, rfl⟩ := signatureRefill_eq_ok_iff.mp hr
  refine ⟨⟨_, hr, rfl⟩, keepRules_apply_iff ho hlen.symm, ?_⟩
  intro hrank
  have hsame : (request.permutation.apply d.reorderable).map Parameter.rank =
      (request.permutation.apply requested.reorderable).map Parameter.rank := by
    rw [← arrange_eq_apply hlen.symm, ← arrange_eq_apply hsize, ← Permutation.arrange_map,
      ← Permutation.arrange_map, hrank]
  exact ⟨(optionalsLast_congr hsame).trans hoptional, (paramArrayLast_congr hsame).trans harray⟩

/-- Both accessors of a property keep the rules where the same parameters are optional in both. -/
theorem reorder_keepRules_accessors :
    let source : Source := ⟨⟨"P", "Class1"⟩, .classModule,
      "Public Property Get Foo(a, b, Optional c)\nEnd Property\n\nPublic Property Let Foo(a, b, Optional c, RHS)\nEnd Property\n".toList⟩
    let order : Permutation := ⟨[1, 0, 2]⟩
    let answers : Answers := ⟨fun _ => true, fun _ members => members.head?.map Declaration.id⟩
    ∃ p target outcome found, Project.read [source] = .ok p ∧ p.declaration target.id = .ok target ∧
      order.Valid ∧ order.isIdentity = false ∧
      (p.reorder ⟨target.id, order⟩ answers).result = .ok outcome ∧
      p.index.affected target = .ok found ∧ found.length = 2 ∧
      ∀ d ∈ found.map Prod.fst, KeepRules d.reorderable ∧ KeepRules (order.apply d.reorderable) := by
  intro source order answers
  let layout : Layout := .plain "Public Property Get Foo" (.list ["(", ", ", ", "]
    [.plain "a" .nil, .plain "b" .nil, .plain "Optional c" .nil] ")"
    (.plain "\nEnd Property\n\nPublic Property Let Foo" (.list ["(", ", ", ", ", ", "]
      [.plain "a" .nil, .plain "b" .nil, .plain "Optional c" .nil, .plain "RHS" .nil] ")"
      (.plain "\nEnd Property\n" .nil))))
  have hlayouts : Layouts order.size (fun _ => layout) [source] := .of_isRegular (by decide +kernel)
  have hrun : ∃ p ∈ (Project.read [source]).toOption, ∃ target ∈ p.index.get? 1,
      checkOrder target.reorderable order = .ok () ∧ Computes p target order.size (fun _ => layout) ∧
      ∃ found ∈ (p.index.affected target).toOption, found.length = 2 ∧
        ∀ d ∈ found.map Prod.fst, KeepRules d.reorderable ∧ order.Suits d.reorderable := by
    decide +kernel
  obtain ⟨p, hread, target, -, hrules, hcomputes, found, hfound, hlen, hkeep⟩ := hrun
  have hread := eq_ok_of_mem_toOption hread
  have hfound := eq_ok_of_mem_toOption hfound
  have hshows := hcomputes.shows
  obtain ⟨outcome, hresult, -⟩ := hshows.reorder_sources (List.pairwise_singleton _ _) hread hlayouts
    (by decide) hrules answers
  have ho : order.Valid := by decide
  have hid : order.isIdentity = false := by decide
  refine ⟨p, target, outcome, found, hread, hshows.found, ho, hid, hresult, hfound, hlen, ?_⟩
  obtain ⟨requested, member, affected, hrequested, hchanged, haffected, -, hall⟩ :=
    reorder_keepRules_iff ho hid hresult
  cases hshows.found.symm.trans hrequested
  rcases hchanged with ⟨-, rfl⟩ | hmember
  · cases hfound.symm.trans haffected
    intro d hd
    exact ⟨(hkeep d hd).1, ((hall d hd).2.1 (hkeep d hd).1).mpr (hkeep d hd).2⟩
  · rw [hshows.free] at hmember
    cases hmember

/-- Where a parameter is optional in the other accessor only, the order that the requested one allows
puts a required parameter behind it there. -/
theorem keepRules_fails_accessor :
    let source : Source := ⟨⟨"P", "Class1"⟩, .classModule,
      "Public Property Get Foo(a, b)\nEnd Property\n\nPublic Property Let Foo(a, Optional b, RHS)\nEnd Property\n".toList⟩
    let order : Permutation := ⟨[1, 0]⟩
    let answers : Answers := ⟨fun _ => true, fun _ members => members.head?.map Declaration.id⟩
    ∃ p target outcome found, Project.read [source] = .ok p ∧ p.declaration target.id = .ok target ∧
      order.Valid ∧ order.isIdentity = false ∧
      (p.reorder ⟨target.id, order⟩ answers).result = .ok outcome ∧
      p.index.implementedBy target.id = [] ∧ p.index.affected target = .ok found ∧
      (∀ d ∈ found.map Prod.fst, KeepRules d.reorderable) ∧
      ∃ d ∈ found.map Prod.fst, ¬ KeepRules (order.apply d.reorderable) := by
  intro source order answers
  let layout : Layout := .plain "Public Property Get Foo" (.list ["(", ", "]
    [.plain "a" .nil, .plain "b" .nil] ")"
    (.plain "\nEnd Property\n\nPublic Property Let Foo" (.list ["(", ", ", ", "]
      [.plain "a" .nil, .plain "Optional b" .nil, .plain "RHS" .nil] ")"
      (.plain "\nEnd Property\n" .nil))))
  have hlayouts : Layouts order.size (fun _ => layout) [source] := .of_isRegular (by decide +kernel)
  have hrun : ∃ p ∈ (Project.read [source]).toOption, ∃ target ∈ p.index.get? 1,
      checkOrder target.reorderable order = .ok () ∧ Computes p target order.size (fun _ => layout) ∧
      ∃ found ∈ (p.index.affected target).toOption,
        (∀ d ∈ found.map Prod.fst, KeepRules d.reorderable) ∧
        ∃ d ∈ found.map Prod.fst, ¬ KeepRules (order.apply d.reorderable) := by
    decide +kernel
  obtain ⟨p, hread, target, -, hrules, hcomputes, found, hfound, hbefore, hafter⟩ := hrun
  have hread := eq_ok_of_mem_toOption hread
  obtain ⟨outcome, hresult, -⟩ := hcomputes.shows.reorder_sources (List.pairwise_singleton _ _) hread
    hlayouts (by decide) hrules answers
  exact ⟨p, target, outcome, found, hread, hcomputes.shows.found, by decide, by decide, hresult,
    hcomputes.shows.free, eq_ok_of_mem_toOption hfound, hbefore, hafter⟩

end Reorder

end VbaRefactor
