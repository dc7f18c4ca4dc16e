import VbaRefactor.Reorder
import VbaRefactor.Proofs.Edit.Layout
import VbaRefactor.Proofs.ModuleTable

/-!
# The plan for an order

The plan that leaves the parameters in their order shows the lists that a reading finds. Where each of
them has something for every parameter, the plan for another order has the same lists with their
contents arranged.
-/

namespace VbaRefactor

open List ModuleMap

open Layout

variable {order : Permutation} {p : Project}

namespace Reorder

/-- The contents of a list go beyond `n` places, none of these and not the last one is empty. -/
structure Full (n : Nat) (r : Refill) : Prop where
  wide : n ≤ r.fills.length
  paired : r.slots.length = r.fills.length
  given : ∀ fill ∈ r.fills.take n, fill ≠ .empty
  lastGiven : ∀ fill ∈ r.fills.getLast?, fill ≠ .empty

/-- An order leaves a `ParamArray` at the end of a parameter list in its place. -/
def Steady (order : Permutation) (parameters : List Parameter) : Prop :=
  ∀ i, fixedCount parameters ≤ i → i < order.size → order.oldPlace i = i

section

variable {d : Declaration} {r : Refill} {fills : List Fill}

theorem signatureRefill_eq_ok_iff :
    signatureRefill p d order = .ok r ↔ ∃ node list, p.memberItem? d.id = some node ∧
      node.list? = some list ∧ list.spans.length = d.parameters.length ∧
      d.reorderable.length = order.size ∧
      r = ⟨list.extent.span, list.spans, (order.arrange list.spans).map Fill.source,
        decide (list.extent.lineStart ≠ list.extent.lineEnd)⟩ := by
  rw [signatureRefill]
  cases p.memberItem? d.id with
  | none => simp
  | some node =>
    cases hlist : node.list? with
    | none => simp [hlist]
    | some list =>
      simp only [hlist, Option.some.injEq, exists_and_left, exists_eq_left']
      by_cases hspans : list.spans.length = d.parameters.length
      · by_cases hcount : d.reorderable.length = order.size
        · simp [hspans, hcount, Permutation.arrange, eq_comm]
        · simp [hspans, hcount]
      · simp [hspans]

theorem signatureRefill_arranged (h : signatureRefill p d (.identity order.size) = .ok r) :
    signatureRefill p d order = .ok (arranged order r) := by
  obtain ⟨node, list, hnode, hlist, hspans, hcount, rfl⟩ := signatureRefill_eq_ok_iff.mp h
  rw [Permutation.size_identity] at hcount
  refine signatureRefill_eq_ok_iff.mpr ⟨node, list, hnode, hlist, hspans, hcount, ?_⟩
  rw [arranged, Permutation.arrange_identity, Permutation.arrange_map]

/-! ## The arguments of a call -/

theorem dropTrailingEmpty_eq_self (h : ∀ fill ∈ fills.getLast?, fill ≠ .empty) :
    dropTrailingEmpty fills = fills := by
  rcases eq_nil_or_concat fills with rfl | ⟨before, last, rfl⟩
  · rfl
  · have hlast : last ≠ .empty := h last (by simp)
    rw [dropTrailingEmpty, concat_eq_append, reverse_append, reverse_singleton,
      singleton_append, dropWhile_cons_of_neg (by simpa using hlast), reverse_cons,
      reverse_reverse]

theorem eq_of_length_dropTrailingEmpty (h : (dropTrailingEmpty fills).length = fills.length) :
    dropTrailingEmpty fills = fills := by
  rw [dropTrailingEmpty, length_reverse] at h
  have hall : fills.reverse.dropWhile (· = .empty) = fills.reverse :=
    (dropWhile_sublist _).eq_of_length (by rw [h, length_reverse])
  rw [dropTrailingEmpty, hall, reverse_reverse]

theorem fixedCount_le (parameters : List Parameter) : fixedCount parameters ≤ parameters.length := by
  rw [fixedCount]
  split
  · split <;> omega
  · omega

/-- The places of arguments in a new order of the parameters before a `ParamArray`. -/
theorem arrange_range {fixed count : Nat} (ho : order.Valid) (hwide : order.size ≤ count)
    (hfixed : fixed ≤ order.size) (hsteady : ∀ i, fixed ≤ i → i < order.size → order.oldPlace i = i) :
    order.arrange (List.range count) =
      (List.range fixed).map order.oldPlace ++ List.range' fixed (count - fixed) := by
  have hcount : order.size ≤ (List.range count).length := by
    rw [length_range]
    exact hwide
  apply ext_getElem?
  intro i
  rw [ho.getElem?_arrange hcount]
  by_cases hi : i < fixed
  · have hlt : order.source i < count := ho.source_lt hwide (by omega)
    rw [getElem?_range hlt, getElem?_append_left (by simpa using hi), getElem?_map,
      getElem?_range hi, Permutation.source, if_pos (by omega)]
    rfl
  · have hself : order.source i = i := by
      rw [Permutation.source]
      split
      · exact hsteady i (by omega) (by assumption)
      · rfl
    rw [hself, getElem?_append_right (by simpa using hi), length_map, length_range]
    by_cases hlt : i < count
    · rw [getElem?_range hlt, getElem?_range' (by omega)]
      congr 1
      omega
    · rw [getElem?_eq_none (by rw [length_range]; omega),
        getElem?_eq_none (by rw [length_range']; omega)]

/-- The fill that gives an argument back. -/
def argumentFill (a : Argument) : Fill := if a.kind = .missing then .empty else .source a.span

theorem map_fillOf (arguments : List Argument) :
    (List.range arguments.length).map (fillOf arguments) = arguments.map argumentFill := by
  apply ext_getElem
  · rw [length_map, length_range, length_map]
  · intro i hi hi'
    have hlt : i < arguments.length := by simpa using hi'
    simp only [getElem_map, getElem_range, fillOf, getElem?_eq_getElem hlt, argumentFill]

variable {arguments : List Argument} {parameters : List Parameter} {use : Reference}

/-- Where a call has enough arguments, its new ones are the old ones arranged, up to empty ones at the
end. -/
theorem callFills_eq (ho : order.Valid) (hcount : parameters.length = order.size)
    (hsteady : Steady order parameters) (hwide : order.size ≤ arguments.length) :
    callFills parameters order arguments =
      dropTrailingEmpty (order.arrange (arguments.map argumentFill)) := by
  have hfixed : fixedCount parameters ≤ order.size := hcount ▸ fixedCount_le parameters
  rw [callFills, ← map_fillOf, order.arrange_map, arrange_range ho hwide hfixed hsteady,
    map_append, map_map]
  rfl

theorem steady_identity (n : Nat) (parameters : List Parameter) : Steady (.identity n) parameters :=
  fun i _ hi => Permutation.oldPlace_identity (by rwa [Permutation.size_identity] at hi)

theorem callFills_arranged (ho : order.Valid) (hcount : parameters.length = order.size)
    (hsteady : Steady order parameters)
    (hr : r.fills = callFills parameters (.identity order.size) arguments)
    (hslots : r.slots.length = arguments.length) (hfull : Full order.size r) :
    callFills parameters order arguments = order.arrange r.fills := by
  have hlen : r.fills.length = arguments.length := by rw [← hfull.paired, hslots]
  have hwide : order.size ≤ arguments.length := hlen ▸ hfull.wide
  -- Nothing is dropped from the arguments in their old order.
  have hold : r.fills = arguments.map argumentFill := by
    rw [callFills_eq (Permutation.valid_identity _) (by rw [hcount, Permutation.size_identity])
      (steady_identity _ _) (by rwa [Permutation.size_identity]), Permutation.arrange_identity] at hr
    rw [hr, eq_of_length_dropTrailingEmpty]
    rw [← hr, hlen, length_map]
  rw [callFills_eq ho hcount hsteady hwide, ← hold]
  apply dropTrailingEmpty_eq_self
  intro fill hfill
  rcases getLast?_arrange ho hfull.wide hfill with hmem | hmem
  · exact hfull.given fill hmem
  · exact hfull.lastGiven fill hmem

/-- The number of parameters for which a call has to have an argument. -/
def requiredCount (d : Declaration) : Nat :=
  (d.reorderable.filter fun p => !p.isOptional && !p.isParamArray).length

/-- When the arguments of a call are reordered, and how. -/
theorem callRefill_eq_some_iff :
    callRefill d use order = .ok (some r) ↔ use.usage ≠ .returnValue ∧ ∃ list,
      use.arguments? = some list ∧ (list.arguments.isEmpty || list.everyNamed) = false ∧
      list.anyNamed = false ∧
      (list.arguments.length < requiredCount d →
        (callFills d.reorderable order list.arguments).head? ≠ some .empty) ∧
      r = ⟨list.extent, list.arguments.map Argument.span,
        callFills d.reorderable order list.arguments, false⟩ := by
  rw [callRefill]
  by_cases hreturn : use.usage = .returnValue
  · simp [hreturn]
  cases use.arguments? with
  | none => simp [hreturn]
  | some list =>
    simp only [ne_eq, hreturn, not_false_eq_true, true_and, Option.some.injEq, exists_eq_left']
    cases hnone : (list.arguments.isEmpty || list.everyNamed) with
    | true => simp
    | false =>
      cases hnamed : list.anyNamed with
      | true => simp
      | false =>
        by_cases hlacks : list.arguments.length < requiredCount d ∧
            (callFills d.reorderable order list.arguments).head? = some .empty
        · simp_all [requiredCount]
        have hgiven : list.arguments.length < requiredCount d →
            (callFills d.reorderable order list.arguments).head? ≠ some .empty :=
          fun hlt hhead => hlacks ⟨hlt, hhead⟩
        rw [if_neg (by simp), if_neg (by simp), if_neg (by simp),
          if_neg (by simpa [requiredCount] using hgiven)]
        constructor
        · intro h
          cases h
          exact ⟨rfl, rfl, hgiven, rfl⟩
        · rintro ⟨-, -, -, rfl⟩
          rfl

theorem callRefill_eq_none_iff :
    callRefill d use order = .ok none ↔ use.usage = .returnValue ∨ ∃ list,
      use.arguments? = some list ∧ (list.arguments.isEmpty || list.everyNamed) = true := by
  rw [callRefill]
  by_cases hreturn : use.usage = .returnValue
  · simp [hreturn]
  cases use.arguments? with
  | none => simp [hreturn]
  | some list =>
    simp only [hreturn, if_false, false_or, Option.some.injEq, exists_eq_left']
    cases (list.arguments.isEmpty || list.everyNamed) with
    | true => simp
    | false =>
      rw [if_neg (by simp)]
      constructor
      · intro h
        split at h
        · cases h
        · split at h <;> cases h
      · intro h
        cases h

theorem callRefill_arranged (ho : order.Valid) (hcount : d.reorderable.length = order.size)
    (hsteady : Steady order d.reorderable)
    (h : callRefill d use (.identity order.size) = .ok (some r)) (hfull : Full order.size r) :
    callRefill d use order = .ok (some (arranged order r)) := by
  obtain ⟨hreturn, list, hlist, hsome, hnamed, -, hr⟩ := callRefill_eq_some_iff.mp h
  have hfills : r.fills = callFills d.reorderable (.identity order.size) list.arguments := by rw [hr]
  have hslots : r.slots.length = list.arguments.length := by rw [hr, length_map]
  have hnew := callFills_arranged ho hcount hsteady hfills hslots hfull
  refine callRefill_eq_some_iff.mpr ⟨hreturn, list, hlist, hsome, hnamed, ?_, ?_⟩
  · intro hlacks
    have hrequired : requiredCount d ≤ d.reorderable.length := length_filter_le _ _
    have hwide := hfull.wide
    rw [← hfull.paired, hslots] at hwide
    omega
  · rw [hnew, arranged, hr]

end

/-! ## What a plan has -/

/-- The plan has a refill for a module. -/
def Plan.Has (plan : Plan) (m : ModuleName) (r : Refill) : Prop :=
  ∃ refills, plan.refills.get? m = some refills ∧ r ∈ refills

/-- The refill that a place needs, for the module in which it stands. -/
def Found (p : Project) (order : Permutation) (site : ChangedPlace) (m : ModuleName) (r : Refill) :
    Prop :=
  match site.reference? with
  | none => signatureRefill p site.declaration order = .ok r ∧ m = site.declaration.module
  | some use => callRefill site.declaration use order = .ok (some r) ∧ m = use.module

/-- The place can be changed or needs no change. -/
def Manageable (p : Project) (order : Permutation) (site : ChangedPlace) : Prop :=
  match site.reference? with
  | none => ∃ r, signatureRefill p site.declaration order = .ok r
  | some use => ∃ r?, callRefill site.declaration use order = .ok r?

section

variable {plan plan' : Plan} {site : ChangedPlace} {sites : List ChangedPlace} {m : ModuleName}
  {r : Refill}

theorem Plan.has_add (plan : Plan) (m k : ModuleName) (r s : Refill) :
    (plan.add m r).Has k s ↔ plan.Has k s ∨ (m.Same k ∧ s = r) := by
  by_cases hsame : m.Same k
  · rw [Has, Has, ← get?_congr plan.refills hsame]
    simp only [Plan.add, update, get?_insert, hsame]
    cases plan.refills.get? m <;> simp
  · simp [Has, Plan.add, update, get?_insert, hsame]

theorem Found.unique {m m' : ModuleName} {r r' : Refill} (h : Found p order site m r)
    (h' : Found p order site m' r') : m = m' ∧ r = r' := by
  rw [Found] at h h'
  split at h <;> simp_all

theorem Found.manageable (h : Found p order site m r) : Manageable p order site := by
  rw [Found] at h
  rw [Manageable]
  split at h <;> exact ⟨_, h.1⟩

/-- One place of a plan: it adds its refill, needs none, or is skipped. -/
theorem planSites_cons (h : planSites p order plan (site :: sites) = .ok plan') :
    (∃ m r, Found p order site m r ∧ planSites p order (plan.add m r) sites = .ok plan') ∨
    (Manageable p order site ∧ (∀ m r, ¬ Found p order site m r) ∧
      planSites p order plan sites = .ok plan') ∨
    (¬ Manageable p order site ∧ site.reference?.isSome = true ∧ (∀ m r, ¬ Found p order site m r) ∧
      ∃ skipped, planSites p order { plan with skipped := plan.skipped ++ [skipped] } sites =
        .ok plan') := by
  rw [planSites] at h
  cases huse : site.reference? with
  | none =>
    simp only [huse] at h
    cases hrefill : signatureRefill p site.declaration order with
    | error e =>
      rw [hrefill] at h
      cases h
    | ok r =>
      simp only [hrefill] at h
      exact .inl ⟨_, r, by simp [Found, huse, hrefill], h⟩
  | some use =>
    simp only [huse] at h
    cases hrefill : callRefill site.declaration use order with
    | error e =>
      simp only [hrefill] at h
      exact .inr (.inr ⟨by simp [Manageable, huse, hrefill], rfl, by simp [Found, huse, hrefill], _, h⟩)
    | ok r? =>
      cases r? with
      | none =>
        simp only [hrefill] at h
        exact .inr (.inl ⟨by simp [Manageable, huse, hrefill], by simp [Found, huse, hrefill], h⟩)
      | some r =>
        simp only [hrefill] at h
        exact .inl ⟨_, r, by simp [Found, huse, hrefill], h⟩

/-- A plan has what its places need, and nothing else. -/
theorem has_planSites_iff (h : planSites p order plan sites = .ok plan') {k : ModuleName} :
    plan'.Has k r ↔ plan.Has k r ∨ ∃ site ∈ sites, ∃ m, Found p order site m r ∧ m.Same k := by
  induction sites generalizing plan with
  | nil =>
    cases h
    simp
  | cons site sites ih =>
    simp only [exists_mem_cons_iff]
    rcases planSites_cons h with ⟨m, s, hfound, hrest⟩ | ⟨-, hnone, hrest⟩ | ⟨-, -, hnone, _, hrest⟩
    · rw [ih hrest, Plan.has_add, or_assoc]
      refine or_congr_right (or_congr_left ?_)
      constructor
      · rintro ⟨hsame, rfl⟩
        exact ⟨m, hfound, hsame⟩
      · rintro ⟨m', hfound', hsame⟩
        obtain ⟨rfl, rfl⟩ := hfound.unique hfound'
        exact ⟨hsame, rfl⟩
    · rw [ih hrest]
      simp [hnone]
    · rw [ih hrest]
      simp [hnone, Plan.Has]

/-- Nothing is skipped where every place can be changed. -/
theorem skipped_planSites_iff (h : planSites p order plan sites = .ok plan') :
    plan'.skipped = [] ↔ plan.skipped = [] ∧ ∀ site ∈ sites, Manageable p order site := by
  induction sites generalizing plan with
  | nil =>
    cases h
    simp
  | cons site sites ih =>
    simp only [forall_mem_cons]
    rcases planSites_cons h with ⟨m, s, hfound, hrest⟩ | ⟨hsite, -, hrest⟩ | ⟨hsite, -, -, _, hrest⟩
    · rw [ih hrest]
      simp [Plan.add, hfound.manageable]
    · rw [ih hrest]
      simp [hsite]
    · rw [ih hrest]
      simp [hsite]

theorem planSites_of_manageable (h : ∀ site ∈ sites, Manageable p order site) (plan : Plan) :
    ∃ plan', planSites p order plan sites = .ok plan' := by
  induction sites generalizing plan with
  | nil => exact ⟨plan, rfl⟩
  | cons site sites ih =>
    have hsite := h site mem_cons_self
    have hrest := ih (forall_mem_cons.mp h).2
    rw [planSites]
    cases huse : site.reference? with
    | none =>
      obtain ⟨r, hr⟩ : ∃ r, signatureRefill p site.declaration order = .ok r := by
        simpa [Manageable, huse] using hsite
      simpa only [hr] using hrest _
    | some use =>
      obtain ⟨r?, hr⟩ : ∃ r?, callRefill site.declaration use order = .ok r? := by
        simpa [Manageable, huse] using hsite
      cases r? <;> simpa only [hr] using hrest _

/-- A plan lists its modules in order, each with the refills that it needs. -/
theorem refills_planSites (h : planSites p order plan sites = .ok plan')
    (hsorted : Sorted plan.refills)
    (hsome : ∀ m, plan.refills.get? m ≠ some []) :
    Sorted plan'.refills ∧ ∀ m, plan'.refills.get? m ≠ some [] := by
  induction sites generalizing plan with
  | nil =>
    cases h
    exact ⟨hsorted, hsome⟩
  | cons site sites ih =>
    rcases planSites_cons h with ⟨m, r, -, hrest⟩ | ⟨-, -, hrest⟩ | ⟨-, -, -, _, hrest⟩
    · refine ih hrest (sorted_insert _ _ hsorted) ?_
      intro k
      rw [Plan.add, update, get?_insert]
      split
      · simp
      · exact hsome k
    · exact ih hrest hsorted hsome
    · exact ih hrest hsorted hsome

/-- What a place needs for an order is what it has now, arranged. -/
theorem Found.arranged (ho : order.Valid)
    (hcount : site.declaration.reorderable.length = order.size)
    (hsteady : Steady order site.declaration.reorderable)
    (h : Found p (.identity order.size) site m r) (hfull : Full order.size r) :
    Found p order site m (Layout.arranged order r) := by
  cases huse : site.reference? with
  | none =>
    simp only [Found, huse] at h ⊢
    exact ⟨signatureRefill_arranged h.1, h.2⟩
  | some use =>
    simp only [Found, huse] at h ⊢
    exact ⟨callRefill_arranged ho hcount hsteady h.1 hfull, h.2⟩

/-- A place that can be changed and needs no change needs none for any order. -/
theorem Manageable.found_or {n : Nat} (h : Manageable p (.identity n) site) :
    (∃ m r, Found p (.identity n) site m r) ∨
      ∀ order, Manageable p order site ∧ ∀ m r, ¬ Found p order site m r := by
  cases huse : site.reference? with
  | none =>
    simp only [Manageable, huse] at h
    obtain ⟨r, hr⟩ := h
    exact .inl ⟨site.declaration.module, r, by simp [Found, huse, hr]⟩
  | some use =>
    simp only [Manageable, huse] at h
    obtain ⟨r?, hr⟩ := h
    cases r? with
    | some r => exact .inl ⟨use.module, r, by simp [Found, huse, hr]⟩
    | none =>
      right
      intro order
      have hnone : callRefill site.declaration use order = .ok none :=
        callRefill_eq_none_iff.mpr (callRefill_eq_none_iff.mp hr)
      simp [Manageable, Found, huse, hnone]

end

end Reorder

end VbaRefactor
