import Mathlib.Data.List.TakeWhile
import VbaRefactor.Proofs.Reorder.Rules

/-!
# What a call passes after a reordering

A parameter receives the argument at its own place, and a `ParamArray` all arguments from its place
on. When parameters are reordered and the arguments of a call follow, every parameter receives what
it received before, however many arguments the call gives, whichever it leaves out and however many
it gives to a `ParamArray`.
-/

namespace VbaRefactor

open List

namespace Reorder

/-- The argument at a place of a call; nothing where it is left out or the call ends before. -/
def given? (arguments : List Argument) (place : Nat) : Option Fill :=
  (arguments[place]?.filter (·.kind ≠ .missing)).map fun a => .source a.span

/-- The argument at a place of a list of fillings, read in the same way. -/
def filled? (fills : List Fill) (place : Nat) : Option Fill := fills[place]?.filter (· ≠ .empty)

/-- The `k`th value that the parameter at a place receives when a call gives these arguments. -/
def received (parameters : List Parameter) (arguments : Nat → Option Fill) (place k : Nat) :
    Option Fill :=
  match parameters[place]? with
  | none => none
  | some p => if p.isParamArray then arguments (place + k) else if k = 0 then arguments place else none

section

variable {arguments : List Argument} {parameters : List Parameter} {order : Permutation}
  {fills : List Fill} {place : Nat}

/-! ## Empty fillings -/

theorem exists_append_replicate_eq (fills : List Fill) :
    ∃ k, dropTrailingEmpty fills ++ List.replicate k Fill.empty = fills := by
  refine ⟨(fills.reverse.takeWhile (· = .empty)).length, ?_⟩
  have hempty : fills.reverse.takeWhile (· = .empty) =
      List.replicate (fills.reverse.takeWhile (· = .empty)).length .empty := by
    refine eq_replicate_of_mem fun fill hfill => ?_
    simpa using mem_takeWhile_imp hfill
  rw [← reverse_inj, reverse_append, reverse_replicate, ← hempty, dropTrailingEmpty,
    reverse_reverse, takeWhile_append_dropWhile]

theorem getLast?_dropTrailingEmpty (fills : List Fill) :
    (dropTrailingEmpty fills).getLast? ≠ some .empty := by
  have hhead := head?_dropWhile_not (fun fill : Fill => decide (fill = .empty)) fills.reverse
  rw [dropTrailingEmpty, getLast?_reverse]
  intro hempty
  rw [hempty] at hhead
  simp at hhead

theorem filled?_append_replicate (fills : List Fill) (k place : Nat) :
    filled? (fills ++ List.replicate k .empty) place = filled? fills place := by
  rw [filled?, filled?]
  by_cases hlt : place < fills.length
  · rw [getElem?_append_left hlt]
  · rw [getElem?_append_right (by omega), getElem?_eq_none (by omega : fills.length ≤ place),
      getElem?_replicate]
    split <;> rfl

theorem filter_append_replicate (fills : List Fill) (k : Nat) :
    (fills ++ List.replicate k Fill.empty).filter (· ≠ Fill.empty) = fills.filter (· ≠ .empty) := by
  simp [filter_append]

/-! ## The fillings of a call -/

theorem fillOf_eq_empty (h : arguments.length ≤ place) : fillOf arguments place = .empty := by
  rw [fillOf, getElem?_eq_none h]

theorem filter_fillOf (arguments : List Argument) (place : Nat) :
    (some (fillOf arguments place)).filter (· ≠ .empty) = given? arguments place := by
  rw [fillOf, given?]
  cases arguments[place]? with
  | none => rfl
  | some a => by_cases hmissing : a.kind = .missing <;> simp [hmissing, Option.filter]

theorem filter_argumentFill (arguments : List Argument) :
    (arguments.map argumentFill).filter (· ≠ .empty) =
      (arguments.filter (·.kind ≠ .missing)).map fun a => .source a.span := by
  induction arguments with
  | nil => rfl
  | cons a rest ih => by_cases hmissing : a.kind = .missing <;> simp_all [argumentFill]

theorem map_fillOf_range' (arguments : List Argument) {start : Nat} (h : arguments.length ≤ start)
    (count : Nat) :
    (List.range' start count).map (fillOf arguments) = List.replicate count .empty := by
  refine eq_replicate_iff.mpr ⟨by simp, ?_⟩
  refine forall_mem_map.mpr fun place hplace => ?_
  exact fillOf_eq_empty (by rw [mem_range'_1] at hplace; omega)

section

variable (ho : order.Valid) (hcount : parameters.length = order.size)
  (hsteady : Steady order parameters)

include ho hcount hsteady

/-- With empty fillings behind them, the new arguments are those of all places in the new order. -/
theorem callFills_append_replicate (arguments : List Argument) :
    ∃ k, callFills parameters order arguments ++ List.replicate k .empty =
      (order.arrange (List.range (max order.size arguments.length))).map (fillOf arguments) := by
  have hfixed : fixedCount parameters ≤ order.size := hcount ▸ fixedCount_le parameters
  generalize hn : max order.size arguments.length = n
  obtain ⟨k, hk⟩ := exists_append_replicate_eq
    ((List.range (fixedCount parameters)).map (fun new => fillOf arguments (order.oldPlace new)) ++
      (List.range' (fixedCount parameters) (arguments.length - fixedCount parameters)).map
        (fillOf arguments))
  -- The places between the end of the call and the last parameter have no argument.
  have hrest : List.range' (fixedCount parameters) (n - fixedCount parameters) =
      List.range' (fixedCount parameters) (arguments.length - fixedCount parameters) ++
        List.range' (fixedCount parameters + (arguments.length - fixedCount parameters))
          (n - fixedCount parameters - (arguments.length - fixedCount parameters)) := by
    rw [range'_append_1]
    congr 1
    omega
  have hempty := map_fillOf_range' arguments
    (show arguments.length ≤ fixedCount parameters + (arguments.length - fixedCount parameters) by omega)
    (n - fixedCount parameters - (arguments.length - fixedCount parameters))
  refine ⟨k + (n - fixedCount parameters - (arguments.length - fixedCount parameters)), ?_⟩
  rw [arrange_range ho (by omega) hfixed hsteady, hrest, map_append, map_append,
    map_map, hempty, ← append_assoc, replicate_add, ← append_assoc]
  exact congrArg (· ++ List.replicate _ Fill.empty) hk

/-- The new argument at a place is the old one of the place that goes there. -/
theorem filled?_callFills (arguments : List Argument) (place : Nat) :
    filled? (callFills parameters order arguments) place = given? arguments (order.source place) := by
  obtain ⟨k, hk⟩ := callFills_append_replicate ho hcount hsteady arguments
  have hwide : order.size ≤ (List.range (max order.size arguments.length)).length := by
    rw [length_range]
    omega
  rw [← filled?_append_replicate _ k, hk, filled?, getElem?_map, ho.getElem?_arrange hwide]
  by_cases hplace : order.source place < max order.size arguments.length
  · rw [getElem?_range hplace, Option.map_some, filter_fillOf]
  · rw [getElem?_eq_none (by rw [length_range]; omega), given?, getElem?_eq_none (by omega)]
    rfl

/-- Every argument that a call gives is among its new ones once. -/
theorem filter_callFills_perm (arguments : List Argument) :
    ((callFills parameters order arguments).filter (· ≠ .empty)).Perm
      ((arguments.filter (·.kind ≠ .missing)).map fun a => .source a.span) := by
  obtain ⟨k, hk⟩ := callFills_append_replicate ho hcount hsteady arguments
  have hrange : List.range (max order.size arguments.length) = List.range arguments.length ++
      List.range' arguments.length (max order.size arguments.length - arguments.length) := by
    rw [range_eq_range', range_eq_range']
    have happend := range'_append_1 (s := 0) (m := arguments.length)
      (n := max order.size arguments.length - arguments.length)
    rw [Nat.zero_add] at happend
    rw [happend]
    congr 1
    omega
  have hplaces : (List.range (max order.size arguments.length)).map (fillOf arguments) =
      arguments.map argumentFill ++
        List.replicate (max order.size arguments.length - arguments.length) .empty := by
    rw [hrange, map_append, map_fillOf, map_fillOf_range' arguments (Nat.le_refl _)]
  calc
    (callFills parameters order arguments).filter (· ≠ .empty)
        = ((order.arrange (List.range (max order.size arguments.length))).map
            (fillOf arguments)).filter (· ≠ .empty) := by rw [← hk, filter_append_replicate]
    List.Perm _ (((List.range (max order.size arguments.length)).map
            (fillOf arguments)).filter (· ≠ .empty)) :=
          ((ho.perm_arrange _).map _).filter _
    _ = (arguments.filter (·.kind ≠ .missing)).map fun a => .source a.span := by
          rw [hplaces, filter_append_replicate, filter_argumentFill]

end

/-! ## Parameters -/

/-- Where a `ParamArray` comes last at most, all parameters before it are fixed. -/
theorem fixedCount_eq_countP (h : Parameter.paramArrayLast parameters = true) :
    fixedCount parameters = parameters.countP (!·.isParamArray) := by
  rw [Parameter.paramArrayLast_iff] at h
  rcases eq_nil_or_concat parameters with rfl | ⟨before, last, rfl⟩
  · rfl
  · rw [concat_eq_append, dropLast_concat] at h
    have hbefore : before.countP (!·.isParamArray) = before.length :=
      countP_eq_length.mpr fun p hp => by simp [h p hp]
    rw [fixedCount, concat_eq_append, getLast?_concat, countP_append, hbefore]
    cases harray : last.isParamArray <;> simp [harray]

theorem eq_last_of_isParamArray (h : Parameter.paramArrayLast parameters = true) {p : Parameter}
    (hp : parameters[place]? = some p) (harray : p.isParamArray = true) :
    place + 1 = parameters.length := by
  rw [Parameter.paramArrayLast_iff] at h
  have hlt := (List.getElem?_eq_some_iff.mp hp).1
  by_contra hne
  have hmem : p ∈ parameters.dropLast := by
    apply mem_of_getElem? (i := place)
    rw [getElem?_dropLast, if_pos (by omega), hp]
  rw [h p hmem] at harray
  cases harray

/-- Every parameter receives in the new order what it received in the old one. -/
theorem received_apply (ho : order.Valid) (hlast : Parameter.paramArrayLast parameters = true)
    (hrules : Parameter.checkOrder parameters order = .ok ()) {old new : Nat → Option Fill}
    (hnew : ∀ place, new place = old (order.source place)) (hplace : place < parameters.length)
    (k : Nat) :
    received (order.apply parameters) new place k =
      received parameters old (order.oldPlace place) k := by
  obtain ⟨hsize, -, harranged⟩ := checkOrder_eq_ok_iff.mp hrules
  have hget := Parameter.getElem?_apply ho hsize hplace
  have hsource : order.source place = order.oldPlace place := by
    rw [Permutation.source, if_pos (by omega)]
  rw [received, received, hget]
  cases hp : parameters[order.oldPlace place]? with
  | none => rfl
  | some p =>
    simp only
    by_cases harray : p.isParamArray = true
    · -- A `ParamArray` is last before and after, so it stays, and what stands behind it too.
      have hold := eq_last_of_isParamArray hlast hp harray
      have hp' : (order.arrange parameters)[place]? = some p := by
        rw [ho.getElem?_arrange (Nat.le_of_eq hsize), hsource, hp]
      have hstay := eq_last_of_isParamArray harranged hp' harray
      rw [ho.length_arrange] at hstay
      rw [if_pos harray, if_pos harray, hnew]
      congr 1
      rw [Permutation.source]
      split
      · have hk : k = 0 := by omega
        rw [hk, Nat.add_zero, Nat.add_zero]
      · omega
    · rw [if_neg harray, if_neg harray]
      by_cases hk : k = 0
      · rw [if_pos hk, if_pos hk, hnew, hsource]
      · rw [if_neg hk, if_neg hk]

end

/-- A call keeps its meaning. Where an order keeps the rules on `ParamArray` that the old one keeps,
each new argument of a rewritten call is the old one of the parameter that now stands there, or left
out as that one was; the arguments of a `ParamArray` and those beyond all parameters stay, and only
left out ones at the end are dropped. So every parameter receives what it received before, and each
argument that was given is given once. -/
theorem callRefill_keeps_meaning {d : Declaration} {r : Reference} {order : Permutation}
    {refill : Refill} (ho : order.Valid) (hlast : Parameter.paramArrayLast d.reorderable = true)
    (hrules : Parameter.checkOrder d.reorderable order = .ok ())
    (h : callRefill d r order = .ok (some refill)) :
    ∃ list, r.arguments? = some list ∧ (∀ a ∈ list.arguments, a.isNamed = false) ∧
      refill.region = list.extent ∧ refill.slots = list.arguments.map Argument.span ∧
      (∀ j < d.reorderable.countP (!·.isParamArray),
        filled? refill.fills j = given? list.arguments (order.oldPlace j)) ∧
      (∀ j, d.reorderable.countP (!·.isParamArray) ≤ j →
        filled? refill.fills j = given? list.arguments j) ∧
      refill.fills.getLast? ≠ some .empty ∧
      (∀ j < d.reorderable.length, (order.apply d.reorderable)[j]? = d.reorderable[order.oldPlace j]? ∧
        ∀ k, received (order.apply d.reorderable) (filled? refill.fills) j k =
          received d.reorderable (given? list.arguments) (order.oldPlace j) k) ∧
      (refill.fills.filter (· ≠ .empty)).Perm
        ((list.arguments.filter (·.kind ≠ .missing)).map fun a => .source a.span) := by
  obtain ⟨-, list, hlist, -, hnamed, -, rfl⟩ := callRefill_eq_some_iff.mp h
  have hsize := (checkOrder_eq_ok_iff.mp hrules).1
  have hsteady := steady_of_checkOrder ho hrules
  have hfixed := fixedCount_eq_countP hlast
  have hle := fixedCount_le d.reorderable
  have hfilled := filled?_callFills ho hsize.symm hsteady list.arguments
  refine ⟨list, hlist, ?_, rfl, rfl, ?_, ?_, getLast?_dropTrailingEmpty _, ?_,
    filter_callFills_perm ho hsize.symm hsteady list.arguments⟩
  · simpa [ArgumentList.anyNamed] using hnamed
  · intro j hj
    rw [hfilled, Permutation.source, if_pos (by omega)]
  · intro j hj
    rw [hfilled, Permutation.source]
    split
    · rw [hsteady j (by omega) (by assumption)]
    · rfl
  · intro j hj
    exact ⟨Parameter.getElem?_apply ho hsize hj, received_apply ho hlast hrules hfilled hj⟩

/-- A call that leaves out its second argument and gives two to a `ParamArray`. -/
theorem callRefill_keeps_meaning_gap :
    let source : Source := ⟨⟨"P", "M"⟩, .standard,
      "Public Sub Log(a, b, c, ParamArray v())\nEnd Sub\n\nPublic Sub T()\n    Log 1, , 3, 7, 8\nEnd Sub\n".toList⟩
    let order : Permutation := ⟨[1, 0, 2, 3]⟩
    ∃ p d r refill list, Project.read [source] = .ok p ∧ p.index.get? 1 = some d ∧
      r ∈ p.index.references ∧ r.arguments? = some list ∧ order.Valid ∧
      Parameter.paramArrayLast d.reorderable = true ∧
      Parameter.checkOrder d.reorderable order = .ok () ∧
      callRefill d r order = .ok (some refill) ∧ refill.fills.head? = some .empty ∧
      received d.reorderable (given? list.arguments) 3 1 ≠ none ∧
      ∀ j < d.reorderable.length, ∀ k, received (order.apply d.reorderable) (filled? refill.fills) j k =
        received d.reorderable (given? list.arguments) (order.oldPlace j) k := by
  intro source order
  have hrun : ∃ p ∈ (Project.read [source]).toOption, ∃ d ∈ p.index.get? 1, ∃ r ∈ p.index.references,
      ∃ list ∈ r.arguments?, Parameter.paramArrayLast d.reorderable = true ∧
      Parameter.checkOrder d.reorderable order = .ok () ∧
      ∃ refill? ∈ (callRefill d r order).toOption, ∃ refill ∈ refill?,
        refill.fills.head? = some .empty ∧ received d.reorderable (given? list.arguments) 3 1 ≠ none := by
    decide +kernel
  obtain ⟨p, hread, d, hd, r, hr, list, hlist, hlast, hrules, refill?, hrefill?, refill, hrefill, hhead,
    hthird⟩ := hrun
  have hcall : callRefill d r order = .ok (some refill) := by
    rw [eq_ok_of_mem_toOption hrefill?, Option.mem_def.mp hrefill]
  have ho : order.Valid := by decide
  refine ⟨p, d, r, refill, list, eq_ok_of_mem_toOption hread, hd, hr, hlist, ho, hlast, hrules, hcall,
    hhead, hthird, fun j hj => ?_⟩
  obtain ⟨found, hfound, -, -, -, -, -, -, hreceived, -⟩ :=
    callRefill_keeps_meaning ho hlast hrules hcall
  cases hfound.symm.trans hlist
  exact (hreceived j hj).2

end Reorder

end VbaRefactor
