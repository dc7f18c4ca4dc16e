import VbaRefactor.Proofs.Syntax.Clauses

/-!
# Mentions are apart

A statement mentions no name twice: the heads of its clauses stand in clauses that are apart, and the
operands are the names that no head takes. The arguments of a mention begin right behind its name, so
that no two mentions have the same list either.
-/

namespace VbaRefactor

open List

namespace Statement

section

variable {s : Statement} {start stop i : Nat} {m m' : Mention} {text : Text}

/-! ## No name twice -/

theorem length_only (mention? : Option Mention) : (only mention?).length ≤ 1 := by
  cases mention? <;> simp [only]

theorem length_headOf (s : Statement) (start stop : Nat) : (s.headOf start stop).length ≤ 1 := by
  rw [headOf]
  repeat' split
  all_goals first
    | exact length_only _
    | exact Nat.le_refl _
    | exact Nat.zero_le _

/-- The head of a clause mentions a name in the clause or, after `RaiseEvent`, right behind it. -/
theorem headOf_bounds {clause : Nat × Nat} (hclause : clause.1 < clause.2)
    (h : .mention m ∈ s.headOf clause.1 clause.2) : clause.1 ≤ m.name ∧ m.name ≤ clause.2 := by
  cases hopening : s.opening? clause.1 with
  | some first =>
    obtain ⟨bySet, hhead⟩ := headOf_eq hopening clause.2
    rw [hhead] at h
    obtain ⟨hle, hlt, -⟩ := chainFrom?_spec (callOrAssignment?_eq_some (mention_of_mem_only h)).1
    exact ⟨Nat.le_trans (opening?_bounds hopening) hle, Nat.le_of_lt hlt⟩
  | none =>
    rcases mention_of_mem_headOf hopening h with hcalled | hraised
    · obtain ⟨hle, hlt, -⟩ := chainFrom?_spec (calledName?_eq_some hcalled).1
      exact ⟨Nat.le_of_succ_le hle, Nat.le_of_lt hlt⟩
    · rw [(raisedName?_eq_some hraised).1]
      exact ⟨Nat.le_succ _, hclause⟩

/-- The names that the heads of a statement mention come in order. -/
theorem heads_increasing (s : Statement) : ((s.heads 0 s.length).filterMap Act.mention?).Pairwise
    fun a b => a.name < b.name := by
  rw [heads_eq_flatMap_clauses, pairwise_filterMap, pairwise_flatMap]
  constructor
  · intro clause _
    have hlength := length_headOf s clause.1 clause.2
    match s.headOf clause.1 clause.2, hlength with
    | [], _ => exact .nil
    | [act], _ => exact pairwise_singleton _ _
  · refine (List.Pairwise.and_mem.mp (clauses_apart s 0 s.length)).imp ?_
    rintro a b ⟨ha, hb, hlt⟩ (act : Act) hact (act' : Act) hact' m hm m' hm'
    cases act <;> cases hm
    cases act' <;> cases hm'
    have hfirst := headOf_bounds (clauses_bounds ha).2.1 hact
    have hnext := headOf_bounds (clauses_bounds hb).2.1 hact'
    omega

theorem operands_increasing (s : Statement) (taken : List Nat) :
    (s.operands taken).Pairwise fun a b => a.name < b.name := by
  rw [operands, pairwise_filterMap]
  refine pairwise_lt_range.imp ?_
  intro i j hlt m hm m' hm'
  split at hm
  · cases hm
  · split at hm'
    · cases hm'
    · rwa [(operand?_eq_some hm).1, (operand?_eq_some hm').1]

theorem not_mem_taken_of_mem_operands {taken : List Nat} (h : m ∈ s.operands taken) :
    m.name ∉ taken := by
  obtain ⟨i, -, hi⟩ := mem_filterMap.mp h
  split at hi
  · cases hi
  · rename_i htaken
    rw [(operand?_eq_some hi).1]
    exact mt contains_iff_mem.mpr htaken

/-- A statement mentions no name twice. -/
theorem acts_distinct (s : Statement) :
    (s.acts.filterMap Act.mention?).Pairwise fun a b => a.name ≠ b.name := by
  have hoperands (taken : List Nat) :
      ((s.operands taken).map Act.mention).filterMap Act.mention? = s.operands taken := by
    rw [filterMap_map]
    exact filterMap_some
  rw [acts, filterMap_append, hoperands]
  refine pairwise_append.mpr ⟨?_, ?_, ?_⟩
  · exact (heads_increasing s).imp Nat.ne_of_lt
  · exact (operands_increasing s _).imp Nat.ne_of_lt
  · intro a ha b hb heq
    exact not_mem_taken_of_mem_operands hb (heq ▸ mem_map_of_mem ha)

/-! ## Where arguments begin -/

/-- The arguments of a mention begin at the token behind its name, or behind it where that token is
the parenthesis around them. -/
structure Follows (s : Statement) (m : Mention) (list : ArgumentList) : Prop where
  next : m.name + 1 < s.length
  begins : list.extent.start = (s.spanAt (m.name + 1)).start ∨
    s.isPunct (m.name + 1) "(" = true ∧ list.extent.start = (s.spanAt (m.name + 1)).stop

theorem follows_argumentsIn? {list : ArgumentList} (hparen : s.isPunct (m.name + 1) "(" = true)
    (h : s.argumentsIn? (m.name + 1) stop = some list) : s.Follows m list := by
  obtain ⟨close, hclose, rfl⟩ := Option.map_eq_some_iff.mp h
  obtain ⟨hle, hlt⟩ := matching?_lt hclose
  rw [length_take] at hlt
  exact ⟨by omega, .inr ⟨hparen, rfl⟩⟩

theorem follows_bareArguments (hs : s.StandsIn text) (hlt : m.name + 1 < stop)
    (hstop : stop ≤ s.length) : s.Follows m (s.bareArguments (m.name + 1) stop) := by
  have hfirst : s[m.name + 1]? = some s[m.name + 1] := getElem?_eq_getElem (by omega)
  have hlast : s[stop - 1]? = some s[stop - 1] := getElem?_eq_getElem (by omega)
  refine ⟨by omega, .inl ?_⟩
  rw [bareArguments, hs.cover_spanAt hfirst hlast (by omega)]
  simp [spanAt, hfirst, Token.span]

/-- The arguments of a mention begin behind its name. -/
theorem Mentions.follows (hs : s.StandsIn text) (h : s.Mentions m) {list : ArgumentList}
    (hlist : m.use.arguments? = some list) (hsome : list.arguments ≠ []) : s.Follows m list := by
  have htakes := h.takes
  generalize m.use.arguments? = arguments? at htakes hlist
  cases htakes with
  | none => cases hlist
  | empty =>
    cases hlist
    exact absurd rfl hsome
  | inner hparen => exact follows_argumentsIn? hparen hlist
  | bare hlt hstop =>
    cases hlist
    exact follows_bareArguments hs hlt hstop

end

end Statement

end VbaRefactor
