import VbaRefactor.Proofs.Syntax.Mentions

/-!
# Qualifiers of mentions

The qualifier of a mention is a chain of names to the left of its name. So a reference starts before
its name if and only if it has a qualifier.
-/

namespace VbaRefactor

open List

namespace Statement

/-- The chain stands to the left of the name at an index. -/
structure Leads (s : Statement) (q : Qualifier) (name : Nat) : Prop where
  given : name < s.length
  names : ∀ i ∈ q.names, i < name
  point : q.leadingDot = true → 0 < name

section

variable {s : Statement} {start stop i name : Nat} {q : Qualifier} {m : Mention}

theorem lt_length_of_isName (h : s.isName i = true) : i < s.length := by
  rw [isName] at h
  cases ht : s[i]? with
  | none => simp [ht] at h
  | some t => exact (List.getElem?_eq_some_iff.mp ht).1

theorem leads_none (h : name < s.length) : s.Leads .none name :=
  ⟨h, by simp [Qualifier.none], by simp [Qualifier.none]⟩

theorem follow_leads {passed : List Nat} {leadingDot : Bool} (h : s.Leads ⟨leadingDot, passed⟩ name) :
    s.Leads ⟨leadingDot, (s.follow stop passed name).1⟩ (s.follow stop passed name).2 := by
  fun_induction follow s stop passed name with
  | case1 passed name hnext ih =>
    apply ih
    refine ⟨lt_length_of_isName hnext.2.2, ?_, fun _ => by omega⟩
    intro i hi
    rcases mem_append.mp hi with hi | hi
    · have := h.names i hi
      omega
    · cases mem_singleton.mp hi
      omega
  | case2 => exact h

theorem chainFrom?_leads (h : s.chainFrom? start stop = some (q, name)) : s.Leads q name := by
  obtain ⟨first, hindex, -, hname, hdot, hfollow⟩ := chainFrom?_eq_some h
  have hfirst : s.Leads ⟨q.leadingDot, []⟩ first := by
    refine ⟨lt_length_of_isName hname, by simp, ?_⟩
    intro hpoint
    rw [if_pos (hdot ▸ hpoint)] at hindex
    exact hindex ▸ Nat.succ_pos start
  have hleads : s.Leads _ (s.follow stop [] first).2 := follow_leads hfirst
  rwa [hfollow] at hleads

theorem qualifierAtDot?_lt (h : s.qualifierAtDot? i = some q) : ∀ j ∈ q.names, j < i := by
  fun_induction qualifierAtDot? s i generalizing q with
  | case1 | case6 =>
    cases h
    simp
  | case2 | case4 =>
    cases h
    simp
  | case3 k hname hpoint ih =>
    obtain ⟨before, hbefore, rfl⟩ := Option.map_eq_some_iff.mp h
    intro j hj
    rcases mem_append.mp hj with hj | hj
    · have := ih hbefore j hj
      omega
    · cases mem_singleton.mp hj
      omega
  | case5 => cases h

theorem qualifierAt?_leads (hname : name < s.length) (h : s.qualifierAt? name = some q) :
    s.Leads q name := by
  cases name with
  | zero =>
    cases h
    exact leads_none hname
  | succ i =>
    rw [qualifierAt?] at h
    split at h
    · refine ⟨hname, ?_, fun _ => Nat.succ_pos i⟩
      intro j hj
      have := qualifierAtDot?_lt h j hj
      omega
    · cases h
      exact leads_none hname

theorem Mentions.leads (h : s.Mentions m) : s.Leads m.qualifier m.name := by
  cases h with
  | callOrAssignment _ h => exact chainFrom?_leads (callOrAssignment?_eq_some h).1
  | called h => exact chainFrom?_leads (calledName?_eq_some h).1
  | raised h =>
    obtain ⟨-, hname, hqualifier, -⟩ := raisedName?_eq_some h
    rw [hqualifier]
    exact leads_none (lt_length_of_isName hname)
  | operand h =>
    obtain ⟨rfl, hname, hqualifier, -⟩ := operand?_eq_some h
    exact qualifierAt?_leads (lt_length_of_isName hname) hqualifier

theorem exists_spanAt (h : i < s.length) : ∃ t ∈ s, s.spanAt i = t.span :=
  ⟨s.get ⟨i, h⟩, get_mem s ⟨i, h⟩, by simp [spanAt, h]⟩

theorem StandsIn.spanAt_start_lt {text : Text} (h : s.StandsIn text) {j : Nat} (hlt : i < j)
    (hj : j < s.length) : (s.spanAt i).start < (s.spanAt j).start := by
  have ha : s[i]? = some s[i] := getElem?_eq_getElem (by omega)
  have hb : s[j]? = some s[j] := getElem?_eq_getElem hj
  have hstop := h.stop_le ha hb hlt
  have := h.lt (mem_of_getElem? ha)
  simp only [spanAt, ha, hb, Option.map_some, Option.getD_some, Token.span]
  omega

end

end Statement

namespace Place

variable {p : Place} {withs : WithStack} {m : Mention} {r : Reference}

/-- A mention starts at a token in front of its name, or at the name if nothing stands there. -/
theorem exists_qualifiedStart (h : p.tokens.Leads m.qualifier m.name) :
    ∃ i ≤ m.name, p.qualifiedStart m = (p.tokens.spanAt i).start ∧
      (i = m.name ↔ m.qualifier.isNone = true) := by
  rw [qualifiedStart]
  split
  · rename_i first hfirst hdot
    have := h.names first (mem_of_mem_head? hfirst)
    refine ⟨first - 1, by omega, rfl, ?_⟩
    simp [Qualifier.isNone, hdot]
    omega
  · rename_i first hfirst hdot
    have := h.names first (mem_of_mem_head? hfirst)
    refine ⟨first, by omega, rfl, ?_⟩
    have hnames : m.qualifier.names ≠ [] := by
      rintro hnil
      simp [hnil] at hfirst
    simp [Qualifier.isNone, hnames]
    omega
  · rename_i hdot
    have := h.point hdot
    refine ⟨m.name - 1, by omega, rfl, ?_⟩
    simp [Qualifier.isNone, hdot]
    omega
  · rename_i hnames hdot
    rw [head?_eq_none_iff] at hnames
    exact ⟨m.name, Nat.le_refl _, rfl, by simp [Qualifier.isNone, hnames, hdot]⟩

/-- What a mention is bound to: the result of the member it stands in, or a declaration that it can
mean. -/
theorem bind?_eq_some (h : p.bind? withs m = some r) :
    r.member = p.member ∧ r.selection = p.source.text.extent (p.tokens.spanAt m.name) ∧
      ((p.isReturnValue m = true ∧ r.declaration = p.member ∧ r.qualified = r.selection) ∨
        (p.isReturnValue m = false ∧ (∃ d ∈ p.candidates withs m, r.declaration = d.id) ∧
          r.qualified = p.source.text.extent ⟨p.qualifiedStart m, (p.tokens.spanAt m.name).stop⟩)) := by
  rcases bind?_cases h with ⟨hresult, rfl⟩ | ⟨hresult, d, hd, _, _, rfl, -⟩
  · exact ⟨rfl, rfl, .inl ⟨hresult, rfl, rfl⟩⟩
  · exact ⟨rfl, rfl, .inr ⟨hresult, ⟨d, hd, rfl⟩, rfl⟩⟩

end Place

end VbaRefactor
