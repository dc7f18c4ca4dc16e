import VbaRefactor.Proofs.Syntax.Qualifiers

/-!
# Two readings of a chain

At the head of a statement a chain of names is read from its beginning, inside of an expression from
its last name backwards. Both find the same qualifier, except for a chain with a leading point behind
a keyword: backwards the keyword is taken for the first name, so that `If .Foo(1)` is read as the
member `Foo` of something called `If`.
-/

namespace VbaRefactor

/-- The qualifier with more names behind its own. -/
def Qualifier.extend (q : Qualifier) (names : List Nat) : Qualifier :=
  { q with names := q.names ++ names }

theorem Qualifier.extend_nil (q : Qualifier) : q.extend [] = q := by simp [extend]

theorem Qualifier.extend_extend (q : Qualifier) (a b : List Nat) :
    (q.extend a).extend b = q.extend (a ++ b) := by simp [extend]

namespace Statement

/-- A chain can start at an index: it is the first, or the token before it is neither a point nor a
closing parenthesis, nor a name that is no keyword. -/
def StartsChain (s : Statement) : Nat → Prop
  | 0 => True
  | j + 1 => s.isPunct j "." = false ∧ s.isPunct j ")" = false ∧ (s.word? j).all isKeyword = true

instance (s : Statement) : (i : Nat) → Decidable (s.StartsChain i)
  | 0 => inferInstanceAs (Decidable True)
  | _ + 1 => inferInstanceAs (Decidable (_ ∧ _))

section

variable {s : Statement} {start stop i name : Nat} {q : Qualifier}

/-- Behind `name.` stands the chain of that name, with the name. -/
theorem qualifierAtDot?_of_isName (hname : s.isName i = true) :
    s.qualifierAtDot? (i + 1) = (s.qualifierAt? i).map (·.extend [i]) := by
  rw [qualifierAtDot?.eq_def]
  simp only [hname, if_true]
  cases i with
  | zero => rfl
  | succ k =>
    rw [qualifierAt?]
    by_cases hpoint : s.isPunct k "." = true
    · simp only [hpoint, if_true]
      rfl
    · simp only [hpoint]
      rfl

theorem qualifierAt?_of_isPunct (hpoint : s.isPunct i "." = true) :
    s.qualifierAt? (i + 1) = s.qualifierAtDot? i := by
  rw [qualifierAt?, if_pos hpoint]

/-- Each step forwards is undone by a step backwards. -/
theorem qualifierAt?_follow (stop : Nat) (passed : List Nat) (hname : s.isName name = true) :
    ∃ names, (s.follow stop passed name).1 = passed ++ names ∧
      s.qualifierAt? (s.follow stop passed name).2 =
        (s.qualifierAt? name).map (·.extend names) := by
  fun_induction follow s stop passed name with
  | case1 passed name hnext ih =>
    obtain ⟨-, hpoint, hnext⟩ := hnext
    obtain ⟨names, hfirst, hsecond⟩ := ih hnext
    refine ⟨name :: names, by simp [hfirst], ?_⟩
    rw [hsecond, qualifierAt?_of_isPunct hpoint, qualifierAtDot?_of_isName hname, Option.map_map]
    congr 1
    funext q
    exact q.extend_extend [name] names
  | case2 passed name hend => exact ⟨[], by simp, by simp [Qualifier.extend_nil]⟩

/-- The chain that is read forwards from an index, read backwards: the names that it passes stand
behind what stands before its first name. -/
theorem qualifierAt?_of_chainFrom? (h : s.chainFrom? start stop = some (q, name)) :
    q.leadingDot = s.isPunct start "." ∧ s.qualifierAt? name =
        (s.qualifierAt? (if q.leadingDot = true then start + 1 else start)).map (·.extend q.names) := by
  obtain ⟨first, hfirst, -, hname, hdot, hfollow⟩ := chainFrom?_eq_some h
  obtain ⟨names, hnames, hback⟩ := qualifierAt?_follow stop [] hname
  simp only [hfollow, List.nil_append] at hnames hback
  exact ⟨hdot, by rw [hdot, hfirst, hback, hnames]⟩

/-- Nothing stands before a name at which a chain can start. -/
theorem StartsChain.qualifierAt? (h : s.StartsChain start) : s.qualifierAt? start = some .none := by
  cases start with
  | zero => rfl
  | succ j => rw [Statement.qualifierAt?, if_neg (by rw [h.1]; exact Bool.false_ne_true)]

/-- A point at which a chain can start is a leading one, unless a keyword stands before it. -/
theorem StartsChain.qualifierAtDot? (h : s.StartsChain start)
    (hword : ∀ j, start = j + 1 → (s.word? j).any isKeyword = false) :
    s.qualifierAtDot? start = some ⟨true, []⟩ := by
  cases start with
  | zero => rfl
  | succ j =>
    obtain ⟨-, hclosing, hkeyword⟩ := h
    have hname : s.isName j = false := by
      rw [isName_eq_isSome_word?]
      cases hj : s.word? j with
      | none => rfl
      | some word =>
        have hnot := hword j rfl
        rw [hj] at hkeyword hnot
        simp only [Option.all_some, Option.any_some] at hkeyword hnot
        exact absurd hkeyword (by simp [hnot])
    rw [qualifierAtDot?.eq_def]
    simp only [hname, hclosing, Bool.false_eq_true, if_false]

theorem qualifierAt?_of_operand? {m : Mention} (h : s.operand? i = some m) :
    m.name = i ∧ s.qualifierAt? i = some m.qualifier := by
  obtain ⟨hname, -, hqualifier, -⟩ := operand?_eq_some h
  exact ⟨hname, hqualifier⟩

/-- Both readings of a chain agree, except where it begins with a point behind a keyword: there the
reading backwards has the keyword, and what stands before it, in front of the names. So a name that
is mentioned inside of an expression has the qualifier of its chain in all other cases. -/
theorem qualifierAt?_eq_iff (hstart : s.StartsChain start)
    (h : s.chainFrom? start stop = some (q, name)) :
    (s.qualifierAt? name = some q ↔
      ¬ (q.leadingDot = true ∧ ∃ j, start = j + 1 ∧ (s.word? j).any isKeyword = true)) ∧
    (∀ j, q.leadingDot = true → start = j + 1 → (s.word? j).any isKeyword = true →
      s.qualifierAt? name = (s.qualifierAt? j).map (·.extend (j :: q.names))) ∧
    ∀ m, s.operand? name = some m → (m.qualifier = q ↔
      ¬ (q.leadingDot = true ∧ ∃ j, start = j + 1 ∧ (s.word? j).any isKeyword = true)) := by
  obtain ⟨hpoint, hback⟩ := qualifierAt?_of_chainFrom? h
  have hkeyword (j : Nat) (hdot : q.leadingDot = true) (hj : start = j + 1)
      (hword : (s.word? j).any isKeyword = true) :
      s.qualifierAt? name = (s.qualifierAt? j).map (·.extend (j :: q.names)) := by
    have hname : s.isName j = true := by
      rw [isName_eq_isSome_word?]
      cases hw : s.word? j with
      | none => simp [hw] at hword
      | some word => rfl
    rw [hback, if_pos hdot, qualifierAt?_of_isPunct (hpoint ▸ hdot), hj,
      qualifierAtDot?_of_isName hname, Option.map_map]
    congr 1
    funext k
    exact k.extend_extend [j] q.names
  have hagree : s.qualifierAt? name = some q ↔
      ¬ (q.leadingDot = true ∧ ∃ j, start = j + 1 ∧ (s.word? j).any isKeyword = true) := by
    constructor
    · rintro hsame ⟨hdot, j, hj, hword⟩
      -- With the keyword there is one name too many.
      rw [hkeyword j hdot hj hword] at hsame
      obtain ⟨k, -, hk⟩ := Option.map_eq_some_iff.mp hsame
      have hlength := congrArg (fun q => q.names.length) hk
      simp [Qualifier.extend] at hlength
      omega
    · intro hnot
      rw [hback]
      cases hdot : q.leadingDot with
      | false =>
        rw [if_neg (by simp), hstart.qualifierAt?, Option.map_some]
        simp [Qualifier.extend, Qualifier.none, ← hdot]
      | true =>
        have hword (j : Nat) (hj : start = j + 1) : (s.word? j).any isKeyword = false := by
          rw [← Bool.not_eq_true]
          exact fun hword => hnot ⟨hdot, j, hj, hword⟩
        rw [if_pos rfl, qualifierAt?_of_isPunct (hpoint ▸ hdot), hstart.qualifierAtDot? hword,
          Option.map_some]
        simp [Qualifier.extend, ← hdot]
  refine ⟨hagree, hkeyword, fun m hm => ?_⟩
  rw [← hagree, (qualifierAt?_of_operand? hm).2, Option.some.injEq]

end

/-- Behind an equals sign a chain with a leading point is read alike in both directions. -/
theorem qualifierAt?_eq_iff_assigned :
    ∃ s ∈ ofTokens (tokenize "x = .a.Foo(1, 2)".toList), s.StartsChain 2 ∧
      s.chainFrom? 2 s.length = some (⟨true, [3]⟩, 5) ∧ s.qualifierAt? 5 = some ⟨true, [3]⟩ := by
  have hrun : ∃ s ∈ ofTokens (tokenize "x = .a.Foo(1, 2)".toList), s.StartsChain 2 ∧
      s.chainFrom? 2 s.length = some (⟨true, [3]⟩, 5) ∧ (s.word? 1).any isKeyword = false := by
    decide +kernel
  obtain ⟨s, hs, hstart, hchain, hword⟩ := hrun
  refine ⟨s, hs, hstart, hchain, (qualifierAt?_eq_iff hstart hchain).1.mpr ?_⟩
  rintro ⟨-, j, hj, hkeyword⟩
  cases hj
  simp [hword] at hkeyword

/-- Behind `If` the two readings of `.Foo` differ: backwards the keyword is its qualifier. -/
theorem readings_differ_behind_keyword :
    ∃ s ∈ ofTokens (tokenize "If .Foo(1, 2) Then".toList), s.StartsChain 1 ∧
      s.chainFrom? 1 s.length = some (⟨true, []⟩, 2) ∧ s.qualifierAt? 2 = some ⟨false, [0]⟩ := by
  decide +kernel

end Statement

end VbaRefactor
