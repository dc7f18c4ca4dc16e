import VbaRefactor.Proofs.Syntax.Segments

/-!
# The variables of field statements

The variables of a field statement are the parts between its commas. Each of them can be moved: with
other variables behind the same keywords, or to a statement of its own, it declares the same.
-/

namespace VbaRefactor

open List Lexer Token

variable {access : Access} {i : Nat} {rest s s' : Statement} {name t : Token}

namespace Statement

/-! ## Parts between commas -/

/-- Behind a word the tokens are not parted either. -/
theorem whole_of_cons (ht : t.kind = .identifier) (h : splitAtCommas 0 (t :: s) = [t :: s]) :
    splitAtCommas 0 s = [s] := by
  obtain ⟨-, hs⟩ := splitAtCommas_cons_eq_singleton.mp h
  simpa [depthAfter, Token.isPunct, ht] using hs

theorem whole_of_fromName (h : splitAtCommas 0 s = [s]) :
    splitAtCommas 0 (fromName s) = [fromName s] := by
  rw [fromName]
  split
  · rename_i hword
    cases s with
    | nil => cases hword
    | cons t tokens =>
      have hword : t.isWord "withevents" = true := hword
      exact whole_of_cons (beq_iff_eq.mp (Bool.and_eq_true_iff.mp hword).1) h
  · exact h

theorem shift_injective (k : Nat) : Function.Injective (shift k) := by
  refine map_injective_iff.mpr ?_
  intro t t' h
  simp only [Token.shift, Token.mk.injEq, Nat.add_left_cancel_iff] at h
  obtain ⟨kind, start, text⟩ := t
  obtain ⟨kind', start', text'⟩ := t'
  obtain ⟨rfl, rfl, rfl⟩ := h
  rfl

theorem whole_of_shift {k : Nat} (h : splitAtCommas 0 (shift k s) = [shift k s]) :
    splitAtCommas 0 s = [s] := by
  rw [splitAtCommas_shift] at h
  exact map_injective_iff.mpr (shift_injective k) h

end Statement

/-! ## A variable from its name on -/

namespace Statement

variable {text : Text} {withEvents : Bool}

/-- A variable is its name and what stands after it. -/
theorem exists_of_declarator? {d : Declarator} (h : declarator? text access withEvents s = some d) :
    ∃ name rest bounds? type?, fromName s = name :: rest ∧ name.kind = .identifier ∧
      afterName? text rest = some (bounds?, type?) ∧ s.cover? = some d.span ∧
      d.selection = name.span ∧ d.profile = {
        name := name.name, kind := .variable, access, type?
        isWithEvents := withEvents || s.isWord 0 "withevents", isArray := bounds?.isSome } := by
  rw [declarator?, namedType?_eq] at h
  cases hname : fromName s with
  | nil =>
    rw [hname] at h
    cases h
  | cons name rest =>
    rw [hname] at h
    by_cases hkind : name.kind = .identifier
    · simp only [hkind, if_true] at h
      cases hafter : afterName? text rest with
      | none =>
        rw [hafter] at h
        cases h
      | some found =>
        rw [hafter] at h
        cases hspan : s.cover? with
        | none =>
          rw [hspan] at h
          cases h
        | some span =>
          rw [hspan] at h
          cases h
          exact ⟨name, rest, found.1, found.2, rfl, hkind, hafter, rfl, rfl, rfl⟩
    · simp only [hkind, if_false] at h
      cases h

/-- What stands before the name of a variable. -/
theorem exists_append_fromName (s : Statement) : ∃ front, s = front ++ fromName s := by
  rw [fromName]
  split
  · exact ⟨s.take 1, (take_append_drop 1 s).symm⟩
  · exact ⟨[], rfl⟩

/-- A variable begins with a word. -/
theorem exists_first_of_fromName (h : fromName s = name :: rest) (hkind : name.kind = .identifier) :
    ∃ t tokens, s = t :: tokens ∧ t.kind = .identifier := by
  rw [fromName] at h
  split at h
  · rename_i hword
    cases s with
    | nil => cases hword
    | cons t tokens =>
      have hword : t.isWord "withevents" = true := hword
      exact ⟨t, tokens, rfl, beq_iff_eq.mp (Bool.and_eq_true_iff.mp hword).1⟩
  · exact ⟨name, rest, h, hkind⟩

theorem profile_of_name {bounds? : Option Span} {type? : Option Text}
    (hkind : name.kind = .identifier) (hword : name.isWord "withevents" = false)
    (hafter : afterName? text rest = some (bounds?, type?)) :
    (declarator? text access withEvents (name :: rest)).map Declarator.profile = some {
      name := name.name, kind := .variable, access, type?
      isWithEvents := withEvents, isArray := bounds?.isSome } := by
  have hfirst : isWord (name :: rest) 0 "withevents" = false := hword
  obtain ⟨span, hspan⟩ := exists_cover? (cons_ne_nil name rest)
  have hname : fromName (name :: rest) = name :: rest := by
    rw [fromName, hfirst]
    rfl
  rw [declarator?, namedType?_eq, hname, hspan]
  simp only [hkind, if_true, hafter, Option.map_some, hfirst, Bool.or_false]

end Statement

/-! ## The keywords of a field statement -/

namespace ModuleStatement

/-- The words after modifiers that open something else than variables. -/
def openers : List Text :=
  ["sub".toList, "function".toList, "property".toList, "event".toList, "declare".toList,
    "type".toList, "enum".toList, "const".toList]

/-- The words with which a variable cannot begin that directly follows a modifier. -/
def reserved : List Text := "static".toList :: "withevents".toList :: openers

instance (word : Text) : Decidable (word ∈ reserved) :=
  decidable_of_iff (reserved.contains word = true) contains_iff_mem

/-- The first words of statements that are neither members nor fields. -/
def leaders : List Text :=
  ["attribute".toList, "option".toList, "version".toList, "begin".toList, "implements".toList]

def modifiersEnd (access? : Option Access) (s : Statement) : Nat :=
  let i := if access?.isSome then 1 else 0
  if s.isWord i "static" then i + 1 else i

variable {access? : Option Access} {start : Nat}

theorem afterModifiers_of_opener (h : ∃ word ∈ openers, s.isWord i word = true) :
    afterModifiers access? s i ≠ .fields access start := by
  intro hfields
  simp only [afterModifiers] at hfields
  obtain ⟨word, hword, h⟩ := h
  simp only [openers, mem_cons, not_mem_nil, or_false] at hword
  rcases hword with rfl | rfl | rfl | rfl | rfl | rfl | rfl | rfl <;> simp only [h, if_true] at hfields
  all_goals
    repeat' split at hfields
    all_goals cases hfields

theorem afterModifiers_of_no_opener (h : ∀ word ∈ openers, s.isWord i word = false) :
    afterModifiers access? s i =
      if access?.isSome || s.isWord i "withevents" then .fields (access?.getD .implicit) i
      else .ignored := by
  simp only [openers, forall_mem_cons] at h
  obtain ⟨h1, h2, h3, h4, h5, h6, h7, h8, -⟩ := h
  simp only [afterModifiers, h1, h2, h3, h4, h5, h6, h7, h8, Bool.false_eq_true, if_false]

theorem afterModifiers_eq_fields_iff :
    afterModifiers access? s i = .fields access start ↔
      start = i ∧ access = access?.getD .implicit ∧ (∀ word ∈ openers, s.isWord i word = false) ∧
        (access?.isSome = true ∨ s.isWord i "withevents" = true) := by
  by_cases hopener : ∃ word ∈ openers, s.isWord i word = true
  · refine ⟨fun h => absurd h (afterModifiers_of_opener hopener), ?_⟩
    rintro ⟨-, -, hnone, -⟩
    obtain ⟨word, hword, htrue⟩ := hopener
    rw [hnone word hword] at htrue
    cases htrue
  · have hnone : ∀ word ∈ openers, s.isWord i word = false := by
      intro word hword
      cases hfalse : s.isWord i word with
      | false => rfl
      | true => exact absurd ⟨word, hword, hfalse⟩ hopener
    rw [afterModifiers_of_no_opener hnone]
    constructor
    · intro h
      rcases ite_eq_iff.mp h with ⟨hsome, h⟩ | ⟨-, ⟨⟩⟩
      cases h
      exact ⟨rfl, rfl, hnone, Bool.or_eq_true_iff.mp hsome⟩
    · rintro ⟨rfl, rfl, -, hsome⟩
      rw [if_pos (Bool.or_eq_true_iff.mpr hsome)]

theorem ofStatement_eq_fields_iff :
    ofStatement s = .fields access i ↔
      (∀ word ∈ leaders, s.isWord 0 word = false) ∧
        afterModifiers ((s.word? 0).bind Access.ofWord?) s
          (modifiersEnd ((s.word? 0).bind Access.ofWord?) s) = .fields access i := by
  simp only [leaders, forall_mem_cons]
  constructor
  · intro h
    rcases ite_eq_iff.mp h with ⟨-, ⟨⟩⟩ | ⟨hfirst, h⟩
    rcases ite_eq_iff.mp h with ⟨-, ⟨⟩⟩ | ⟨hbegin, h⟩
    rcases ite_eq_iff.mp h with ⟨-, ⟨⟩⟩ | ⟨himplements, h⟩
    simp only [Bool.or_eq_true, not_or, Bool.not_eq_true] at hfirst hbegin himplements
    exact ⟨⟨hfirst.1.1, hfirst.1.2, hfirst.2, hbegin, himplements, forall_mem_nil _⟩, h⟩
  · rintro ⟨⟨h1, h2, h3, h4, h5, -⟩, h⟩
    simp only [ofStatement, h1, h2, h3, h4, h5, Bool.false_eq_true, if_false, Bool.or_self]
    exact h

end ModuleStatement

namespace Statement

open ModuleStatement

variable {word : Text}

theorem isWord_congr (h : s'[i]? = s[i]?) (word : Text) : s'.isWord i word = s.isWord i word := by
  rw [isWord, isWord, h]

theorem variablesAt_pos (h : ofStatement s = .fields access i) : 0 < s.variablesAt i := by
  obtain ⟨-, hafter⟩ := ofStatement_eq_fields_iff.mp h
  obtain ⟨rfl, -, -, hsome⟩ := afterModifiers_eq_fields_iff.mp hafter
  rw [variablesAt]
  split
  · omega
  · rename_i hwith
    have hsome := hsome.resolve_right hwith
    rw [modifiersEnd, if_pos hsome]
    split <;> omega

/-- The keywords of a field statement with other variables behind them. -/
theorem ofStatement_of_keywords (h : ofStatement s = .fields access i)
    (hagree : ∀ k < s.variablesAt i, s'[k]? = s[k]?)
    (hfirst : s.variablesAt i = i → ∀ word ∈ reserved, s'.isWord i word = false) :
    ofStatement s' = .fields access i ∧ s'.isWord i "withevents" = s.isWord i "withevents" := by
  have hpos := variablesAt_pos h
  obtain ⟨hleaders, hafter⟩ := ofStatement_eq_fields_iff.mp h
  have hzero : s'[0]? = s[0]? := hagree 0 hpos
  have hword : s'.word? 0 = s.word? 0 := by rw [word?, word?, hzero]
  rw [ofStatement_eq_fields_iff, hword]
  generalize (s.word? 0).bind Access.ofWord? = access? at hafter ⊢
  obtain ⟨hi, haccess, hopeners, hsome⟩ := afterModifiers_eq_fields_iff.mp hafter
  -- Where the modifiers end, both say the same or neither says anything that matters.
  have hat : ∀ word ∈ reserved, s'.isWord i word = s.isWord i word ∨
      s.variablesAt i = i ∧ s'.isWord i word = false := by
    intro word hword
    cases hwith : s.isWord i "withevents" with
    | true =>
      have hlt : i < s.variablesAt i := by
        rw [variablesAt, hwith]
        exact Nat.lt_succ_self i
      exact .inl (isWord_congr (hagree i hlt) word)
    | false =>
      have hend : s.variablesAt i = i := by
        rw [variablesAt, hwith]
        rfl
      exact .inr ⟨hend, hfirst hend word hword⟩
  have hwithEvents : s'.isWord i "withevents" = s.isWord i "withevents" := by
    rcases hat _ (mem_cons_of_mem _ mem_cons_self) with hsame | ⟨hend, hfalse⟩
    · exact hsame
    · rw [hfalse]
      cases hwith : s.isWord i "withevents" with
      | false => rfl
      | true =>
        rw [variablesAt, hwith] at hend
        exact absurd hend (Nat.succ_ne_self i)
  have hmodifiers : modifiersEnd access? s' = modifiersEnd access? s := by
    rw [modifiersEnd] at hi
    rw [modifiersEnd, modifiersEnd]
    generalize (if access?.isSome = true then 1 else 0) = k at hi ⊢
    cases hstatic : s.isWord k "static" with
    | true =>
      rw [hstatic] at hi
      have hk : k < s.variablesAt i := by
        have hi : i = k + 1 := hi
        rw [variablesAt]
        split <;> omega
      simp only [isWord_congr (hagree k hk), hstatic]
    | false =>
      rw [hstatic] at hi
      have hi : i = k := hi
      subst hi
      rcases hat _ mem_cons_self with hsame | ⟨-, hfalse⟩
      · simp only [hsame, hstatic]
      · simp only [hfalse]
  rw [hmodifiers, ← hi]
  refine ⟨⟨?_, afterModifiers_eq_fields_iff.mpr ⟨rfl, haccess, ?_, ?_⟩⟩, hwithEvents⟩
  · intro word hword
    rw [isWord_congr hzero]
    exact hleaders word hword
  · intro word hword
    rcases hat word (mem_cons_of_mem _ (mem_cons_of_mem _ hword)) with hsame | ⟨-, hfalse⟩
    · rw [hsame, hi]
      exact hopeners word hword
    · exact hfalse
  · rw [hwithEvents, hi]
    exact hsome

theorem isWord_append_length (front back : Statement) (word : Text) :
    (front ++ back).isWord front.length word = back.isWord 0 word := by
  rw [isWord, isWord, getElem?_append_right (Nat.le_refl _), Nat.sub_self]

/-- The keywords of a field statement, wherever they stand, with other variables behind them. -/
theorem ofStatement_joined {keywords behind : Statement} {pos : Nat}
    (h : ofStatement s = .fields access i) (hlt : s.variablesAt i < s.length)
    (hkeywords : s.take (s.variablesAt i) = keywords.shift pos)
    (hfirst : ∀ word ∈ reserved, behind.isWord 0 word = false) :
    ofStatement (keywords ++ behind) = .fields access i ∧
      (keywords ++ behind).isWord i "withevents" = s.isWord i "withevents" ∧
      (keywords ++ behind).variablesAt i = keywords.length := by
  have hlength : keywords.length = s.variablesAt i := by
    have hlength := congrArg List.length hkeywords
    rw [length_take, length_shift] at hlength
    omega
  have hagree : ∀ k < s.variablesAt i, (shift pos (keywords ++ behind))[k]? = s[k]? := by
    intro k hk
    have hs : s[k]? = (shift pos keywords)[k]? := by
      rw [← hkeywords, getElem?_take_of_lt hk]
    rw [hs, shift, map_append, getElem?_append_left (by rw [length_map]; omega)]
    rfl
  have hword : s.variablesAt i = i →
      ∀ word ∈ reserved, (shift pos (keywords ++ behind)).isWord i word = false := by
    intro hend word hmem
    rw [isWord_shift, ← hend, ← hlength, isWord_append_length]
    exact hfirst word hmem
  obtain ⟨hkind, hwith⟩ := ofStatement_of_keywords h hagree hword
  rw [ofStatement_shift] at hkind
  rw [isWord_shift] at hwith
  refine ⟨hkind, hwith, ?_⟩
  rw [hlength, variablesAt, variablesAt, hwith]

theorem isWord_of_ne {word other : Text} (h : t.isWord word = true) (hne : word ≠ other) :
    t.isWord other = false := by
  simp only [Token.isWord, Bool.and_eq_true, beq_iff_eq] at h
  rw [Token.isWord, h.1, h.2, beq_false_of_ne hne]
  rfl

/-- A private field, with `WithEvents` in front of its name or not. -/
theorem ofStatement_private {first events : Token} (hfirst : first.isWord "private" = true)
    (hevents : events.isWord "withevents" = true)
    (hname : ∀ word ∈ reserved, name.isWord word = false) (withEvents : Bool) (rest : Statement) :
    let s : Statement := first :: ((if withEvents then [events] else []) ++ name :: rest)
    ofStatement s = .fields .private 1 ∧ s.isWord 1 "withevents" = withEvents ∧
      s.drop (s.variablesAt 1) = name :: rest := by
  intro s
  have hword : s.word? 0 = some "private".toList := by
    simp only [Token.isWord, Bool.and_eq_true, beq_iff_eq] at hfirst
    show (if first.kind = .identifier then some first.text.fold else none) = _
    rw [if_pos hfirst.1, hfirst.2]
  have haccess : (s.word? 0).bind Access.ofWord? = some .private := by
    rw [hword]
    rfl
  have hleaders : ∀ word ∈ leaders, s.isWord 0 word = false := by
    intro word hmem
    refine isWord_of_ne hfirst ?_
    rintro rfl
    exact absurd hmem (by decide)
  -- What follows `Private` is `WithEvents` or the name.
  have hsecond : (∀ word ∈ "static".toList :: openers, s.isWord 1 word = false) ∧
      s.isWord 1 "withevents" = withEvents := by
    cases withEvents with
    | true =>
      refine ⟨?_, hevents⟩
      intro word hmem
      refine isWord_of_ne hevents ?_
      rintro rfl
      exact absurd hmem (by decide)
    | false =>
      refine ⟨?_, hname _ (mem_cons_of_mem _ mem_cons_self)⟩
      intro word hmem
      exact hname word (by
        rcases mem_cons.mp hmem with rfl | hmem
        · exact mem_cons_self
        · exact mem_cons_of_mem _ (mem_cons_of_mem _ hmem))
  obtain ⟨hwords, hwith⟩ := hsecond
  obtain ⟨hstatic, hopeners⟩ := forall_mem_cons.mp hwords
  have hend : modifiersEnd (some .private) s = 1 := by
    simp only [modifiersEnd, Option.isSome_some, if_true, hstatic, Bool.false_eq_true, if_false]
  refine ⟨?_, hwith, ?_⟩
  · rw [ofStatement_eq_fields_iff, haccess, hend, afterModifiers_eq_fields_iff]
    exact ⟨hleaders, rfl, rfl, hopeners, .inl rfl⟩
  · rw [variablesAt, hwith]
    cases withEvents <;> rfl

theorem plain_of_isWord (h : t.isWord word = true) (hne : word ≠ [])
    (hword : word.all isLetter = true) (hrem : word ≠ ['r', 'e', 'm']) :
    t.kind = .identifier ∧ isPlainName t.text = true ∧ t.text.fold ≠ ['r', 'e', 'm'] := by
  simp only [Token.isWord, Bool.and_eq_true, beq_iff_eq] at h
  refine ⟨h.1, isPlainName_of_fold hne hword h.2, ?_⟩
  rw [h.2]
  exact hrem

theorem mem_of_ofWord? (h : Access.ofWord? word = some access) :
    word.fold ∈ ["private".toList, "public".toList, "friend".toList, "global".toList,
      "dim".toList] := by
  by_contra hnot
  simp only [mem_cons, not_mem_nil, or_false, not_or] at hnot
  obtain ⟨h1, h2, h3, h4, h5⟩ := hnot
  simp only [Access.ofWord?, beq_false_of_ne h1, beq_false_of_ne h2, beq_false_of_ne h3,
    beq_false_of_ne h4, beq_false_of_ne h5, Bool.false_eq_true, if_false] at h
  cases h

theorem plain_of_access (hkind : t.kind = .identifier)
    (h : Access.ofWord? t.text.fold = some access) :
    t.kind = .identifier ∧ isPlainName t.text = true ∧ t.text.fold ≠ ['r', 'e', 'm'] := by
  have hletters : ∀ word ∈ ["private".toList, "public".toList, "friend".toList, "global".toList,
      "dim".toList], word ≠ [] ∧ word.all isLetter = true ∧ word ≠ Text.fold ['r', 'e', 'm'] := by
    decide
  obtain ⟨hne, hall, hrem⟩ := hletters _ (mem_of_ofWord? h)
  have hfold : (t.text.fold).all isLetter = true := by
    rw [all_eq_true] at hall ⊢
    intro c hc
    exact isLetter_of_toLower (hall _ (mem_map_of_mem hc))
  refine ⟨hkind, isPlainName_of_fold ?_ hfold rfl, ?_⟩
  · intro hnil
    rw [hnil] at hne
    exact hne rfl
  · intro heq
    rw [heq] at hrem
    exact hrem rfl

/-- The keywords of a field statement are plain words. -/
theorem plain_of_mem_keywords (h : ofStatement s = .fields access i)
    (ht : t ∈ s.take (s.variablesAt i)) :
    t.kind = .identifier ∧ isPlainName t.text = true ∧ t.text.fold ≠ ['r', 'e', 'm'] := by
  obtain ⟨k, hk, hget⟩ := mem_take_iff_getElem.mp ht
  have hkv : k < s.variablesAt i := by omega
  have hget : s[k]? = some t := by
    rw [← hget]
    exact getElem?_eq_getElem _
  have hisWord {word : Text} (hword : s.isWord k word = true) : t.isWord word = true := by
    rw [isWord, hget] at hword
    exact hword
  obtain ⟨-, hafter⟩ := ofStatement_eq_fields_iff.mp h
  obtain ⟨hi, -, -, -⟩ := afterModifiers_eq_fields_iff.mp hafter
  rw [modifiersEnd] at hi
  by_cases haccess : k = 0 ∧ ((s.word? 0).bind Access.ofWord?).isSome = true
  · obtain ⟨rfl, haccess⟩ := haccess
    rw [word?, hget] at haccess
    by_cases hkind : t.kind = .identifier
    · simp only [hkind, if_true, Option.bind_some] at haccess
      obtain ⟨found, hfound⟩ := Option.isSome_iff_exists.mp haccess
      exact plain_of_access hkind hfound
    · simp [hkind] at haccess
  · have hstart : (if ((s.word? 0).bind Access.ofWord?).isSome = true then 1 else 0) ≤ k := by
      split
      · rename_i hsome
        exact Nat.pos_of_ne_zero fun hzero => haccess ⟨hzero, hsome⟩
      · exact Nat.zero_le k
    generalize (if ((s.word? 0).bind Access.ofWord?).isSome = true then 1 else 0) = first at hi hstart
    by_cases hlast : k < i
    · have hstatic : s.isWord first "static" = true ∧ k = first := by
        cases hstatic : s.isWord first "static" with
        | true =>
          rw [hstatic] at hi
          have hi : i = first + 1 := hi
          exact ⟨rfl, by omega⟩
        | false =>
          rw [hstatic] at hi
          have hi : i = first := hi
          omega
      obtain ⟨hstatic, rfl⟩ := hstatic
      exact plain_of_isWord (hisWord hstatic) (by decide) (by decide) (by decide)
    · have hwith : s.isWord i "withevents" = true ∧ k = i := by
        cases hwith : s.isWord i "withevents" with
        | true =>
          rw [variablesAt, hwith] at hkv
          have hkv : k < i + 1 := hkv
          exact ⟨rfl, by omega⟩
        | false =>
          rw [variablesAt, hwith] at hkv
          exact absurd hkv hlast
      obtain ⟨hwith, rfl⟩ := hwith
      exact plain_of_isWord (hisWord hwith) (by decide) (by decide) (by decide)

end Statement

end VbaRefactor
