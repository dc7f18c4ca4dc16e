import VbaRefactor.Proofs.Reorder.Calls

/-!
# Calls whose result is used as an object

In `Foo(1, 2).Bar 3` the arguments of `Foo` are those in the parentheses. They are recorded so inside of
an expression, after `Call`, and after a keyword such as `Me`. At the head of a clause the parentheses
are taken for the beginning of an argument list without parentheses that goes on to the end of the clause.
-/

namespace VbaRefactor

open List

namespace Statement

/-- The statement begins with a chain to the name at an index, parentheses up to `close`, and a point. -/
def CallsObject (s : Statement) (i close : Nat) : Prop :=
  (s.chainFrom? 0 s.length).map Prod.snd = some i ∧ s.isPunct (i + 1) "(" = true ∧
    s.matching? (i + 1) = some close ∧ s.isPunct (close + 1) "." = true

instance (s : Statement) (i close : Nat) : Decidable (s.CallsObject i close) :=
  inferInstanceAs (Decidable (_ ∧ _))

variable {s : Statement} {start stop i j name close : Nat} {q : Qualifier} {m : Mention}
  {clause : Nat × Nat} {mark : Text}

theorem isPunct_unique {a b : Text} (ha : s.isPunct i a = true) (hne : a ≠ b) : s.isPunct i b = false := by
  unfold isPunct at *
  cases ht : s[i]? with
  | none => rfl
  | some t =>
    simp only [ht, Option.any_some, Token.isPunct, Bool.and_eq_true, beq_iff_eq] at ha ⊢
    simp [ha.2, hne]

theorem lt_length_of_isPunct (h : s.isPunct i mark = true) : i < s.length := by
  unfold isPunct at h
  cases ht : s[i]? with
  | none => simp [ht] at h
  | some t => exact (List.getElem?_eq_some_iff.mp ht).1

theorem isName_of_isPunct (h : s.isPunct i mark = true) : s.isName i = false := by
  unfold isPunct at h
  unfold isName
  cases ht : s[i]? with
  | none => rfl
  | some t =>
    simp only [ht, Option.any_some, Token.isPunct, Bool.and_eq_true, beq_iff_eq] at h ⊢
    simp [h.1]

theorem isName_of_isWord {word : Text} (h : s.isWord i word = true) : s.isName i = true := by
  unfold isWord at h
  unfold isName
  cases ht : s[i]? with
  | none => simp [ht] at h
  | some t =>
    simp only [ht, Option.any_some, Token.isWord, Bool.and_eq_true, beq_iff_eq] at h ⊢
    exact h.1

/-! ## Names and points take turns in a chain -/

theorem point_of_follow {passed : List Nat} (hle : name ≤ j) (hlt : j < (s.follow stop passed name).2) :
    s.isPunct j "." = true ∨ s.isPunct (j + 1) "." = true := by
  fun_induction follow s stop passed name with
  | case1 passed name hnext ih =>
    by_cases hj : name + 2 ≤ j
    · exact ih hj hlt
    · obtain rfl | rfl : j = name ∨ j = name + 1 := by omega
      · exact .inr hnext.2.1
      · exact .inl hnext.2.1
  | case2 => omega

section

variable (h : s.chainFrom? start stop = some (q, name)) (hle : start ≤ j) (hlt : j < name)

include h hle hlt

theorem point_of_chainFrom? : s.isPunct j "." = true ∨ s.isPunct (j + 1) "." = true := by
  obtain ⟨first, hfirst, -, -, -, hfollow⟩ := chainFrom?_eq_some h
  by_cases hj : first ≤ j
  · exact point_of_follow hj (by rw [hfollow]; exact hlt)
  · -- only a leading point stands before the first name
    split at hfirst
    · rename_i hpoint
      obtain rfl : j = start := by omega
      exact .inl hpoint
    · omega

/-- In a chain no two names stand next to each other. -/
theorem isName_of_chainFrom? (hname : s.isName j = true) : s.isName (j + 1) = false := by
  rcases point_of_chainFrom? h hle hlt with hpoint | hpoint
  · simp [isName_of_isPunct hpoint] at hname
  · exact isName_of_isPunct hpoint

end

/-! ## Clauses with parentheses -/

theorem isWord_of_branches? {th : Nat} {el? : Option Nat} (h : s.branches? start stop = some (th, el?)) :
    s.isWord th "then" = true ∧ ∀ el ∈ el?, s.isWord el "else" = true := by
  simp only [branches?, Option.map_eq_some_iff, Prod.mk.injEq] at h
  obtain ⟨_, hthen, rfl, rfl⟩ := h
  refine ⟨find?_some (p := fun i => s.isWord i "then") hthen, ?_⟩
  intro el hel
  exact find?_some (p := fun i => s.isWord i "else") hel

/-- A clause is all there is, or it stands behind a `Then` or `Else`. -/
theorem clauses_start (h : clause ∈ s.clauses start stop) :
    clause = (start, stop) ∨ start < clause.1 ∧ s.isName (clause.1 - 1) = true := by
  have hlater {start before stop : Nat} (hle : start ≤ before) {word : Text}
      (hword : s.isWord before word = true)
      (ih : clause = (before + 1, stop) ∨ before + 1 < clause.1 ∧ s.isName (clause.1 - 1) = true) :
      start < clause.1 ∧ s.isName (clause.1 - 1) = true := by
    rcases ih with rfl | ⟨hlt, hname⟩
    · exact ⟨Nat.lt_succ_of_le hle, isName_of_isWord hword⟩
    · exact ⟨by omega, hname⟩
  fun_induction clauses s start stop with
  | case1 | case6 => cases h
  | case2 start stop _ _ th el hbranch ihthen ihelse =>
    obtain ⟨hfirst, -, hel⟩ := branches?_bounds hbranch
    obtain ⟨hthen, helse⟩ := isWord_of_branches? hbranch
    have hlt := hel el rfl
    rcases mem_append.mp h with h | h
    · exact .inr (hlater hfirst hthen (ihthen h))
    · exact .inr (hlater (by omega) (helse el rfl) (ihelse h))
  | case3 start stop _ _ th hbranch ih =>
    exact .inr (hlater (branches?_bounds hbranch).1 (isWord_of_branches? hbranch).1 (ih h))
  | case4 start stop _ _ helse ih => exact .inr (hlater (Nat.le_refl _) helse (ih h))
  | case5 => exact .inl (mem_singleton.mp h)

/-- A mark does not end a clause. -/
theorem ne_of_isPunct (hclause : clause ∈ s.clauses 0 s.length) (h : s.isPunct i mark = true) :
    i ≠ clause.2 := by
  rintro rfl
  rcases clauses_stop hclause with hstop | helse
  · simp [isPunct, hstop] at h
  · have hname := isName_of_isWord helse
    simp [isName_of_isPunct h] at hname

theorem closing?_take {depth n : Nat} (h : closing? depth (s.take n) = some i) :
    closing? depth s = some i := by
  induction s generalizing depth n i with
  | nil => simp [closing?] at h
  | cons t s ih =>
    cases n with
    | zero => simp [closing?] at h
    | succ n =>
      rw [take_succ_cons, closing?] at h
      rw [closing?]
      split at h
      · rename_i hclose
        rw [if_pos hclose, h]
      · rename_i hclose
        obtain ⟨k, hk, rfl⟩ := Option.map_eq_some_iff.mp h
        rw [if_neg hclose, ih hk, Option.map_some]

/-- Parentheses that close in a part of the statement close there in the whole. -/
theorem matching?_take (h : matching? (s.take stop) i = some close) : matching? s i = some close := by
  unfold matching? at *
  obtain ⟨k, hk, rfl⟩ := Option.map_eq_some_iff.mp h
  rw [drop_take] at hk
  rw [closing?_take hk, Option.map_some]

/-- What the mention of a name before parentheses and a point says. -/
theorem use_of_callsObject (h : .mention m ∈ s.acts) (hobject : s.CallsObject m.name close) :
    (s.HeadsClause m.name ∧ ∃ stop, m.use = .call (some (s.bareArguments (m.name + 1) stop))) ∨
    (¬ s.HeadsClause m.name ∧ m.use = .call (some (s.innerArguments (m.name + 2) close))) := by
  obtain ⟨hchain, hopen, hclose, hpoint⟩ := hobject
  obtain ⟨⟨q, _⟩, hchain, rfl⟩ := Option.map_eq_some_iff.mp hchain
  have hinner : s.argumentsIn? (m.name + 1) s.length = some (s.innerArguments (m.name + 2) close) := by
    rw [argumentsIn?, take_length, hclose, Option.map_some]
  rcases mention_cases h with ⟨clause, hclause, first, bySet, hheads, hm⟩ |
    ⟨clause, hclause, hword, hnot, hcalled⟩ | ⟨clause, hclause, hword, hraised⟩ | ⟨hnot, hoperand⟩
  · left
    refine ⟨⟨clause, hclause, hheads⟩, clause.2, ?_⟩
    have hfirst := (callOrAssignment?_eq_some hm).1
    have hcloses : ∀ c, matching? (s.take clause.2) (m.name + 1) = some c → c = close := by
      intro c hc
      exact Option.some.inj ((matching?_take hc).symm.trans hclose)
    simp only [callOrAssignment?, hfirst, isPunct_unique hopen (by decide : ("(" : Text) ≠ "="), hopen,
      Bool.and_false, Bool.false_eq_true, if_false, if_true, if_neg (ne_of_isPunct hclause hopen)] at hm
    split at hm
    · rename_i c hc
      rw [hcloses c hc, isPunct_unique hpoint (by decide : ("." : Text) ≠ "="), Bool.and_false,
        if_neg Bool.false_ne_true, if_neg (ne_of_isPunct hclause hpoint)] at hm
      exact (congrArg Mention.use (Option.some.inj hm)).symm
    · exact (congrArg Mention.use (Option.some.inj hm)).symm
  · right
    refine ⟨hnot, ?_⟩
    have hafter := (calledName?_eq_some hcalled).1
    have hlt : clause.1 + 1 ≤ m.name := (chainFrom?_spec hafter).1
    -- a `Call` behind `Then` would be a second name next to it in the chain
    rcases clauses_start hclause with rfl | ⟨hpos, hbefore⟩
    · simp only [calledName?, hafter, hopen, Bool.and_true, decide_eq_true_eq,
        if_pos (lt_length_of_isPunct hopen), hinner] at hcalled
      exact (congrArg Mention.use (Option.some.inj hcalled)).symm
    · have hnone := isName_of_chainFrom? hchain (Nat.zero_le _) (by omega) hbefore
      rw [Nat.sub_add_cancel hpos, hword] at hnone
      cases hnone
  · obtain ⟨hat, hname, -⟩ := raisedName?_eq_some hraised
    have hnone := isName_of_chainFrom? hchain (Nat.zero_le _) (by omega) hword
    rw [← hat, hname] at hnone
    cases hnone
  · exact .inr ⟨hnot, ((operand?_eq_some hoperand).2.2.2.2 hopen).trans (by rw [hinner])⟩

/-- The chain at the beginning of a statement heads a clause if it begins with no keyword. -/
theorem CallsObject.headsClause (h : s.CallsObject i close)
    (hword : (s.word? 0).any isKeyword = false) : s.HeadsClause i := by
  have hnot (word : Text) (hkeyword : isKeyword word = true) : s.isWord 0 word = false := by
    rw [← Bool.not_eq_true]
    intro his
    simp [word?_of_isWord his, hkeyword] at hword
  obtain ⟨chain, hchain, -⟩ := Option.map_eq_some_iff.mp h.1
  have hpos : 0 < s.length := Nat.zero_lt_of_lt (chainFrom?_spec hchain).2.1
  refine ⟨(0, s.length), ?_, ?_⟩
  · unfold clauses
    rw [if_pos hpos, hnot "if" (by decide), hnot "elseif" (by decide), hnot "else" (by decide)]
    exact mem_singleton_self _
  · unfold headName? opening?
    rw [hnot "set" (by decide), hnot "let" (by decide), hword]
    simpa using h.1

end Statement

theorem Place.bind?_call {p : Place} {withs : WithStack} {m : Mention} {r : Reference}
    {arguments? : Option ArgumentList} (h : p.bind? withs m = some r) (huse : m.use = .call arguments?) :
    r.usage = .call ∧ r.arguments? = arguments? := by
  rcases bind?_cases h with ⟨hresult, -⟩ | ⟨-, d, -, _, _, rfl, hmakes⟩
  · simp [isReturnValue, huse] at hresult
  · rw [huse] at hmakes
    cases hmakes
    exact ⟨rfl, rfl⟩

namespace Project

/-- A call at the beginning of a statement whose result is used as an object has the arguments in its
parentheses if and only if its name does not head a clause. So it has not where the statement begins
with no keyword: there its arguments begin with the parenthesis and go on behind the object. -/
theorem object_arguments_iff {sources : List Source} {p : Project} (h : read sources = .ok p)
    {r : Reference} (hr : r ∈ p.index.references) :
    ∃ source ∈ sources, r.module = source.id ∧ ∃ s ∈ source.statements, ∃ i < s.length,
      r.selection.span = s.spanAt i ∧ ∀ close, s.CallsObject i close →
        (r.arguments? = some (s.innerArguments (i + 2) close) ↔ ¬ s.HeadsClause i) ∧
        (s.HeadsClause i → ∃ stop, r.arguments? = some (s.bareArguments (i + 1) stop)) ∧
        ((s.word? 0).any isKeyword = false → s.HeadsClause i) := by
  obtain ⟨place, withs, m, hsource, hmodule, -, htokens, hm, hbind⟩ := exists_act_of_mem_references h hr
  have hleads := (Statement.mentions_of_mem_acts hm).leads
  have hselection : r.selection.span = place.tokens.spanAt m.name := by
    rw [(Place.bind?_eq_some hbind).2.1, Text.extent]
  refine ⟨place.source, hsource, hmodule, place.tokens, htokens, m.name, hleads.given, hselection, ?_⟩
  intro close hobject
  refine ⟨?_, ?_, hobject.headsClause⟩
  · rcases Statement.use_of_callsObject hm hobject with ⟨hheads, stop, huse⟩ | ⟨hnot, huse⟩
    · rw [(Place.bind?_call hbind huse).2]
      refine iff_of_false ?_ (not_not_intro hheads)
      intro heq
      -- the one list is in parentheses and the other is not
      exact Bool.false_ne_true (congrArg ArgumentList.parenthesized (Option.some.inj heq))
    · exact iff_of_true (Place.bind?_call hbind huse).2 hnot
  · intro hheads
    rcases Statement.use_of_callsObject hm hobject with ⟨-, stop, huse⟩ | ⟨hnot, -⟩
    · exact ⟨stop, (Place.bind?_call hbind huse).2⟩
    · exact absurd hheads hnot

/-- After `Me` the call keeps its arguments. -/
theorem object_arguments_iff_me :
    let source : Source := ⟨⟨"P", "Class1"⟩, .classModule,
      "Public Function Foo(a, b) As Class1\nEnd Function\n\nPublic Sub Test()\n    Me.Foo(1, (2)).Bar 3, 4\nEnd Sub\n".toList⟩
    ∃ p, read [source] = .ok p ∧ ∃ r ∈ p.index.references, r.usage = .call ∧
      ∃ list, r.arguments? = some list ∧ list.arguments.length = 2 := by
  intro source
  have hrun : ∃ p ∈ (read [source]).toOption, ∃ r ∈ p.index.references, r.usage = .call ∧
      ∀ s ∈ source.statements, ∀ i < s.length, r.selection.span = s.spanAt i →
        s.CallsObject i 9 ∧ ¬ s.HeadsClause i ∧ (s.innerArguments (i + 2) 9).arguments.length = 2 := by
    decide +kernel
  obtain ⟨p, hp, r, hr, hcall, hplace⟩ := hrun
  have hread := eq_ok_of_mem_toOption hp
  obtain ⟨found, hfound, -, s, hs, i, hi, hspan, hiff⟩ := object_arguments_iff hread hr
  cases List.mem_singleton.mp hfound
  obtain ⟨hobject, hnot, hlength⟩ := hplace s hs i hi hspan
  exact ⟨p, hread, r, hr, hcall, _, (hiff 9 hobject).1.mpr hnot, hlength⟩

/-- At the head of a statement the call has as its arguments the parentheses with what follows them up
to the first comma, and what follows that. -/
theorem object_loses_arguments :
    let source : Source := ⟨⟨"P", "Class1"⟩, .classModule,
      "Public Function Foo(a, b) As Class1\nEnd Function\n\nPublic Sub Test()\n    Foo(1, 2).Bar 3, 4\nEnd Sub\n".toList⟩
    ∃ p, read [source] = .ok p ∧ ∃ r ∈ p.index.references, r.usage = .call ∧
      ∃ s ∈ source.statements, s.CallsObject 0 5 ∧ r.selection.span = s.spanAt 0 ∧
        (s.spanAt 0).stop = (s.spanAt 1).start ∧
        r.arguments? ≠ some (s.innerArguments 2 5) ∧
        r.arguments?.map (fun list => list.arguments.map (source.text.slice ·.span)) =
          some ["(1, 2).Bar 3".toList, "4".toList] := by
  intro source
  apply exists_ok_of_toOption
  decide +kernel

end Project

end VbaRefactor
