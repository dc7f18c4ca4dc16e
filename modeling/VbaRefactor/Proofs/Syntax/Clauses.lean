import VbaRefactor.Proofs.Syntax.Qualifiers

/-!
# Clauses of a statement

A single-line `If` holds other statements in its branches. The clauses of a statement are the parts
that hold no others, each a range of tokens. Only at the start of a clause a name is read as a call
without parentheses; anywhere else it is an operand, which has no arguments unless a parenthesis
follows it.
-/

namespace VbaRefactor

open List

namespace Statement

/-- A literal, or a name that is no keyword: something that begins an operand. -/
def startsOperand (s : Statement) (i : Nat) : Bool :=
  s[i]?.any fun t =>
    t.kind == .number || t.kind == .stringLiteral || t.kind == .dateLiteral
      || (t.kind == .identifier && !isKeyword t.text.fold)

/-- The clauses of the tokens from `start` up to `stop`, in order. -/
def clauses (s : Statement) (start stop : Nat) : List (Nat × Nat) :=
  if start < stop then
    if s.isWord start "if" || s.isWord start "elseif" then
      match hbranch : s.branches? start stop with
      | none => []
      | some (th, some el) => s.clauses (th + 1) el ++ s.clauses (el + 1) stop
      | some (th, none) => s.clauses (th + 1) stop
    else if s.isWord start "else" then s.clauses (start + 1) stop
    else [(start, stop)]
  else []
termination_by stop - start
decreasing_by
  · obtain ⟨hfirst, -, hel⟩ := branches?_bounds hbranch
    have := hel el rfl
    omega
  · obtain ⟨hfirst, -, hel⟩ := branches?_bounds hbranch
    have := hel el rfl
    omega
  · have := branches?_bounds hbranch
    omega
  · omega

/-- What the head of a clause says. -/
def headOf (s : Statement) (start stop : Nat) : List Act :=
  if s.isWord start "call" then only (s.calledName? (start + 1) stop)
  else if s.isWord start "raiseevent" then only (s.raisedName? (start + 1) stop)
  else if s.isWord start "set" then only (s.callOrAssignment? (start + 1) stop true)
  else if s.isWord start "let" then only (s.callOrAssignment? (start + 1) stop false)
  else if s.isWord start "with" then [s.withTarget (start + 1) stop]
  else if s.isWord start "end" && s.isWord (start + 1) "with" then [.leaveWith]
  else if (s.word? start).any isKeyword then []
  else only (s.callOrAssignment? start stop false)

/-- Where the call or assignment of a clause begins: after `Set` or `Let`, or at once. A clause that
begins with another keyword is none. -/
def opening? (s : Statement) (start : Nat) : Option Nat :=
  if s.isWord start "set" || s.isWord start "let" then some (start + 1)
  else if (s.word? start).any isKeyword then none
  else some start

/-- The name that a clause calls or assigns to. -/
def headName? (s : Statement) (clause : Nat × Nat) : Option Nat :=
  (s.opening? clause.1).bind fun first => (s.chainFrom? first clause.2).map Prod.snd

/-- A clause calls the name at an index, or assigns to it. -/
def HeadsClause (s : Statement) (i : Nat) : Prop :=
  ∃ clause ∈ s.clauses 0 s.length, s.headName? clause = some i

instance (s : Statement) (i : Nat) : Decidable (s.HeadsClause i) :=
  inferInstanceAs (Decidable (∃ clause ∈ s.clauses 0 s.length, s.headName? clause = some i))

section

variable {s : Statement} {start stop i : Nat} {m : Mention} {clause : Nat × Nat} {a b word : Text}
  {first : Nat}

theorem eq_of_isWord (ha : s.isWord i a = true) (hb : s.isWord i b = true) : a = b := by
  rw [isWord] at ha hb
  cases ht : s[i]? with
  | none => simp [ht] at ha
  | some t =>
    simp only [ht, Option.any_some, Token.isWord, Bool.and_eq_true, beq_iff_eq] at ha hb
    exact ha.2.symm.trans hb.2

theorem isWord_false (ha : s.isWord i a = true) (hne : a ≠ b) : s.isWord i b = false := by
  rw [← Bool.not_eq_true]
  exact fun hb => hne (eq_of_isWord ha hb)

theorem word?_of_isWord {a : Text} (h : s.isWord i a = true) : s.word? i = some a := by
  rw [isWord] at h
  cases ht : s[i]? with
  | none => simp [ht] at h
  | some t =>
    simp only [ht, Option.any_some, Token.isWord, Bool.and_eq_true, beq_iff_eq] at h
    simp [word?, ht, h.1, h.2]

/-! ## Where clauses stand -/

theorem clauses_bounds (h : clause ∈ s.clauses start stop) :
    start ≤ clause.1 ∧ clause.1 < clause.2 ∧ clause.2 ≤ stop := by
  fun_induction clauses s start stop with
  | case1 | case6 => cases h
  | case2 start stop _ _ th el hbranch ihthen ihelse =>
    obtain ⟨hfirst, hth, hel⟩ := branches?_bounds hbranch
    have := hel el rfl
    rcases mem_append.mp h with h | h
    · have := ihthen h
      omega
    · have := ihelse h
      omega
  | case3 start stop _ _ th hbranch ih =>
    have := branches?_bounds hbranch
    have := ih h
    omega
  | case4 start stop _ _ _ ih =>
    have := ih h
    omega
  | case5 start stop hlt =>
    cases mem_singleton.mp h
    exact ⟨Nat.le_refl _, hlt, Nat.le_refl _⟩

theorem clauses_apart (s : Statement) (start stop : Nat) :
    (s.clauses start stop).Pairwise fun a b => a.2 < b.1 := by
  fun_induction clauses s start stop with
  | case1 | case6 => exact List.Pairwise.nil
  | case2 start stop _ _ th el hbranch ihthen ihelse =>
    refine pairwise_append.mpr ⟨ihthen, ihelse, ?_⟩
    intro a ha b hb
    have := clauses_bounds ha
    have := clauses_bounds hb
    omega
  | case3 _ _ _ _ _ _ ih | case4 _ _ _ _ _ ih => exact ih
  | case5 => exact pairwise_singleton _ _

/-- A clause ends with the statement or before an `Else`. -/
theorem clauses_stop (h : clause ∈ s.clauses start stop) :
    clause.2 = stop ∨ s.isWord clause.2 "else" = true := by
  fun_induction clauses s start stop with
  | case1 | case6 => cases h
  | case2 start stop _ _ th el hbranch ihthen ihelse =>
    rcases mem_append.mp h with h | h
    · right
      rcases ihthen h with hel | helse
      · rw [hel]
        simp only [branches?, Option.map_eq_some_iff, Prod.mk.injEq] at hbranch
        obtain ⟨_, -, rfl, hfind⟩ := hbranch
        rw [findWord?] at hfind
        exact find?_some (p := fun i => s.isWord i "else") hfind
      · exact helse
    · exact ihelse h
  | case3 _ _ _ _ _ _ ih | case4 _ _ _ _ _ ih => exact ih h
  | case5 =>
    cases mem_singleton.mp h
    exact .inl rfl

/-- Two clauses with a place in common are the same. -/
theorem clause_unique {a b : Nat × Nat} (ha : a ∈ s.clauses start stop) (hb : b ∈ s.clauses start stop)
    (hina : a.1 ≤ i ∧ i < a.2) (hinb : b.1 ≤ i ∧ i < b.2) : a = b := by
  obtain ⟨j, hj, rfl⟩ := mem_iff_getElem.mp ha
  obtain ⟨k, hk, rfl⟩ := mem_iff_getElem.mp hb
  have hpairs := pairwise_iff_getElem.mp (clauses_apart s start stop)
  rcases Nat.lt_trichotomy j k with hlt | rfl | hlt
  · have := hpairs j k hj hk hlt
    omega
  · rfl
  · have := hpairs k j hk hj hlt
    omega

/-! ## Heads of clauses -/

theorem heads_if (hlt : start < stop) (hif : (s.isWord start "if" || s.isWord start "elseif") = true) :
    s.heads start stop = match s.branches? start stop with
      | none => []
      | some (th, some el) => s.heads (th + 1) el ++ s.heads (el + 1) stop
      | some (th, none) => s.heads (th + 1) stop := by
  have hnot (word : Text) (h : word ≠ "if" ∧ word ≠ "elseif") : s.isWord start word = false := by
    rcases Bool.or_eq_true_iff.mp hif with hword | hword
    · exact isWord_false hword h.1.symm
    · exact isWord_false hword h.2.symm
  rw [heads, if_pos hlt, hnot "call" (by decide), hnot "raiseevent" (by decide), hnot "set" (by decide),
    hnot "let" (by decide), hif]
  simp only [Bool.false_eq_true, if_false, if_true]
  split <;> simp_all

/-- The heads of a statement are the heads of its clauses. -/
theorem heads_eq_flatMap_clauses (s : Statement) (start stop : Nat) :
    s.heads start stop = (s.clauses start stop).flatMap fun clause => s.headOf clause.1 clause.2 := by
  fun_induction clauses s start stop with
  | case1 start stop hlt hif hbranch =>
    rw [heads_if hlt hif, hbranch]
    rfl
  | case2 start stop hlt hif th el hbranch ihthen ihelse =>
    rw [heads_if hlt hif, flatMap_append, ← ihthen, ← ihelse]
    simp only [hbranch]
  | case3 start stop hlt hif th hbranch ih =>
    rw [heads_if hlt hif, ← ih]
    simp only [hbranch]
  | case4 start stop hlt hif helse ih =>
    have hnot (word : Text) (h : "else" ≠ word) : s.isWord start word = false := isWord_false helse h
    rw [heads, if_pos hlt, hnot "call" (by decide), hnot "raiseevent" (by decide),
      hnot "set" (by decide), hnot "let" (by decide), Bool.not_eq_true _ |>.mp hif, helse, ← ih]
    rfl
  | case5 start stop hlt hif helse =>
    rw [heads, if_pos hlt, Bool.not_eq_true _ |>.mp hif, Bool.not_eq_true _ |>.mp helse,
      flatMap_singleton, headOf]
    rfl
  | case6 start stop hlt =>
    rw [heads, if_neg hlt]
    rfl

/-! ## Names that an operand follows -/

theorem isPunct_of_startsOperand {mark : Text} (h : s.startsOperand i = true) :
    s.isPunct i mark = false := by
  rw [startsOperand] at h
  rw [isPunct]
  cases ht : s[i]? with
  | none => rfl
  | some t =>
    rw [ht, Option.any_some] at h
    rw [Option.any_some, Token.isPunct]
    cases hkind : t.kind <;> simp [hkind] at h ⊢

theorem isWord_of_startsOperand (h : s.startsOperand i = true) (hword : isKeyword word = true) :
    s.isWord i word = false := by
  rw [startsOperand] at h
  rw [isWord]
  cases ht : s[i]? with
  | none => rfl
  | some t =>
    rw [ht, Option.any_some] at h
    rw [Option.any_some, Token.isWord]
    cases hkind : t.kind with
    | identifier =>
      simp only [hkind] at h
      have hne : t.text.fold ≠ word := by
        rintro rfl
        simp [hword] at h
      simp [hne]
    | _ => simp

theorem lt_length_of_startsOperand (h : s.startsOperand i = true) : i < s.length := by
  rw [startsOperand] at h
  cases ht : s[i]? with
  | none => simp [ht] at h
  | some t => exact (List.getElem?_eq_some_iff.mp ht).1

/-- What begins an operand does not end a clause. -/
theorem ne_of_startsOperand (hclause : clause ∈ s.clauses 0 s.length) (h : s.startsOperand i = true) :
    i ≠ clause.2 := by
  rintro rfl
  rcases clauses_stop hclause with hstop | helse
  · have := lt_length_of_startsOperand h
    omega
  · rw [isWord_of_startsOperand h (by decide)] at helse
    cases helse

theorem argumentsFrom_ne_nil (s : Statement) (stop missingAt piece depth i : Nat) :
    s.argumentsFrom stop missingAt piece depth i ≠ [] := by
  fun_induction argumentsFrom s stop missingAt piece depth i with
  | case1 => exact cons_ne_nil _ _
  | case2 _ _ _ _ _ _ ih => exact ih
  | case3 => exact cons_ne_nil _ _

theorem bareArguments_ne_nil (h : start < stop) : (s.bareArguments start stop).arguments ≠ [] := by
  rw [bareArguments]
  simp only [slots, if_pos h]
  exact argumentsFrom_ne_nil _ _ _ _ _ _

/-- A chain that an operand follows is a call with the arguments up to the end of the clause. -/
theorem callOrAssignment?_of_startsOperand {q : Qualifier} {name : Nat} {bySet : Bool}
    (hchain : s.chainFrom? start stop = some (q, name)) (hnext : s.startsOperand (name + 1) = true)
    (hstop : name + 1 ≠ stop) :
    s.callOrAssignment? start stop bySet =
      some ⟨name, q, .call (some (s.bareArguments (name + 1) stop))⟩ := by
  rw [callOrAssignment?, hchain]
  simp [isPunct_of_startsOperand hnext, if_neg hstop]

theorem opening?_bounds (h : s.opening? start = some first) : start ≤ first := by
  rw [opening?] at h
  split at h
  · cases h
    omega
  · split at h
    · cases h
    · cases h
      exact Nat.le_refl _

theorem headName?_bounds (h : s.headName? clause = some i) : clause.1 ≤ i ∧ i < clause.2 := by
  obtain ⟨first, hfirst, hname⟩ := Option.bind_eq_some_iff.mp h
  obtain ⟨chain, hchain, rfl⟩ := Option.map_eq_some_iff.mp hname
  obtain ⟨hle, hlt, -⟩ := chainFrom?_spec hchain
  exact ⟨Nat.le_trans (opening?_bounds hfirst) hle, hlt⟩

theorem opening?_of_isWord (h : s.isWord start word = true) (hword : isKeyword word = true)
    (hset : word ≠ "set") (hlet : word ≠ "let") : s.opening? start = none := by
  rw [opening?, isWord_false h hset, isWord_false h hlet, word?_of_isWord h]
  simp [hword]

/-- The head of a clause that can be a call or an assignment is just that. -/
theorem headOf_eq (h : s.opening? start = some first) (stop : Nat) :
    ∃ bySet, s.headOf start stop = only (s.callOrAssignment? first stop bySet) := by
  have hnot (word : Text) (hword : isKeyword word = true) (hne : word ≠ "set" ∧ word ≠ "let") :
      s.isWord start word = false := by
    rw [← Bool.not_eq_true]
    intro his
    rw [opening?_of_isWord his hword hne.1 hne.2] at h
    cases h
  rw [headOf, hnot "call" (by decide) (by decide), hnot "raiseevent" (by decide) (by decide)]
  simp only [Bool.false_eq_true, if_false]
  rw [opening?] at h
  by_cases hset : s.isWord start "set" = true
  · simp only [hset, Bool.true_or, if_true] at h
    cases h
    exact ⟨true, by rw [if_pos hset]⟩
  · by_cases hlet : s.isWord start "let" = true
    · simp only [hlet, Bool.or_true, if_true] at h
      cases h
      exact ⟨false, by rw [if_neg hset, if_pos hlet]⟩
    · rw [if_neg (fun hor => (Bool.or_eq_true_iff.mp hor).elim hset hlet)] at h
      split at h
      · cases h
      · rename_i hkeyword
        cases h
        refine ⟨false, ?_⟩
        rw [hnot "with" (by decide) (by decide), hnot "end" (by decide) (by decide), if_neg hset,
          if_neg hlet, if_neg Bool.false_ne_true, if_neg (by simp), if_neg hkeyword]

/-- A clause that can be no call or assignment mentions what it calls by `Call` or raises. -/
theorem mention_of_mem_headOf (hnone : s.opening? clause.1 = none)
    (h : .mention m ∈ s.headOf clause.1 clause.2) :
    s.calledName? (clause.1 + 1) clause.2 = some m ∨ s.raisedName? (clause.1 + 1) clause.2 = some m := by
  rw [opening?] at hnone
  split at hnone
  · cases hnone
  rename_i hnot
  obtain ⟨hset, hlet⟩ : s.isWord clause.1 "set" = false ∧ s.isWord clause.1 "let" = false := by
    simpa using hnot
  split at hnone
  · rw [headOf, hset, hlet] at h
    split at h
    · exact .inl (mention_of_mem_only h)
    split at h
    · exact .inr (mention_of_mem_only h)
    simp only [Bool.false_eq_true, if_false] at h
    split at h
    · have hwith := mem_singleton.mp h
      rw [withTarget] at hwith
      split at hwith
      · cases hwith
      · split at hwith <;> cases hwith
    · split at h
      · cases mem_singleton.mp h
      · cases h
  · cases hnone

theorem callOrAssignment?_name (s : Statement) (start stop : Nat) (bySet : Bool) :
    (s.callOrAssignment? start stop bySet).map Mention.name =
      (s.chainFrom? start stop).map Prod.snd := by
  rw [callOrAssignment?]
  cases s.chainFrom? start stop with
  | none => rfl
  | some chain =>
    simp only
    split
    · rfl
    · split
      · rfl
      · split
        · split
          · rfl
          · split <;> rfl
        · rfl

/-- The head of a clause takes the name that the clause calls or assigns to. -/
theorem mem_taken_of_headsClause (h : s.HeadsClause i) :
    i ∈ ((s.heads 0 s.length).filterMap Act.mention?).map Mention.name := by
  obtain ⟨clause, hclause, hname⟩ := h
  obtain ⟨first, hopening, hchain⟩ := Option.bind_eq_some_iff.mp hname
  obtain ⟨bySet, hhead⟩ := headOf_eq hopening clause.2
  rw [← callOrAssignment?_name s first clause.2 bySet] at hchain
  obtain ⟨m, hm, rfl⟩ := Option.map_eq_some_iff.mp hchain
  refine mem_map_of_mem (mem_filterMap.mpr ⟨.mention m, ?_, rfl⟩)
  rw [heads_eq_flatMap_clauses]
  refine mem_flatMap.mpr ⟨clause, hclause, ?_⟩
  rw [hhead, hm]
  exact mem_singleton_self _

theorem isName_of_opening?_eq_none (h : s.opening? start = none) : s.isName start = true := by
  unfold opening? at h
  split at h
  · cases h
  · split at h
    · rename_i hkeyword
      rw [isName_eq_isSome_word?]
      cases hword : s.word? start with
      | none => simp [hword] at hkeyword
      | some word => rfl
    · cases h

/-- How a mention comes about: as what a clause calls or assigns to, behind `Call`, behind
`RaiseEvent`, or as an operand. -/
theorem mention_cases (h : .mention m ∈ s.acts) :
    (∃ clause ∈ s.clauses 0 s.length, ∃ first bySet, s.headName? clause = some m.name ∧
      s.callOrAssignment? first clause.2 bySet = some m) ∨
    (∃ clause ∈ s.clauses 0 s.length, s.isName clause.1 = true ∧ ¬ s.HeadsClause m.name ∧
      s.calledName? (clause.1 + 1) clause.2 = some m) ∨
    (∃ clause ∈ s.clauses 0 s.length, s.isName clause.1 = true ∧
      s.raisedName? (clause.1 + 1) clause.2 = some m) ∨
    (¬ s.HeadsClause m.name ∧ s.operand? m.name = some m) := by
  rcases mem_append.mp h with hhead | hoperand
  · rw [heads_eq_flatMap_clauses] at hhead
    obtain ⟨clause, hclause, hmem⟩ := mem_flatMap.mp hhead
    cases hopening : s.opening? clause.1 with
    | some first =>
      left
      obtain ⟨bySet, hhead⟩ := headOf_eq hopening clause.2
      rw [hhead] at hmem
      have hm := mention_of_mem_only hmem
      refine ⟨clause, hclause, first, bySet, ?_, hm⟩
      rw [headName?, hopening, Option.bind_some, (callOrAssignment?_eq_some hm).1, Option.map_some]
    | none =>
      have hname := isName_of_opening?_eq_none hopening
      rcases mention_of_mem_headOf hopening hmem with hcalled | hraised
      · refine .inr (.inl ⟨clause, hclause, hname, ?_, hcalled⟩)
        obtain ⟨hle, hlt, -⟩ := chainFrom?_spec (calledName?_eq_some hcalled).1
        -- the name lies in the clause of the `Call`, and so in no other
        rintro ⟨other, hother, hheads⟩
        cases clause_unique hclause hother ⟨Nat.le_of_succ_le hle, hlt⟩ (headName?_bounds hheads)
        rw [headName?, hopening] at hheads
        cases hheads
      · exact .inr (.inr (.inl ⟨clause, hclause, hname, hraised⟩))
  · refine .inr (.inr (.inr ?_))
    obtain ⟨found, hfound, heq⟩ := mem_map.mp hoperand
    cases heq
    obtain ⟨i, -, hi⟩ := mem_filterMap.mp hfound
    split at hi
    · cases hi
    · rename_i htaken
      obtain ⟨rfl, -⟩ := operand?_eq_some hi
      exact ⟨fun hheads => htaken (contains_iff_mem.mpr (mem_taken_of_headsClause hheads)), hi⟩

/-- How a name that an operand follows is used: where it heads a clause, it is called with arguments,
and anywhere else without. -/
theorem use_of_mem_acts (h : .mention m ∈ s.acts) (hnext : s.startsOperand (m.name + 1) = true) :
    (s.HeadsClause m.name ∧ ∃ list, m.use = .call (some list) ∧ list.arguments ≠ []) ∨
    (¬ s.HeadsClause m.name ∧
      (m.use = .call (some (s.noArguments m.name)) ∨ m.use = .address ∨ m.use = .read)) ∨
    ∃ arguments?, m.use = .raiseEvent arguments? := by
  rcases mention_cases h with ⟨clause, hclause, first, bySet, hheads, hm⟩ | ⟨_, _, _, hnot, hcalled⟩ |
    ⟨_, _, _, hraised⟩ | ⟨hnot, hoperand⟩
  · left
    have hchain := (callOrAssignment?_eq_some hm).1
    have hstop := ne_of_startsOperand hclause hnext
    rw [callOrAssignment?_of_startsOperand hchain hnext hstop] at hm
    have huse := congrArg Mention.use (Option.some.inj hm)
    refine ⟨⟨clause, hclause, hheads⟩, _, huse.symm, bareArguments_ne_nil ?_⟩
    exact Nat.lt_of_le_of_ne (chainFrom?_spec hchain).2.1 hstop
  · have huse := (calledName?_eq_some hcalled).2.2 (isPunct_of_startsOperand hnext)
    exact .inr (.inl ⟨hnot, .inl huse⟩)
  · exact .inr (.inr (raisedName?_eq_some hraised).2.2.2.1)
  · have huse := (operand?_eq_some hoperand).2.2.2.1 (isPunct_of_startsOperand hnext)
    exact .inr (.inl ⟨hnot, .inr huse⟩)

end

end Statement

end VbaRefactor
