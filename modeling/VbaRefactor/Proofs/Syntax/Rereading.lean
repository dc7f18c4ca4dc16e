import VbaRefactor.Proofs.Syntax.Relexing
import VbaRefactor.Proofs.Syntax.Runs

/-!
# What a changed text declares

Where the changes of a text keep to `Fits`, the changed text declares at module level what the text
declared before, except for what the changed statements declare.
-/

namespace VbaRefactor

open List Statement Outline Lexer

variable {level level' : Level} {before q q' : List Piece}
  {added found foundNew foundOld removed : List Profile} {p : Piece} {closing : Text}

/-- A module can be read if what its pieces declare can, and then it declares this. -/
theorem Outline.profiles_read_eq_scan (base : DeclarationId) (source : Source) :
    (read base source).toOption.map profiles =
      ((scan .code [] (pieces .initial source.text)).filter (·.2.mayEnd)).map Prod.fst := by
  have hat : source.text.HasAt 0 (flat ([] ++ pieces .initial source.text)) := by
    rw [nil_append, flat, pieces_text]
    exact Text.hasAt_zero _
  rw [profiles_read, scan_eq_declareAll hat (forall_mem_nil _)]
  rfl

namespace Lexer

variable {cs : List Cell}

/-- The word neither begins nor closes the end of a member that `End` and `closing` close. -/
def IsInner (closing word : Text) : Prop := word.fold ≠ "end".toList ∧ word.fold ≠ closing

/-- A piece of a member, and what it becomes when words are replaced. -/
inductive Replaced (closing : Text) : Piece → Piece → Prop
  | keep (p : Piece) : Replaced closing p p
  | word {old new : Text} (hold : IsInner closing old) (hnew : IsInner closing new) :
      Replaced closing (.token .identifier old) (.token .identifier new)

/-- No token of a statement follows before the next separator. -/
def EndsStatement : List Cell → Prop
  | [] => True
  | .keep p :: cs => p.isSeparator = true ∨ p.isSignificant = false ∧ EndsStatement cs
  | .block new :: cs => cs = [] ∧ ∃ p rest, new = p :: rest ∧ p.isSeparator = true
  | _ => False

theorem isSignificant_of_isSeparator (h : p.isSeparator = true) : p.isSignificant = false := by
  match p, h with
  | .token .newline _, _ => rfl
  | .token .colon _, _ => rfl

theorem EndsStatement.separated (h : EndsStatement cs) : Separated cs := by
  induction cs with
  | nil => trivial
  | cons cell cs ih =>
    match cell, h with
    | .keep (.blank c), h =>
      rcases h with h | h
      · cases h
      · exact ih h.2
    | .keep (.token kind text), h =>
      rcases h with h | h
      · exact isSignificant_of_isSeparator h
      · exact h.1
    | .block new, h => exact h.1

/-- The changes leave what statements declare as it is, except that they remove and add some. The old
pieces are read at this level after the pieces `q` of the current statement. -/
inductive Fits : Level → List Piece → List Cell → List Profile → List Profile → Prop
  | nil {level : Level} {q : List Piece} : Fits level q [] [] []
  | keep {level : Level} {q : List Piece} {p : Piece} {cs : List Cell}
      {removed added : List Profile} (hp : p.isSeparator = false)
      (hrest : Fits level (q ++ [p]) cs removed added) :
      Fits level q (.keep p :: cs) removed added
  | separator {level : Level} {q : List Piece} {p : Piece} {cs : List Cell}
      {removed added : List Profile} (hp : p.isSeparator = true)
      (hrest : ∀ found next, runDeclares level q = some (found, next) →
        Fits next [] cs removed added) :
      Fits level q (.keep p :: cs) removed added
  | word {closing old new : Text} {q : List Piece} {cs : List Cell} {removed added : List Profile}
      (hold : IsInner closing old) (hnew : IsInner closing new)
      (hrest : Fits (.member closing) (q ++ [.token .identifier old]) cs removed added) :
      Fits (.member closing) q (.word old new :: cs) removed added
  | fields {q old new : List Piece} {cs : List Cell}
      {foundOld foundNew removed added removed' added' : List Profile}
      (hq : ∀ p ∈ q, p.isSignificant = false) (hseparator : ∀ p ∈ old, p.isSeparator = false)
      (hold : runDeclares .code old = some (foundOld, .code))
      (hnew : scan .code [] new = some (foundNew, .code))
      (hfound : (foundNew ++ removed).Perm (foundOld ++ added)) (hends : EndsStatement cs)
      (hrest : Fits .code (q ++ old) cs removed' added') :
      Fits .code q (.fields old new :: cs) (removed ++ removed') (added ++ added')
  | block {new : List Piece} {cs : List Cell} {found removed added : List Profile}
      (hnew : advance .code [] new = some (found, .code, []))
      (hrest : Fits .code [] cs removed added) :
      Fits .code [] (.block new :: cs) removed (found ++ added)
  | ending {level : Level} {q new : List Piece} {p : Piece} {found : List Profile}
      (hp : p.isSeparator = true)
      (hlevel : ∀ found next, runDeclares level q = some (found, next) → next = .code)
      (hnew : scan .code [] new = some (found, .code)) :
      Fits level q [.block (p :: new)] [] found

/-! ## Replaced words of a member -/

/-- The tokens agree on whether they are one of the two words that close a member. -/
def AgreeOn (closing : Text) (t t' : Token) : Prop :=
  t.isWord "end" = t'.isWord "end" ∧ t.isWord closing = t'.isWord closing

theorem isWord_of_isInner {word : Text} (h : IsInner closing word) (pos : Nat) :
    Token.isWord ⟨.identifier, pos, word⟩ "end" = false ∧
      Token.isWord ⟨.identifier, pos, word⟩ closing = false :=
  ⟨beq_false_of_ne h.1, beq_false_of_ne h.2⟩

section

variable (h : List.Forall₂ (Replaced closing) q q')

include h

theorem agreeOn_significant (pos pos' : Nat) :
    List.Forall₂ (AgreeOn closing) (significant (place pos q)) (significant (place pos' q')) := by
  induction h generalizing pos pos' with
  | nil => exact .nil
  | @cons p p' q q' hp _ ih =>
    cases hp with
    | keep =>
      cases p with
      | blank c => exact ih _ _
      | token kind text =>
        rw [place, place, significant, significant, filter_cons, filter_cons]
        split
        · exact .cons ⟨rfl, rfl⟩ (ih _ _)
        · exact ih _ _
    | @word old new hold hnew =>
      obtain ⟨hold, hold'⟩ := isWord_of_isInner hold pos
      obtain ⟨hnew, hnew'⟩ := isWord_of_isInner hnew pos'
      exact .cons ⟨hold.trans hnew.symm, hold'.trans hnew'.symm⟩ (ih _ _)

/-- Replaced words do not change where a member ends. -/
theorem runDeclares_of_replaced :
    runDeclares (.member closing) q = runDeclares (.member closing) q' := by
  have hagree := agreeOn_significant h 0 0
  rw [runDeclares, runDeclares, ownStatement, ownStatement, declaresRun,
    declaresRun, declares, declares]
  generalize significant (place 0 q) = s at hagree
  generalize significant (place 0 q') = s' at hagree
  have hempty : s.isEmpty = s'.isEmpty := by cases hagree <;> rfl
  have hend : isEnd s closing = isEnd s' closing := by
    rw [isEnd, isEnd, isWord, isWord, isWord, isWord]
    cases hagree with
    | nil => rfl
    | cons hfirst hrest =>
      cases hrest with
      | nil => simp
      | cons hsecond _ => exact congrArg₂ (· && ·) hfirst.1 hsecond.2
  rw [hempty, hend]

end

/-! ## Reading both texts side by side -/

/-- How the readings of the two texts relate: what has been read of the current statement is the same
in both, the same up to words of a member, or a statement that only has to be closed and declares
`foundOld` before the change and `foundNew` after it. -/
inductive Beside : Level → List Piece → Level → List Piece → List Cell → List Profile →
    List Profile → Prop
  | same {level : Level} {q : List Piece} {cs : List Cell} : Beside level q level q cs [] []
  | inside {closing : Text} {q q' : List Piece} {cs : List Cell}
      (h : List.Forall₂ (Replaced closing) q q') :
      Beside (.member closing) q (.member closing) q' cs [] []
  | changed {q q' : List Piece} {level' : Level} {cs : List Cell} {foundOld foundNew : List Profile}
      (hends : EndsStatement cs) (hold : runDeclares .code q = some (foundOld, .code))
      (hnew : runDeclares level' q' = some (foundNew, .code)) :
      Beside .code q level' q' cs foundOld foundNew

section

variable {next : Level}

/-- At a separator both readings go on at one level. -/
theorem Beside.runDeclares (h : Beside level q level' q' cs foundOld foundNew)
    (hold : runDeclares level q = some (found, next)) :
    ∃ found', runDeclares level' q' = some (found', next) ∧
      (found' ++ foundOld).Perm (found ++ foundNew) := by
  cases h with
  | same => exact ⟨found, hold, .refl _⟩
  | inside h => exact ⟨found, (runDeclares_of_replaced h).symm.trans hold, .refl _⟩
  | changed hends hold' hnew =>
    rw [hold', Option.some.injEq, Prod.mk.injEq] at hold
    obtain ⟨rfl, rfl⟩ := hold
    exact ⟨foundNew, hnew, perm_append_comm⟩

theorem Beside.keep (h : Beside level q level' q' (.keep p :: cs) foundOld foundNew)
    (hp : p.isSeparator = false) :
    Beside level (q ++ [p]) level' (q' ++ [p]) cs foundOld foundNew := by
  cases h with
  | same => exact .same
  | inside h => exact .inside (rel_append h (.cons (.keep p) .nil))
  | changed hends hold hnew =>
    rcases hends with hsep | ⟨hinsignificant, hends⟩
    · rw [hp] at hsep
      cases hsep
    · have hlast : ∀ p' ∈ [p], p'.isSignificant = false := by simpa using hinsignificant
      have htrim (level : Level) (q : List Piece) :
          VbaRefactor.Lexer.runDeclares level (q ++ [p]) = VbaRefactor.Lexer.runDeclares level q :=
        runDeclares_trim (forall_mem_nil _) hlast level q
      exact .changed hends ((htrim _ _).trans hold) ((htrim _ _).trans hnew)

theorem Beside.word {old new : Text}
    (h : Beside (.member closing) q level' q' (.word old new :: cs) foundOld foundNew)
    (hold : IsInner closing old) (hnew : IsInner closing new) :
    Beside (.member closing) (q ++ [.token .identifier old]) level'
      (q' ++ [.token .identifier new]) cs foundOld foundNew := by
  have hword : List.Forall₂ (Replaced closing) [.token .identifier old] [.token .identifier new] :=
    .cons (.word hold hnew) .nil
  cases h with
  | same => exact .inside (rel_append (forall₂_same.mpr fun p _ => .keep p) hword)
  | inside h => exact .inside (rel_append h hword)

end

/-- Blanks, comments and continuations before the first token do not change what pieces declare. -/
theorem scan_trim (h : ∀ p ∈ before, p.isSignificant = false) (level : Level) (q ps : List Piece) :
    scan level (before ++ q) ps = scan level q ps := by
  induction ps generalizing q with
  | nil =>
    have htrim := runDeclares_trim h (forall_mem_nil _) level q
    rw [append_nil] at htrim
    rw [scan_nil, scan_nil, htrim]
  | cons p ps ih =>
    cases hp : p.isSeparator with
    | false => rw [scan_cons hp, scan_cons hp, append_assoc, ih]
    | true =>
      have htrim := runDeclares_trim h (forall_mem_nil _) level q
      rw [append_nil] at htrim
      rw [scan_separator hp, scan_separator hp, htrim]

/-- The changed text is read to the same level, and what it declares differs by what the changes
remove and add. -/
theorem Fits.scan {last : Level} (h : Fits level q cs removed added)
    (hbeside : Beside level q level' q' cs foundOld foundNew)
    (hscan : scan level q (oldPieces cs) = some (found, last)) :
    ∃ found', scan level' q' (newPieces cs) = some (found', last) ∧
      (found' ++ removed ++ foundOld).Perm (found ++ added ++ foundNew) := by
  induction h generalizing level' q' foundOld foundNew found with
  | nil =>
    rw [oldPieces_nil, scan_nil] at hscan
    obtain ⟨found', hfound', hperm⟩ := hbeside.runDeclares hscan
    refine ⟨found', by rw [newPieces_nil, scan_nil, hfound'], ?_⟩
    simpa using hperm
  | keep hp hrest ih =>
    rw [oldPieces_cons, Cell.old, singleton_append, scan_cons hp] at hscan
    rw [newPieces_cons, Cell.new, singleton_append, scan_cons hp]
    exact ih (hbeside.keep hp) hscan
  | separator hp hrest ih =>
    rw [oldPieces_cons, Cell.old, singleton_append, scan_separator_eq_some hp] at hscan
    obtain ⟨found₁, next, found₂, hfound₁, hfound₂, rfl⟩ := hscan
    obtain ⟨found₁', hfound₁', hperm₁⟩ := hbeside.runDeclares hfound₁
    obtain ⟨found₂', hfound₂', hperm₂⟩ := ih found₁ next hfound₁ .same hfound₂
    refine ⟨found₁' ++ found₂', ?_, ?_⟩
    · rw [newPieces_cons, Cell.new, singleton_append, scan_separator_eq_some hp]
      exact ⟨found₁', next, found₂', hfound₁', hfound₂', rfl⟩
    · simp only [perm_iff_count, count_append, count_nil] at hperm₁ hperm₂ ⊢
      grind
  | word hold hnew hrest ih =>
    rw [oldPieces_cons, Cell.old, singleton_append, scan_cons rfl] at hscan
    rw [newPieces_cons, Cell.new, singleton_append, scan_cons rfl]
    exact ih (hbeside.word hold hnew) hscan
  | @fields q old new cs fo fn removed added removed' added' hq hseparator hold hnew hfound hends
      hrest ih =>
    cases hbeside with
    | changed hends' => exact absurd hends' id
    | same =>
      have hnew' : scan .code q (new ++ []) = some (fn, .code) := by
        rw [← append_nil q, append_nil new, scan_trim hq, hnew]
      obtain ⟨found₁, next, q₁, found₂, hfound₁, hfound₂, rfl⟩ := scan_append_eq_some.mp hnew'
      rw [scan_nil] at hfound₂
      have hold' : runDeclares .code (q ++ old) = some (fo, .code) := by
        have htrim := runDeclares_trim hq (forall_mem_nil _) .code old
        rw [append_nil] at htrim
        rw [htrim, hold]
      rw [oldPieces_cons, Cell.old, scan_run hseparator] at hscan
      obtain ⟨found', hfound', hperm⟩ := ih (.changed hends hold' hfound₂) hscan
      refine ⟨found₁ ++ found', ?_, ?_⟩
      · rw [newPieces_cons, Cell.new, scan_append_eq_some]
        exact ⟨found₁, next, q₁, found', hfound₁, hfound', rfl⟩
      · simp only [perm_iff_count, count_append, count_nil] at hperm hfound ⊢
        grind
  | @block new cs foundBlock removed added hnew hrest ih =>
    rw [oldPieces_cons, Cell.old, nil_append] at hscan
    obtain ⟨found', hfound', hperm⟩ := ih .same hscan
    have hperm' : (foundBlock ++ found' ++ removed).Perm (found ++ (foundBlock ++ added)) := by
      simp only [perm_iff_count, count_append, count_nil] at hperm ⊢
      grind
    have hscan' : scan .code [] (new ++ newPieces cs) = some (foundBlock ++ found', last) :=
      scan_append_eq_some.mpr ⟨foundBlock, .code, [], found', hnew, hfound', rfl⟩
    cases hbeside with
    | same => exact ⟨foundBlock ++ found', hscan', by simpa using hperm'⟩
    | changed hends hold hnew' =>
      obtain ⟨-, p, rest, rfl, hp⟩ := hends
      cases hold
      rw [cons_append, scan_separator_eq_some hp] at hscan'
      obtain ⟨found₁, next, found₂, hfound₁, hfound₂, heq⟩ := hscan'
      cases hfound₁
      refine ⟨foundNew ++ found₂, ?_, ?_⟩
      · rw [newPieces_cons, Cell.new, cons_append, scan_separator_eq_some hp]
        exact ⟨foundNew, .code, found₂, hnew', hfound₂, rfl⟩
      · rw [heq, nil_append] at hperm'
        simp only [perm_iff_count, count_append, count_nil] at hperm' ⊢
        grind
  | @ending level q new p foundBlock hp hlevel hnew =>
    rw [oldPieces_cons, Cell.old, nil_append, oldPieces_nil, scan_nil] at hscan
    cases hlevel found last hscan
    obtain ⟨found', hfound', hperm⟩ := hbeside.runDeclares hscan
    refine ⟨found' ++ foundBlock, ?_, ?_⟩
    · rw [newPieces_cons, newPieces_nil, Cell.new, append_nil, scan_separator_eq_some hp]
      exact ⟨found', .code, foundBlock, hfound', hnew, rfl⟩
    · simp only [perm_iff_count, count_append, count_nil] at hperm ⊢
      grind

/-! ## Changes by what stands before them -/

/-- Whether a lone `#` stands on the line after these pieces. -/
def hashAfterAll (ps : List Piece) : Bool := ps.foldl hashAfter false

/-- No token of a statement follows before the next separator. -/
def EndsRun : List Piece → Prop
  | [] => True
  | p :: ps => p.isSeparator = true ∨ p.isSignificant = false ∧ EndsRun ps

/-- A word of a member after these pieces can become another one. -/
structure WordChange (before : List Piece) (old new : Text) : Prop where
  prev : ∀ p ∈ before.getLast?, p.admitsWord = true
  plain : isPlainName old = true ∧ isPlainName new = true
  rem : new.fold ≠ ['r', 'e', 'm']
  inner : ∃ closing, IsInner closing old ∧ IsInner closing new ∧
    ∀ found level q, advance .code [] before = some (found, level, q) → level = .member closing

/-- A statement at module level between these pieces can become other statements, which declare what
the statement declares but for some that are removed and added. -/
structure FieldsChange (before old new after : List Piece) (removed added : List Profile) : Prop where
  prev : ∀ p ∈ before.getLast?, p.admitsWord = true
  hash : hashAfterAll before = false ∧ ∀ p ∈ old, p.isHash = false
  first : ∃ p ∈ old.head?, p.isSignificant = true
  begins : BeginsWord (flat old) ∧ BeginsWord (flat new)
  last : ∃ kind text, old.getLast? = some (.token kind text) ∧ kind.isSignificant = true
  newLast : ∃ kind text, new.getLast? = some (.token kind text) ∧ kind.isSignificant = true
  lexes : ∀ ctx rest, Stops rest → Lexes ctx new rest
  level : ∀ found level q, advance .code [] before = some (found, level, q) →
    level = .code ∧ ∀ p ∈ q, p.isSignificant = false
  run : ∀ p ∈ old, p.isSeparator = false
  found : ∃ foundOld foundNew, runDeclares .code old = some (foundOld, .code) ∧
    scan .code [] new = some (foundNew, .code) ∧ (foundNew ++ removed).Perm (foundOld ++ added)
  ends : EndsRun after

/-- Lines that declare something can be added at module level between these pieces. -/
structure BlockChange (before new after : List Piece) (found : List Profile) : Prop where
  prev : ∀ p ∈ before.getLast?, p.isNewline = true
  lexes : ∀ ctx rest, ctx.fresh = true → Lexes ctx new rest
  newLast : ∃ text, new.getLast? = some (.token .newline text)
  next : ∀ text, after.head? ≠ some (.token .continuation text)
  level : ∀ found level q, advance .code [] before = some (found, level, q) → level = .code ∧ q = []
  found : advance .code [] new = some (found, .code, [])

/-- Lines that declare something can be added after all pieces. -/
structure EndingChange (before new : List Piece) (found : List Profile) : Prop where
  ends : LineEnds (flat new)
  lexes : ∀ ctx, Lexes ctx new []
  level : ∀ found level, scan .code [] before = some (found, level) → level = .code
  found : ∃ p rest, new = p :: rest ∧ p.isSeparator = true ∧
    scan .code [] rest = some (found, .code)

/-- The changes that cells make after the pieces `before` leave what stands around them as it is, and
what statements declare, except that they remove and add some. -/
inductive Weave : List Piece → List Piece → List Cell → List Profile → List Profile → Prop
  | nil {before : List Piece} : Weave before [] [] [] []
  | keep {before : List Piece} {p : Piece} {ps : List Piece} {cs : List Cell}
      {removed added : List Profile} (hbreak : p.HoldsBreak ∨ cs = [])
      (hrest : Weave (before ++ [p]) ps cs removed added) :
      Weave before (p :: ps) (.keep p :: cs) removed added
  | word {before : List Piece} {old new : Text} {ps : List Piece} {cs : List Cell}
      {removed added : List Profile} (h : WordChange before old new)
      (hrest : Weave (before ++ [.token .identifier old]) ps cs removed added) :
      Weave before (.token .identifier old :: ps) (.word old new :: cs) removed added
  | fields {before old new ps : List Piece} {cs : List Cell}
      {removed added removed' added' : List Profile}
      (h : FieldsChange before old new ps removed added)
      (hrest : Weave (before ++ old) ps cs removed' added') :
      Weave before (old ++ ps) (.fields old new :: cs) (removed ++ removed') (added ++ added')
  | block {before new ps : List Piece} {cs : List Cell} {found removed added : List Profile}
      (h : BlockChange before new ps found) (hrest : Weave before ps cs removed added) :
      Weave before ps (.block new :: cs) removed (found ++ added)
  | ending {before new : List Piece} {found : List Profile} (h : EndingChange before new found) :
      Weave before [] [.block new] [] found

section

variable {ps : List Piece}

theorem hashAfterAll_append (ps qs : List Piece) :
    hashAfterAll (ps ++ qs) = qs.foldl hashAfter (hashAfterAll ps) := foldl_append

theorem hashAfterAll_quiet {old : List Piece} (hash : hashAfterAll before = false)
    (h : ∀ p ∈ old, p.isHash = false) : hashAfterAll (before ++ old) = false := by
  rw [hashAfterAll_append, hash]
  induction old with
  | nil => rfl
  | cons p old ih =>
    obtain ⟨hp, hold⟩ := forall_mem_cons.mp h
    rw [foldl_cons, show hashAfter false p = false by simp [hashAfter, hp]]
    exact ih hold

theorem hashAfterAll_newline (h : ∀ p ∈ before.getLast?, p.isNewline = true) :
    hashAfterAll before = false := by
  rcases eq_nil_or_concat before with rfl | ⟨init, p, rfl⟩
  · rfl
  · have hp : p.isNewline = true := h p (by simp)
    simp [hashAfterAll_append, hashAfter, hp]

namespace Weave

theorem oldPieces_eq (h : Weave before ps cs removed added) : oldPieces cs = ps := by
  induction h with
  | nil | ending => rfl
  | keep hbreak hrest ih => rw [oldPieces_cons, Cell.old, ih, singleton_append]
  | word h hrest ih => rw [oldPieces_cons, Cell.old, ih, singleton_append]
  | fields h hrest ih => rw [oldPieces_cons, Cell.old, ih]
  | block h hrest ih => rw [oldPieces_cons, Cell.old, ih, nil_append]

theorem endsStatement (h : Weave before ps cs removed added) (hends : EndsRun ps)
    (hprev : ∃ p ∈ before.getLast?, p.isNewline = false) : EndsStatement cs := by
  induction h with
  | nil => trivial
  | @keep before p ps cs removed added hbreak hrest ih =>
    rcases hends with hsep | ⟨hinsignificant, hends⟩
    · exact .inl hsep
    · cases hsep : p.isSeparator with
      | true => exact .inl hsep
      | false =>
        refine .inr ⟨hinsignificant, ih hends ⟨p, by simp, ?_⟩⟩
        cases p with
        | blank c => rfl
        | token kind text => cases kind <;> first | rfl | cases hsep
  | word h hrest ih =>
    rcases hends with hsep | ⟨hinsignificant, -⟩
    · cases hsep
    · cases hinsignificant
  | @fields before old new ps cs removed added removed' added' h hrest ih =>
    obtain ⟨p, hp, hsignificant⟩ := h.first
    obtain ⟨rest, rfl⟩ := head?_eq_some_iff.mp hp
    rcases hends with hsep | ⟨hinsignificant, -⟩
    · rw [isSignificant_of_isSeparator hsep] at hsignificant
      cases hsignificant
    · rw [hinsignificant] at hsignificant
      cases hsignificant
  | block h hrest ih =>
    obtain ⟨p, hp, hnewline⟩ := hprev
    rw [h.prev p hp] at hnewline
    cases hnewline
  | ending h =>
    obtain ⟨p, rest, rfl, hp, -⟩ := h.found
    exact ⟨rfl, p, rest, rfl, hp⟩

theorem endsStatement_of_fields {old new : List Piece} {removed' added' : List Profile}
    (hrest : Weave (before ++ old) ps cs removed added)
    (h : FieldsChange before old new ps removed' added') : EndsStatement cs := by
  obtain ⟨kind, text, hlast, hkind⟩ := h.last
  refine hrest.endsStatement h.ends ⟨.token kind text, ?_, isNewline_of_isSignificant hkind⟩
  rw [getLast?_append, hlast]
  rfl

theorem ready (h : Weave before ps cs removed added) :
    Ready before.getLast? (hashAfterAll before) cs := by
  induction h with
  | nil => exact .nil
  | @keep before p ps cs removed added hbreak hrest ih =>
    rw [getLast?_append, hashAfterAll_append] at ih
    exact .keep hbreak ih
  | @word before old new ps cs removed added h hrest ih =>
    rw [getLast?_append, hashAfterAll_append] at ih
    have hhash : hashAfter (hashAfterAll before) (.token .identifier old) = hashAfterAll before := by
      simp [hashAfter, Piece.isNewline, Piece.isHash]
    rw [foldl_cons, foldl_nil, hhash] at ih
    exact .word h.prev h.plain.1 h.plain.2 h.rem ih
  | @fields before old new ps cs removed added removed' added' h hrest ih =>
    obtain ⟨kind, text, hlast, hkind⟩ := h.last
    have hends := hrest.endsStatement_of_fields h
    rw [getLast?_append, hlast, Option.some_or, ← hlast, hashAfterAll_quiet h.hash.1 h.hash.2] at ih
    rw [h.hash.1]
    exact .fields h.prev h.begins.1 h.last h.begins.2 h.lexes h.newLast hends.separated ih
  | @block before new ps cs found removed added h hrest ih =>
    rw [hashAfterAll_newline h.prev] at ih ⊢
    refine .block h.prev h.lexes h.newLast ?_ ih
    rintro text rest rfl
    apply h.next text
    rw [← hrest.oldPieces_eq]
    rfl
  | ending h => exact .ending h.ends h.lexes

theorem fits (h : Weave before ps cs removed added)
    (hadvance : advance .code [] before = some (found, level, q)) :
    Fits level q cs removed added := by
  induction h generalizing found level q with
  | nil => exact .nil
  | @keep before p ps cs removed added hbreak hrest ih =>
    cases hp : p.isSeparator with
    | false =>
      have hstep : advance level q [p] = some ([], level, q ++ [p]) := by simp [advance, hp]
      exact .keep hp (ih (advance_append_eq_some hadvance hstep))
    | true =>
      refine .separator hp fun found' next hfound => ?_
      have hstep : advance level q [p] = some (found', next, []) := by simp [advance, hp, hfound]
      exact ih (advance_append_eq_some hadvance hstep)
  | @word before old new ps cs removed added h hrest ih =>
    obtain ⟨closing, hold, hnew, hlevel⟩ := h.inner
    cases hlevel _ _ _ hadvance
    have hstep : advance (.member closing) q [.token .identifier old] =
        some ([], .member closing, q ++ [.token .identifier old]) := rfl
    exact .word hold hnew (ih (advance_append_eq_some hadvance hstep))
  | @fields before old new ps cs removed added removed' added' h hrest ih =>
    obtain ⟨rfl, hq⟩ := h.level _ _ _ hadvance
    obtain ⟨foundOld, foundNew, hold, hnew, hperm⟩ := h.found
    exact .fields hq h.run hold hnew hperm (hrest.endsStatement_of_fields h)
      (ih (advance_append_eq_some hadvance (advance_run h.run .code q)))
  | block h hrest ih =>
    obtain ⟨rfl, rfl⟩ := h.level _ _ _ hadvance
    exact .block h.found (ih hadvance)
  | ending h =>
    obtain ⟨p, rest, rfl, hp, hfound⟩ := h.found
    refine .ending hp (fun found' next hnext => ?_) hfound
    exact h.level _ next (scan_of_advance hadvance hnext)

end Weave

end

end Lexer

/-- A module whose text is changed in this way can be read, and what it declares differs by what the
changes remove and add. -/
theorem Outline.exists_read_of_weave {base base' : DeclarationId} {source source' : Source}
    {o : Outline} {cs : List Cell} (hread : read base source = .ok o)
    (hweave : Weave [] (pieces .initial source.text) cs removed added)
    (htext : source'.text = flat (newPieces cs)) :
    ∃ o', read base' source' = .ok o' ∧ (o'.profiles ++ removed).Perm (o.profiles ++ added) := by
  have hold := hweave.oldPieces_eq
  have hlexes : Lexes .initial (newPieces cs) [] := by
    refine hweave.ready.lexes ?_ rfl (.refl _ _)
    rw [hold]
    exact lexes_pieces _ _
  have hpieces := pieces_of_lexes hlexes
  rw [append_nil, ← htext, pieces, append_nil] at hpieces
  have hscan := profiles_read_eq_scan base source
  rw [hread] at hscan
  obtain ⟨⟨found, level⟩, hfiltered, hfound⟩ := Option.map_eq_some_iff.mp hscan.symm
  obtain ⟨hscan, hend⟩ := Option.filter_eq_some_iff.mp hfiltered
  obtain ⟨found', hscan', hperm⟩ := (hweave.fits rfl).scan .same (by rw [hold]; exact hscan)
  have hprofiles := profiles_read_eq_scan base' source'
  rw [hpieces, hscan', Option.filter_some, if_pos hend] at hprofiles
  obtain ⟨o', ho', hfound'⟩ := Option.map_eq_some_iff.mp hprofiles
  have hfound : found = o.profiles := hfound
  refine ⟨o', ?_, ?_⟩
  · cases hresult : read base' source' with
    | error e =>
      rw [hresult] at ho'
      cases ho'
    | ok result =>
      rw [hresult] at ho'
      cases ho'
      rfl
  · rw [hfound', ← hfound]
    simpa using hperm

end VbaRefactor
