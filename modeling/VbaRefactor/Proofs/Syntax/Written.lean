import VbaRefactor.Proofs.Syntax.Variables

/-!
# Lines that are written

New lines of a module consist of plain words, blanks and a few marks. They are read as the pieces they
were written with, whatever stands before and after them. The first line of a property declares the
name and the type that were written there.
-/

namespace VbaRefactor

open List Text Statement

namespace Lexer

/-! ## Pieces of a line -/

abbrev word (name : Text) : Piece := .token .identifier name

abbrev mark (c : Char) : Piece := .token .punct [c]

abbrev gap : Piece := .blank ' '

/-- The name is read as one wherever it is written: it has no line break in it and begins no comment. -/
def isWritable (name : Text) : Bool :=
  isPlainName name && decide name.Plain && name.fold != ['r', 'e', 'm']

def Piece.isName : Piece → Bool
  | .token .identifier _ => true
  | _ => false

/-- The pieces are words with something between them, blanks, parentheses, equals signs, and points
in front of words. -/
def isWritten : List Piece → Bool
  | [] => true
  | .blank c :: ps => c == ' ' && isWritten ps
  | .token .identifier name :: ps => isWritable name && !ps.head?.any Piece.isName && isWritten ps
  | .token .punct [c] :: ps =>
    (c == '(' || c == ')' || c == '=' || c == '.' && ps.head?.any Piece.isName) && isWritten ps
  | _ => false

/-- The pieces are words with points between them. -/
def isDotted : List Piece → Bool
  | [.token .identifier name] => isWritable name
  | .token .identifier name :: .token .punct ['.'] :: ps => isWritable name && isDotted ps
  | _ => false

section

variable {name : Text} {ps : List Piece} {rest : Text}

theorem isWritable_iff :
    isWritable name = true ↔ isPlainName name = true ∧ name.Plain ∧ name.fold ≠ ['r', 'e', 'm'] := by
  simp [isWritable, and_assoc]

theorem isWritten_word (hname : isWritable name = true) (hnext : ps.head?.any Piece.isName = false) :
    isWritten (word name :: ps) = isWritten ps := by
  simp [isWritten, hname, hnext]

section

variable (h : isWritten ps = true)

include h

theorem nameTail_of_isWritten (hnext : ps.head?.any Piece.isName = false) (hrest : Stops rest) :
    nameTail (flat ps ++ rest) = 0 := by
  match ps, h, hnext with
  | [], _, _ => exact nameTail_of_stops hrest
  | .blank c :: ps, h, _ =>
    obtain ⟨hc, -⟩ := Bool.and_eq_true_iff.mp h
    rw [beq_iff_eq.mp hc]
    exact nameTail_cons_space rfl _
  | .token .punct [c] :: ps, h, _ =>
    obtain ⟨hc, -⟩ := Bool.and_eq_true_iff.mp h
    simp only [Bool.or_eq_true, Bool.and_eq_true, beq_iff_eq] at hc
    rcases hc with ((rfl | rfl) | rfl) | ⟨rfl, -⟩ <;> rfl

/-- A point in front of a word is a mark. -/
theorem cuts_point (hnext : ps.head?.any Piece.isName = true) (ctx : Context) (rest : Text) :
    Cuts ctx (flat ps ++ rest) (mark '.') := by
  match ps, h, hnext with
  | .token .identifier name :: ps, h, _ =>
    simp only [isWritten, Bool.and_eq_true] at h
    obtain ⟨hplain, -, -⟩ := isWritable_iff.mp h.1.1
    match name, hplain with
    | c :: tail, hplain =>
      have hc : isDigit c = false := isDigit_of_isLetter (Bool.and_eq_true_iff.mp hplain).1
      refine ⟨rfl, (recognize_dot ctx _).trans (if_neg ?_)⟩
      simp [Piece.text, hc]

theorem lexes_of_isWritten (hrest : Stops rest) (ctx : Context) : Lexes ctx ps rest := by
  induction ps generalizing ctx with
  | nil => trivial
  | cons p ps ih =>
    match p, h with
    | .blank c, h =>
      obtain ⟨hc, hps⟩ := Bool.and_eq_true_iff.mp h
      rw [beq_iff_eq.mp hc]
      exact ⟨rfl, ih hps _⟩
    | .token .identifier name, h =>
      simp only [isWritten, Bool.and_eq_true, Bool.not_eq_true'] at h
      obtain ⟨⟨hname, hnext⟩, hps⟩ := h
      obtain ⟨hplain, -, hrem⟩ := isWritable_iff.mp hname
      exact ⟨cuts_name hplain (fun _ => hrem) (nameTail_of_isWritten hps hnext hrest), ih hps _⟩
    | .token .punct [c], h =>
      obtain ⟨hc, hps⟩ := Bool.and_eq_true_iff.mp h
      refine ⟨?_, ih hps _⟩
      simp only [Bool.or_eq_true, Bool.and_eq_true, beq_iff_eq] at hc
      rcases hc with ((rfl | rfl) | rfl) | ⟨rfl, hnext⟩
      · exact ⟨rfl, rfl⟩
      · exact ⟨rfl, rfl⟩
      · exact ⟨rfl, rfl⟩
      · exact cuts_point hps hnext ctx rest

theorem isSeparator_of_isWritten : ∀ p ∈ ps, p.isSeparator = false := by
  fun_induction isWritten ps with
  | case1 => exact forall_mem_nil _
  | case2 c ps ih => exact forall_mem_cons.mpr ⟨rfl, ih (Bool.and_eq_true_iff.mp h).2⟩
  | case3 name ps ih => exact forall_mem_cons.mpr ⟨rfl, ih (Bool.and_eq_true_iff.mp h).2⟩
  | case4 c ps ih => exact forall_mem_cons.mpr ⟨rfl, ih (Bool.and_eq_true_iff.mp h).2⟩
  | case5 => cases h

theorem plain_of_isWritten : (flat ps).Plain := by
  fun_induction isWritten ps with
  | case1 => exact forall_mem_nil _
  | case2 c ps ih =>
    obtain ⟨hc, hps⟩ := Bool.and_eq_true_iff.mp h
    rw [beq_iff_eq.mp hc]
    exact forall_mem_cons.mpr ⟨rfl, ih hps⟩
  | case3 name ps ih =>
    simp only [Bool.and_eq_true] at h
    exact forall_mem_append.mpr ⟨(isWritable_iff.mp h.1.1).2.1, ih h.2⟩
  | case4 c ps ih =>
    obtain ⟨hc, hps⟩ := Bool.and_eq_true_iff.mp h
    refine forall_mem_cons.mpr ⟨?_, ih hps⟩
    simp only [Bool.or_eq_true, Bool.and_eq_true, beq_iff_eq] at hc
    rcases hc with ((rfl | rfl) | rfl) | ⟨rfl, -⟩ <;> rfl
  | case5 => cases h

end

end

/-! ## Lines one after another -/

/-- Lines with a line end after each of them. -/
def closedPieces (ending : Text) (lines : List (List Piece)) : List Piece :=
  lines.flatMap (· ++ [.token .newline ending])

section

variable {ending : Text} {lines : List (List Piece)}

theorem flat_closedPieces (ending : Text) (lines : List (List Piece)) :
    flat (closedPieces ending lines) = closed ending (lines.map flat) := by
  induction lines with
  | nil => rfl
  | cons line lines ih =>
    rw [closedPieces, flatMap_cons, flat_append, ← closedPieces, ih, flat_append]
    simp [closed, Piece.text]

theorem lexes_closedPieces (he : IsTerminator ending) (h : ∀ line ∈ lines, isWritten line = true)
    (ctx : Context) (rest : Text) : Lexes ctx (closedPieces ending lines) rest := by
  induction lines generalizing ctx with
  | nil => trivial
  | cons line lines ih =>
    obtain ⟨hline, hlines⟩ := forall_mem_cons.mp h
    rw [closedPieces, flatMap_cons, ← closedPieces, append_assoc, lexes_append, singleton_append]
    refine ⟨lexes_of_isWritten hline ?_ ctx, lexes_ending he _ _, ih hlines _⟩
    rw [flat_cons, append_assoc]
    exact stops_ending he _

theorem advance_closedPieces (h : ∀ line ∈ lines, isWritten line = true) {level last : Level}
    {found : List Profile} (hdeclare : linesDeclare level lines = some (found, last)) :
    advance level [] (closedPieces ending lines) = some (found, last, []) := by
  induction lines generalizing level found with
  | nil =>
    cases hdeclare
    rfl
  | cons line lines ih =>
    obtain ⟨hline, hlines⟩ := forall_mem_cons.mp h
    rw [linesDeclare] at hdeclare
    obtain ⟨⟨first, next⟩, hfirst, hdeclare⟩ := Option.bind_eq_some_iff.mp hdeclare
    obtain ⟨⟨more, last'⟩, hmore, heq⟩ := Option.map_eq_some_iff.mp hdeclare
    cases heq
    have hrun := advance_run (isSeparator_of_isWritten hline) level []
    rw [nil_append] at hrun
    have hend : advance level line [.token .newline ending] = some (first, next, []) := by
      simp [advance, Piece.isSeparator, hfirst]
    have hboth := advance_append_eq_some (advance_append_eq_some hrun hend) (ih hlines hmore)
    rwa [nil_append] at hboth

/-- Lines that are written after a line end can follow on any text. -/
theorem lexes_linePieces (he : IsTerminator ending) (h : ∀ line ∈ lines, isWritten line = true)
    (ctx : Context) : Lexes ctx (linePieces ending lines) [] := by
  induction lines generalizing ctx with
  | nil => trivial
  | cons line lines ih =>
    obtain ⟨hline, hlines⟩ := forall_mem_cons.mp h
    cases lines with
    | nil =>
      rw [linePieces, intercalate_singleton]
      have hnil : Stops [] := by simp [Stops]
      exact lexes_of_isWritten hline hnil ctx
    | cons next lines =>
      rw [linePieces, intercalate_cons_cons, ← linePieces, append_assoc, lexes_append,
        singleton_append]
      refine ⟨lexes_of_isWritten hline ?_ ctx, lexes_ending he _ _, ih hlines _⟩
      rw [flat_cons, append_assoc]
      exact stops_ending he _

end

/-! ## Type names -/

section

variable {ps qs : List Piece}

/-- A type name can stand before what does not begin with a word. -/
theorem isWritten_append_of_isDotted (h : isDotted ps = true)
    (hnext : qs.head?.any Piece.isName = false) : isWritten (ps ++ qs) = isWritten qs := by
  fun_induction isDotted ps with
  | case1 name => exact isWritten_word h hnext
  | case2 name ps ih =>
    obtain ⟨hname, hps⟩ := Bool.and_eq_true_iff.mp h
    have hhead : (ps ++ qs).head?.any Piece.isName = true := by
      match ps, hps with
      | .token .identifier _ :: _, _ => rfl
    show isWritten (word name :: mark '.' :: (ps ++ qs)) = _
    rw [isWritten_word hname rfl, isWritten, hhead, ih hps]
    rfl
  | case3 => cases h

theorem isSignificant_of_isDotted (h : isDotted ps = true) :
    (∃ p ∈ ps.head?, p.isSignificant = true) ∧ ∃ p ∈ ps.getLast?, p.isSignificant = true := by
  fun_induction isDotted ps with
  | case1 name => exact ⟨⟨_, rfl, rfl⟩, _, rfl, rfl⟩
  | case2 name ps ih =>
    obtain ⟨-, p, hp, hsignificant⟩ := ih (Bool.and_eq_true_iff.mp h).2
    refine ⟨⟨_, rfl, rfl⟩, p, ?_, hsignificant⟩
    obtain ⟨front, rfl⟩ := getLast?_eq_some_iff.mp hp
    exact getLast?_concat (l := word name :: mark '.' :: front)
  | case3 => cases h

/-- The piece is no parenthesis. -/
def Piece.isInner (p : Piece) : Bool := p.text != ['('] && p.text != [')']

theorem isInner_of_isWritable {name : Text} (h : isWritable name = true) : (word name).isInner = true := by
  obtain ⟨hplain, -, -⟩ := isWritable_iff.mp h
  match name, hplain with
  | c :: tail, hplain =>
    have hc : isLetter c = true := (Bool.and_eq_true_iff.mp hplain).1
    simp [Piece.isInner, Piece.text, ne_of_isLetter hc '(' (by decide), ne_of_isLetter hc ')' (by decide)]

theorem isInner_of_isDotted (h : isDotted ps = true) : ∀ p ∈ ps, p.isInner = true := by
  fun_induction isDotted ps with
  | case1 name => exact forall_mem_singleton.mpr (isInner_of_isWritable h)
  | case2 name ps ih =>
    obtain ⟨hname, hps⟩ := Bool.and_eq_true_iff.mp h
    exact forall_mem_cons.mpr ⟨isInner_of_isWritable hname, forall_mem_cons.mpr ⟨rfl, ih hps⟩⟩
  | case3 => cases h

end

end Lexer

/-! ## The first line of a property -/

namespace Statement

/-- What an opening parenthesis holds ends at the next closing one, if nothing in it is one. -/
theorem closing?_of_inner {inner rest : Statement} {close : Token}
    (hinner : ∀ t ∈ inner, t.isPunct "(" = false ∧ t.isPunct ")" = false)
    (hclose : close.isPunct ")" = true) :
    closing? 1 (inner ++ close :: rest) = some inner.length := by
  induction inner with
  | nil =>
    rw [nil_append, closing?, hclose]
    rfl
  | cons t inner ih =>
    obtain ⟨⟨hopen, hshut⟩, hrest⟩ := forall_mem_cons.mp hinner
    simp only [cons_append, closing?, depthAfter, hopen, hshut, Bool.false_and,
      Bool.false_eq_true, if_false, ih hrest, Option.map_some, length_cons]

/-- The signature of a member with a list of parameters. -/
theorem memberProfile?_of_list {text : Text} {s inner result : Statement} {name «open» close : Token}
    {nameAt : Nat} (h : s.drop nameAt = name :: «open» :: (inner ++ close :: result))
    (hname : name.kind = .identifier) (hopen : «open».isPunct "(" = true)
    (hshut : «open».isPunct ")" = false)
    (hinner : ∀ t ∈ inner, t.isPunct "(" = false ∧ t.isPunct ")" = false)
    (hclose : close.isPunct ")" = true) (kind : DeclarationKind) (access : Access) :
    s.memberProfile? text kind access nameAt = some {
      name := name.name, kind, access, type? := resultType? text result
      isWithEvents := false, isArray := false } := by
  have hmatching : matching? («open» :: (inner ++ close :: result)) 0 = some (inner.length + 1) := by
    simp only [matching?, drop_zero, closing?, depthAfter, hopen, hshut, Bool.false_and,
      Bool.false_eq_true, if_false, if_true, Nat.zero_add, closing?_of_inner hinner hclose,
      Option.map_some]
  have hdrop : («open» :: (inner ++ close :: result)).drop (inner.length + 1 + 1) = result := by
    simp
  rw [memberProfile?, signature, h]
  simp only [hname, if_true, dropWhile_cons, hopen, Bool.not_true, Bool.false_eq_true, if_false,
    hmatching, hdrop, Except.toOption, Option.map_some]

end Statement

namespace Lexer

/-- The words of the accessors of a property, with what they declare. -/
def accessorWords : List (Text × DeclarationKind) :=
  [("Get", .propertyGet), ("Let", .propertyLet), ("Set", .propertySet)]

/-- The first line of an accessor. -/
def propertyLine (accessor property : Text) (inner result : List Piece) : List Piece :=
  [word "Public", gap, word "Property", gap, word accessor, gap, word property, mark '('] ++
    (inner ++ mark ')' :: result)

/-- The type after a signature. -/
def resultPieces (type : List Piece) : List Piece := [gap, word "As", gap] ++ type

section

variable {accessor property : Text} {kind : DeclarationKind} {inner result type : List Piece}
  {pos : Nat}

theorem isInner_of_mem_place (h : ∀ p ∈ inner, p.isInner = true) :
    ∀ t ∈ significant (place pos inner), t.isPunct "(" = false ∧ t.isPunct ")" = false := by
  intro t ht
  obtain ⟨front, back, rfl, -⟩ := exists_of_mem_place (mem_filter.mp ht).1
  have hinner := h (.token t.kind t.text) (by simp)
  simp only [Piece.isInner, Piece.text, Bool.and_eq_true, bne_iff_ne] at hinner
  exact ⟨Bool.and_eq_false_iff.mpr (.inr (beq_false_of_ne hinner.1)),
    Bool.and_eq_false_iff.mpr (.inr (beq_false_of_ne hinner.2))⟩

/-- The type after a signature is read as it was written. -/
theorem resultType?_resultPieces {text : Text} (htype : isDotted type = true)
    (h : text.HasAt pos (flat (resultPieces type))) :
    resultType? text (significant (place pos (resultPieces type))) = some (flat type) := by
  obtain ⟨hfirst, hlast⟩ := isSignificant_of_isDotted htype
  rw [resultPieces, flat_append] at h
  have hat := h.right
  rw [resultPieces, significant_place_append]
  have htext : textIn? (significant
      (place (pos + (flat [gap, word "As", gap]).byteSize) type)) text = some (flat type) := by
    rw [textIn?, cover?_place hfirst hlast, Option.map_some, hat.slice_eq]
  exact htext

/-- The first line of an accessor declares its name and opens a member. -/
theorem runDeclares_propertyLine (haccessor : (accessor, kind) ∈ accessorWords)
    (hproperty : isPlainName property = true) (hinner : ∀ p ∈ inner, p.isInner = true)
    {type? : Option Text}
    (hresult : ∀ text pos, text.HasAt pos (flat result) →
      resultType? text (significant (place pos result)) = type?) :
    runDeclares .code (propertyLine accessor property inner result) = some ([{
      name := property, kind, access := .public, type?, isWithEvents := false, isArray := false }],
        .member "property") := by
  generalize hline : propertyLine accessor property inner result = line
  generalize hfront : [word "Public", gap, word "Property", gap, word accessor, gap, word property,
    mark '('] = front
  have hstatement : ownStatement line = ownStatement front ++
      (significant (place (flat front).byteSize inner) ++
        ⟨.punct, (flat front).byteSize + (flat inner).byteSize, [')']⟩ ::
          significant
            (place ((flat front).byteSize + (flat inner).byteSize + byteSize [')']) result)) := by
    rw [← hline, propertyLine, hfront, ownStatement, significant_place_append, Nat.zero_add,
      significant_place_append, significant_place_token rfl]
    rfl
  have hat : (flat line).HasAt
      ((flat front).byteSize + (flat inner).byteSize + byteSize [')']) (flat result) := by
    refine ⟨flat front ++ flat inner ++ [')'], [], ?_, ?_⟩
    · rw [← hline, propertyLine, hfront]
      simp [Piece.text]
    · rw [byteSize_append, byteSize_append]
  obtain ⟨a, b, c, d, htokens⟩ : ∃ a b c d, ownStatement front =
      [⟨.identifier, 0, "Public"⟩, ⟨.identifier, a, "Property"⟩, ⟨.identifier, b, accessor⟩,
        ⟨.identifier, c, property⟩, ⟨.punct, d, ['(']⟩] := by
    rw [← hfront]
    exact ⟨_, _, _, _, rfl⟩
  rw [htokens] at hstatement
  have hkind : ModuleStatement.ofStatement (ownStatement line) =
      .procedure kind .public 3 "property" := by
    rw [hstatement]
    simp only [accessorWords, mem_cons, Prod.mk.injEq, not_mem_nil, or_false] at haccessor
    rcases haccessor with ⟨rfl, rfl⟩ | ⟨rfl, rfl⟩ | ⟨rfl, rfl⟩ <;> rfl
  have hprofile := @memberProfile?_of_list (flat line) (ownStatement line) _ _ _ _ _ 3 (by rw [hstatement]; rfl) rfl rfl rfl (isInner_of_mem_place hinner) rfl kind .public
  rw [hresult _ _ hat, name_of_isPlainName hproperty] at hprofile
  have hne : (ownStatement line).isEmpty = false := by
    rw [hstatement]
    rfl
  rw [runDeclares, declaresRun, hne, declares, hkind]
  simp only [hprofile]
  rfl

end

end Lexer

end VbaRefactor
