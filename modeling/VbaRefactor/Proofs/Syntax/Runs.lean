import Mathlib.Data.List.Basic
import VbaRefactor.Proofs.Syntax.Lexing
import VbaRefactor.Proofs.Syntax.Lists
import VbaRefactor.Proofs.Syntax.ModuleLevel

/-!
# Runs of pieces

What a statement declares does not depend on where it stands: it can be read off the pieces of its run
alone. `advance` reads pieces one after another, with the run so far and the construct in which it
stands, and comes to the same as reading the statements of the whole text.
-/

namespace VbaRefactor

open List Text Statement ModuleStatement Token

variable {q' : List Piece} {pos : Nat} {text whole : Text}

/-- The token further behind in a text. -/
def Token.shift (k : Nat) (t : Token) : Token := { t with start := k + t.start }

namespace Token

variable (k : Nat) (t : Token)

@[simp]
theorem kind_shift : (t.shift k).kind = t.kind := rfl

@[simp]
theorem text_shift : (t.shift k).text = t.text := rfl

@[simp]
theorem isWord_shift (word : Text) : (t.shift k).isWord word = t.isWord word := rfl

@[simp]
theorem isPunct_shift (mark : Text) : (t.shift k).isPunct mark = t.isPunct mark := rfl

@[simp]
theorem name_shift : (t.shift k).name = t.name := rfl

theorem span_shift : (t.shift k).span = ⟨k + t.start, k + t.stop⟩ := by
  simp only [span, stop, shift, Nat.add_assoc]

end Token

/-- The span further behind in a text. -/
def Span.shift (k : Nat) (span : Span) : Span := ⟨k + span.start, k + span.stop⟩

/-- A name with its type further behind in a text. -/
def NamedType.shift (k : Nat) (found : NamedType) : NamedType :=
  ⟨found.name.shift k, found.bounds?.map (.shift k), found.type?⟩

/-- A variable of a field statement further behind in a text. -/
def Declarator.shift (k : Nat) (d : Declarator) : Declarator :=
  { d with selection := d.selection.shift k, span := d.span.shift k }

namespace Statement

/-- The statement further behind in a text. -/
def shift (k : Nat) (s : Statement) : Statement := s.map (Token.shift k)

/-- The text holds the tokens where they say. -/
def HeldBy (text : Text) (s : Statement) : Prop := ∀ t ∈ s, text.HasAt t.start t.text

theorem HeldBy.sublist {s s' : Statement} (h : s.HeldBy text) (hsub : s'.Sublist s) :
    s'.HeldBy text := fun t ht => h t (hsub.subset ht)

section

variable (k : Nat) (s : Statement)

@[simp]
theorem shift_nil : shift k [] = [] := rfl

@[simp]
theorem shift_cons (t : Token) : shift k (t :: s) = t.shift k :: shift k s := rfl

@[simp]
theorem length_shift : (shift k s).length = s.length := length_map _

theorem getElem?_shift (i : Nat) : (shift k s)[i]? = s[i]?.map (Token.shift k) := getElem?_map

theorem drop_shift (i : Nat) : (shift k s).drop i = shift k (s.drop i) := map_drop.symm

theorem take_shift (i : Nat) : (shift k s).take i = shift k (s.take i) := map_take.symm

@[simp]
theorem isWord_shift (i : Nat) (word : Text) : (shift k s).isWord i word = s.isWord i word := by
  rw [isWord, isWord, getElem?_shift]
  cases s[i]? <;> rfl

@[simp]
theorem isPunct_shift (i : Nat) (mark : Text) : (shift k s).isPunct i mark = s.isPunct i mark := by
  rw [isPunct, isPunct, getElem?_shift]
  cases s[i]? <;> rfl

@[simp]
theorem word?_shift (i : Nat) : (shift k s).word? i = s.word? i := by
  rw [word?, word?, getElem?_shift]
  cases s[i]? <;> rfl

theorem takeWhile_shift (p : Token → Bool) (hp : ∀ t : Token, p (t.shift k) = p t) :
    (shift k s).takeWhile p = shift k (s.takeWhile p) := by
  rw [shift, takeWhile_map, shift]
  congr 2
  exact funext hp

theorem dropWhile_shift (p : Token → Bool) (hp : ∀ t : Token, p (t.shift k) = p t) :
    (shift k s).dropWhile p = shift k (s.dropWhile p) := by
  rw [shift, dropWhile_map, shift]
  congr 2
  exact funext hp

theorem depthAfter_shift (depth : Nat) (t : Token) : depthAfter depth (t.shift k) = depthAfter depth t :=
  rfl

theorem closing?_shift (depth : Nat) : closing? depth (shift k s) = closing? depth s := by
  induction s generalizing depth with
  | nil => rfl
  | cons t s ih => rw [shift_cons, closing?, closing?, Token.isPunct_shift, depthAfter_shift, ih]

theorem matching?_shift (start : Nat) : matching? (shift k s) start = matching? s start := by
  rw [matching?, matching?, drop_shift, closing?_shift]

theorem consFirst_shift (t : Token) (statements : List Statement) :
    consFirst (t.shift k) (statements.map (shift k)) = (consFirst t statements).map (shift k) := by
  cases statements <;> rfl

theorem splitAtCommas_shift (depth : Nat) :
    splitAtCommas depth (shift k s) = (splitAtCommas depth s).map (shift k) := by
  induction s generalizing depth with
  | nil => rfl
  | cons t s ih =>
    simp only [shift_cons, splitAtCommas, Token.isPunct_shift, depthAfter_shift, ih]
    split
    · rfl
    · exact consFirst_shift k t _

theorem cover?_shift :
    cover? (shift k s) = (cover? s).map (.shift k) := by
  rw [cover?, cover?, shift, head?_map, getLast?_map]
  cases s.head? with
  | none => rfl
  | some first =>
    cases s.getLast? with
    | none => rfl
    | some last =>
      simp only [Option.map_some, span_shift, Span.cover]
      simp only [Token.span, Span.shift, Nat.add_min_add_left, Nat.add_max_add_left]

end

section

variable {s : Statement} {span : Span}

theorem slice_shift {p q : Nat} (hat : whole.HasAt pos text) (hp : text.IsBoundary p)
    (hq : text.IsBoundary q) (hle : p ≤ q) :
    whole.slice (.shift pos ⟨p, q⟩) = text.slice ⟨p, q⟩ := by
  obtain ⟨a, m, d, rfl, ha, hm⟩ := exists_parts hp hq hle
  obtain ⟨front, rest, rfl, hfront⟩ := hat
  rw [slice_parts a m d ha hm]
  have hparts : front ++ (a ++ (m ++ d) ++ rest) = (front ++ a) ++ (m ++ (d ++ rest)) := by simp
  rw [hparts]
  refine slice_parts _ _ _ ?_ ?_
  · rw [byteSize_append, hfront, ha]
  · rw [byteSize_append, hfront, Nat.add_assoc, hm]

/-- The span from the first to the last token has its ends at ends of tokens. -/
theorem HeldBy.cover? (hs : s.HeldBy text) (h : s.cover? = some span) :
    text.IsBoundary span.start ∧ text.IsBoundary span.stop ∧ span.start ≤ span.stop := by
  rw [Statement.cover?] at h
  split at h
  · rename_i first last hfirst hlast
    cases h
    have hboundary {t : Token} (ht : t ∈ s) : text.IsBoundary t.start ∧ text.IsBoundary t.stop := by
      obtain ⟨a, b, htext, hsize⟩ := hs t ht
      refine ⟨⟨a, t.text ++ b, htext, hsize⟩, a ++ t.text, b, by simp [htext], ?_⟩
      rw [byteSize_append, hsize, stop]
    have hmin := hboundary (mem_of_head? hfirst)
    have hmax := hboundary (mem_of_getLast? hlast)
    simp only [Span.cover, Token.span]
    refine ⟨?_, ?_, ?_⟩
    · rcases Nat.le_total first.start last.start with hle | hle
      · rw [Nat.min_eq_left hle]
        exact hmin.1
      · rw [Nat.min_eq_right hle]
        exact hmax.1
    · rcases Nat.le_total first.stop last.stop with hle | hle
      · rw [Nat.max_eq_right hle]
        exact hmax.2
      · rw [Nat.max_eq_left hle]
        exact hmin.2
    · have hle : first.start ≤ first.stop := Nat.le_add_right _ _
      omega
  · cases h

/-- The text from one token to another is the same in a text that holds it. -/
theorem textIn?_shift (hat : whole.HasAt pos text) (hs : s.HeldBy text) :
    textIn? (s.shift pos) whole = textIn? s text := by
  rw [textIn?, textIn?, cover?_shift, Option.map_map]
  cases hspan : s.cover? with
  | none => rfl
  | some span =>
    obtain ⟨hstart, hstop, hle⟩ := hs.cover? hspan
    exact congrArg some (slice_shift hat hstart hstop hle)

theorem asType?_shift (hat : whole.HasAt pos text) (hs : s.HeldBy text) :
    asType? whole (s.shift pos) = asType? text s := by
  simp only [asType?, isWord_shift, drop_shift]
  split
  · split
    all_goals
      rw [takeWhile_shift _ _ _ (fun t => by simp)]
      refine textIn?_shift hat (hs.sublist ?_)
      exact (takeWhile_sublist _).trans (drop_sublist _ _)
  · rfl

/-- What is written after a name: array bounds and a type. -/
def afterName? (text : Text) (rest : Statement) : Option (Option Span × Option Text) :=
  if isPunct rest 0 "(" then
    (matching? rest 0).map fun close =>
      (cover? (rest.take (close + 1)), asType? text (rest.drop (close + 1)))
  else some (none, asType? text rest)

/-- The part of a variable from its name on. -/
def fromName (s : Statement) : Statement := if s.isWord 0 "withevents" then s.drop 1 else s

theorem fromName_sublist (s : Statement) : (fromName s).Sublist s := by
  rw [fromName]
  split
  · exact drop_sublist _ _
  · exact List.Sublist.refl _

theorem namedType?_eq (text : Text) (s : Statement) :
    namedType? text s = match fromName s with
      | [] => none
      | name :: rest =>
        if name.kind = .identifier then
          (afterName? text rest).map fun found => ⟨name, found.1, found.2⟩
        else none := by
  rw [namedType?, fromName]
  generalize (if s.isWord 0 "withevents" then s.drop 1 else s) = named
  cases named with
  | nil => rfl
  | cons name rest =>
    simp only [afterName?]
    split
    · split
      · cases matching? rest 0 <;> rfl
      · rfl
    · rfl

theorem afterName?_shift (hat : whole.HasAt pos text) (hs : s.HeldBy text) :
    afterName? whole (s.shift pos) =
      (afterName? text s).map fun found => (found.1.map (.shift pos), found.2) := by
  simp only [afterName?, isPunct_shift, matching?_shift, drop_shift, take_shift]
  split
  · cases matching? s 0 with
    | none => rfl
    | some close =>
      simp [cover?_shift, asType?_shift hat (hs.sublist (drop_sublist _ _))]
  · simp [asType?_shift hat hs]

theorem namedType?_shift (hat : whole.HasAt pos text) (hs : s.HeldBy text) :
    namedType? whole (s.shift pos) = (namedType? text s).map (.shift pos) := by
  have hnamed : fromName (s.shift pos) = shift pos (fromName s) := by
    rw [fromName, fromName, isWord_shift, drop_shift]
    split <;> rfl
  have hsub := hs.sublist (fromName_sublist s)
  rw [namedType?_eq, namedType?_eq, hnamed]
  cases hname : fromName s with
  | nil => rfl
  | cons name rest =>
    rw [hname] at hsub
    have hrest : HeldBy text rest := hsub.sublist (sublist_cons_self _ _)
    simp only [shift_cons, kind_shift, afterName?_shift hat hrest]
    split
    · cases afterName? text rest <;> rfl
    · rfl

theorem HeldBy.bounds? (hs : s.HeldBy text) {found : NamedType} (h : s.namedType? text = some found)
    (hspan : found.bounds? = some span) :
    text.IsBoundary span.start ∧ text.IsBoundary span.stop ∧ span.start ≤ span.stop := by
  have hsub := hs.sublist (fromName_sublist s)
  rw [namedType?_eq] at h
  cases hname : fromName s with
  | nil =>
    rw [hname] at h
    cases h
  | cons name rest =>
    rw [hname] at h hsub
    have hrest : HeldBy text rest := hsub.sublist (sublist_cons_self _ _)
    rcases ite_eq_iff.mp h with ⟨-, h⟩ | ⟨-, ⟨⟩⟩
    obtain ⟨⟨bounds?, type?⟩, hafter, rfl⟩ := Option.map_eq_some_iff.mp h
    rw [afterName?] at hafter
    rcases ite_eq_iff.mp hafter with ⟨-, hafter⟩ | ⟨-, hafter⟩
    · obtain ⟨close, -, heq⟩ := Option.map_eq_some_iff.mp hafter
      cases heq
      exact HeldBy.cover? (hrest.sublist (take_sublist _ _)) hspan
    · cases hafter
      cases hspan

section

variable (hat : whole.HasAt pos text) (hs : s.HeldBy text)

include hat hs

theorem constantProfile?_shift (access : Access) :
    constantProfile? whole access (s.shift pos) = constantProfile? text access s := by
  rw [constantProfile?, constantProfile?, namedType?_shift hat hs, Option.map_map]
  rfl

theorem declarator?_shift (access : Access) (withEvents : Bool) :
    declarator? whole access withEvents (s.shift pos) =
      (declarator? text access withEvents s).map (.shift pos) := by
  rw [declarator?, declarator?, namedType?_shift hat hs, cover?_shift]
  cases hfound : namedType? text s with
  | none => rfl
  | some found =>
    cases s.cover? with
    | none => rfl
    | some span =>
      simp only [Option.map_some, isWord_shift, Declarator.shift]
      have hbounds : (found.shift pos).bounds?.map whole.slice = found.bounds?.map text.slice := by
        rw [NamedType.shift, Option.map_map]
        cases hspan : found.bounds? with
        | none => rfl
        | some span =>
          obtain ⟨hstart, hstop, hle⟩ := hs.bounds? hfound hspan
          exact congrArg some (slice_shift hat hstart hstop hle)
      rw [hbounds]
      simp only [NamedType.shift, Option.isSome_map, name_shift, span_shift]
      rfl

omit hat in
theorem filterMap_splitAtCommas_shift {α β : Type} {f : Statement → Option α} {g : Statement → Option β}
    {h : β → α} (hf : ∀ piece, piece.HeldBy text → f (piece.shift pos) = (g piece).map h) (depth : Nat) :
    (splitAtCommas depth (s.shift pos)).filterMap f = ((splitAtCommas depth s).filterMap g).map h := by
  rw [splitAtCommas_shift, filterMap_map, map_filterMap]
  refine filterMap_congr ?_
  intro piece hpiece
  exact hf piece (hs.sublist (sublist_of_mem_splitAtCommas hpiece))

theorem declarators_shift (access : Access) (i : Nat) :
    declarators whole access (s.shift pos) i = (declarators text access s i).map (.shift pos) := by
  have hat' : (s.shift pos).variablesAt i = s.variablesAt i := by
    rw [variablesAt, variablesAt, isWord_shift]
  rw [declarators, declarators, hat', length_shift, drop_shift, isWord_shift]
  split
  · refine filterMap_splitAtCommas_shift (hs.sublist (drop_sublist _ _)) ?_ 0
    exact fun piece hpiece => declarator?_shift hat hpiece access _
  · rfl

theorem resultType?_shift : resultType? whole (s.shift pos) = resultType? text s := by
  rw [resultType?, resultType?, isWord_shift, drop_shift]
  split
  · exact textIn?_shift hat (hs.sublist (drop_sublist _ _))
  · rfl

theorem memberProfile?_shift (kind : DeclarationKind) (access : Access) (nameAt : Nat) :
    memberProfile? whole (s.shift pos) kind access nameAt =
      memberProfile? text s kind access nameAt := by
  have hdrop := hs.sublist (drop_sublist nameAt s)
  rw [memberProfile?, memberProfile?, signature, signature, drop_shift]
  cases hname : s.drop nameAt with
  | nil => rfl
  | cons name rest =>
    rw [hname] at hdrop
    have hrest : HeldBy text rest := hdrop.sublist (sublist_cons_self _ _)
    have hopened := dropWhile_shift pos rest (fun t => !t.isPunct "(") fun t => by simp
    simp only [shift_cons, kind_shift, hopened]
    split
    · cases hparens : rest.dropWhile (fun t => !t.isPunct "(") with
      | nil =>
        simp only [shift_nil, resultType?_shift hat hrest]
        rfl
      | cons first more =>
        have hheld : HeldBy text (first :: more) := by
          rw [← hparens]
          exact hrest.sublist (dropWhile_sublist _)
        simp only [shift_cons]
        rw [← shift_cons, matching?_shift]
        cases matching? (first :: more) 0 with
        | none => rfl
        | some close =>
          simp only [drop_shift, resultType?_shift hat (hheld.sublist (drop_sublist _ _))]
          rfl
    · rfl

end

theorem blockProfile?_shift (k : Nat) (s : Statement) (kind : DeclarationKind) (access : Access)
    (nameAt : Nat) : blockProfile? (s.shift k) kind access nameAt = blockProfile? s kind access nameAt := by
  rw [blockProfile?, blockProfile?, getElem?_shift, Option.map_map]
  rfl

theorem enumeratorProfile?_shift (k : Nat) (type : Text) (s : Statement) :
    enumeratorProfile? type (s.shift k) = enumeratorProfile? type s := by
  cases s with
  | nil => rfl
  | cons t s =>
    simp only [enumeratorProfile?, shift_cons, head?_cons, Option.filter_some, kind_shift]
    by_cases hname : t.kind = .identifier
    · simp [hname, name_shift]
    · simp [hname]

theorem isEnd_shift (k : Nat) (s : Statement) (closing : Text) :
    Outline.isEnd (s.shift k) closing = Outline.isEnd s closing := by
  rw [Outline.isEnd, Outline.isEnd, isWord_shift, isWord_shift]

theorem ofStatement_shift (k : Nat) (s : Statement) :
    ofStatement (s.shift k) = ofStatement s := by
  simp only [ofStatement, afterModifiers, isWord_shift, word?_shift]

/-- What a statement declares does not depend on where it stands. -/
theorem declares_shift (hat : whole.HasAt pos text) (hs : s.HeldBy text) (level : Level) :
    (s.shift pos).declares whole level = s.declares text level := by
  cases level with
  | code =>
    rw [declares, declares, ofStatement_shift]
    cases ofStatement s with
    | ignored | fileHeader | implements | unknownAccessor => rfl
    | procedure kind access nameAt closing => simp only [memberProfile?_shift hat hs]
    | bodyless kind access nameAt => simp only [memberProfile?_shift hat hs]
    | record access nameAt => simp only [blockProfile?_shift]
    | enumeration access nameAt => simp only [blockProfile?_shift]
    | constants access start =>
      have hconstants := filterMap_splitAtCommas_shift (hs.sublist (drop_sublist start s))
        (fun piece hpiece => (constantProfile?_shift hat hpiece access).trans Option.map_id'.symm) 0
      simp only [drop_shift, hconstants, map_id']
    | fields access start =>
      simp only [declarators_shift hat hs, map_map]
      rfl
  | fileHeader => simp only [declares, length_shift, isWord_shift]
  | member closing => simp only [declares, isEnd_shift]
  | record => simp only [declares, isEnd_shift]
  | enumeration type => simp only [declares, isEnd_shift, enumeratorProfile?_shift]

end

/-- What a run declares, which has no token or is a statement. -/
def declaresRun (text : Text) (s : Statement) (level : Level) : Option (List Profile × Level) :=
  if s.isEmpty then some ([], level) else s.declares text level

theorem declaresRun_shift {s : Statement} (hat : whole.HasAt pos text) (hs : s.HeldBy text)
    (level : Level) : (s.shift pos).declaresRun whole level = s.declaresRun text level := by
  rw [declaresRun, declaresRun, declares_shift hat hs, shift, isEmpty_map]

theorem declareAll_filter (text : Text) (level : Level) (s : Statement) (rest : List Statement) :
    declareAll text level ((s :: rest).filter (!·.isEmpty)) =
      (s.declaresRun text level).bind fun (found, level) =>
        (declareAll text level (rest.filter (!·.isEmpty))).map
          fun (more, level) => (found ++ more, level) := by
  rw [declaresRun]
  cases s with
  | nil => exact Option.map_id'.symm
  | cons t s =>
    rw [filter_cons_of_pos rfl, declareAll]
    simp only [isEmpty_cons, Bool.false_eq_true, if_false]
    cases declares text (t :: s) level <;> rfl

/-- The tokens of which statements are made. -/
def significant (tokens : List Token) : Statement := tokens.filter (·.kind.isSignificant)

theorem runs_separator {t : Token} (h : t.kind = .newline ∨ t.kind = .colon) (rest : List Token) :
    runs (t :: rest) = [] :: runs rest := by
  rw [runs]
  rcases h with h | h <;> rw [h]

/-- Tokens without a separator belong to the first run of what follows. -/
theorem runs_append {tokens rest : List Token} {first : Statement} {more : List Statement}
    (h : ∀ t ∈ tokens, t.kind ≠ .newline ∧ t.kind ≠ .colon) (hrest : runs rest = first :: more) :
    runs (tokens ++ rest) = (significant tokens ++ first) :: more := by
  induction tokens with
  | nil => exact hrest
  | cons t tokens ih =>
    obtain ⟨⟨hnewline, hcolon⟩, htokens⟩ := forall_mem_cons.mp h
    rw [cons_append, runs, ih htokens]
    cases hkind : t.kind with
    | newline => exact absurd hkind hnewline
    | colon => exact absurd hkind hcolon
    | comment | continuation => simp [significant, hkind, TokenKind.isSignificant]
    | _ => simp [significant, hkind, TokenKind.isSignificant, consFirst]

end Statement

namespace Lexer

variable {rest q ps : List Piece} {level next last : Level} {found more : List Profile} {p : Piece}

def Piece.isSeparator : Piece → Bool
  | .token .newline _ | .token .colon _ => true
  | _ => false

/-- The piece is a token of a statement. -/
def Piece.isSignificant : Piece → Bool
  | .blank _ => false
  | .token kind _ => kind.isSignificant

theorem place_append (pos : Nat) (ps qs : List Piece) :
    place pos (ps ++ qs) = place pos ps ++ place (pos + (flat ps).byteSize) qs := by
  induction ps generalizing pos with
  | nil => rfl
  | cons p ps ih =>
    cases p with
    | blank c =>
      rw [cons_append, place, place, ih, flat_cons, byteSize_append, Nat.add_assoc]
      rfl
    | token kind text =>
      rw [cons_append, place, place, ih, flat_cons, byteSize_append, Nat.add_assoc]
      rfl

theorem place_shift (k pos : Nat) (ps : List Piece) :
    place (k + pos) ps = (place pos ps).map (Token.shift k) := by
  induction ps generalizing pos with
  | nil => rfl
  | cons p ps ih =>
    cases p with
    | blank c => rw [place, place, ← ih, Nat.add_assoc]
    | token kind text =>
      rw [place, place, map_cons, ← ih, Nat.add_assoc]
      rfl

/-- The statement that pieces without a separator make up. -/
def ownStatement (q : List Piece) : Statement := Statement.significant (place 0 q)

/-- What pieces without a separator declare. -/
def runDeclares (level : Level) (q : List Piece) : Option (List Profile × Level) :=
  (ownStatement q).declaresRun (flat q) level

theorem significant_place (pos : Nat) (q : List Piece) :
    significant (place pos q) = (ownStatement q).shift pos := by
  have hplace := place_shift pos 0 q
  rw [Nat.add_zero] at hplace
  rw [hplace, significant, filter_map]
  rfl

theorem heldBy_ownStatement (q : List Piece) : (ownStatement q).HeldBy (flat q) :=
  fun t ht => ((hasAt_of_mem_place (hasAt_zero (flat q))).1 t (mem_filter.mp ht).1).2.1

theorem declaresRun_place (h : text.HasAt pos (flat q)) (level : Level) :
    (significant (place pos q)).declaresRun text level = runDeclares level q := by
  rw [significant_place, declaresRun_shift h (heldBy_ownStatement q), runDeclares]

theorem significant_place_eq_nil (h : ∀ p ∈ q, p.isSignificant = false) :
    significant (place pos q) = [] := by
  induction q generalizing pos with
  | nil => rfl
  | cons p q ih =>
    obtain ⟨hp, hq⟩ := forall_mem_cons.mp h
    cases p with
    | blank c => exact ih hq
    | token kind text =>
      rw [place, significant, filter_cons_of_neg (by simpa [Piece.isSignificant] using hp)]
      exact ih hq

/-- Blanks, comments and continuations at the ends do not change what pieces declare. -/
theorem runDeclares_trim {before after : List Piece} (hbefore : ∀ p ∈ before, p.isSignificant = false)
    (hafter : ∀ p ∈ after, p.isSignificant = false) (level : Level) (q : List Piece) :
    runDeclares level (before ++ q ++ after) = runDeclares level q := by
  have hat : (flat (before ++ q ++ after)).HasAt (flat before).byteSize (flat q) :=
    ⟨flat before, flat after, by simp, rfl⟩
  rw [← declaresRun_place hat, runDeclares, ownStatement, place_append, place_append,
    significant, filter_append, filter_append]
  have hnone {pos : Nat} {ps : List Piece} (h : ∀ p ∈ ps, p.isSignificant = false) :
      (place pos ps).filter (·.kind.isSignificant) = [] := significant_place_eq_nil h
  rw [hnone hbefore, hnone hafter, nil_append, append_nil, Nat.zero_add]
  rfl

/-- What pieces declare after those that were read of the current statement, in what the next
statement stands, and what of it has been read. -/
def advance (level : Level) (q : List Piece) :
    List Piece → Option (List Profile × Level × List Piece)
  | [] => some ([], level, q)
  | p :: ps =>
    if p.isSeparator then
      match runDeclares level q with
      | none => none
      | some (found, level) => (advance level [] ps).map fun (more, state) => (found ++ more, state)
    else advance level (q ++ [p]) ps

/-- What pieces declare up to the end. -/
def scan (level : Level) (q ps : List Piece) : Option (List Profile × Level) :=
  (advance level q ps).bind fun (found, level, q) =>
    (runDeclares level q).map fun (more, level) => (found ++ more, level)

theorem advance_append (level : Level) (q ps rest : List Piece) :
    advance level q (ps ++ rest) = (advance level q ps).bind fun (found, level, q) =>
        (advance level q rest).map fun (more, state) => (found ++ more, state) := by
  induction ps generalizing level q with
  | nil =>
    rw [nil_append, advance]
    exact Option.map_id'.symm
  | cons p ps ih =>
    rw [cons_append, advance, advance]
    split
    · cases runDeclares level q with
      | none => rfl
      | some found =>
        simp only [ih]
        cases advance found.2 [] ps with
        | none => rfl
        | some state =>
          simp only [Option.bind_some, Option.map_some, Option.map_map]
          congr 1
          funext last
          simp [append_assoc]
    · exact ih level (q ++ [p])

theorem advance_append_eq_some {q'' : List Piece} (h : advance level q ps = some (found, next, q'))
    (hrest : advance next q' rest = some (more, last, q'')) :
    advance level q (ps ++ rest) = some (found ++ more, last, q'') := by
  simp [advance_append, h, hrest]

theorem scan_of_advance (h : advance level q ps = some (found, next, q'))
    (hrun : runDeclares next q' = some (more, last)) :
    scan level q ps = some (found ++ more, last) := by
  simp [scan, h, hrun]

theorem scan_of_advance_nil (h : advance level q ps = some (found, next, [])) :
    scan level q ps = some (found, next) := by
  rw [← append_nil found]
  exact scan_of_advance h rfl

theorem scan_append (level : Level) (q ps rest : List Piece) :
    scan level q (ps ++ rest) = (advance level q ps).bind fun (found, level, q) =>
        (scan level q rest).map fun (more, level) => (found ++ more, level) := by
  rw [scan, advance_append]
  cases advance level q ps with
  | none => rfl
  | some state =>
    simp only [Option.bind_some, scan]
    cases advance state.2.1 state.2.2 rest with
    | none => rfl
    | some last =>
      simp only [Option.bind_some, Option.map_some, Option.map_map]
      congr 1
      funext more
      simp [append_assoc]

theorem scan_nil (level : Level) (q : List Piece) : scan level q [] = runDeclares level q := by
  rw [scan, advance]
  exact Option.map_id'

theorem scan_cons (hp : p.isSeparator = false) (level : Level) (q ps : List Piece) :
    scan level q (p :: ps) = scan level (q ++ [p]) ps := by
  rw [scan, scan, advance, if_neg (by simp [hp])]

theorem advance_run (h : ∀ p ∈ ps, p.isSeparator = false) (level : Level) (q : List Piece) :
    advance level q ps = some ([], level, q ++ ps) := by
  induction ps generalizing q with
  | nil => rw [advance, append_nil]
  | cons p ps ih =>
    obtain ⟨hp, hps⟩ := forall_mem_cons.mp h
    rw [advance, if_neg (by simp [hp]), ih hps, append_assoc, singleton_append]

theorem scan_run (h : ∀ p ∈ ps, p.isSeparator = false) (level : Level) (q rest : List Piece) :
    scan level q (ps ++ rest) = scan level (q ++ ps) rest := by
  rw [scan_append, advance_run h, Option.bind_some]
  exact Option.map_id'

theorem scan_separator (hp : p.isSeparator = true) (level : Level) (q ps : List Piece) :
    scan level q (p :: ps) = (runDeclares level q).bind fun (found, level) =>
        (scan level [] ps).map fun (more, level) => (found ++ more, level) := by
  rw [← singleton_append, scan_append, advance, if_pos hp]
  cases runDeclares level q with
  | none => rfl
  | some found => simp [advance]

theorem scan_separator_eq_some (hp : p.isSeparator = true) {last : Level} :
    scan level q (p :: ps) = some (found, last) ↔
      ∃ found₁ next found₂, runDeclares level q = some (found₁, next) ∧
        scan next [] ps = some (found₂, last) ∧ found = found₁ ++ found₂ := by
  rw [scan_separator hp, Option.bind_eq_some_iff]
  constructor
  · rintro ⟨⟨found₁, next⟩, hfound₁, hscan⟩
    obtain ⟨⟨found₂, _⟩, hfound₂, heq⟩ := Option.map_eq_some_iff.mp hscan
    cases heq
    exact ⟨found₁, next, found₂, hfound₁, hfound₂, rfl⟩
  · rintro ⟨found₁, next, found₂, hfound₁, hfound₂, rfl⟩
    exact ⟨(found₁, next), hfound₁, by simp [hfound₂]⟩

theorem scan_append_eq_some {last : Level} :
    scan level q (ps ++ rest) = some (found, last) ↔
      ∃ found₁ next q' found₂, advance level q ps = some (found₁, next, q') ∧
        scan next q' rest = some (found₂, last) ∧ found = found₁ ++ found₂ := by
  rw [scan_append, Option.bind_eq_some_iff]
  constructor
  · rintro ⟨⟨found₁, next, q'⟩, hfound₁, hscan⟩
    obtain ⟨⟨found₂, _⟩, hfound₂, heq⟩ := Option.map_eq_some_iff.mp hscan
    cases heq
    exact ⟨found₁, next, q', found₂, hfound₁, hfound₂, rfl⟩
  · rintro ⟨found₁, next, q', found₂, hfound₁, hfound₂, rfl⟩
    exact ⟨(found₁, next, q'), hfound₁, by simp [hfound₂]⟩

theorem ne_separator_of_mem_place (h : ∀ p ∈ q, p.isSeparator = false) (pos : Nat) :
    ∀ t ∈ place pos q, t.kind ≠ .newline ∧ t.kind ≠ .colon := by
  induction q generalizing pos with
  | nil => exact forall_mem_nil _
  | cons p q ih =>
    obtain ⟨hp, hq⟩ := forall_mem_cons.mp h
    cases p with
    | blank c => exact ih hq _
    | token kind text =>
      refine forall_mem_cons.mpr ⟨?_, ih hq _⟩
      constructor <;> (rintro rfl; cases hp)

/-- What the pieces of a text declare is what its statements declare. -/
theorem scan_eq_declareAll (hat : text.HasAt pos (flat (q ++ ps)))
    (hq : ∀ p ∈ q, p.isSeparator = false) :
    scan level q ps = declareAll text level (ofTokens (place pos (q ++ ps))) := by
  induction ps generalizing pos q level with
  | nil =>
    rw [append_nil] at hat
    have hempty : runs [] = [] :: [] := rfl
    have hruns := runs_append (ne_separator_of_mem_place hq pos) hempty
    rw [append_nil, append_nil] at hruns
    rw [append_nil, ofTokens, hruns, declareAll_filter, declaresRun_place hat, scan_nil]
    cases runDeclares level q with
    | none => rfl
    | some found => simp [declareAll]
  | cons p ps ih =>
    cases hp : p.isSeparator with
    | false =>
      have happend : q ++ p :: ps = (q ++ [p]) ++ ps := by simp
      rw [happend] at hat ⊢
      have hqp : ∀ p' ∈ q ++ [p], p'.isSeparator = false :=
        forall_mem_append.mpr ⟨hq, forall_mem_singleton.mpr hp⟩
      rw [← ih hat hqp, scan_cons hp]
    | true =>
      obtain ⟨kind, sep, rfl, hkind⟩ : ∃ kind sep, p = .token kind sep ∧
          (kind = .newline ∨ kind = .colon) := by
        cases p with
        | blank => cases hp
        | token kind sep =>
          refine ⟨kind, sep, rfl, ?_⟩
          cases kind <;> first | exact .inl rfl | exact .inr rfl | cases hp
      rw [flat_append] at hat
      have hrest := hat.right
      rw [flat_cons] at hrest
      have hruns := runs_append (ne_separator_of_mem_place hq pos)
        (runs_separator (t := ⟨kind, pos + (flat q).byteSize, sep⟩) hkind
          (place (pos + (flat q).byteSize + sep.byteSize) ps))
      rw [append_nil] at hruns
      rw [place_append, place, ofTokens, hruns, declareAll_filter,
        declaresRun_place hat.left, scan_separator hp]
      cases runDeclares level q with
      | none => rfl
      | some found =>
        have hscan : scan found.2 [] ps = declareAll text found.2
            (ofTokens (place (pos + (flat q).byteSize + sep.byteSize) ([] ++ ps))) :=
          ih hrest.right (forall_mem_nil _)
        rw [nil_append, ofTokens] at hscan
        simp [hscan]

end Lexer

end VbaRefactor
