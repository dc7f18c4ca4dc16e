import Mathlib.Tactic.Choose
import VbaRefactor.Proofs.Syntax.Variables
import VbaRefactor.Proofs.Syntax.Weaving

/-!
# Field statements with other variables

A field statement can give up some of its variables, which become private fields of other names. What
stays behind its keywords and the new statements declare what the statement declared, except for the
names and the access of the variables that moved.
-/

namespace VbaRefactor

open List Statement ModuleStatement

variable {ctx : Context} {d : Declarator} {pos : Nat} {part s : Statement}

namespace Lexer

variable {access : Access} {withEvents : Bool} {ps : List Piece} {text word : Text}
  {kind : TokenKind}

/-! ## What stands before a statement -/

/-- A comment runs to the end of its line. -/
theorem lineEnds_of_comment {rest : Text} (h : Cuts ctx rest (.token .comment text)) :
    LineEnds rest := by
  match text, h with
  | c :: tail, h => exact (lineRest_append_iff.mp (lineRest_of_recognize h.2)).2

theorem eq_colon {rest : Text} (h : Cuts ctx rest (.token .colon text)) : text = [':'] := by
  match text, h with
  | c :: tail, h =>
    rcases recognize_insignificant h.2 rfl with ⟨⟨⟩, -⟩ | ⟨⟨⟩, -⟩ | ⟨⟨⟩, -⟩ | ⟨-, rfl⟩
    have hcolon : (if (tail ++ rest).head? == some '=' then (TokenKind.punct, 1) else (.colon, 0)) =
        (.colon, tail.length) := h.2
    rcases ite_eq_iff.mp hcolon with ⟨-, ⟨⟩⟩ | ⟨-, hcolon⟩
    rw [length_eq_zero_iff.mp (Prod.mk.inj hcolon).2.symm]

theorem admitsWord_of_holdsBreak (hkind : kind ≠ .number) (h : text.getLast? = some '\n') :
    (Piece.token kind text).admitsWord = true := by
  rw [Piece.admitsWord, h, bne_iff_ne.mpr hkind]
  rfl

/-- A word can follow on what is no token of a statement, if a word follows. -/
theorem admitsWord_of_cuts {p : Piece} {front rest : Text} (h : Cuts ctx rest p)
    (hclosed : Text.CrClosed (front ++ (p.text ++ rest))) (hp : p.isSignificant = false)
    (hbegins : BeginsWord rest) : p.admitsWord = true := by
  obtain ⟨a, behind, rfl, ha⟩ := hbegins
  have hholds : p.HoldsBreak := by
    rcases h.holdsBreak hclosed with hholds | ⟨⟨⟩, -⟩
    exact hholds
  match p, hp with
  | .blank c, _ => rfl
  | .token .newline text, _ => exact admitsWord_of_holdsBreak nofun hholds
  | .token .continuation text, _ => exact admitsWord_of_holdsBreak nofun hholds
  | .token .colon text, _ =>
    rw [eq_colon h]
    rfl
  | .token .comment text, _ =>
    have hend := lineEnds_of_comment h a rfl
    simp only [isEol, Bool.or_eq_true, beq_iff_eq] at hend
    rcases hend with rfl | rfl <;> cases ha

/-- A word can follow on what stands before a statement that begins with a letter. -/
theorem Located.admitsWord {statements : List Statement} {lead gap own rest : List Piece}
    (h : Located 0 statements s lead gap own rest)
    (hlex : Lexes .initial (lead ++ gap ++ own ++ rest) [])
    (hclosed : Text.CrClosed (flat (lead ++ gap ++ own ++ rest))) (hbegins : BeginsWord (flat own)) :
    ∀ p ∈ (lead ++ gap).getLast?, p.admitsWord = true := by
  intro p hp
  have hinsignificant : p.isSignificant = false := by
    rw [getLast?_append] at hp
    rcases Option.or_eq_some_iff.mp hp with hgap | ⟨-, hlead⟩
    · exact (h.blank p (mem_of_getLast? hgap)).1
    · exact isSignificant_of_isSeparator (h.closed p hlead)
  obtain ⟨init, hinit⟩ := getLast?_eq_some_iff.mp hp
  have hpieces : lead ++ gap ++ own ++ rest = init ++ p :: (own ++ rest) := by simp [hinit]
  rw [hpieces, lexes_append_nil] at hlex
  rw [hpieces, flat_append, flat_cons] at hclosed
  refine admitsWord_of_cuts (lexes_cons_nil.mp hlex.2).1 hclosed hinsignificant ?_
  rw [flat_append]
  exact hbegins.append _

/-! ## Keywords -/

theorem exists_token_of_mem (h : .token kind word ∈ ps) (hkind : kind.isSignificant = true) :
    ∃ t ∈ significant (place pos ps), t.kind = kind ∧ t.text = word := by
  obtain ⟨front, back, rfl⟩ := append_of_mem h
  rw [significant_place_append, significant_place_token hkind]
  exact ⟨_, mem_append_right _ mem_cons_self, rfl, rfl⟩

/-- The pieces of keywords. -/
structure KeywordsAt (text : Text) (keywords : Statement) (ps : List Piece) : Prop where
  opening : Opening ps
  run : ∀ p ∈ ps, p.isSeparator = false
  flat_eq : ∀ span, keywords.cover? = some span → flat ps = text.slice span
  tokens : ∃ pos, keywords = (ownStatement ps).shift pos

theorem PartAt.keywordsAt {keywords : Statement} {behind : Text} (h : PartAt text keywords pos ps)
    (hlex : Lexes ctx ps behind) (hsettled : ∀ p ∈ ps, p.isSettled = true)
    (hrun : ∀ p ∈ ps, p.isSeparator = false)
    (hplain : ∀ t ∈ keywords, t.kind = .identifier ∧ isPlainName t.text = true ∧
      t.text.fold ≠ ['r', 'e', 'm']) : KeywordsAt text keywords ps := by
  have hwordy : ∀ p ∈ ps, p.isWordy = true := by
    intro p hp
    have hp' := hsettled p hp
    have hsep := hrun p hp
    have hword {kind : TokenKind} {word : Text} (htoken : p = .token kind word)
        (hkind : kind.isSignificant = true) : p.isWordy = true := by
      rw [htoken] at hp
      obtain ⟨t, ht, rfl, rfl⟩ := @exists_token_of_mem pos _ _ _ hp hkind
      rw [significant_place, ← h.tokens] at ht
      obtain ⟨hkind, hname, -⟩ := hplain t ht
      rw [htoken, hkind]
      exact hname
    match p, hp', hsep with
    | .blank c, _, _ => rfl
    | .token .continuation word, hp', _ => exact hp'
    | .token .identifier word, _, _ => exact hword rfl rfl
    | .token .number word, _, _ => exact hword rfl rfl
    | .token .stringLiteral word, _, _ => exact hword rfl rfl
    | .token .dateLiteral word, _, _ => exact hword rfl rfl
    | .token .punct word, _, _ => exact hword rfl rfl
  refine ⟨?_, hrun, ?_, pos, h.tokens⟩
  · obtain ⟨t, tokens, hkeywords⟩ : ∃ t tokens, keywords = t :: tokens := by
      cases keywords with
      | nil => cases h.cover
      | cons t tokens => exact ⟨t, tokens, rfl⟩
    obtain ⟨hkind, hname, hrem⟩ := hplain t (by simp [hkeywords])
    obtain ⟨post, rfl, -, -⟩ := h.token hkeywords
    have hlast := h.last
    rw [hkind] at hlex hwordy hlast ⊢
    exact opening_wordy hname hrem hlex (forall_mem_cons.mp hwordy).2 hlast
  · intro span hspan
    rw [h.cover] at hspan
    rw [← Option.some.inj hspan, h.hasAt.slice_eq]

/-! ## The first variable behind the keywords -/

/-- The word with which a text begins. -/
def firstWord (text : Text) : Text := Text.fold (text.takeWhile isNameChar)

theorem takeWhile_of_isPlainName {name rest : Text} (h : isPlainName name = true)
    (hrest : nameTail rest = 0) : (name ++ rest).takeWhile isNameChar = name := by
  have hname : ∀ c ∈ name, isNameChar c = true := by
    match name, h with
    | c :: tail, h =>
      obtain ⟨hc, htail⟩ := Bool.and_eq_true_iff.mp h
      exact forall_mem_cons.mpr ⟨isNameChar_of_isLetter hc, all_eq_true.mp htail⟩
  have hnil : rest.takeWhile isNameChar = [] := by
    rw [nameTail] at hrest
    exact length_eq_zero_iff.mp (by omega)
  rw [takeWhile_append_of_pos hname, hnil, append_nil]

section

theorem Kept.firstWord_eq (h : Kept text access withEvents part d ps) (hne : word ≠ [])
    (hletters : word.all isLetter = true) (hword : (ownStatement ps).isWord 0 word = true) :
    firstWord (text.slice d.span) = word := by
  obtain ⟨name, post, rfl⟩ := h.first
  have hname : name.fold = word := by
    rw [ownStatement, significant_place_token rfl] at hword
    have hword : Token.isWord ⟨.identifier, 0, name⟩ word = true := hword
    exact beq_iff_eq.mp (Bool.and_eq_true_iff.mp hword).2
  have hplain := isPlainName_of_fold hne hletters hname
  have hlex := h.segment.lexes ⟨false, false, false⟩ [] rfl (by rintro _ ⟨⟩)
  have htail := nameTail_of_cuts hplain hlex.1
  rw [append_nil] at htail
  rw [← h.flat_eq, flat_cons, firstWord, Piece.text, takeWhile_of_isPlainName hplain htail, hname]

theorem Kept.isWord_reserved (h : Kept text access withEvents part d ps)
    (hfirst : firstWord (text.slice d.span) ∉ reserved) :
    ∀ word ∈ reserved, (ownStatement ps).isWord 0 word = false := by
  have hletters : ∀ word ∈ reserved, word ≠ [] ∧ word.all isLetter = true := by decide
  intro word hword
  cases hfalse : (ownStatement ps).isWord 0 word with
  | false => rfl
  | true =>
    obtain ⟨hne, hall⟩ := hletters word hword
    rw [h.firstWord_eq hne hall hfalse] at hfirst
    exact absurd hword hfirst

end

section

theorem Kept.isWhole (h : Kept text access withEvents part d ps)
    (hpart : splitAtCommas 0 part = [part]) : IsWhole ps := by
  obtain ⟨pos, rfl⟩ := h.tokens
  exact whole_of_shift hpart

theorem Kept.isBalanced (h : Kept text access withEvents part d ps)
    (hpart : depthOf 0 part = 0) : IsBalanced ps := by
  obtain ⟨pos, rfl⟩ := h.tokens
  rw [depthOf, shift, foldl_map] at hpart
  exact hpart

end

/-! ## Putting variables together anew -/

/-- What is left of a field statement: its keywords with the variables that stay. -/
def keptTexts (text : Text) (keywords : Span) (kept : List Declarator) : List Text :=
  if kept.isEmpty then []
  else [.concat [text.slice keywords, " ", (", " : Text).intercalate (kept.map fun d => text.slice d.span)]]

/-- A variable as a private field of another name. -/
def movedText (text : Text) (d : Declarator) (name : Text) : Text :=
  .concat ["Private ", if d.profile.isWithEvents then "WithEvents " else "", name,
    text.slice ⟨d.selection.stop, d.span.stop⟩]

section

variable (name? : DeclarationId → Option Text) (entries : List (Declarator × DeclarationId))

/-- The variables that get no other name. -/
def keptEntries : List (Declarator × DeclarationId) := entries.filter fun e => (name? e.2).isNone

/-- The texts of a field statement that gives up the variables that get other names. -/
def regroupedTexts (text : Text) (keywords : Span) : List Text :=
  keptTexts text keywords ((keptEntries name? entries).map Prod.fst) ++
    entries.filterMap fun e => (name? e.2).map (movedText text e.1)

/-- What the private fields declare. -/
def movedProfiles : List Profile :=
  entries.filterMap fun e => (name? e.2).map fun name => { e.1.profile with name, access := .private }

/-- The statements are what is left of a field statement and the private fields. -/
structure Regroups (text : Text) (keywords : Span) (statements : List (List Piece)) : Prop where
  opening : ∀ ps ∈ statements, Opening ps
  run : ∀ ps ∈ statements, ∀ p ∈ ps, p.isSeparator = false
  texts : statements.map flat = regroupedTexts name? entries text keywords
  declares : ∃ found,
    List.Forall₂ (fun ps found => runDeclares .code ps = some (found, .code)) statements found ∧
      found.flatten = (keptEntries name? entries).map (·.1.profile) ++ movedProfiles name? entries

end

section

variable {i : Nat} {keywords : List Piece}

/-- The statement with the variables that stay. -/
theorem exists_keptStatement (hkeywords : KeywordsAt text (s.take (s.variablesAt i)) keywords)
    (h : ofStatement s = .fields access i) (hlt : s.variablesAt i < s.length)
    {span : Span} (hspan : cover? (s.take (s.variablesAt i)) = some span)
    {pairs : List (Statement × Declarator)}
    (hsub : (pairs.map Prod.fst).Sublist (splitAtCommas 0 (s.drop (s.variablesAt i))))
    (hpairs : ∀ pair ∈ pairs, ∃ ps, Kept text access (s.isWord i "withevents") pair.1 pair.2 ps)
    (hfirst : ∀ pair ∈ pairs.head?, firstWord (text.slice pair.2.span) ∉ reserved) :
    ∃ statements : List (List Piece), (∀ ps ∈ statements, Opening ps) ∧
      (∀ ps ∈ statements, ∀ p ∈ ps, p.isSeparator = false) ∧
      statements.map flat = keptTexts text span (pairs.map Prod.snd) ∧
      ∃ found,
        List.Forall₂ (fun ps found => runDeclares .code ps = some (found, .code)) statements found ∧
          found.flatten = pairs.map (·.2.profile) := by
  cases pairs with
  | nil => exact ⟨[], nofun, nofun, rfl, [], .nil, rfl⟩
  | cons first more =>
    choose! segmentOf hkept using hpairs
    have hne : (first :: more).map segmentOf ≠ [] := cons_ne_nil _ _
    obtain ⟨hwhole, hbalanced⟩ := parts_of_splitAtCommas (s.drop (s.variablesAt i))
    have hsegments : ∀ ps ∈ (first :: more).map segmentOf, Segment ps ∧ IsWhole ps := by
      refine forall_mem_map.mpr fun pair hpair => ?_
      refine ⟨(hkept pair hpair).segment, (hkept pair hpair).isWhole (hwhole _ ?_)⟩
      exact hsub.subset (mem_map_of_mem hpair)
    have hclosed : ((first :: more).map segmentOf).Pairwise fun ps _ => IsBalanced ps := by
      have hpairs := hbalanced.sublist hsub
      rw [pairwise_map] at hpairs ⊢
      exact hpairs.imp_of_mem fun hpair _ hdepth => (hkept _ hpair).isBalanced hdepth
    have hjoined := segment_intercalate hne fun ps hps => (hsegments ps hps).1
    obtain ⟨pos, htokens⟩ := hkeywords.tokens
    have hfound := runDeclares_keywords h htokens hlt hne (fun ps hps => (hsegments ps hps).2) hclosed (by
      rintro _ ⟨⟩
      have hfirstKept := hkept first mem_cons_self
      refine ⟨?_, hfirstKept.isWord_reserved (hfirst first rfl)⟩
      obtain ⟨word, post, hword⟩ := hfirstKept.first
      rw [hword, ownStatement, significant_place_token rfl]
      exact cons_ne_nil _ _)
    refine ⟨[keywords ++ gapPieces ++ commaPieces.intercalate ((first :: more).map segmentOf)], ?_, ?_,
      ?_, [_], .cons hfound .nil, ?_⟩
    · exact forall_mem_singleton.mpr (hkeywords.opening.joint joint_gapPieces hjoined)
    · rw [forall_mem_singleton]
      exact forall_mem_append.mpr
        ⟨forall_mem_append.mpr ⟨hkeywords.run, joint_gapPieces.run⟩, hjoined.run⟩
    · have hflat : ((first :: more).map segmentOf).map flat =
          ((first :: more).map Prod.snd).map fun d => text.slice d.span := by
        rw [map_map, map_map]
        exact map_congr_left fun pair hpair => (hkept pair hpair).flat_eq
      rw [map_singleton, flat_append, flat_append, flat_intercalate, hflat,
        hkeywords.flat_eq span hspan, keptTexts]
      simp [Text.concat, gapPieces, commaPieces, Piece.text]
    · rw [flatten_singleton, filterMap_map, ← filterMap_eq_map]
      exact filterMap_congr fun pair hpair => (hkept pair hpair).profile

/-- The statements of the private fields. -/
theorem exists_movedStatements {name? : DeclarationId → Option Text}
    {entries : List (Declarator × DeclarationId)}
    (h : ∀ e ∈ entries, ∀ name ∈ name? e.2, ∃ post, Moved text name e.1 post) :
    ∃ statements : List (List Piece), (∀ ps ∈ statements, Opening ps) ∧
      (∀ ps ∈ statements, ∀ p ∈ ps, p.isSeparator = false) ∧
      statements.map flat = entries.filterMap (fun e => (name? e.2).map (movedText text e.1)) ∧
      ∃ found,
        List.Forall₂ (fun ps found => runDeclares .code ps = some (found, .code)) statements found ∧
          found.flatten = movedProfiles name? entries := by
  induction entries with
  | nil => exact ⟨[], nofun, nofun, rfl, [], .nil, rfl⟩
  | cons e entries ih =>
    obtain ⟨he, hentries⟩ := forall_mem_cons.mp h
    obtain ⟨statements, hopening, hrun, htexts, found, hdeclares, hfound⟩ := ih hentries
    rw [movedProfiles, filterMap_cons, filterMap_cons]
    cases hname : name? e.2 with
    | none => exact ⟨statements, hopening, hrun, htexts, found, hdeclares, hfound⟩
    | some name =>
      obtain ⟨post, hpost⟩ := he name hname
      refine ⟨privatePieces e.1.profile.isWithEvents name post :: statements,
        forall_mem_cons.mpr ⟨opening_privatePieces hpost.segment, hopening⟩,
        forall_mem_cons.mpr ⟨run_privatePieces hpost.segment, hrun⟩, ?_, _ :: found,
        .cons hpost.declares hdeclares, ?_⟩
      · rw [map_cons, htexts, flat_privatePieces, hpost.flat_eq]
        rfl
      · rw [flatten_cons, hfound]
        rfl

end

end Lexer

namespace Statement

/-- The parts that declare variables, with what they declare. -/
def declaredParts (text : Text) (access : Access) (withEvents : Bool) (parts : List Statement) :
    List (Statement × Declarator) :=
  parts.filterMap fun part => (part.declarator? text access withEvents).map fun d => (part, d)

variable (text : Text) (access : Access) (withEvents : Bool) (parts : List Statement)

theorem map_snd_declaredParts :
    (declaredParts text access withEvents parts).map Prod.snd =
      parts.filterMap (declarator? text access withEvents) := by
  rw [declaredParts, map_filterMap]
  refine filterMap_congr ?_
  intro part _
  rw [Option.map_map]
  exact Option.map_id'

theorem map_fst_declaredParts_sublist :
    ((declaredParts text access withEvents parts).map Prod.fst).Sublist parts := by
  induction parts with
  | nil => exact List.Sublist.refl _
  | cons part parts ih =>
    rw [declaredParts, filterMap_cons]
    cases part.declarator? text access withEvents with
    | none => exact ih.cons _
    | some d => exact ih.cons_cons _

variable {text access withEvents parts}

theorem declarator?_of_mem_declaredParts {pair : Statement × Declarator}
    (h : pair ∈ declaredParts text access withEvents parts) :
    pair.1 ∈ parts ∧ pair.1.declarator? text access withEvents = some pair.2 := by
  obtain ⟨part, hpart, hd⟩ := mem_filterMap.mp h
  obtain ⟨d, hdeclares, rfl⟩ := Option.map_eq_some_iff.mp hd
  exact ⟨hpart, hdeclares⟩

end Statement

namespace Outline

open Lexer

variable {name? : DeclarationId → Option Text} {source : Source} {o : Outline} {f : FieldStatement}

/-- The variables of a field statement with their numbers. -/
def FieldsAt.entries (F : FieldsAt source o f) : List (Declarator × DeclarationId) :=
  (F.statement.declarators source.text F.access F.index).zipIdx F.firstId

namespace FieldsAt

variable (F : FieldsAt source o f)

theorem text_eq : source.text = flat (F.lead ++ F.gap ++ F.own ++ F.rest) := by
  rw [← F.pieces, flat, pieces_text]

theorem lexes : Lexes .initial (F.lead ++ F.gap ++ F.own ++ F.rest) [] := by
  rw [← F.pieces]
  exact lexes_pieces _ _

theorem take_ne_nil : F.statement.take (F.statement.variablesAt F.index) ≠ [] := by
  have hpos := variablesAt_pos F.kind
  have hlt := F.lt
  intro hnil
  have hlength := congrArg List.length hnil
  rw [length_take, length_nil] at hlength
  omega

theorem cover_keywords :
    cover? (F.statement.take (F.statement.variablesAt F.index)) = some f.keywords := by
  obtain ⟨span, hspan⟩ := exists_cover? F.take_ne_nil
  rw [hspan, congrArg FieldStatement.keywords F.eq, fieldStatement, hspan, Option.getD_some]

/-- A variable can get another name. -/
theorem exists_moved_entry (hsettled : ∀ p ∈ F.own, p.isSettled = true)
    {e : Declarator × DeclarationId} (he : e ∈ F.entries) {name : Text} (hname : isPlainName name = true)
    (hreserved : name.fold ∉ reserved) (hold : isPlainName (source.text.slice e.1.selection) = true) :
    ∃ post, Moved source.text name e.1 post := by
  have hd := fst_mem_of_mem_zipIdx he
  rw [declarators, if_pos F.lt] at hd
  obtain ⟨part, hpart, hd⟩ := mem_filterMap.mp hd
  obtain ⟨front, back, hparts⟩ := append_of_mem hpart
  exact exists_moved F.located F.text_eq F.lexes hsettled hparts hd hname hreserved hold

/-- A field statement can give up variables. -/
theorem exists_regroups (hsettled : ∀ p ∈ F.own, p.isSettled = true)
    (hmoved : ∀ e ∈ F.entries, ∀ name ∈ name? e.2, isPlainName name = true ∧
      name.fold ∉ reserved ∧ isPlainName (source.text.slice e.1.selection) = true)
    (hfirst : ∀ e ∈ (keptEntries name? F.entries).head?,
      firstWord (source.text.slice e.1.span) ∉ reserved) :
    ∃ statements, Regroups name? F.entries source.text f.keywords statements := by
  have hsplit : F.statement = [] ++ F.statement.take (F.statement.variablesAt F.index) ++
      F.statement.drop (F.statement.variablesAt F.index) := (take_append_drop _ _).symm
  obtain ⟨pos, ks, ctx, behind, hat, hks, hlexes, -⟩ :=
    F.located.exists_partAt F.text_eq F.lexes hsplit F.take_ne_nil
  have hkeywords : KeywordsAt source.text (F.statement.take (F.statement.variablesAt F.index)) ks :=
    hat.keywordsAt hlexes (fun p hp => hsettled p (hks hp)) (fun p hp => F.located.run p (hks hp))
      fun t ht => plain_of_mem_keywords F.kind ht
  -- The variables, with the tokens they consist of.
  let pairs := declaredParts source.text F.access (F.statement.isWord F.index "withevents")
    (splitAtCommas 0 (F.statement.drop (F.statement.variablesAt F.index)))
  have hentries : F.entries = (pairs.zipIdx F.firstId).map (Prod.map Prod.snd id) := by
    rw [entries, declarators, if_pos F.lt, ← map_snd_declaredParts,
      zipIdx_map]
  have hparts {pair : Statement × Declarator} (hpair : pair ∈ pairs) :
      ∃ front back, splitAtCommas 0 (F.statement.drop (F.statement.variablesAt F.index)) =
        front ++ pair.1 :: back := by
    exact append_of_mem (declarator?_of_mem_declaredParts hpair).1
  have hkept : ∀ pair ∈ pairs, ∃ ps,
      Kept source.text F.access (F.statement.isWord F.index "withevents") pair.1 pair.2 ps := by
    intro pair hpair
    obtain ⟨front, back, hsplit⟩ := hparts hpair
    exact exists_kept F.located F.text_eq F.lexes hsettled hsplit
      (declarator?_of_mem_declaredParts hpair).2
  have hmoved : ∀ e ∈ F.entries, ∀ name ∈ name? e.2, ∃ post, Moved source.text name e.1 post := by
    intro e he name hname
    obtain ⟨hplain, hreserved, hold⟩ := hmoved e he name hname
    exact F.exists_moved_entry hsettled he hplain hreserved hold
  -- Those of them that stay.
  let kept := (pairs.zipIdx F.firstId).filter fun e => (name? e.2).isNone
  have hkeptEntries : keptEntries name? F.entries = kept.map (Prod.map Prod.snd id) := by
    rw [keptEntries, hentries, filter_map]
    rfl
  have hsub : (kept.map Prod.fst).Sublist pairs := by
    have hsub := (filter_sublist (p := fun e => (name? e.2).isNone)
      (l := pairs.zipIdx F.firstId)).map Prod.fst
    rwa [zipIdx_map_fst] at hsub
  have hfirst : ∀ pair ∈ (kept.map Prod.fst).head?,
      firstWord (source.text.slice pair.2.span) ∉ reserved := by
    rw [hkeptEntries, head?_map] at hfirst
    rw [head?_map]
    intro pair hpair
    obtain ⟨e, he, rfl⟩ := Option.map_eq_some_iff.mp hpair
    exact hfirst _ (Option.mem_map_of_mem _ he)
  obtain ⟨first, hopening, hrun, htexts, found, hdeclares, hfound⟩ :=
    exists_keptStatement hkeywords F.kind F.lt F.cover_keywords
      ((hsub.map Prod.fst).trans (map_fst_declaredParts_sublist _ _ _ _))
      (fun pair hpair => hkept pair (hsub.subset hpair)) hfirst
  obtain ⟨more, hopening', hrun', htexts', found', hdeclares', hfound'⟩ := exists_movedStatements hmoved
  refine ⟨first ++ more, forall_mem_append.mpr ⟨hopening, hopening'⟩,
    forall_mem_append.mpr ⟨hrun, hrun'⟩, ?_, found ++ found', rel_append hdeclares hdeclares', ?_⟩
  · rw [map_append, htexts, htexts', regroupedTexts, hkeptEntries, map_map, map_map]
    rfl
  · rw [flatten_append, hfound, hfound', hkeptEntries, map_map, map_map]
    rfl

end FieldsAt

/-! ## The change of a field statement -/

/-- The variables that get other names. -/
def movedEntries (name? : DeclarationId → Option Text) (entries : List (Declarator × DeclarationId)) :
    List (Declarator × DeclarationId) :=
  entries.filter fun e => (name? e.2).isSome

namespace FieldsAt

variable (F : FieldsAt source o f)

theorem partAt : PartAt source.text F.statement (flat (F.lead ++ F.gap)).byteSize F.own := by
  have htokens := F.located.tokens
  rw [Nat.zero_add] at htokens
  refine ⟨⟨flat (F.lead ++ F.gap), flat F.rest, ?_, rfl⟩, ?_, ?_, F.located.first,
    endsInToken_of_getLast? F.located.last⟩
  · rw [F.text_eq, flat_append, flat_append (F.lead ++ F.gap), append_assoc]
  · rw [← significant_place, htokens]
  · rw [← htokens, cover?_place F.located.first F.located.last]

/-- The extent of a field statement is what its pieces take up. -/
theorem span_eq : f.extent.span =
    ⟨(flat (F.lead ++ F.gap)).byteSize, (flat (F.lead ++ F.gap)).byteSize + (flat F.own).byteSize⟩ := by
  have hcover := F.partAt.cover
  rw [congrArg FieldStatement.extent F.eq, fieldStatement, hcover]
  rfl

theorem beginsWord : BeginsWord (flat F.own) := by
  obtain ⟨t, tokens, hs⟩ : ∃ t tokens, F.statement = t :: tokens := by
    cases hs : F.statement with
    | nil =>
      have hlt := F.lt
      rw [hs] at hlt
      cases hlt
    | cons t tokens => exact ⟨t, tokens, rfl⟩
  obtain ⟨post, hown, -, -⟩ := F.partAt.token hs
  have hpos := variablesAt_pos F.kind
  have hfirst : t ∈ F.statement.take (F.statement.variablesAt F.index) := by
    obtain ⟨n, hn⟩ := Nat.exists_eq_add_of_lt hpos
    rw [hn, hs, Nat.zero_add, take_succ_cons]
    exact mem_cons_self
  rw [hown, flat_cons]
  exact (beginsWord_of_isPlainName (plain_of_mem_keywords F.kind hfirst).2.1).append _

theorem runDeclares_own : runDeclares .code F.own = some (F.entries.map (·.1.profile), .code) := by
  have htokens := F.located.tokens
  rw [Nat.zero_add] at htokens
  have hne : F.statement.isEmpty = false := by
    cases hs : F.statement with
    | nil =>
      have hlt := F.lt
      rw [hs] at hlt
      cases hlt
    | cons t tokens => rfl
  rw [← declaresRun_place F.partAt.hasAt, htokens, declaresRun, hne, declares, F.kind,
    entries]
  have hfst : (fun e : Declarator × Nat => e.1.profile) = Declarator.profile ∘ Prod.fst := rfl
  rw [hfst, ← map_map, zipIdx_map_fst]
  rfl

/-- A field statement that gives up variables, as a change of its text. -/
theorem fieldsChange {statements : List (List Piece)} {ending : Text}
    (he : Text.IsTerminator ending) (h : Regroups name? F.entries source.text f.keywords statements)
    (hne : statements ≠ []) (hclosed : Text.CrClosed source.text)
    (hhash : hashAfterAll (F.lead ++ F.gap) = false) (hsettled : ∀ p ∈ F.own, p.isSettled = true) :
    FieldsChange (F.lead ++ F.gap) F.own (linePieces ending statements) F.rest
      ((movedEntries name? F.entries).map (·.1.profile)) (movedProfiles name? F.entries) := by
  have hopening := opening_linePieces he hne h.opening
  obtain ⟨found, hfound, hflatten⟩ := h.declares
  refine {
    prev := F.located.admitsWord F.lexes (by rw [← F.text_eq]; exact hclosed) F.beginsWord
    hash := ⟨hhash, ?_⟩
    first := F.located.first
    begins := ⟨F.beginsWord, hopening.begins⟩
    last := F.partAt.last
    newLast := hopening.last
    lexes := hopening.lexes
    level := ?_
    run := F.located.run
    found := ⟨_, _, F.runDeclares_own,
      (scan_linePieces hne h.run).trans (linesDeclare_of_forall₂ hfound), ?_⟩
    ends := F.located.ends }
  · intro p hp
    have hp := hsettled p hp
    rw [Piece.isHash, beq_eq_false_iff_ne]
    rintro rfl
    cases hp
  · obtain ⟨before, hlevel⟩ := F.level
    intro found level q hadvance
    rw [hlevel] at hadvance
    cases hadvance
    exact ⟨rfl, fun p hp => (F.located.blank p hp).1⟩
  · have hparts : (keptEntries name? F.entries ++ movedEntries name? F.entries).Perm F.entries := by
      have hsome (e : Declarator × DeclarationId) : (name? e.2).isSome = !(name? e.2).isNone := by
        cases name? e.2 <;> rfl
      rw [keptEntries, movedEntries, funext hsome]
      exact filter_append_perm _ _
    have hprofiles := hparts.map (·.1.profile)
    rw [map_append] at hprofiles
    rw [hflatten, append_assoc]
    refine (perm_append_comm.append_left _).trans ?_
    rw [← append_assoc]
    exact hprofiles.append_right _

end FieldsAt

end Outline

end VbaRefactor
