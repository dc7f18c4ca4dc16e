import VbaRefactor.Proofs.Edit.WholeLines
import VbaRefactor.Proofs.Syntax.Records
import VbaRefactor.Proofs.Syntax.Regrouping
import VbaRefactor.Proofs.Syntax.Written

/-!
# Lines of a record

A line of a record has the name of a member and what stands behind the name of a variable. Such lines can
follow on the lines of a record that is open, and add their members to it.
-/

namespace VbaRefactor

open List Text Statement

variable {ending name type text : Text} {before after lines : List Text} {pos : Nat}
  {found more : List Profile} {profile : Profile}

namespace Statement

theorem runs_ne_nil (tokens : List Token) : runs tokens ≠ [] := by
  induction tokens with
  | nil => exact cons_ne_nil _ _
  | cons t tokens ih =>
    obtain ⟨first, more, hruns⟩ := exists_cons_of_ne_nil ih
    rw [runs, hruns]
    cases t.kind <;> exact cons_ne_nil _ _

theorem ofTokens_append {t : Token} (h : t.kind = .newline) (before after : List Token) :
    ofTokens (before ++ t :: after) = ofTokens before ++ ofTokens after := by
  rw [ofTokens, ofTokens, ofTokens, ← filter_append]
  congr 1
  induction before with
  | nil => exact runs_separator (.inl h) after
  | cons t' before ih =>
    obtain ⟨first, more, hruns⟩ := exists_cons_of_ne_nil (runs_ne_nil before)
    rw [cons_append, runs, runs, ih, hruns]
    cases t'.kind <;> rfl

theorem shift_zero (s : Statement) : s.shift 0 = s := by
  have hid : Token.shift 0 = id := by
    funext t
    simp [Token.shift]
  rw [shift, hid, map_id]

theorem ofTokens_shift (pos : Nat) (tokens : List Token) :
    ofTokens (tokens.map (.shift pos)) = (ofTokens tokens).map (.shift pos) := by
  have hruns : runs (tokens.map (.shift pos)) = (runs tokens).map (.shift pos) := by
    induction tokens with
    | nil => rfl
    | cons t tokens ih =>
      rw [map_cons, runs, runs, ih, Token.kind_shift]
      cases t.kind <;> first | rfl | exact consFirst_shift pos t _
  rw [ofTokens, hruns, ofTokens, filter_map]
  congr 2
  funext s
  cases s <;> rfl

end Statement

namespace Lexer

/-! ## The statements of lines -/

/-- The statements of lines. -/
def statementsOf (ending : Text) (lines : List Text) : List Statement :=
  ofTokens (tokenize (closed ending lines))

theorem heldBy_of_mem {s : Statement} (h : s ∈ statementsOf ending lines) :
    s.HeldBy (closed ending lines) := (standsIn_of_mem_ofTokens h).hasAt

theorem statementsOf_nil (ending : Text) : statementsOf ending [] = [] := by
  rw [statementsOf, tokenize, closed, flatMap_nil, pieces]
  rfl

theorem statementsOf_append (he : IsTerminator ending) (hwhole : Whole ending before)
    (hbegins : ∀ line ∈ after, line.head? ≠ some '_') : statementsOf ending (before ++ after) = statementsOf ending before ++
      (statementsOf ending after).map (.shift (closed ending before).byteSize) := by
  have hflat : flat (pieces .initial (closed ending before)) = _ := pieces_text _ _
  rw [statementsOf, tokenize, pieces_closed_append he hwhole hbegins, place_append, hflat, Nat.zero_add,
    ← Nat.add_zero (closed ending before).byteSize, place_shift, Nat.add_zero, statementsOf, tokenize]
  rcases eq_nil_or_concat (pieces .initial (closed ending before)) with hnil | ⟨front, p, hfront⟩
  · rw [hnil]
    exact ofTokens_shift _ _
  · rw [concat_eq_append] at hfront
    rw [Whole, hfront] at hwhole
    obtain ⟨word, rfl⟩ := exists_of_isNewline (hwhole.1 p (by simp))
    rw [hfront, place_append, place, place, append_assoc, singleton_append, ofTokens_append rfl,
      ofTokens_append rfl, ofTokens_shift, statementsOf, tokenize]
    exact congrArg (· ++ _) (append_nil _).symm

/-- Lines in a record that do not end it declare these members. -/
structure InRecord (ending : Text) (lines : List Text) (found : List Profile) : Prop where
  whole : Whole ending lines
  goesOn : ∀ s ∈ statementsOf ending lines, Outline.isEnd s "type" = false
  members : (statementsOf ending lines).filterMap (recordMember? (closed ending lines)) = found

theorem recordMember?_before {s : Statement} (hs : s ∈ statementsOf ending before) (after : List Text) :
    recordMember? (closed ending (before ++ after)) s = recordMember? (closed ending before) s := by
  have hat : (closed ending (before ++ after)).HasAt 0 (closed ending before) :=
    ⟨[], _, closed_append ending before after, rfl⟩
  have hshift := recordMember?_shift hat (heldBy_of_mem hs)
  rwa [shift_zero] at hshift

theorem recordMember?_after {s : Statement} (hs : s ∈ statementsOf ending after) (before : List Text) :
    recordMember? (closed ending (before ++ after)) (s.shift (closed ending before).byteSize) =
      recordMember? (closed ending after) s :=
  recordMember?_shift ⟨_, [], by rw [closed_append, append_nil], rfl⟩ (heldBy_of_mem hs)

section

variable (he : IsTerminator ending)

include he

theorem InRecord.append (h : InRecord ending before found) (hafter : InRecord ending after more) :
    InRecord ending (before ++ after) (found ++ more) := by
  have hstatements := statementsOf_append he h.whole hafter.whole.2
  refine ⟨h.whole.append he hafter.whole, ?_, ?_⟩
  · rw [hstatements]
    refine forall_mem_append.mpr ⟨h.goesOn, forall_mem_map.mpr fun s hs => ?_⟩
    rw [isEnd_shift]
    exact hafter.goesOn s hs
  · rw [hstatements, filterMap_append, filterMap_map, ← h.members, ← hafter.members]
    exact congrArg₂ _ (filterMap_congr fun s hs => recordMember?_before hs after)
      (filterMap_congr fun s hs => recordMember?_after hs before)

/-- Lines with members can follow on the lines of a record that is open. -/
theorem openRecord?_append (hwhole : Whole ending before)
    (h : openRecord? (closed ending before) (statementsOf ending before) = some (profile, found))
    (hafter : InRecord ending after more) :
    openRecord? (closed ending (before ++ after)) (statementsOf ending (before ++ after)) =
      some (profile, found ++ more) := by
  obtain ⟨s, rest, access, nameAt, hbefore, hkind, hends, hprofile, rfl⟩ := openRecord?_eq_some h
  rw [statementsOf_append he hwhole hafter.whole.2, hbefore, cons_append, openRecord?_cons hkind ?_ hprofile,
    filterMap_append, filterMap_map, ← hafter.members]
  · refine congrArg (fun members => some (profile, members)) (congrArg₂ _
      (filterMap_congr fun s hs => recordMember?_before ?_ after)
      (filterMap_congr fun s hs => recordMember?_after hs before))
    rw [hbefore]
    exact mem_cons_of_mem _ hs
  · refine forall_mem_append.mpr ⟨hends, forall_mem_map.mpr fun s hs => ?_⟩
    rw [isEnd_shift]
    exact hafter.goesOn s hs

end

/-- In a record, lines that do not end it declare nothing at module level. -/
theorem InRecord.declaredBy (h : InRecord ending lines found) :
    declaredBy ending .record lines = some ([], .record) := by
  have hat : (closed ending lines).HasAt 0 (flat ([] ++ pieces .initial (closed ending lines))) := by
    rw [nil_append, flat, pieces_text]
    exact hasAt_zero _
  rw [Lexer.declaredBy, scan_eq_declareAll hat (forall_mem_nil _), nil_append, ← tokenize]
  have hgoesOn := h.goesOn
  rw [statementsOf] at hgoesOn
  generalize ofTokens (tokenize (closed ending lines)) = statements at hgoesOn
  induction statements with
  | nil => rfl
  | cons s rest ih =>
    obtain ⟨hs, hrest⟩ := forall_mem_cons.mp hgoesOn
    rw [declareAll, declares, hs]
    simp [ih hrest]

/-- A record on lines of a module, between lines at module level and its end, is read with its members. -/
theorem exists_record_of_lines {source : Source} {base : DeclarationId} {o : Outline}
    (he : IsTerminator ending) (hread : Outline.read base source = .ok o)
    (htext : source.text = closed ending (before ++ (lines ++ after)))
    (hall : Whole ending (before ++ (lines ++ after))) (hbefore : Whole ending before)
    (hlines : Whole ending lines)
    (hlevel : (declaredBy ending .code before).map Prod.snd = some .code)
    (hrecord : openRecord? (closed ending lines) (statementsOf ending lines) = some (profile, found))
    (hend : (statementsOf ending after).head?.any (Outline.isEnd · "type") = true) :
    ∃ id span, (id, span, profile) ∈ o.members ∧ o.membersOf id = found := by
  have hbegins := (forall_mem_append.mp hall.2).2
  obtain ⟨last, hlast, hend⟩ := (Option.any_eq_true _ _).mp hend
  obtain ⟨rest, hafter⟩ := head?_eq_some_iff.mp hlast
  have hstatements : ofTokens (tokenize source.text) = statementsOf ending before ++
      ((statementsOf ending lines).map (.shift (closed ending before).byteSize) ++
        (last.shift (closed ending lines).byteSize).shift (closed ending before).byteSize ::
          (rest.map (.shift (closed ending lines).byteSize)).map
            (.shift (closed ending before).byteSize)) := by
    rw [htext, ← statementsOf, statementsOf_append he hbefore hbegins,
      statementsOf_append he hlines (forall_mem_append.mp hbegins).2, hafter, map_append, map_cons, map_cons]
  refine Outline.exists_record hread hstatements ?_ ?_ (by rwa [isEnd_shift, isEnd_shift])
  · have hat : source.text.HasAt 0 (flat ([] ++ pieces .initial (closed ending before))) := by
      rw [nil_append, flat, pieces_text, htext, closed_append]
      exact ⟨[], _, rfl, rfl⟩
    rw [← hlevel, declaredBy, scan_eq_declareAll hat (forall_mem_nil _)]
    rfl
  · rw [openRecord?_shift ⟨closed ending before, closed ending after, ?_, rfl⟩ fun s => heldBy_of_mem, hrecord]
    rw [htext, closed_append, closed_append]

/-! ## One line -/

theorem Segment.lexes_anywhere {post : List Piece} (h : Segment (.token .identifier name :: post))
    (hname : isPlainName name = true) (hrem : name.fold ≠ ['r', 'e', 'm']) (ctx : Context) (rest : Text)
    (hrest : Stops rest) : Lexes ctx (.token .identifier name :: post) rest := by
  obtain ⟨hcuts, hlex⟩ := h.lexes ⟨false, false, false⟩ rest rfl hrest
  have hcuts' : Cuts ctx (flat post ++ rest) (.token .identifier name) :=
    cuts_name hname (fun _ => hrem) (nameTail_of_cuts hname hcuts)
  refine ⟨hcuts', ?_⟩
  rw [afterPiece_identifier hcuts] at hlex
  rwa [afterPiece_identifier hcuts']

theorem lexes_margin {margin : Text} (h : ∀ c ∈ margin, isSpace c = true) (ctx : Context) (rest : Text) :
    Lexes ctx (margin.map .blank) rest := by
  induction margin generalizing ctx with
  | nil => trivial
  | cons c margin ih =>
    obtain ⟨hc, hmargin⟩ := forall_mem_cons.mp h
    exact ⟨hc, ih hmargin _⟩

/-- A line with the name of a member and what can stand behind the name of a variable. -/
theorem inRecord_of_segment (he : IsTerminator ending) {post : List Piece} {bounds? : Option Span}
    {margin : Text} (h : Segment (.token .identifier name :: post)) (hname : isWritable name = true)
    (hword : name.fold ∉ ["end".toList, "withevents".toList])
    (hafter : afterName? (flat post) (ownStatement post) = some (bounds?, some type))
    (hmargin : ∀ c ∈ margin, isSpace c = true) :
    InRecord ending [margin ++ (name ++ flat post)]
      [⟨name, .recordMember, .public, some type, false, bounds?.isSome⟩] := by
  obtain ⟨hplain, -, hrem⟩ := isWritable_iff.mp hname
  simp only [mem_cons, not_mem_nil, or_false, not_or] at hword
  let own := Piece.token .identifier name :: post
  have hflat : flat (margin.map .blank) = margin := by
    clear hmargin
    induction margin with
    | nil => rfl
    | cons c margin ih => exact congrArg (c :: ·) ih
  have hlexes : Lexes .initial (margin.map .blank ++ (own ++ [.token .newline ending])) [] := by
    rw [lexes_append, lexes_append]
    refine ⟨lexes_margin hmargin _ _, h.lexes_anywhere hplain hrem _ _ ?_, lexes_ending he _ _, trivial⟩
    simpa [Piece.text] using stops_ending he []
  have hline : closed ending [margin ++ (name ++ flat post)] =
      flat (margin.map .blank ++ (own ++ [.token .newline ending])) := by
    simp [own, closed, flat_append, hflat, Piece.text]
  have hpieces := pieces_of_lexes hlexes
  rw [append_nil, ← hline, pieces, append_nil] at hpieces
  have hstatements : statementsOf ending [margin ++ (name ++ flat post)] =
      [significant (place margin.byteSize own)] := by
    have hblank : ∀ p ∈ margin.map Piece.blank, p.isSignificant = false :=
      forall_mem_map.mpr fun _ _ => rfl
    have hrun : ∀ p ∈ margin.map Piece.blank ++ own, p.isSeparator = false :=
      forall_mem_append.mpr ⟨forall_mem_map.mpr fun _ _ => rfl, h.run⟩
    rw [statementsOf, tokenize, hpieces, ← append_assoc, ofTokens_separator hrun rfl, ofTokens_run hrun,
      significant_place_append, significant_place_eq_nil hblank, nil_append, hflat, Nat.zero_add]
    rfl
  refine ⟨⟨?_, forall_mem_singleton.mpr ?_⟩, ?_, ?_⟩
  · rw [hpieces]
    simp [Piece.isNewline]
  · cases margin with
    | nil =>
      cases name with
      | nil => cases hplain
      | cons c tail =>
        rintro ⟨⟩
        cases hplain
    | cons c margin =>
      rintro ⟨⟩
      cases hmargin '_' mem_cons_self
  · rw [hstatements, forall_mem_singleton, significant_place_token rfl, Outline.isEnd]
    exact Bool.and_eq_false_iff.mpr (.inl (isWord_false_of_fold hword.1))
  · have hat : (closed ending [margin ++ (name ++ flat post)]).HasAt margin.byteSize (name ++ flat post) :=
      ⟨margin, ending, by simp [closed], rfl⟩
    have hbehind := afterName?_shift hat.right (heldBy_ownStatement post)
    rw [hafter, Option.map_some, ← significant_place] at hbehind
    have hfirst : isWord (⟨.identifier, margin.byteSize, name⟩ ::
        significant (place (margin.byteSize + name.byteSize) post)) 0 "withevents" = false :=
      isWord_false_of_fold hword.2
    rw [hstatements, filterMap_cons, significant_place_token rfl, recordMember?, namedType?_eq, fromName,
      hfirst]
    simp [hbehind, name_of_isPlainName hplain]

/-- A variable can become a member of another name, with the type `Variant` where none is written and
nothing else stands behind the name. -/
theorem Moved.inRecord (he : IsTerminator ending) {d : Declarator} {post : List Piece} {margin : Text}
    (h : Moved text name d post) (hname : isWritable name = true)
    (hword : name.fold ∉ ["end".toList, "withevents".toList])
    (hbare : d.profile.type? = none →
      text.slice ⟨d.selection.stop, d.span.stop⟩ = [] ∧ d.profile.isArray = false)
    (hmargin : ∀ c ∈ margin, isSpace c = true) :
    InRecord ending [margin ++ (name ++ (text.slice ⟨d.selection.stop, d.span.stop⟩ ++
        if d.profile.type?.isNone then " As Variant".toList else []))]
      [⟨name, .recordMember, .public, some (d.profile.type?.getD "Variant"), false, d.profile.isArray⟩] := by
  cases htype : d.profile.type? with
  | some type =>
    obtain ⟨bounds?, hafter, harray⟩ := h.after
    rw [htype] at hafter
    rw [← h.flat_eq, ← harray, Option.isNone_some, if_neg Bool.false_ne_true, append_nil]
    exact inRecord_of_segment he h.segment hname hword hafter hmargin
  | none =>
    obtain ⟨hnil, harray⟩ := hbare htype
    obtain ⟨hplain, -, -⟩ := isWritable_iff.mp hname
    rw [hnil, harray]
    have hsegment := (segment_word hplain).joint joint_gapPieces
      ((segment_word (show isPlainName "As" = true by decide)).joint joint_gapPieces
        (segment_word (show isPlainName "Variant" = true by decide)))
    have hline := inRecord_of_segment he hsegment hname hword rfl hmargin
    exact hline

end Lexer

end VbaRefactor
