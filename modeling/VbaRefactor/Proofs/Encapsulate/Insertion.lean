import VbaRefactor.Proofs.Encapsulate.Accessors
import VbaRefactor.Proofs.Syntax.Coverage
import VbaRefactor.Proofs.Syntax.Rewriting

/-!
# Where accessors are inserted

Accessors stand before the first member with a body, which has to begin its line, or behind all lines
of the module, which has to end at module level.
-/

namespace VbaRefactor

open List Text Statement

variable {found : List Profile} {text : Text}

namespace Encapsulate

open Lexer

/-! ## Lines at module level -/

section

variable {ending : Text} (he : IsTerminator ending) {lines : List (List Piece)}
  (hne : lines ≠ []) (hwritten : ∀ line ∈ lines, isWritten line = true)
  (hdeclare : linesDeclare .code lines = some (found, .code))

include he hne hwritten hdeclare

theorem blockChange {front rest : List Piece} (hfront : ∀ p ∈ front.getLast?, p.isNewline = true)
    (hnext : ∀ text, rest.head? ≠ some (.token .continuation text))
    (hlevel : ∀ found level q, advance .code [] front = some (found, level, q) → level = .code) :
    BlockChange front (closedPieces ending lines) rest found := by
  obtain ⟨init, last, rfl⟩ : ∃ init last, lines = init ++ [last] :=
    ⟨_, _, (dropLast_concat_getLast hne).symm⟩
  refine ⟨hfront, fun ctx rest _ => lexes_closedPieces he hwritten ctx rest, ⟨ending, ?_⟩, hnext, ?_,
    advance_closedPieces hwritten hdeclare⟩
  · simp [closedPieces, ← append_assoc]
  · intro found' level q hadvance
    refine ⟨hlevel found' level q hadvance, eq_nil_of_advance ?_ hadvance⟩
    intro p hp
    exact isSeparator_of_isNewline (hfront p hp)

theorem endingChange {ps : List Piece}
    (hlevel : ∀ found level, scan .code [] ps = some (found, level) → level = .code) :
    EndingChange ps (.token .newline ending :: linePieces ending lines) found := by
  refine ⟨?_, fun ctx => ⟨lexes_ending he ctx _, lexes_linePieces he hwritten _⟩, hlevel,
    _, _, rfl, rfl, ?_⟩
  · rcases he with rfl | rfl <;> simp [LineEnds, Piece.text, isEol]
  · rw [scan_linePieces hne fun line hline => isSeparator_of_isWritten (hwritten line hline), hdeclare]

end

/-! ## The end of a text -/

theorem ne_continuation_of_getLast? {word : Text} {kind : TokenKind} {init : List Piece}
    (hlast : ∀ t ∈ (tokenize text).getLast?, t.kind ≠ .continuation)
    (hps : pieces .initial text = init ++ [.token kind word]) : kind ≠ .continuation := by
  apply hlast ⟨kind, 0 + (flat init).byteSize, word⟩
  rw [tokenize, hps, place_append, place, place, getLast?_append]
  rfl

section

variable (hclosed : text.CrClosed) (hlast : ∀ t ∈ (tokenize text).getLast?, t.kind ≠ .continuation)

include hclosed hlast

theorem holdsBreak_getLast? : ∀ p ∈ (pieces .initial text).getLast?, p.HoldsBreak := by
  intro p hp
  obtain ⟨init, hps⟩ := getLast?_eq_some_iff.mp hp
  have hflat : flat (pieces .initial text) = text := pieces_text _ _
  rcases holdsBreak_of_lexes (lexes_pieces .initial text) (by rw [hflat]; exact hclosed) hps with
    hholds | ⟨-, hnewline⟩
  · exact hholds
  · cases p with
    | blank c => trivial
    | token kind word =>
      have hkind := ne_continuation_of_getLast? hlast hps
      cases kind <;> first | exact absurd rfl hkind | trivial

omit hclosed in
/-- A text that ends with a line feed ends with a line end. -/
theorem isNewline_getLast? (hend : text.endsWithNewline = true) :
    ∀ p ∈ (pieces .initial text).getLast?, p.isNewline = true := by
  intro p hp
  obtain ⟨init, hps⟩ := getLast?_eq_some_iff.mp hp
  have hflat : flat (pieces .initial text) = text := pieces_text _ _
  have hfeed : text.getLast? = some '\n' := beq_iff_eq.mp hend
  cases p with
  | blank c =>
    have hspace := isSpace_of_mem_pieces (mem_of_getLast? hp)
    rw [← hflat, hps, flat_append] at hfeed
    simp [Piece.text] at hfeed
    rw [hfeed] at hspace
    cases hspace
  | token kind word =>
    obtain ⟨hne, hline⟩ := token_of_mem_pieces (mem_of_getLast? hp)
    rw [← hflat, hps, flat_append, flat_cons, flat_nil, append_nil, Piece.text, getLast?_append,
      getLast?_eq_some_getLast hne, Option.some_or] at hfeed
    have hmem : '\n' ∈ word := by
      rw [← Option.some.inj hfeed]
      exact getLast_mem hne
    cases hone : kind.isOneLine with
    | true => exact absurd (hline hone _ hmem) (by decide)
    | false =>
      have hkind := ne_continuation_of_getLast? hlast hps
      cases kind <;> first | exact absurd rfl hkind | rfl | cases hone

end

/-! ## The place of accessors -/

/-- The first member with a body begins its line. Where there is none, the module ends at module level
and not in a continuation. -/
def HasPlace (m : ModuleContent) : Prop :=
  match Item.firstWithBody? m.items with
  | some first => lineBefore m.source.text first.extent.span.start = []
  | none =>
    (Statement.declareAll m.source.text .code (Statement.ofTokens (tokenize m.source.text))).map
        Prod.snd = some .code ∧
      ∀ t ∈ (tokenize m.source.text).getLast?, t.kind ≠ .continuation

instance (m : ModuleContent) : Decidable (HasPlace m) := by
  unfold HasPlace
  split <;> infer_instance

theorem scan_of_declareAll {level : Level}
    (h : (declareAll text .code (ofTokens (tokenize text))).map Prod.snd = some .code)
    (hscan : scan .code [] (pieces .initial text) = some (found, level)) : level = .code := by
  have hat : text.HasAt 0 (flat ([] ++ pieces .initial text)) := by
    rw [nil_append, flat, pieces_text]
    exact hasAt_zero _
  rw [scan_eq_declareAll hat (forall_mem_nil _)] at hscan
  rw [tokenize] at h
  rw [nil_append] at hscan
  rw [hscan] at h
  exact Option.some.inj h

section

variable {m : ModuleContent} {plans : List PropertyPlan} {base : DeclarationId} {o : Outline}
  (ht : ClosedBy m.source.text.lineEnding m.source.text)
  (hplans : ∀ plan ∈ plans, plan.Writable) (hne : plans ≠ [])

include ht hplans hne

theorem inserts_before {first : MemberItem} (hread : Outline.read base m.source = .ok o)
    (hitems : m.items = o.items) (hfirst : Item.firstWithBody? m.items = some first)
    (hbegins : lineBefore m.source.text first.extent.span.start = []) :
    Inserts m.source.text (accessorProfiles plans)
      (.insert first.extent.lineStart (accessorsText plans ++ ['\n'])) := by
  have he := isTerminator_lineEnding m.source.text
  have hsplit := splitLines_before hplans hne
  have hnode := mem_of_find?_eq_some hfirst
  have hbody := find?_some hfirst
  rw [hitems] at hnode
  obtain ⟨lead, gap, own, rest, found, hps, hown, hadvance, hstart, hline⟩ :=
    Outline.exists_located_body hread hnode hbody
  rw [hstart, lineBefore_eq hps] at hbegins
  obtain ⟨front, blanks, hfront, hlast, hblanks⟩ := exists_blanks hbegins
  have hparts : pieces .initial m.source.text = front ++ (blanks ++ (own ++ rest)) := by
    rw [hps, hfront, append_assoc]
  -- The blanks before the member stay on its line.
  have hplain : (flat blanks).Plain := by
    intro c hc
    obtain ⟨p, hp, hc⟩ : ∃ p ∈ blanks, c ∈ p.text := by simpa [flat] using hc
    obtain ⟨d, rfl⟩ := hblanks p hp
    have hmem : .blank d ∈ pieces .initial m.source.text := by rw [hparts]; simp [hp]
    have hspace := isSpace_of_mem_pieces hmem
    rw [mem_singleton.mp hc]
    rw [isSpace, Bool.or_eq_true, beq_iff_eq, beq_iff_eq] at hspace
    rcases hspace with rfl | rfl <;> decide
  have htext : m.source.text = flat front ++ (flat blanks ++ flat (own ++ rest)) := by
    rw [← flat_append, ← flat_append, ← hparts]
    exact (pieces_text _ _).symm
  have hfeed := getLast?_flat_newline ht.crClosed hparts hlast
  have hmeet : Meet (flat front) (flat blanks ++ flat (own ++ rest)) := by
    rintro ⟨hcr, -⟩
    cases hfeed _ hcr
  have hplace : first.extent.lineStart = m.source.text.lineOf (flat front).byteSize := by
    rw [hline, hstart, hfront, flat_append, byteSize_append, lineOf_plain htext hplain hmeet]
  rw [hplace]
  refine .before hparts (blockChange he (by simp [linesBefore]) (isWritten_linesBefore hplans)
    (linesDeclare_linesBefore hplans) hlast ?_ ?_) ?_ ?_
  · intro text hhead
    cases blanks with
    | nil =>
      obtain ⟨p, hp, hsignificant⟩ := hown
      rw [nil_append, head?_append, hp] at hhead
      cases hhead
      cases hsignificant
    | cons p blanks =>
      obtain ⟨c, rfl⟩ := hblanks p mem_cons_self
      cases hhead
  · intro found' level q hfound
    have hrun : ∀ p ∈ blanks, p.isSeparator = false := by
      intro p hp
      obtain ⟨c, rfl⟩ := hblanks p hp
      rfl
    have hboth := advance_append_eq_some hfound (advance_run hrun level q)
    rw [← hfront, hadvance] at hboth
    exact (Prod.mk.inj (Prod.mk.inj (Option.some.inj hboth)).2).1.symm
  · rw [hsplit]
    exact plain_of_isWritten_lines (isWritten_linesBefore hplans)
  · rw [flat_closedPieces, hsplit]

theorem inserts_behind (hlevel : (declareAll m.source.text .code
      (ofTokens (tokenize m.source.text))).map Prod.snd = some .code)
    (hlast : ∀ t ∈ (tokenize m.source.text).getLast?, t.kind ≠ .continuation) :
    Inserts m.source.text (accessorProfiles plans)
      (.insert (m.source.text.lineCount + 1) ('\n' :: accessorsText plans)) := by
  have he := isTerminator_lineEnding m.source.text
  have hsplit := splitLines_behind hplans hne
  have hwritten := isWritten_linesBehind hplans
  have hflat : flat (pieces .initial m.source.text) = m.source.text := pieces_text _ _
  rw [lineCount, length_lineStarts]
  cases hend : m.source.text.endsWithNewline with
  | true =>
    have hnewline := isNewline_getLast? hlast hend
    have hline : (Text.tails m.source.text).length + 1 - 1 + 1 =
        m.source.text.lineOf (flat (pieces .initial m.source.text)).byteSize := by
      rw [hflat, lineOf_cut (append_nil _).symm rfl (by simp [Meet])]
      rfl
    rw [if_pos rfl, hline]
    refine .before (append_nil _).symm (blockChange he (cons_ne_nil _ _) hwritten
      (linesDeclare_linesBehind hplans) hnewline (by simp) ?_) ?_ ?_
    · intro found level q hfound
      have hq := eq_nil_of_advance (fun p hp => isSeparator_of_isNewline (hnewline p hp)) hfound
      rw [hq] at hfound
      exact scan_of_declareAll hlevel (scan_of_advance hfound rfl)
    · rw [hsplit]
      exact plain_of_isWritten_lines hwritten
    · rw [flat_closedPieces, hsplit]
      rfl
  | false =>
    rw [if_neg Bool.false_ne_true, ← length_rows]
    refine .behind (endingChange he (cons_ne_nil _ _) hwritten (linesDeclare_linesBehind hplans)
      fun found level => scan_of_declareAll hlevel) (holdsBreak_getLast? ht.crClosed hlast) ?_
    rw [flat_cons, flat_linePieces, hsplit, Piece.text, linesBehind, map_cons, intercalate_cons,
      opened, opened, flatMap_cons, append_assoc]

/-- Accessors are inserted at module level. -/
theorem inserts_accessorsEdit (hread : Outline.read base m.source = .ok o)
    (hitems : m.items = o.items) (hplace : HasPlace m) :
    Inserts m.source.text (accessorProfiles plans) (accessorsEdit m plans) := by
  rw [HasPlace] at hplace
  rw [accessorsEdit]
  cases hfirst : Item.firstWithBody? m.items with
  | some first =>
    rw [hfirst] at hplace
    exact inserts_before ht hplans hne hread hitems hfirst hplace
  | none =>
    rw [hfirst] at hplace
    exact inserts_behind ht hplans hne hplace.1 hplace.2

end

end Encapsulate

end VbaRefactor
