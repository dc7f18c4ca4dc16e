import Mathlib.Data.List.Induction
import VbaRefactor.Proofs.Syntax.Variables

/-!
# What stands before a position

Whether a text can be changed at a position depends on what stands before it on its line. The tokens
of the text say what this is, and the pieces before the position are seen to agree with them.
-/

namespace VbaRefactor

open List Lexer

/-- The tokens before a position on its line, the nearest first. A line goes on where it is
continued. -/
def lineBefore (text : Text) (pos : Nat) : List Token :=
  ((tokenize text).filter (·.start < pos)).reverse.takeWhile (·.kind ≠ .newline)

namespace Lexer

variable {text : Text} {lead rest : List Piece}

theorem filter_tokenize (hps : pieces .initial text = lead ++ rest) :
    (tokenize text).filter (·.start < (flat lead).byteSize) = place 0 lead := by
  have hlead : ∀ t ∈ place 0 lead, t.start < (flat lead).byteSize := by
    intro t ht
    obtain ⟨front, back, rfl, hstart⟩ := exists_of_mem_place ht
    have hmem : .token t.kind t.text ∈ pieces .initial text := by rw [hps]; simp
    have hpos : t.text.byteSize ≠ 0 :=
      fun hzero => (token_of_mem_pieces hmem).1 (Text.byteSize_eq_zero hzero)
    rw [hstart, flat_append, flat_cons, Text.byteSize_append, Text.byteSize_append, Piece.text]
    omega
  have hrest : ∀ t ∈ place (0 + (flat lead).byteSize) rest, ¬ t.start < (flat lead).byteSize := by
    intro t ht
    obtain ⟨front, back, -, hstart⟩ := exists_of_mem_place ht
    omega
  rw [tokenize, hps, place_append, filter_append, filter_eq_self.mpr (by simpa using hlead),
    filter_eq_nil_iff.mpr (by simpa using hrest), append_nil]

theorem mem_tokenize {kind : TokenKind} {word : Text}
    (hps : pieces .initial text = lead ++ .token kind word :: rest) :
    ⟨kind, (flat lead).byteSize, word⟩ ∈ tokenize text := by
  rw [tokenize, hps, place_append, Nat.zero_add]
  exact mem_append_right _ mem_cons_self

/-- The tokens of pieces behind the last line end, the last first. -/
def lastLine (ps : List Piece) : List Token := (place 0 ps).reverse.takeWhile (·.kind ≠ .newline)

theorem lineBefore_eq (hps : pieces .initial text = lead ++ rest) :
    lineBefore text (flat lead).byteSize = lastLine lead := by
  rw [lineBefore, filter_tokenize hps, lastLine]

theorem lastLine_blank (ps : List Piece) (c : Char) : lastLine (ps ++ [.blank c]) = lastLine ps := by
  rw [lastLine, place_append]
  exact congrArg (fun tokens => (List.reverse tokens).takeWhile _) (append_nil _)

theorem lastLine_token (ps : List Piece) (kind : TokenKind) (word : Text) :
    lastLine (ps ++ [.token kind word]) =
      if kind = .newline then [] else ⟨kind, 0 + (flat ps).byteSize, word⟩ :: lastLine ps := by
  rw [lastLine, place_append, place, place, reverse_append, reverse_singleton,
    singleton_append, takeWhile_cons]
  by_cases hkind : kind = .newline <;> simp [hkind, lastLine]

/-- Without a lone `#` among the tokens of the line there is none on it. -/
theorem hashAfterAll_eq_false (h : ∀ t ∈ lastLine lead, (Piece.token t.kind t.text).isHash = false) :
    hashAfterAll lead = false := by
  induction lead using List.reverseRecOn with
  | nil => rfl
  | append_singleton ps p ih =>
    rw [hashAfterAll_append]
    cases p with
    | blank c =>
      rw [lastLine_blank] at h
      simp [hashAfter, Piece.isHash, ih h]
    | token kind word =>
      rw [lastLine_token] at h
      by_cases hkind : kind = .newline
      · simp [hashAfter, hkind, Piece.isNewline]
      · rw [if_neg hkind] at h
        obtain ⟨hp, hrest⟩ := forall_mem_cons.mp h
        simp [hashAfter, hp, ih hrest]

/-- Where nothing stands before a position on its line, there are blanks behind the last line end. -/
theorem exists_blanks (h : lastLine lead = []) :
    ∃ front blanks, lead = front ++ blanks ∧ (∀ p ∈ front.getLast?, p.isNewline = true) ∧
      ∀ p ∈ blanks, ∃ c, p = .blank c := by
  induction lead using List.reverseRecOn with
  | nil => exact ⟨[], [], rfl, nofun, forall_mem_nil _⟩
  | append_singleton ps p ih =>
    cases p with
    | blank c =>
      rw [lastLine_blank] at h
      obtain ⟨front, blanks, rfl, hfront, hblanks⟩ := ih h
      refine ⟨front, blanks ++ [.blank c], append_assoc _ _ _, hfront, ?_⟩
      exact forall_mem_append.mpr ⟨hblanks, forall_mem_singleton.mpr ⟨c, rfl⟩⟩
    | token kind word =>
      rw [lastLine_token] at h
      by_cases hkind : kind = .newline
      · refine ⟨ps ++ [.token kind word], [], (append_nil _).symm, ?_, forall_mem_nil _⟩
        intro p hp
        rw [getLast?_concat] at hp
        cases hp
        rw [hkind]
        rfl
      · rw [if_neg hkind] at h
        cases h

theorem exists_of_isNewline {p : Piece} (h : p.isNewline = true) : ∃ text, p = .token .newline text := by
  match p, h with
  | .token .newline text, _ => exact ⟨text, rfl⟩

theorem isSeparator_of_isNewline {p : Piece} (h : p.isNewline = true) : p.isSeparator = true := by
  obtain ⟨text, rfl⟩ := exists_of_isNewline h
  rfl

/-- Behind a separator a statement begins. -/
theorem eq_nil_of_advance {ps q : List Piece} {level last : Level} {found : List Profile}
    (hclosed : ∀ p ∈ ps.getLast?, p.isSeparator = true)
    (h : advance level [] ps = some (found, last, q)) : q = [] := by
  rcases eq_nil_or_concat ps with rfl | ⟨init, p, rfl⟩
  · cases h
    rfl
  rw [concat_eq_append] at h hclosed
  rw [advance_append] at h
  obtain ⟨⟨found₁, next, q₁⟩, -, h⟩ := Option.bind_eq_some_iff.mp h
  obtain ⟨⟨found₂, last', q₂⟩, hlast, heq⟩ := Option.map_eq_some_iff.mp h
  cases heq
  rw [advance, if_pos (hclosed p (by simp))] at hlast
  split at hlast
  · cases hlast
  · cases hlast
    rfl

end Lexer

namespace Outline

/-- A member with a body begins among the pieces of the source at module level. -/
theorem exists_located_body {base : DeclarationId} {source : Source} {o : Outline} {node : MemberItem}
    (h : read base source = .ok o) (hnode : node ∈ o.items.filterMap Item.member?)
    (hbody : node.body?.isSome = true) :
    ∃ lead gap own rest found, pieces .initial source.text = lead ++ gap ++ (own ++ rest) ∧
      (∃ p ∈ own.head?, p.isSignificant = true) ∧
      advance .code [] (lead ++ gap) = some (found, .code, gap) ∧
      node.extent.span.start = (flat (lead ++ gap)).byteSize ∧
      node.extent.lineStart = source.text.lineOf node.extent.span.start := by
  obtain ⟨block, -, hsteps⟩ := steps_of_read h
  have hplace : (node.extent.span.start, node.extent.lineStart) ∈ o.bodyPlaces block :=
    mem_append_left _ (mem_map.mpr ⟨node, mem_filter.mpr ⟨hnode, hbody⟩, rfl⟩)
  rcases exists_of_mem_bodyPlaces hsteps hplace with
    hnone | ⟨before, s, after, o₁, span, hstatements, hbefore, hcover, hspan⟩
  · cases hnone
  obtain ⟨lead, gap, own, rest, found, hpieces, hlocated, hadvance⟩ :=
    exists_located hstatements hbefore
  refine ⟨lead, gap, own, rest, found, by rw [hpieces, append_assoc], hlocated.first,
    hadvance, ?_⟩
  have hreading := (Reading.start (Statement.ofTokens (tokenize source.text)) source base).steps
    (fun s hs => by rw [hstatements]; exact mem_append_left _ hs) hbefore
  have hcover' : Statement.cover? (Statement.significant
      (place (0 + (flat (lead ++ gap)).byteSize) _)) = _ :=
    cover?_place hlocated.first hlocated.last
  rw [hlocated.tokens, hcover, Nat.zero_add] at hcover'
  cases hcover'
  rw [hreading.readFrom.ofSource] at hspan
  obtain ⟨hstart, hline⟩ := Prod.mk.inj hspan
  exact ⟨hstart, by rw [hline, hstart]⟩

end Outline

end VbaRefactor
