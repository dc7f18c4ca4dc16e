import VbaRefactor.Proofs.Syntax.Tokens

/-!
# Tokens cover their text

Nothing of a text is lost when it is cut into tokens: they stand in it one behind another, and what
lies between them is blank.
-/

namespace VbaRefactor

open List

/-- A token of the list lies on this byte. -/
def Covers (tokens : List Token) (pos : Nat) : Prop := ∃ t ∈ tokens, t.start ≤ pos ∧ pos < t.stop

/-- The text consists of the tokens and of blanks between them. -/
structure Interleaved (text : Text) (tokens : List Token) : Prop where
  /-- No token is empty. -/
  given : ∀ t ∈ tokens, t.start < t.stop
  /-- Each begins and ends between two characters of the text. -/
  bounded : ∀ t ∈ tokens, text.IsBoundary t.start ∧ text.IsBoundary t.stop
  /-- Each says what stands there. -/
  spelled : ∀ t ∈ tokens, text.slice t.span = t.text
  /-- They come in order and no two of them lie on one byte. -/
  increasing : tokens.Pairwise fun a b => a.start < b.start ∧ a.stop ≤ b.start
  /-- A byte on which no token lies is a space or a tab. -/
  blank : ∀ pos < text.byteSize, ¬ Covers tokens pos →
    text.HasAt pos [' '] ∨ text.HasAt pos ['\t']
  /-- Only line ends and continuations go on after the end of a line. -/
  oneLine : ∀ t ∈ tokens, t.kind ≠ .newline → t.kind ≠ .continuation →
    '\r' ∉ t.text ∧ '\n' ∉ t.text

theorem TokenKind.isOneLine_iff {kind : TokenKind} :
    kind.isOneLine = true ↔ kind ≠ .newline ∧ kind ≠ .continuation := by
  cases kind <;> simp [isOneLine]

namespace Lexer

variable {c : Char} {pos : Nat} {text : Text}

theorem isSpace_of_mem_pieces {ctx : Context} (h : .blank c ∈ pieces ctx text) :
    isSpace c = true := by
  fun_induction pieces ctx text with
  | case1 => cases h
  | case2 ctx d rest hspace ih =>
    rcases mem_cons.mp h with heq | h
    · cases heq
      exact hspace
    · exact ih h
  | case3 ctx d rest _ kind n _ ih =>
    rcases mem_cons.mp h with heq | h
    · cases heq
    · exact ih h

theorem hasAt_of_isSpace (hc : isSpace c = true) (h : text.HasAt pos [c]) :
    c.utf8Size = 1 ∧ (text.HasAt pos [' '] ∨ text.HasAt pos ['\t']) := by
  rw [isSpace, Bool.or_eq_true, beq_iff_eq, beq_iff_eq] at hc
  rcases hc with rfl | rfl
  · exact ⟨rfl, .inl h⟩
  · exact ⟨rfl, .inr h⟩

/-- Every byte of pieces is a blank or belongs to one of the tokens among them. -/
theorem covers_or_blank {ps : List Piece} (hblank : ∀ c, .blank c ∈ ps → isSpace c = true)
    (h : text.HasAt pos (ps.map Piece.text).flatten) {q : Nat} (hpos : pos ≤ q)
    (hq : q < pos + Text.byteSize (ps.map Piece.text).flatten) :
    Covers (place pos ps) q ∨ text.HasAt q [' '] ∨ text.HasAt q ['\t'] := by
  induction ps generalizing pos with
  | nil =>
    simp only [map_nil, flatten_nil, Text.byteSize_nil] at hq
    omega
  | cons piece ps ih =>
    rw [map_cons, flatten_cons] at h hq
    rw [Text.byteSize_append] at hq
    have hrest := ih (fun c hc => hblank c (mem_cons_of_mem _ hc)) h.right
    cases piece with
    | blank c =>
      obtain ⟨hsize, hat⟩ := hasAt_of_isSpace (hblank c mem_cons_self) h.left
      simp only [Piece.text, Text.byteSize_cons, Text.byteSize_nil, hsize] at hrest hq
      rcases Nat.lt_or_eq_of_le hpos with hlt | rfl
      · rw [place, hsize]
        exact hrest (by omega) (by omega)
      · exact .inr hat
    | token kind x =>
      rcases Nat.lt_or_ge q (pos + x.byteSize) with hlt | hge
      · exact .inl ⟨_, mem_cons_self, hpos, hlt⟩
      · simp only [Piece.text] at hrest hq
        rcases hrest hge (by omega) with ⟨t, ht, hin⟩ | hat
        · exact .inl ⟨t, mem_cons_of_mem _ ht, hin⟩
        · exact .inr hat

end Lexer

/-- Cutting a text into tokens loses nothing but blanks. -/
theorem interleaved_tokenize (text : Text) : Interleaved text (tokenize text) := by
  obtain ⟨hplaced, hordered⟩ := Statement.hasAt_of_mem_tokenize text
  have hgiven : ∀ t ∈ tokenize text, t.start < t.stop := by
    intro t ht
    have hsome := (Lexer.token_of_mem_pieces (hplaced t ht).2).1
    have hsize : t.text.byteSize ≠ 0 := fun hzero => hsome (Text.byteSize_eq_zero hzero)
    rw [Token.stop]
    omega
  refine ⟨hgiven, ?_, ?_, ?_, ?_, ?_⟩
  · intro t ht
    obtain ⟨a, b, htext, hsize⟩ := (hplaced t ht).1
    refine ⟨⟨a, t.text ++ b, htext, hsize⟩, a ++ t.text, b, by rw [htext, List.append_assoc], ?_⟩
    rw [Text.byteSize_append, hsize, Token.stop]
  · intro t ht
    exact (hplaced t ht).1.slice_eq
  · refine (List.Pairwise.and_mem.mp hordered).imp ?_
    rintro a b ⟨ha, -, hle⟩
    exact ⟨Nat.lt_of_lt_of_le (hgiven a ha) hle, hle⟩
  · intro pos hpos hnot
    have hall := Lexer.pieces_text .initial text
    have hat : text.HasAt 0 ((Lexer.pieces .initial text).map Lexer.Piece.text).flatten := by
      rw [hall]
      exact Text.hasAt_zero text
    rw [← hall] at hpos
    have hblank (c : Char) (hc : .blank c ∈ Lexer.pieces .initial text) :=
      Lexer.isSpace_of_mem_pieces hc
    exact (Lexer.covers_or_blank hblank hat (Nat.zero_le pos) (by omega)).resolve_left hnot
  · intro t ht hnewline hcontinuation
    have hline := (Lexer.token_of_mem_pieces (hplaced t ht).2).2
      (TokenKind.isOneLine_iff.mpr ⟨hnewline, hcontinuation⟩)
    constructor <;> intro hmem <;> cases hline _ hmem

end VbaRefactor
