import Mathlib.Data.List.Induction
import VbaRefactor.Proofs.Syntax.Relexing
import VbaRefactor.Proofs.Syntax.Runs

/-!
# Tokens line by line

What the reader knows at the start of a line does not depend on the lines before it, and no token sees
further than the end of its line. So the tokens of a text are those of a front part that ends with a
line, followed by those of the rest.
-/

namespace VbaRefactor

open List

namespace Lexer

variable {ctx : Context} {ps : List Piece} {e : Char} {text rest : Text}

/-- No piece sees what stands behind the next line end. -/
theorem Cuts.of_eol {p : Piece} {front rest : Text} (h : Cuts ctx (front ++ e :: rest) p)
    (he : isEol e = true) (rest' : Text) : Cuts ctx (front ++ e :: rest') p := by
  have hhead : (front ++ e :: rest').head? = (front ++ e :: rest).head? := by cases front <;> rfl
  have hbreak {text : Text} (hbreak : IsBreak text (front ++ e :: rest)) :
      IsBreak text (front ++ e :: rest') := by rwa [IsBreak, hhead]
  cases p with
  | blank c => exact h
  | token kind text =>
    by_cases hnewline : kind = .newline
    · subst hnewline
      exact cuts_newline_iff.mpr (hbreak (cuts_newline_iff.mp h))
    by_cases hcontinuation : kind = .continuation
    · subst hcontinuation
      obtain ⟨hblank, blanks, line, rfl, hall, hline | ⟨-, hnil⟩⟩ := cuts_continuation_iff.mp h
      · exact cuts_continuation_iff.mpr ⟨hblank, blanks, line, rfl, hall, .inl (hbreak hline)⟩
      · simp at hnil
    cases text with
    | nil => exact h
    | cons c tail =>
      have hends (more : Text) : LineEnds (e :: more) := by
        rintro _ ⟨⟩
        exact he
      exact h.of_near hnewline hcontinuation (.of_lineEnds (hends rest) (hends rest'))

theorem lexes_of_eol {rest : Text} (h : Lexes ctx ps (e :: rest)) (he : isEol e = true)
    (rest' : Text) : Lexes ctx ps (e :: rest') := by
  induction ps generalizing ctx with
  | nil => trivial
  | cons p ps ih => exact ⟨h.1.of_eol he rest', ih h.2⟩

/-! ## Blanks at the end -/

/-- Behind the last token of a text only blanks stand. -/
theorem exists_of_getLast?_place {pos : Nat} {t : Token} (h : (place pos ps).getLast? = some t) :
    ∃ front blanks, ps = front ++ .token t.kind t.text :: blanks ∧
      ∀ p ∈ blanks, ∃ c, p = .blank c := by
  induction ps using reverseRecOn with
  | nil => cases h
  | append_singleton ps p ih =>
    rw [place_append] at h
    cases p with
    | blank c =>
      rw [place, place, append_nil] at h
      obtain ⟨front, blanks, rfl, hblanks⟩ := ih h
      refine ⟨front, blanks ++ [.blank c], by simp, ?_⟩
      simpa [or_imp, forall_and] using hblanks
    | token kind text =>
      rw [place, place, getLast?_concat] at h
      cases h
      exact ⟨ps, [], rfl, forall_mem_nil _⟩

variable {blanks : List Piece} (hblanks : ∀ p ∈ blanks, ∃ c, p = .blank c)

include hblanks

theorem lexes_blanks {rest rest' : Text} (h : Lexes ctx blanks rest) : Lexes ctx blanks rest' := by
  induction blanks generalizing ctx with
  | nil => trivial
  | cons p blanks ih =>
    obtain ⟨c, rfl⟩ := hblanks p mem_cons_self
    exact ⟨h.1, ih (forall_mem_cons.mp hblanks).2 h.2⟩

theorem afterAll_blanks (ctx : Context) :
    ∃ blank, ctx.afterAll blanks = ⟨ctx.fresh, blank, ctx.afterValue⟩ := by
  induction blanks generalizing ctx with
  | nil => exact ⟨ctx.afterBlank, rfl⟩
  | cons p blanks ih =>
    obtain ⟨c, rfl⟩ := hblanks p mem_cons_self
    exact ih (forall_mem_cons.mp hblanks).2 _

/-- A carriage return takes no line feed of the text behind the blanks if it does not stand there. -/
theorem IsBreak.append_blanks (h : IsBreak text (flat blanks))
    (hrest : blanks = [] → text.getLast? = some '\r' → rest.head? ≠ some '\n') :
    IsBreak text (flat blanks ++ rest) := by
  rcases h with rfl | rfl | ⟨rfl, hne⟩
  · exact .inl rfl
  · exact .inr (.inl rfl)
  · refine .inr (.inr ⟨rfl, ?_⟩)
    cases blanks with
    | nil => exact hrest rfl rfl
    | cons p blanks =>
      obtain ⟨c, rfl⟩ := hblanks p mem_cons_self
      exact hne

omit hblanks

/-! ## The next line -/

/-- A text that does not begin with an underscore is read alike behind a line end and at the start. -/
theorem pieces_of_fresh {text : Text} (h : text.head? ≠ some '_') (blank : Bool) :
    pieces ⟨true, blank, false⟩ text = pieces .initial text := by
  cases text with
  | nil => rw [pieces, pieces]
  | cons c rest =>
    have hc : c ≠ '_' := fun heq => h (congrArg some heq)
    have hrecognize : recognize ⟨true, blank, false⟩ c rest = recognize .initial c rest := by
      simp [recognize, Context.initial, hc]
    unfold pieces
    rw [hrecognize]
    rfl

theorem IsBreak.exists_eol (h : IsBreak text rest) :
    ∃ e more, text = e :: more ∧ isEol e = true := by
  rcases h with rfl | rfl | ⟨rfl, -⟩ <;> exact ⟨_, _, rfl, rfl⟩

theorem pieces_append {a b : Text} {front : List Piece} {text : Text}
    (ha : pieces .initial a = front ++ .token .newline text :: blanks)
    (hblanks : ∀ p ∈ blanks, ∃ c, p = .blank c) (hb : b.head? ≠ some '_')
    (hcr : ¬ (a.getLast? = some '\r' ∧ b.head? = some '\n')) :
    pieces .initial (a ++ b) = pieces .initial a ++ pieces .initial b := by
  have hflat : flat (pieces .initial a) = a := pieces_text _ _
  have hlex := lexes_pieces .initial a
  rw [ha, lexes_append] at hlex
  obtain ⟨hfront, hnewline, hlexBlanks⟩ := hlex
  rw [append_nil] at hnewline
  have hbreak := cuts_newline_iff.mp hnewline
  obtain ⟨e, more, rfl, he⟩ := hbreak.exists_eol
  have hlexes : Lexes .initial (pieces .initial a) b := by
    rw [ha, lexes_append]
    refine ⟨lexes_of_eol hfront he _, cuts_newline_iff.mpr (hbreak.append_blanks hblanks ?_),
      lexes_blanks hblanks hlexBlanks⟩
    rintro rfl hlast hhead
    refine hcr ⟨?_, hhead⟩
    rw [← hflat, ha, flat_append, getLast?_append, flat_cons, flat_nil, append_nil]
    rw [Piece.text, hlast]
    rfl
  obtain ⟨blank, hcontext⟩ := afterAll_blanks hblanks ⟨true, false, false⟩
  have hpieces := pieces_of_lexes hlexes
  rw [hflat, ha, Context.afterAll_append, Context.afterAll_cons] at hpieces
  rw [hpieces, ha, ← pieces_of_fresh hb blank, ← hcontext]
  rfl

end Lexer

open Lexer

/-- The tokens of a text that ends with a line, followed by another, are those of the two texts. The
other text must not go on with the last line: neither with its line break, nor with an underscore. -/
theorem tokenize_append (a b : Text)
    (hlast : (tokenize a).getLast?.map Token.kind = some .newline) (hb : b.head? ≠ some '_')
    (hcr : ¬ (a.getLast? = some '\r' ∧ b.head? = some '\n')) :
    tokenize (a ++ b) = tokenize a ++ (tokenize b).map (Token.shift a.byteSize) := by
  obtain ⟨t, ht, hkind⟩ := Option.map_eq_some_iff.mp hlast
  obtain ⟨front, blanks, ha, hblanks⟩ := exists_of_getLast?_place ht
  rw [hkind] at ha
  have hflat : flat (pieces .initial a) = a := pieces_text _ _
  rw [tokenize, tokenize, tokenize, pieces_append ha hblanks hb hcr, place_append, hflat, Nat.zero_add,
    ← place_shift, Nat.add_zero]

/-- An open string, a continued line and blanks. -/
def brokenLines : Text := "x = \"a _\r_\n\r \t"

theorem tokenize_append_broken :
    (tokenize brokenLines).getLast?.map Token.kind = some .newline ∧
      tokenize (brokenLines ++ "Rem .5 _\n") =
        tokenize brokenLines ++ (tokenize "Rem .5 _\n").map (Token.shift brokenLines.byteSize) := by
  have hlast : (tokenize brokenLines).getLast?.map Token.kind = some .newline := by decide +kernel
  exact ⟨hlast, tokenize_append _ _ hlast (by decide) (by decide)⟩

end VbaRefactor
