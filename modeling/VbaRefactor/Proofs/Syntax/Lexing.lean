import VbaRefactor.Proofs.Syntax.LookAhead

/-!
# Reading piece by piece

`Lexes ctx ps rest` says that the reader cuts the pieces `ps` off a text that goes on with `rest`, and
the pieces of a text are the only ones it can be cut into.
-/

namespace VbaRefactor

open List

namespace Lexer

variable {ps : List Piece} {tail rest blanks text : Text} {ctx ctx' : Context} {c : Char}
  {kind : TokenKind} {n : Nat}

/-- The characters of pieces. -/
def flat (ps : List Piece) : Text := (ps.map Piece.text).flatten

@[simp]
theorem flat_nil : flat [] = [] := rfl

@[simp]
theorem flat_cons (p : Piece) (ps : List Piece) : flat (p :: ps) = p.text ++ flat ps := rfl

@[simp]
theorem flat_append (ps qs : List Piece) : flat (ps ++ qs) = flat ps ++ flat qs := by
  simp [flat]

def Context.afterPiece (ctx : Context) : Piece → Context
  | .blank _ => { ctx with afterBlank := true }
  | .token kind (c :: _) => ctx.after kind c
  | .token _ [] => ctx

def Context.afterAll (ctx : Context) (ps : List Piece) : Context := ps.foldl afterPiece ctx

@[simp]
theorem Context.afterAll_nil (ctx : Context) : ctx.afterAll [] = ctx := rfl

@[simp]
theorem Context.afterAll_cons (ctx : Context) (p : Piece) (ps : List Piece) :
    ctx.afterAll (p :: ps) = (ctx.afterPiece p).afterAll ps := rfl

@[simp]
theorem Context.afterAll_append (ctx : Context) (ps qs : List Piece) :
    ctx.afterAll (ps ++ qs) = (ctx.afterAll ps).afterAll qs := foldl_append

/-- The reader cuts this piece off a text that goes on with `rest` after it. -/
def Cuts (ctx : Context) (rest : Text) : Piece → Prop
  | .blank c => isSpace c = true
  | .token kind (c :: tail) =>
    isSpace c = false ∧ recognize ctx c (tail ++ rest) = (kind, tail.length)
  | .token _ [] => False

/-- The reader cuts these pieces off a text that goes on with `rest` after them. -/
def Lexes (ctx : Context) : List Piece → Text → Prop
  | [], _ => True
  | p :: ps, rest => Cuts ctx (flat ps ++ rest) p ∧ Lexes (ctx.afterPiece p) ps rest

theorem lexes_append {qs : List Piece} :
    Lexes ctx (ps ++ qs) rest ↔
      Lexes ctx ps (flat qs ++ rest) ∧ Lexes (ctx.afterAll ps) qs rest := by
  induction ps generalizing ctx with
  | nil => simp [Lexes]
  | cons p ps ih => simp [Lexes, ih, flat_append, Context.afterAll_cons, and_assoc]

/-- The reader cuts a text into the pieces that it can be cut into. -/
theorem pieces_of_lexes (h : Lexes ctx ps rest) :
    pieces ctx (flat ps ++ rest) = ps ++ pieces (ctx.afterAll ps) rest := by
  induction ps generalizing ctx with
  | nil => rfl
  | cons p ps ih =>
    obtain ⟨hcuts, hrest⟩ := h
    rw [flat_cons, append_assoc, cons_append, Context.afterAll_cons, ← ih hrest]
    match p, hcuts with
    | .blank c, hspace =>
      have hspace : isSpace c = true := hspace
      rw [Piece.text, singleton_append, pieces, if_pos hspace]
      rfl
    | .token kind (c :: tail), ⟨hspace, hkind⟩ =>
      rw [Piece.text, cons_append, pieces, if_neg (by simp [hspace]), hkind]
      simp only [take_left, drop_left]
      rfl

theorem lexes_pieces (ctx : Context) (text : Text) : Lexes ctx (pieces ctx text) [] := by
  fun_induction pieces ctx text with
  | case1 => trivial
  | case2 ctx c rest hspace ih => exact ⟨hspace, ih⟩
  | case3 ctx c rest hspace kind n hclass ih =>
    have hflat : flat (pieces (ctx.after kind c) (rest.drop n)) = rest.drop n := pieces_text _ _
    have hn := recognize_le hclass
    refine ⟨⟨by simpa using hspace, ?_⟩, ih⟩
    rw [hflat, append_nil, take_append_drop, hclass, length_take, Nat.min_eq_left hn]

/-- The piece is cut off with the other text behind it. -/
theorem Cuts.of_near {rest' : Text} (h : Cuts ctx rest (.token kind (c :: tail)))
    (hnewline : kind ≠ .newline) (hcontinuation : kind ≠ .continuation)
    (hnear : Near kind c tail rest rest') : Cuts ctx rest' (.token kind (c :: tail)) :=
  ⟨h.1, hnear.recognize_append hnewline hcontinuation h.2⟩

/-! ## What a token needs of the text before it -/

theorem recognize_underscore (ctx : Context) (rest : Text) :
    recognize ctx '_' rest =
      if ctx.afterBlank && endsLine rest then (.continuation, continuationTail rest)
      else (.punct, 0) := rfl

theorem recognize_dot (ctx : Context) (rest : Text) :
    recognize ctx '.' rest =
      if rest.head?.any isDigit && !ctx.afterValue then (.number, numberTail rest)
      else (.punct, 0) := rfl

/-- Of the text before it a token sees whether it begins a statement, a dot whether a value stands
before it, and a continuation whether a blank does. -/
theorem Cuts.of_context (h : Cuts ctx rest (.token kind text)) (hfresh : ctx'.fresh = ctx.fresh)
    (hvalue : ctx'.afterValue = ctx.afterValue ∨ kind.isSignificant = false)
    (hblank : ctx'.afterBlank = ctx.afterBlank ∨ ctx'.afterBlank = false ∧ kind ≠ .continuation) :
    Cuts ctx' rest (.token kind text) := by
  cases text with
  | nil => exact h
  | cons c tail =>
    obtain ⟨hspace, hkind⟩ := h
    refine ⟨hspace, ?_⟩
    by_cases hunderscore : c = '_'
    · subst hunderscore
      rw [recognize_underscore] at hkind ⊢
      rcases hblank with hblank | ⟨hfalse, hcontinuation⟩
      · rwa [hblank]
      · split at hkind
        · exact absurd (Prod.mk.inj hkind).1.symm hcontinuation
        · rw [hfalse]
          exact hkind
    by_cases hdot : c = '.'
    · subst hdot
      rw [recognize_dot] at hkind ⊢
      rcases hvalue with hvalue | hsignificant
      · rwa [hvalue]
      · rcases ite_eq_iff.mp hkind with ⟨-, hkind⟩ | ⟨-, hkind⟩
        · rw [← (Prod.mk.inj hkind).1] at hsignificant
          cases hsignificant
        · rw [← (Prod.mk.inj hkind).1] at hsignificant
          cases hsignificant
    · rw [recognize] at hkind ⊢
      simpa [beq_false_of_ne hunderscore, beq_false_of_ne hdot, hfresh] using hkind

/-- What a token is that no statement is made of. -/
theorem recognize_insignificant (h : recognize ctx c rest = (kind, n))
    (hkind : kind.isSignificant = false) :
    (kind = .newline ∧ (c = '\r' ∨ c = '\n')) ∨
      (kind = .continuation ∧ c = '_' ∧ ctx.afterBlank = true) ∨
      (kind = .comment ∧ (c = '\x27' ∨ ctx.fresh = true)) ∨ (kind = .colon ∧ c = ':') := by
  cases begins_of_recognize h with
  | newline hc => exact .inl ⟨rfl, hc⟩
  | continuation hc hblank => exact .inr (.inl ⟨rfl, hc, hblank⟩)
  | comment _ hc => exact .inr (.inr (.inl ⟨rfl, hc⟩))
  | colon hc => exact .inr (.inr (.inr ⟨rfl, hc⟩))
  | bracket | name => cases hkind
  | other _ _ hsignificant =>
    rw [hsignificant] at hkind
    cases hkind

theorem lineRest_of_recognize (h : recognize ctx c rest = (.comment, n)) : lineRest rest = n := by
  cases begins_of_recognize h with
  | comment => rfl
  | other _ _ hsignificant => cases hsignificant

theorem eq_of_recognize_newline (h : recognize ctx c rest = (.newline, n)) :
    c = '\r' ∨ c = '\n' := by
  rcases recognize_insignificant h rfl with ⟨-, hc⟩ | ⟨⟨⟩, -⟩ | ⟨⟨⟩, -⟩ | ⟨⟨⟩, -⟩
  exact hc

theorem eq_of_recognize_continuation (h : recognize ctx c rest = (.continuation, n)) : c = '_' := by
  rcases recognize_insignificant h rfl with ⟨⟨⟩, -⟩ | ⟨-, hc, -⟩ | ⟨⟨⟩, -⟩ | ⟨⟨⟩, -⟩
  exact hc

/-! ## Line breaks -/

/-- The text is a line break to which no line feed behind it belongs. -/
def IsBreak (text rest : Text) : Prop :=
  text = ['\n'] ∨ text = ['\r', '\n'] ∨ text = ['\r'] ∧ rest.head? ≠ some '\n'

theorem IsBreak.of_lf (h : IsBreak text rest) (hlf : text.getLast? = some '\n') (rest' : Text) :
    IsBreak text rest' := by
  rcases h with rfl | rfl | ⟨rfl, -⟩
  · exact .inl rfl
  · exact .inr (.inl rfl)
  · cases hlf

theorem recognize_cr (ctx : Context) (rest : Text) :
    recognize ctx '\r' rest = (.newline, if rest.head? == some '\n' then 1 else 0) := rfl

theorem cuts_newline_iff : Cuts ctx rest (.token .newline text) ↔ IsBreak text rest := by
  constructor
  · intro h
    cases text with
    | nil => exact h.elim
    | cons c tail =>
      have hrecognize := h.2
      rcases eq_of_recognize_newline hrecognize with rfl | rfl
      · rw [recognize_cr] at hrecognize
        by_cases hlf : (tail ++ rest).head? = some '\n'
        · rw [if_pos (beq_iff_eq.mpr hlf)] at hrecognize
          obtain ⟨x, rfl⟩ := length_eq_one_iff.mp (Prod.mk.inj hrecognize).2.symm
          cases hlf
          exact .inr (.inl rfl)
        · rw [if_neg (mt beq_iff_eq.mp hlf)] at hrecognize
          obtain rfl := length_eq_zero_iff.mp (Prod.mk.inj hrecognize).2.symm
          exact .inr (.inr ⟨rfl, hlf⟩)
      · obtain rfl := length_eq_zero_iff.mp (Prod.mk.inj hrecognize).2.symm
        exact .inl rfl
  · rintro (rfl | rfl | ⟨rfl, hne⟩)
    · exact ⟨rfl, rfl⟩
    · exact ⟨rfl, rfl⟩
    · refine ⟨rfl, ?_⟩
      rw [recognize_cr, nil_append, if_neg (by simp [hne])]
      rfl

theorem endsLine_blanks (h : ∀ z ∈ blanks, isSpace z = true) (rest : Text) :
    endsLine (blanks ++ rest) = endsLine rest := by
  rw [endsLine, endsLine, dropWhile_append_of_pos h]

theorem continuationTail_blanks (h : ∀ z ∈ blanks, isSpace z = true) (rest : Text) :
    continuationTail (blanks ++ rest) = blanks.length + continuationTail rest := by
  rw [continuationTail, continuationTail, takeWhile_append_of_pos h, dropWhile_append_of_pos h,
    length_append, Nat.add_assoc]

theorem continuationTail_cr (h : rest.head? ≠ some '\n') : continuationTail ('\r' :: rest) = 1 := by
  cases rest with
  | nil => rfl
  | cons x rest =>
    have hx : x ≠ '\n' := fun heq => h (by rw [heq]; rfl)
    simp [continuationTail, isSpace, hx]

/-- What a continuation takes of a text that begins with no blank. -/
theorem exists_line {more : Text} (hends : endsLine more = true)
    (hspace : ∀ c ∈ more.head?, isSpace c = false) :
    ∃ line rest, more = line ++ rest ∧ continuationTail more = line.length ∧
      (IsBreak line rest ∨ line = [] ∧ rest = []) := by
  cases more with
  | nil => exact ⟨[], [], rfl, rfl, .inr ⟨rfl, rfl⟩⟩
  | cons c rest =>
    have heol : isEol c = true := by
      rw [endsLine, dropWhile_cons_of_neg (by simp [hspace c rfl])] at hends
      exact hends
    simp only [isEol, Bool.or_eq_true, beq_iff_eq] at heol
    rcases heol with rfl | rfl
    · exact ⟨['\n'], rest, rfl, rfl, .inl (.inl rfl)⟩
    · by_cases hlf : rest.head? = some '\n'
      · obtain ⟨rest, rfl⟩ := head?_eq_some_iff.mp hlf
        exact ⟨['\r', '\n'], rest, rfl, rfl, .inl (.inr (.inl rfl))⟩
      · exact ⟨['\r'], rest, rfl, continuationTail_cr hlf, .inl (.inr (.inr ⟨rfl, hlf⟩))⟩

/-- A continuation is an underscore behind a blank, blanks, and a line break or the end of the text. -/
theorem cuts_continuation_iff :
    Cuts ctx rest (.token .continuation text) ↔ ctx.afterBlank = true ∧
      ∃ blanks line, text = '_' :: (blanks ++ line) ∧ (∀ z ∈ blanks, isSpace z = true) ∧
        (IsBreak line rest ∨ line = [] ∧ rest = []) := by
  constructor
  · intro h
    cases text with
    | nil => exact h.elim
    | cons c tail =>
      have hrecognize := h.2
      obtain rfl := eq_of_recognize_continuation hrecognize
      rw [recognize_underscore] at hrecognize
      rcases ite_eq_iff.mp hrecognize with ⟨hcontinued, hrecognize⟩ | ⟨-, hrecognize⟩
      · obtain ⟨hblank, hends⟩ := Bool.and_eq_true_iff.mp hcontinued
        have hlength := (Prod.mk.inj hrecognize).2
        have hall := all_eq_true.mp (all_takeWhile (p := isSpace) (l := tail ++ rest))
        have hparts := takeWhile_append_dropWhile (p := isSpace) (l := tail ++ rest)
        rw [← hparts, endsLine_blanks hall] at hends
        rw [← hparts, continuationTail_blanks hall] at hlength
        have hspace : ∀ c ∈ ((tail ++ rest).dropWhile isSpace).head?, isSpace c = false := by
          intro c hc
          have hhead := head?_dropWhile_not isSpace (tail ++ rest)
          rwa [Option.mem_def.mp hc] at hhead
        obtain ⟨line, behind, hmore, hsize, hline⟩ := exists_line hends hspace
        rw [hmore, ← append_assoc] at hparts
        rw [hsize, ← length_append] at hlength
        obtain ⟨htail, rfl⟩ := append_inj hparts hlength
        exact ⟨hblank, _, line, by rw [htail], hall, hline⟩
      · cases (Prod.mk.inj hrecognize).1
  · rintro ⟨hblank, blanks, line, rfl, hall, hline⟩
    refine ⟨rfl, ?_⟩
    rw [recognize_underscore, append_assoc, endsLine_blanks hall, continuationTail_blanks hall,
      length_append, hblank]
    rcases hline with (rfl | rfl | ⟨rfl, hne⟩) | ⟨rfl, rfl⟩
    · rfl
    · rfl
    · rw [singleton_append, continuationTail_cr hne]
      rfl
    · rfl

theorem Cuts.of_lf (h : Cuts ctx rest (.token kind text))
    (hkind : kind = .newline ∨ kind = .continuation) (hlf : text.getLast? = some '\n')
    (rest' : Text) : Cuts ctx rest' (.token kind text) := by
  rcases hkind with rfl | rfl
  · exact cuts_newline_iff.mpr ((cuts_newline_iff.mp h).of_lf hlf rest')
  obtain ⟨hblank, blanks, line, rfl, hall, hline⟩ := cuts_continuation_iff.mp h
  refine cuts_continuation_iff.mpr ⟨hblank, blanks, line, rfl, hall, .inl ?_⟩
  rcases hline with hbreak | ⟨rfl, -⟩
  · refine hbreak.of_lf ?_ rest'
    rcases hbreak with rfl | rfl | ⟨rfl, -⟩
    · rfl
    · rfl
    · rw [← cons_append, getLast?_concat] at hlf
      exact hlf
  · have hlast := mem_of_getLast? hlf
    rw [append_nil] at hlast
    rcases mem_cons.mp hlast with heq | hmem
    · cases heq
    · cases hall _ hmem

/-! ## Words -/

/-- A name that is a plain word: a letter, then characters of names. -/
def isPlainName : Text → Bool
  | c :: tail => isLetter c && tail.all isNameChar
  | [] => false

theorem nameTail_append_of_all (h : tail.all isNameChar = true) (rest : Text) :
    nameTail (tail ++ rest) = tail.length + nameTail rest := by
  have hall := all_eq_true.mp h
  simp [nameTail, takeWhile_append_of_pos hall, dropWhile_append_of_pos hall, Nat.add_assoc]

theorem recognize_nameStart (h : isNameStart c = true) (ctx : Context) (rest : Text) :
    recognize ctx c rest =
      if ctx.fresh && Text.fold (c :: rest.take (nameTail rest)) == ['r', 'e', 'm'] then
        (.comment, lineRest rest)
      else (.identifier, nameTail rest) := by
  have hne (x : Char) (hx : isNameStart x = false := by decide) : (c == x) = false := by
    apply beq_false_of_ne
    rintro rfl
    rw [hx] at h
    cases h
  simp [recognize, hne '\r', hne '\n', hne '_', hne '\x27', hne '#', hne '"', hne '[', h]

theorem recognize_identifier {n : Nat} (h : recognize ctx c rest = (.identifier, n)) :
    c = '[' ∨ isNameStart c = true := by
  cases begins_of_recognize h with
  | bracket hc => exact .inl hc
  | name hstart => exact .inr hstart
  | other _ _ _ hne => exact absurd rfl hne

/-- Inside a statement a name is one whatever stands before it. -/
theorem Cuts.of_identifier (h : Cuts ctx rest (.token .identifier text))
    (hfresh : ctx'.fresh = false) : Cuts ctx' rest (.token .identifier text) := by
  cases text with
  | nil => exact h
  | cons c tail =>
    obtain ⟨hspace, hrecognize⟩ := h
    refine ⟨hspace, ?_⟩
    rcases recognize_identifier hrecognize with rfl | hstart
    · exact hrecognize
    · rw [recognize_nameStart hstart] at hrecognize ⊢
      rw [hfresh]
      rcases ite_eq_iff.mp hrecognize with ⟨-, ⟨⟩⟩ | ⟨-, hname⟩
      exact hname

section

variable {ctx : Context} {name rest : Text} (hname : isPlainName name = true)

include hname

/-- A word is a token where no more characters of names follow. -/
theorem cuts_name (hrem : ctx.fresh = true → name.fold ≠ ['r', 'e', 'm']) (hrest : nameTail rest = 0) :
    Cuts ctx rest (.token .identifier name) := by
  cases name with
  | nil => cases hname
  | cons c tail =>
    obtain ⟨hc, htail⟩ := Bool.and_eq_true_iff.mp hname
    have hspace : isSpace c = false := by
      simp [isSpace, ne_of_isLetter hc ' ' (by decide), ne_of_isLetter hc '\t' (by decide)]
    refine ⟨hspace, ?_⟩
    rw [recognize_nameStart (by simp [isNameStart, hc]), nameTail_append_of_all htail, hrest,
      Nat.add_zero, take_left, if_neg]
    simpa using hrem

theorem nameTail_of_cuts (h : Cuts ctx rest (.token .identifier name)) : nameTail rest = 0 := by
  cases name with
  | nil => cases hname
  | cons c tail =>
    obtain ⟨hc, htail⟩ := Bool.and_eq_true_iff.mp hname
    have hrecognize := h.2
    rw [recognize_nameStart (by simp [isNameStart, hc]), nameTail_append_of_all htail] at hrecognize
    rcases ite_eq_iff.mp hrecognize with ⟨-, heq⟩ | ⟨-, heq⟩
    · cases (Prod.mk.inj heq).1
    · have hlength := (Prod.mk.inj heq).2
      omega

end

end Lexer

end VbaRefactor
