import Mathlib.Logic.Basic
import VbaRefactor.Syntax.Statement
import VbaRefactor.Proofs.Text.Position

/-!
# Where tokens stand

The tokens of a text stand in it one after another. Those that statements are made of have no line
break in them, so that a text can be cut at both ends of each.
-/

namespace VbaRefactor

open List Lexer

variable {ctx : Context} {t : Token} {kind : TokenKind}

/-- The categories of tokens of which statements are made. -/
def TokenKind.isSignificant : TokenKind → Bool
  | .newline | .colon | .comment | .continuation => false
  | _ => true

/-- The categories of tokens that end on the line where they begin. -/
def TokenKind.isOneLine : TokenKind → Bool
  | .newline | .continuation => false
  | _ => true

theorem TokenKind.isOneLine_of_isSignificant (h : kind.isSignificant = true) :
    kind.isOneLine = true := by
  cases kind <;> first | rfl | cases h

namespace Lexer

/-! ## No token goes on after its line -/

section

variable {rest : Text} {c : Char} {n : Nat}

/-- A class of characters without the two that end a line. -/
theorem isEol_of (p : Char → Bool) (h : p c = true) (hlf : p '\n' = false := by decide)
    (hcr : p '\r' = false := by decide) : isEol c = false := by
  cases heol : isEol c with
  | false => rfl
  | true =>
    simp only [isEol, Bool.or_eq_true, beq_iff_eq] at heol
    rcases heol with rfl | rfl <;> simp_all

theorem lineRest_cons (h : isEol c = false) : lineRest (c :: rest) = lineRest rest + 1 := by
  rw [lineRest, takeWhile_cons_of_pos (by simpa using h), length_cons, lineRest]

theorem length_takeWhile_le_lineRest (p : Char → Bool) (rest : Text)
    (hlf : p '\n' = false := by decide) (hcr : p '\r' = false := by decide) :
    (rest.takeWhile p).length ≤ lineRest rest := by
  induction rest with
  | nil => exact Nat.zero_le _
  | cons c rest ih =>
    rw [takeWhile_cons]
    split
    · rename_i hc
      rw [lineRest_cons (isEol_of p hc hlf hcr), length_cons]
      omega
    · exact Nat.zero_le _

theorem add_le_lineRest {k n : Nat} (hk : k ≤ lineRest rest) (hn : n ≤ lineRest (rest.drop k)) :
    k + n ≤ lineRest rest := by
  induction rest generalizing k with
  | nil =>
    rw [drop_nil] at hn
    have hzero : lineRest [] = 0 := rfl
    omega
  | cons c rest ih =>
    cases k with
    | zero =>
      rw [Nat.zero_add]
      exact hn
    | succ k =>
      cases hc : isEol c with
      | true =>
        rw [lineRest, takeWhile_cons_of_neg (by simp [hc])] at hk
        cases hk
      | false =>
        rw [lineRest_cons hc] at hk ⊢
        have := ih (Nat.le_of_succ_le_succ hk) hn
        omega

theorem isEol_of_mem_take (hn : n ≤ lineRest rest) : ∀ c ∈ rest.take n, isEol c = false := by
  intro c hc
  have hline : rest.take n = (rest.takeWhile (!isEol ·)).take n := by
    conv => lhs; rw [← takeWhile_append_dropWhile (p := (!isEol ·)) (l := rest)]
    exact take_append_of_le_length hn
  rw [hline] at hc
  simpa using all_eq_true.mp all_takeWhile c (mem_of_mem_take hc)

theorem stringTail_le (rest : Text) : stringTail rest ≤ lineRest rest := by
  fun_induction stringTail rest with
  | case1 => exact Nat.zero_le _
  | case2 t ih =>
    rw [lineRest_cons (by decide), lineRest_cons (by decide)]
    omega
  | case3 =>
    rw [lineRest_cons (by decide)]
    omega
  | case4 => exact Nat.zero_le _
  | case5 c t _ _ hc ih =>
    rw [lineRest_cons (by simpa using hc)]
    omega

theorem dateTail?_le (h : dateTail? rest = some n) : n ≤ lineRest rest := by
  rw [dateTail?] at h
  simp only [Option.ite_none_right_eq_some, Bool.and_eq_true, decide_eq_true_eq,
    Option.some.injEq] at h
  rw [lineRest]
  omega

theorem bracketTail_le (rest : Text) : bracketTail rest ≤ lineRest rest := by
  rw [bracketTail, lineRest]
  split
  · omega
  · exact Nat.le_refl _

theorem suffixTail_le {marks : Text} (h : ∀ m ∈ marks, isEol m = false) (blocks : Char → Bool)
    (rest : Text) : suffixTail marks blocks rest ≤ lineRest rest := by
  cases rest with
  | nil => exact Nat.zero_le _
  | cons m t =>
    rw [suffixTail]
    split
    · rename_i hm
      have hmark : m ∈ marks := by simpa using (Bool.and_eq_true_iff.mp hm).1
      rw [lineRest_cons (h m hmark)]
      omega
    · exact Nat.zero_le _

theorem drop_length_takeWhile (p : Char → Bool) (rest : Text) :
    rest.drop (rest.takeWhile p).length = rest.dropWhile p := by
  conv => lhs; arg 2; rw [← takeWhile_append_dropWhile (p := p) (l := rest)]
  exact drop_left

theorem nameTail_le (rest : Text) : nameTail rest ≤ lineRest rest := by
  refine add_le_lineRest (length_takeWhile_le_lineRest isNameChar rest) ?_
  rw [drop_length_takeWhile]
  exact suffixTail_le (by simp [isEol]) _ _

theorem exponentTail_le (rest : Text) : exponentTail rest ≤ lineRest rest := by
  rcases rest with _ | ⟨e, t⟩
  · exact Nat.zero_le _
  simp only [exponentTail]
  split
  · rename_i he
    rw [lineRest_cons (isEol_of (fun c => c == 'e' || c == 'E') he)]
    rcases t with _ | ⟨s, t⟩
    · exact Nat.zero_le _
    simp only
    split
    · rename_i hs
      have hdigits := length_takeWhile_le_lineRest isDigit t
      rw [lineRest_cons (isEol_of (fun c => c == '+' || c == '-') hs), drop_one, tail_cons]
      split <;> omega
    · have hdigits := length_takeWhile_le_lineRest isDigit (s :: t)
      rw [drop_zero]
      split <;> omega
  · exact Nat.zero_le _

theorem numberTail_le (rest : Text) : numberTail rest ≤ lineRest rest :=
  add_le_lineRest (add_le_lineRest (length_takeWhile_le_lineRest _ rest) (exponentTail_le _))
    (suffixTail_le (by simp [isEol]) _ _)

theorem radixTail?_le (h : radixTail? rest = some n) : n ≤ lineRest rest := by
  cases rest with
  | nil => cases h
  | cons b t =>
    simp only [radixTail?] at h
    split at h
    · rename_i hb
      have hmark : (if (t.drop (t.takeWhile isHexDigit).length).head? == some '&' then 1 else 0) ≤
          lineRest (t.drop (t.takeWhile isHexDigit).length) := by
        cases t.drop (t.takeWhile isHexDigit).length with
        | nil => exact Nat.zero_le _
        | cons c t =>
          split
          · rename_i hc
            have hc : c = '&' := by simpa using hc
            rw [hc, lineRest_cons (by decide)]
            omega
          · exact Nat.zero_le _
      have hall := add_le_lineRest (length_takeWhile_le_lineRest isHexDigit t) hmark
      split at h
      · cases h
      · cases h
        rw [lineRest_cons (isEol_of (fun c => c == 'H' || c == 'h' || c == 'O' || c == 'o') hb)]
        omega
    · cases h

theorem one_le_lineRest {m : Char} (h : rest.head? = some m) (hm : isEol m = false) :
    1 ≤ lineRest rest := by
  obtain ⟨t, rfl⟩ := head?_eq_some_iff.mp h
  rw [lineRest_cons hm]
  omega

/-- What can begin with a character: the category of the token and the number of its further
characters. -/
inductive Begins (ctx : Context) (c : Char) (rest : Text) : TokenKind → Nat → Prop
  | newline {n : Nat} : c = '\r' ∨ c = '\n' → n ≤ rest.length → Begins ctx c rest .newline n
  | continuation : c = '_' → ctx.afterBlank = true →
    Begins ctx c rest .continuation (continuationTail rest)
  | comment : isEol c = false → c = '\x27' ∨ ctx.fresh = true →
    Begins ctx c rest .comment (lineRest rest)
  | colon : c = ':' → Begins ctx c rest .colon 0
  | bracket : c = '[' → Begins ctx c rest .identifier (bracketTail rest)
  | name : isNameStart c = true → Begins ctx c rest .identifier (nameTail rest)
  | other {kind : TokenKind} {n : Nat} : isEol c = false → n ≤ lineRest rest →
    kind.isSignificant = true → kind ≠ .identifier → Begins ctx c rest kind n

section

variable {c : Char} {n : Nat} (h : recognize ctx c rest = (kind, n))

include h

theorem begins_of_recognize : Begins ctx c rest kind n := by
  -- The cases of `recognize` in its order.
  rcases ite_eq_iff.mp h with ⟨hcr, h⟩ | ⟨hcr, h⟩
  · cases h
    refine .newline (.inl (beq_iff_eq.mp hcr)) ?_
    cases rest <;> split <;> simp_all
  rcases ite_eq_iff.mp h with ⟨hlf, h⟩ | ⟨hlf, h⟩
  · cases h
    exact .newline (.inr (beq_iff_eq.mp hlf)) (Nat.zero_le _)
  have hc : isEol c = false := by
    rw [isEol, Bool.or_eq_false_iff]
    exact ⟨Bool.eq_false_iff.mpr hlf, Bool.eq_false_iff.mpr hcr⟩
  have hother {kind : TokenKind} {n : Nat} (hn : n ≤ lineRest rest)
      (hkind : kind.isSignificant = true := by rfl) (hne : kind ≠ .identifier := by nofun) :
      Begins ctx c rest kind n := .other hc hn hkind hne
  rcases ite_eq_iff.mp h with ⟨hmark, h⟩ | ⟨-, h⟩
  · cases h
    simp only [Bool.and_eq_true, beq_iff_eq] at hmark
    exact .continuation hmark.1.1 hmark.1.2
  rcases ite_eq_iff.mp h with ⟨hmark, h⟩ | ⟨-, h⟩
  · cases h
    simp only [Bool.or_eq_true, Bool.and_eq_true, beq_iff_eq] at hmark
    exact .comment hc (hmark.imp id And.right)
  rcases ite_eq_iff.mp h with ⟨-, h⟩ | ⟨-, h⟩
  · cases h
    exact hother (stringTail_le rest)
  rcases ite_eq_iff.mp h with ⟨-, h⟩ | ⟨-, h⟩
  · split at h
    · rename_i hdate
      cases h
      exact hother (dateTail?_le hdate)
    · cases h
      exact hother (Nat.zero_le _)
  rcases ite_eq_iff.mp h with ⟨hopen, h⟩ | ⟨-, h⟩
  · cases h
    exact .bracket (beq_iff_eq.mp hopen)
  rcases ite_eq_iff.mp h with ⟨hstart, h⟩ | ⟨-, h⟩
  · rcases ite_eq_iff.mp h with ⟨hrem, h⟩ | ⟨-, h⟩
    · cases h
      exact .comment hc (.inr (Bool.and_eq_true_iff.mp hrem).1)
    · cases h
      exact .name hstart
  rcases ite_eq_iff.mp h with ⟨-, h⟩ | ⟨-, h⟩
  · cases h
    exact hother (numberTail_le rest)
  rcases ite_eq_iff.mp h with ⟨hradix, h⟩ | ⟨-, h⟩
  · cases h
    obtain ⟨k, hk⟩ := Option.isSome_iff_exists.mp (Bool.and_eq_true_iff.mp hradix).2
    rw [hk]
    exact hother (radixTail?_le hk)
  rcases ite_eq_iff.mp h with ⟨hcolon, h⟩ | ⟨-, h⟩
  · rcases ite_eq_iff.mp h with ⟨heq, h⟩ | ⟨-, h⟩
    · cases h
      exact hother (one_le_lineRest (beq_iff_eq.mp heq) (by decide))
    · cases h
      exact .colon (beq_iff_eq.mp hcolon)
  rcases ite_eq_iff.mp h with ⟨htwo, h⟩ | ⟨-, h⟩
  · cases h
    simp only [Bool.or_eq_true, Bool.and_eq_true, beq_iff_eq] at htwo
    rcases htwo with ⟨-, hhead | hhead⟩ | ⟨-, hhead⟩ <;>
      exact hother (one_le_lineRest hhead (by decide))
  · cases h
    exact hother (Nat.zero_le _)

variable (hkind : kind.isOneLine = true)

include hkind

/-- A token that is no line break and no continuation ends on the line where it begins. -/
theorem le_lineRest_of_recognize : isEol c = false ∧ n ≤ lineRest rest := by
  cases begins_of_recognize h with
  | newline | continuation => cases hkind
  | comment hc => exact ⟨hc, Nat.le_refl _⟩
  | colon hc => exact ⟨hc ▸ rfl, Nat.zero_le _⟩
  | bracket hc => exact ⟨hc ▸ rfl, bracketTail_le rest⟩
  | name hc => exact ⟨isEol_of isNameStart hc, nameTail_le rest⟩
  | other hc hn => exact ⟨hc, hn⟩

/-- A token that is no line break and no continuation has no line break in it. -/
theorem isEol_of_recognize : ∀ x ∈ c :: rest.take n, isEol x = false := by
  obtain ⟨hc, hn⟩ := le_lineRest_of_recognize h hkind
  exact forall_mem_cons.mpr ⟨hc, isEol_of_mem_take hn⟩

end

end

/-! ## Pieces and tokens -/

/-- Every token is a text of at least one character, and on one line unless it ends or continues its
line. -/
theorem token_of_mem_pieces {text x : Text} (h : .token kind x ∈ pieces ctx text) :
    x ≠ [] ∧ (kind.isOneLine = true → ∀ c ∈ x, isEol c = false) := by
  fun_induction pieces ctx text with
  | case1 => cases h
  | case2 ctx c rest _ ih =>
    rcases mem_cons.mp h with heq | h
    · cases heq
    · exact ih h
  | case3 ctx c rest _ k n hrecognize ih =>
    rcases mem_cons.mp h with heq | h
    · cases heq
      exact ⟨cons_ne_nil _ _, isEol_of_recognize hrecognize⟩
    · exact ih h

/-- The tokens among pieces stand behind one another, where the pieces stand. -/
theorem hasAt_of_mem_place {text : Text} {ps : List Piece} {pos : Nat}
    (h : text.HasAt pos (ps.map Piece.text).flatten) :
    (∀ t ∈ place pos ps, pos ≤ t.start ∧ text.HasAt t.start t.text ∧ .token t.kind t.text ∈ ps) ∧
      (place pos ps).Pairwise fun a b => a.stop ≤ b.start := by
  induction ps generalizing pos with
  | nil => exact ⟨by simp [place], .nil⟩
  | cons piece ps ih =>
    rw [map_cons, flatten_cons] at h
    obtain ⟨hall, hpairs⟩ := ih h.right
    cases piece with
    | blank c =>
      refine ⟨?_, hpairs⟩
      intro t ht
      obtain ⟨hle, hat, hmem⟩ := hall t ht
      simp only [Piece.text, Text.byteSize_cons, Text.byteSize_nil] at hle
      exact ⟨by omega, hat, mem_cons_of_mem _ hmem⟩
    | token kind x =>
      refine ⟨?_, pairwise_cons.mpr ⟨?_, hpairs⟩⟩
      · intro t ht
        rcases mem_cons.mp ht with rfl | ht
        · exact ⟨Nat.le_refl _, h.left, mem_cons_self⟩
        · obtain ⟨hle, hat, hmem⟩ := hall t ht
          exact ⟨by omega, hat, mem_cons_of_mem _ hmem⟩
      · intro t ht
        exact (hall t ht).1

end Lexer

/-! ## Statements -/

namespace Statement

/-- The tokens of a statement stand in a text one after another, each on one line. -/
structure StandsIn (text : Text) (s : Statement) : Prop where
  hasAt : ∀ t ∈ s, text.HasAt t.start t.text
  given : ∀ t ∈ s, t.text ≠ []
  oneLine : ∀ t ∈ s, ∀ c ∈ t.text, Lexer.isEol c = false
  ordered : s.Pairwise fun a b => a.stop ≤ b.start

theorem flatten_consFirst (t : Token) (rest : List Statement) :
    (consFirst t rest).flatten = t :: rest.flatten := by
  cases rest <;> rfl

/-- The runs hold all tokens that statements are made of, in order. -/
theorem flatten_runs (tokens : List Token) :
    (runs tokens).flatten = tokens.filter (·.kind.isSignificant) := by
  induction tokens with
  | nil => rfl
  | cons t tokens ih =>
    rw [runs]
    split
    · rename_i hkind
      rw [flatten_cons, ih, filter_cons_of_neg (by simp [hkind, TokenKind.isSignificant])]
      rfl
    · rename_i hkind
      rw [flatten_cons, ih, filter_cons_of_neg (by simp [hkind, TokenKind.isSignificant])]
      rfl
    · rename_i hkind
      rw [ih, filter_cons_of_neg (by simp [hkind, TokenKind.isSignificant])]
    · rename_i hkind
      rw [ih, filter_cons_of_neg (by simp [hkind, TokenKind.isSignificant])]
    · have hkind : t.kind.isSignificant = true := by
        cases hkind : t.kind <;> simp_all [TokenKind.isSignificant]
      rw [flatten_consFirst, ih, filter_cons, if_pos hkind]

variable {s : Statement} {text : Text} {tokens : List Token}

theorem sublist_of_mem_runs (h : s ∈ runs tokens) :
    s.Sublist (tokens.filter (·.kind.isSignificant)) := by
  rw [← flatten_runs]
  exact sublist_flatten_of_mem h

/-- The tokens of a text stand in it one after another. -/
theorem hasAt_of_mem_tokenize (text : Text) :
    (∀ t ∈ tokenize text, text.HasAt t.start t.text ∧ .token t.kind t.text ∈ pieces .initial text) ∧
      (tokenize text).Pairwise fun a b => a.stop ≤ b.start := by
  have hat : text.HasAt 0 ((pieces .initial text).map Piece.text).flatten := by
    rw [pieces_text]
    exact Text.hasAt_zero text
  obtain ⟨hall, hpairs⟩ := hasAt_of_mem_place hat
  exact ⟨fun t ht => (hall t ht).2, hpairs⟩

theorem mem_tokenize_of_mem (hs : s ∈ ofTokens tokens) (ht : t ∈ s) :
    t ∈ tokens ∧ t.kind.isSignificant = true :=
  mem_filter.mp ((sublist_of_mem_runs (mem_filter.mp hs).1).subset ht)

theorem standsIn_of_mem_ofTokens (h : s ∈ ofTokens (tokenize text)) : s.StandsIn text := by
  have hsub := sublist_of_mem_runs (mem_filter.mp h).1
  obtain ⟨hall, hpairs⟩ := hasAt_of_mem_tokenize text
  have hmem {t : Token} (ht : t ∈ s) := mem_tokenize_of_mem h ht
  refine ⟨?_, ?_, ?_, (hpairs.filter _).sublist hsub⟩
  · intro t ht
    exact (hall t (hmem ht).1).1
  · intro t ht
    exact (token_of_mem_pieces (hall t (hmem ht).1).2).1
  · intro t ht
    exact (token_of_mem_pieces (hall t (hmem ht).1).2).2
      (TokenKind.isOneLine_of_isSignificant (hmem ht).2)

/-- The statements of a text stand in it one after another. -/
theorem ofTokens_ordered (text : Text) : (ofTokens (tokenize text)).Pairwise
    fun a b => ∀ x ∈ a, ∀ y ∈ b, x.stop ≤ y.start := by
  have hpairs := (hasAt_of_mem_tokenize text).2.filter (·.kind.isSignificant)
  rw [← flatten_runs, pairwise_flatten] at hpairs
  exact hpairs.2.filter _

/-- Two tokens of a text are the same, or one stands behind the other. -/
theorem apart_of_mem_tokenize {t' : Token} (ht : t ∈ tokenize text) (ht' : t' ∈ tokenize text) :
    t = t' ∨ t.stop ≤ t'.start ∨ t'.stop ≤ t.start := by
  obtain ⟨i, hi, rfl⟩ := mem_iff_getElem.mp ht
  obtain ⟨j, hj, rfl⟩ := mem_iff_getElem.mp ht'
  have hpairs := pairwise_iff_getElem.mp (hasAt_of_mem_tokenize text).2
  rcases Nat.lt_trichotomy i j with hlt | rfl | hlt
  · exact .inr (.inl (hpairs i j hi hj hlt))
  · exact .inl rfl
  · exact .inr (.inr (hpairs j i hj hi hlt))

namespace StandsIn

variable {text : Text} {s s' : Statement}

theorem sublist (h : s.StandsIn text) (hsub : s'.Sublist s) : s'.StandsIn text :=
  ⟨fun t ht => h.hasAt t (hsub.subset ht), fun t ht => h.given t (hsub.subset ht),
    fun t ht => h.oneLine t (hsub.subset ht), h.ordered.sublist hsub⟩

theorem lt (h : s.StandsIn text) (ht : t ∈ s) : t.start < t.stop := by
  have hsize : t.text.byteSize ≠ 0 := fun hzero => h.given t ht (Text.byteSize_eq_zero hzero)
  rw [Token.stop]
  omega

theorem isCut_start (h : s.StandsIn text) (ht : t ∈ s) : text.IsCut t.start := by
  obtain ⟨a, b, htext, hpos⟩ := h.hasAt t ht
  refine ⟨a, t.text ++ b, htext, hpos, ?_⟩
  rintro ⟨-, hhead⟩
  obtain ⟨c, x, hx⟩ := exists_cons_of_ne_nil (h.given t ht)
  rw [hx, cons_append, head?_cons, Option.some.injEq] at hhead
  have hc := h.oneLine t ht c (by rw [hx]; exact mem_cons_self)
  rw [hhead] at hc
  cases hc

theorem isCut_stop (h : s.StandsIn text) (ht : t ∈ s) : text.IsCut t.stop := by
  obtain ⟨a, b, htext, hpos⟩ := h.hasAt t ht
  refine ⟨a ++ t.text, b, by rw [htext, append_assoc], ?_, ?_⟩
  · rw [Text.byteSize_append, hpos, Token.stop]
  · rintro ⟨hlast, -⟩
    rw [getLast?_append, getLast?_eq_some_getLast (h.given t ht), Option.some_or,
      Option.some.injEq] at hlast
    have hc := h.oneLine t ht _ (getLast_mem (h.given t ht))
    rw [hlast] at hc
    cases hc

end StandsIn

end Statement

end VbaRefactor
