import VbaRefactor.Proofs.Syntax.Tokens

/-!
# How far a token looks ahead

What a token is depends on what follows it, but not on much of it. Most tokens end at the latest where a
character stands that ends every word and number, or where another word begins; strings, bracketed
names and comments that are not closed end with their line. `Near` collects what a token sees of the
text behind it, and a text that says the same there gives the same token.
-/

namespace VbaRefactor

open List

variable {x : Char} {p : Char → Bool} {ctx : Context} {rest' tail : Text} {kind : TokenKind}

namespace Lexer

theorem lineRest_le (rest : Text) : lineRest rest ≤ rest.length := (takeWhile_sublist _).length_le

theorem continuationTail_le (rest : Text) : continuationTail rest ≤ rest.length := by
  have hparts := congrArg List.length (takeWhile_append_dropWhile (p := isSpace) (l := rest))
  rw [length_append] at hparts
  rw [continuationTail]
  cases hdrop : rest.dropWhile isSpace with
  | nil =>
    rw [hdrop] at hparts
    exact Nat.le_of_eq hparts
  | cons c more =>
    rw [hdrop, length_cons] at hparts
    split
    · rename_i heq
      cases heq
      rw [length_cons] at hparts
      omega
    all_goals omega

variable {c : Char} {front rest : Text}

/-- A token does not go on after the text. -/
theorem recognize_le {n : Nat} (h : recognize ctx c rest = (kind, n)) : n ≤ rest.length := by
  cases hkind : kind.isOneLine with
  | true => exact Nat.le_trans (le_lineRest_of_recognize h hkind).2 (lineRest_le rest)
  | false =>
    cases begins_of_recognize h with
    | newline _ hn => exact hn
    | continuation => exact continuationTail_le rest
    | other _ _ hsignificant =>
      rw [TokenKind.isOneLine_of_isSignificant hsignificant] at hkind
      cases hkind
    | _ => cases hkind

/-! ## Words and numbers -/

/-- The characters that end every word and number and change no mark before them. -/
def stops : List Char := [' ', '\t', '\n', '\r', ',', ':', '\x27', '[']

/-- The text is at its end or goes on with a character that ends every word and number. -/
def Stops (rest : Text) : Prop := ∀ c ∈ rest.head?, c ∈ stops

/-- A class of characters that holds none of those that end words and numbers. -/
theorem of_mem_stops (p : Char → Bool) (h : c ∈ stops) (hp : stops.all (!p ·) = true) :
    p c = false := by
  simpa using all_eq_true.mp hp c h

theorem ne_of_isLetter (h : isLetter c = true) (x : Char) (hx : isLetter x = false) :
    c ≠ x := by
  rintro rfl
  rw [h] at hx
  cases hx

theorem isDigit_of_isLetter (h : isLetter c = true) : isDigit c = false := by
  simp [isLetter, isDigit, Char.le_def, UInt32.le_iff_toNat_le] at *
  omega

theorem isNameChar_of_isLetter (h : isLetter c = true) : isNameChar c = true := by
  simp [isNameChar, h]

section

variable {rest : Text}

theorem takeWhile_append_of_head (h : ∀ c ∈ rest.head?, p c = false) (front : Text) :
    (front ++ rest).takeWhile p = front.takeWhile p := by
  have hrest : rest.takeWhile p = [] := by
    cases rest with
    | nil => rfl
    | cons c rest => exact takeWhile_cons_of_neg (by simp [h c rfl])
  rw [takeWhile_append, hrest, append_nil]
  split
  · rename_i hall
    exact ((List.takeWhile_prefix p).eq_of_length hall).symm
  · rfl

theorem dropWhile_append_of_takeWhile {front : Text}
    (h : (front ++ rest).takeWhile p = front.takeWhile p) :
    (front ++ rest).dropWhile p = front.dropWhile p ++ rest := by
  have hparts := takeWhile_append_dropWhile (p := p) (l := front ++ rest)
  rw [h] at hparts
  refine append_cancel_left (hparts.trans ?_)
  rw [← append_assoc, takeWhile_append_dropWhile]

theorem dropWhile_append_of_head (h : ∀ c ∈ rest.head?, p c = false) (front : Text) :
    (front ++ rest).dropWhile p = front.dropWhile p ++ rest :=
  dropWhile_append_of_takeWhile (takeWhile_append_of_head h front)

section

variable {front : Text} (h : ∃ z ∈ front, p z = false)

include h

theorem takeWhile_append_of_exists (rest : Text) :
    (front ++ rest).takeWhile p = front.takeWhile p := by
  obtain ⟨z, hz, hpz⟩ := h
  rw [takeWhile_append, if_neg]
  intro hall
  have hall := (List.takeWhile_prefix p (l := front)).eq_of_length hall
  rw [← hall] at hz
  rw [all_eq_true.mp all_takeWhile z hz] at hpz
  cases hpz

theorem dropWhile_ne_nil_of_exists : front.dropWhile p ≠ [] := by
  obtain ⟨z, hz, hpz⟩ := h
  intro hnil
  rw [← takeWhile_append_dropWhile (p := p) (l := front), hnil, append_nil] at hz
  rw [all_eq_true.mp all_takeWhile z hz] at hpz
  cases hpz

theorem dropWhile_append_of_exists (rest : Text) :
    (front ++ rest).dropWhile p = front.dropWhile p ++ rest :=
  dropWhile_append_of_takeWhile (takeWhile_append_of_exists h rest)

end

end

section

variable {rest : Text}

theorem suffixTail_append_of_stops (marks : Text) (blocks : Char → Bool) (h : Stops rest)
    (front : Text) (hmarks : stops.all (!marks.contains ·) = true)
    (hblocks : stops.all (!blocks ·) = true) :
    suffixTail marks blocks (front ++ rest) = suffixTail marks blocks front := by
  match front, rest with
  | [], [] => rfl
  | [], c :: rest =>
    have hc : marks.contains c = false := of_mem_stops (marks.contains ·) (h c rfl) hmarks
    rw [nil_append, suffixTail, hc]
    rfl
  | [m], [] => rfl
  | [m], c :: rest => simp [suffixTail, of_mem_stops blocks (h c rfl) hblocks]
  | m :: x :: front, rest => simp [suffixTail]

theorem nameTail_append_of_stops (h : Stops rest) (front : Text) :
    nameTail (front ++ rest) = nameTail front := by
  have hhead : ∀ c ∈ rest.head?, isNameChar c = false :=
    fun c hc => of_mem_stops isNameChar (h c hc) (by decide)
  simp only [nameTail, takeWhile_append_of_head hhead, dropWhile_append_of_head hhead]
  rw [suffixTail_append_of_stops _ _ h _ (by decide) (by decide)]

theorem exponentTail_append_of_head (h : ∀ c ∈ rest.head?, isDigit c = false) (e s : Char)
    (front : Text) : exponentTail (e :: s :: front ++ rest) = exponentTail (e :: s :: front) := by
  have hdrop (n : Nat) (hn : n ≤ 1) : ((s :: front ++ rest).drop n).takeWhile isDigit =
      ((s :: front).drop n).takeWhile isDigit := by
    rw [drop_append_of_le_length (by simp; omega), takeWhile_append_of_head h]
  simp only [cons_append, exponentTail] at hdrop ⊢
  rw [hdrop _ (by split <;> omega)]

theorem exponentTail_append_of_stops (h : Stops rest) (front : Text) :
    exponentTail (front ++ rest) = exponentTail front := by
  have hdigit : ∀ c ∈ rest.head?, isDigit c = false :=
    fun c hc => of_mem_stops isDigit (h c hc) (by decide)
  match front, rest with
  | [], [] => rfl
  | [], c :: rest =>
    have hc := of_mem_stops (fun c => c == 'e' || c == 'E') (h c rfl) (by decide)
    simp [exponentTail, hc]
  | [e], [] => rfl
  | [e], c :: rest =>
    have hc := of_mem_stops (fun c => c == '+' || c == '-') (h c rfl) (by decide)
    simp [exponentTail, hc, hdigit c rfl]
  | e :: s :: front, rest => exact exponentTail_append_of_head hdigit e s front

theorem exponentTail_le_length (rest : Text) : exponentTail rest ≤ rest.length :=
  Nat.le_trans (exponentTail_le rest) (lineRest_le rest)

theorem numberTail_append_of_stops (h : Stops rest) (front : Text) :
    numberTail (front ++ rest) = numberTail front := by
  have hbody : ∀ c ∈ rest.head?, (isDigit c || c == '.') = false :=
    fun c hc => of_mem_stops (fun c => isDigit c || c == '.') (h c hc) (by decide)
  have hle := (takeWhile_sublist (fun c => isDigit c || c == '.') (l := front)).length_le
  simp only [numberTail, takeWhile_append_of_head hbody]
  generalize (front.takeWhile fun c => isDigit c || c == '.').length = body at *
  rw [drop_append_of_le_length hle, exponentTail_append_of_stops h]
  have hexponent := exponentTail_le_length (front.drop body)
  rw [length_drop] at hexponent
  rw [drop_append_of_le_length (by omega),
    suffixTail_append_of_stops _ _ h _ (by decide) (by decide)]

theorem radixTail?_append_of_stops (h : Stops rest) (front : Text) :
    radixTail? (front ++ rest) = radixTail? front := by
  have hdigit : ∀ c ∈ rest.head?, isHexDigit c = false :=
    fun c hc => of_mem_stops isHexDigit (h c hc) (by decide)
  match front, rest with
  | [], [] => rfl
  | [], c :: rest =>
    have hc := of_mem_stops (fun c => c == 'H' || c == 'h' || c == 'O' || c == 'o') (h c rfl) (by decide)
    simp [radixTail?, hc]
  | x :: front, rest =>
    have hle := (takeWhile_sublist isHexDigit (l := front)).length_le
    simp only [cons_append, radixTail?, takeWhile_append_of_head hdigit]
    generalize (front.takeWhile isHexDigit).length = digits at *
    rw [drop_append_of_le_length hle]
    have hhead : ((front.drop digits ++ rest).head? == some '&') =
        ((front.drop digits).head? == some '&') := by
      cases front.drop digits with
      | cons y more => rfl
      | nil =>
        cases rest with
        | nil => rfl
        | cons c rest =>
          have hc := of_mem_stops (fun c => c == '&') (h c rfl) (by decide)
          simpa using hc
    rw [hhead]

end

theorem radixTail?_append_of_exists (hfront : ∃ z ∈ front, isHexDigit z = false) (rest : Text) :
    radixTail? (x :: front ++ rest) = radixTail? (x :: front) := by
  have hne := dropWhile_ne_nil_of_exists hfront
  rw [← drop_length_takeWhile] at hne
  simp only [cons_append, radixTail?, takeWhile_append_of_exists hfront]
  generalize (front.takeWhile isHexDigit).length = digits at *
  have hle : digits ≤ front.length := Nat.le_of_lt (by simpa using hne)
  obtain ⟨y, more, hmore⟩ := exists_cons_of_ne_nil hne
  rw [drop_append_of_le_length hle, hmore]
  rfl

theorem exponentTail_append_of_isLetter {a : Char} (ha : isLetter a = true) (rest : Text)
    (hfront : front ≠ []) : exponentTail (front ++ a :: rest) = exponentTail front := by
  have hdigit := isDigit_of_isLetter ha
  match front with
  | [] => exact absurd rfl hfront
  | [e] => simp [exponentTail, ne_of_isLetter ha '+' (by decide), ne_of_isLetter ha '-' (by decide), hdigit]
  | e :: s :: front => exact exponentTail_append_of_head (by rintro x ⟨⟩; exact hdigit) e s front

/-- Both texts begin with a letter. -/
def BothLetters (rest rest' : Text) : Prop :=
  ∃ a b r r', rest = a :: r ∧ rest' = b :: r' ∧ isLetter a = true ∧ isLetter b = true

section

variable {rest : Text} {front : Text} (h : BothLetters rest rest')

include h

theorem suffixTail_append_of_letters (marks : Text) {blocks : Char → Bool}
    (hblocks : ∀ c, isLetter c = true → blocks c = true) (front : Text)
    (hmarks : marks.all (!isLetter ·) = true) :
    suffixTail marks blocks (front ++ rest) = suffixTail marks blocks (front ++ rest') := by
  obtain ⟨a, b, r, r', rfl, rfl, ha, hb⟩ := h
  have hletter {c : Char} (hc : isLetter c = true) : marks.contains c = false := by
    cases hmem : marks.contains c with
    | false => rfl
    | true =>
      have := all_eq_true.mp hmarks c (by simpa using hmem)
      simp [hc] at this
  match front with
  | [] => simp only [nil_append, suffixTail, hletter ha, hletter hb, Bool.false_and]
  | [m] => simp [suffixTail, hblocks a ha, hblocks b hb]
  | m :: x :: front => simp [suffixTail]

theorem nameTail_append_of_letters (hfront : ∃ z ∈ front, isNameChar z = false) :
    nameTail (front ++ rest) = nameTail (front ++ rest') := by
  simp only [nameTail, takeWhile_append_of_exists hfront, dropWhile_append_of_exists hfront]
  rw [suffixTail_append_of_letters h _ (fun c hc => by simp [hc]) _ (by decide)]

theorem numberTail_append_of_letters (hfront : ∃ z ∈ front, (isDigit z || z == '.') = false) :
    numberTail (front ++ rest) = numberTail (front ++ rest') := by
  have hbody {more : Text} : (front ++ more).takeWhile (fun c => isDigit c || c == '.') =
      front.takeWhile fun c => isDigit c || c == '.' := takeWhile_append_of_exists hfront more
  have hne := dropWhile_ne_nil_of_exists hfront
  rw [← drop_length_takeWhile] at hne
  simp only [numberTail, hbody]
  generalize (front.takeWhile fun c => isDigit c || c == '.').length = body at *
  have hle : body ≤ front.length := Nat.le_of_lt (by simpa using hne)
  have hexponent := exponentTail_le_length (front.drop body)
  rw [length_drop] at hexponent
  have hblocks : ∀ c, isLetter c = true → (fun c => isLetter c || isDigit c) c = true :=
    fun c hc => by simp [hc]
  have hletters := suffixTail_append_of_letters h ['%', '&', '!', '#', '@', '^'] hblocks
    (front.drop (body + exponentTail (front.drop body))) (by decide)
  obtain ⟨a, b, r, r', rfl, rfl, ha, hb⟩ := h
  rw [drop_append_of_le_length hle, drop_append_of_le_length hle,
    exponentTail_append_of_isLetter ha r hne, exponentTail_append_of_isLetter hb r' hne,
    drop_append_of_le_length (by omega), drop_append_of_le_length (by omega), hletters]

end

/-! ## Tokens that run to the end of the line -/

/-- The line ends where the text begins. -/
def LineEnds (rest : Text) : Prop := ∀ c ∈ rest.head?, isEol c = true

theorem LineEnds.stops (h : LineEnds rest) : Stops rest := by
  intro c hc
  have heol := h c hc
  simp only [isEol, Bool.or_eq_true, beq_iff_eq] at heol
  rcases heol with rfl | rfl <;> decide

section

variable {rest : Text}

theorem lineRest_append_iff :
    lineRest (tail ++ rest) = tail.length ↔ (∀ c ∈ tail, isEol c = false) ∧ LineEnds rest := by
  induction tail with
  | nil =>
    cases rest with
    | nil => simp [lineRest, LineEnds]
    | cons c rest => cases hc : isEol c <;> simp [lineRest, LineEnds, hc]
  | cons c tail ih =>
    cases hc : isEol c with
    | true => simp [lineRest, hc]
    | false =>
      rw [cons_append, lineRest_cons hc, length_cons, Nat.add_right_cancel_iff, ih]
      simp [hc]

theorem stringTail_eq_zero_iff : stringTail rest = 0 ↔ LineEnds rest := by
  rw [stringTail.eq_def]
  split
  · simp [LineEnds]
  · simp [LineEnds, isEol]
  · simp [LineEnds, isEol]
  · rename_i c t _ _
    cases hc : isEol c <;> simp [LineEnds, hc]

/-- A string is closed, and then only a quote after it matters, or it runs to the end of the line. -/
theorem stringTail_append (h : stringTail (tail ++ rest) = tail.length) :
    (rest.head? ≠ some '"' ∧
        ∀ rest' : Text, rest'.head? ≠ some '"' → stringTail (tail ++ rest') = tail.length) ∨
      LineEnds rest ∧ ∀ rest', LineEnds rest' → stringTail (tail ++ rest') = tail.length := by
  induction tail using stringTail.induct with
  | case1 =>
    right
    exact ⟨stringTail_eq_zero_iff.mp h, fun rest' h' => stringTail_eq_zero_iff.mpr h'⟩
  | case2 t ih =>
    simp only [cons_append, stringTail, length_cons, Nat.add_right_cancel_iff] at h ⊢
    exact ih (by omega)
  | case3 t hquote =>
    left
    have hone {more : Text} (hmore : (t ++ more).head? ≠ some '"') :
        stringTail ('"' :: t ++ more) = 1 := by
      rw [cons_append, stringTail]
      intro t' heq
      rw [heq] at hmore
      exact hmore rfl
    cases t with
    | nil =>
      have hhead : rest.head? ≠ some '"' := by
        intro hhead
        obtain ⟨more, rfl⟩ := head?_eq_some_iff.mp hhead
        simp [stringTail] at h
      exact ⟨hhead, fun rest' h' => hone h'⟩
    | cons x t =>
      have hx : (x :: t ++ rest).head? ≠ some '"' := by
        intro hx
        cases hx
        exact hquote t rfl
      rw [hone hx] at h
      simp at h
  | case4 c t hquotes hquote hc =>
    rw [cons_append, stringTail, if_pos hc] at h
    · cases h
    · rintro t' rfl
      exact fun _ => by cases hc
    · rintro rfl
      cases hc
  | case5 c t hquotes hquote hc ih =>
    have hne : c ≠ '"' := fun heq => hquote heq
    have hstep (more : Text) : stringTail (c :: t ++ more) = stringTail (t ++ more) + 1 := by
      rw [cons_append, stringTail, if_neg hc]
      · exact fun t' heq => absurd heq hne
      · exact hne
    simp only [hstep, length_cons, Nat.add_right_cancel_iff] at h ⊢
    exact ih h

theorem bracketTail_cons (c : Char) (rest : Text) :
    bracketTail (c :: rest) =
      if isEol c then 0 else if c = ']' then 1 else bracketTail rest + 1 := by
  simp only [bracketTail]
  cases heol : isEol c with
  | true => simp [heol]
  | false =>
    by_cases hc : c = ']'
    · subst hc
      simp [heol]
    · simp only [takeWhile_cons, heol, Bool.not_false, if_true, bne_iff_ne, ne_eq, hc,
        not_false_eq_true, length_cons, Nat.add_lt_add_iff_right, Bool.false_eq_true, if_false]
      split <;> rfl

theorem bracketTail_eq_zero_iff : bracketTail rest = 0 ↔ LineEnds rest := by
  cases rest with
  | nil => simp [bracketTail, LineEnds]
  | cons c rest =>
    rw [bracketTail_cons]
    cases hc : isEol c with
    | true => simp [LineEnds, hc]
    | false =>
      have hne : ¬LineEnds (c :: rest) := by simp [LineEnds, hc]
      simp only [Bool.false_eq_true, if_false, hne, iff_false]
      split <;> simp

/-- A bracketed name is closed, and then nothing after it matters, or it runs to the end of the
line. -/
theorem bracketTail_append (h : bracketTail (tail ++ rest) = tail.length) :
    (∀ rest', bracketTail (tail ++ rest') = tail.length) ∨
      tail.getLast? ≠ some ']' ∧ LineEnds rest ∧
        ∀ rest', LineEnds rest' → bracketTail (tail ++ rest') = tail.length := by
  induction tail with
  | nil =>
    right
    exact ⟨nofun, bracketTail_eq_zero_iff.mp h, fun rest' h' => bracketTail_eq_zero_iff.mpr h'⟩
  | cons c tail ih =>
    simp only [cons_append, bracketTail_cons, length_cons] at h ⊢
    cases heol : isEol c with
    | true =>
      rw [heol] at h
      cases h
    | false =>
      rw [heol] at h
      by_cases hc : c = ']'
      · rw [if_neg Bool.false_ne_true, if_pos hc] at h
        cases tail with
        | nil => exact .inl fun rest' => by simp [hc]
        | cons x tail =>
          rw [length_cons] at h
          omega
      · rw [if_neg Bool.false_ne_true, if_neg hc, Nat.add_right_cancel_iff] at h
        simp only [Bool.false_eq_true, if_false, if_neg hc, Nat.add_right_cancel_iff]
        refine (ih h).imp id fun hopen => ⟨?_, hopen.2⟩
        rw [getLast?_cons]
        cases hlast : tail.getLast? with
        | none => simpa using hc
        | some x => simpa [hlast] using hopen.1

/-- A date that opens before the text is closed in it, as far as quotes and the line end allow. -/
def closesDate : Text → Bool
  | [] => false
  | c :: rest => if c == '#' then true else if c == '"' || isEol c then false else closesDate rest

theorem isSome_dateTail? (rest : Text) :
    (dateTail? rest).isSome = (closesDate rest && rest.head? != some '#') := by
  have hcloses : closesDate rest =
      (((rest.takeWhile (!isEol ·)).takeWhile (· != '#')).length < (rest.takeWhile (!isEol ·)).length
        && !((rest.takeWhile (!isEol ·)).takeWhile (· != '#')).contains '"') := by
    induction rest with
    | nil => rfl
    | cons c rest ih =>
      rw [closesDate]
      cases heol : isEol c with
      | true =>
        have hc : c ≠ '#' := by
          rintro rfl
          cases heol
        simp [heol, hc]
      | false =>
        by_cases hc : c = '#'
        · subst hc
          simp [heol]
        · by_cases hquote : c = '"'
          · subst hquote
            simp [heol]
          · simp [heol, hc, hquote, ih, Ne.symm hquote]
  have hempty : ((rest.takeWhile (!isEol ·)).takeWhile (· != '#')).isEmpty =
      ((rest.takeWhile (!isEol ·)).isEmpty || rest.head? == some '#') := by
    cases rest with
    | nil => rfl
    | cons c rest =>
      by_cases hc : c = '#'
      · subst hc
        rfl
      · cases heol : isEol c <;> simp [heol, hc]
  simp only [dateTail?, hempty, hcloses]
  generalize rest.takeWhile (!isEol ·) = line
  cases line with
  | nil => rfl
  | cons x line =>
    generalize decide (((x :: line).takeWhile (· != '#')).length < (x :: line).length) = isClosed
    generalize ((x :: line).takeWhile (· != '#')).contains '"' = isQuoted
    rw [bne]
    generalize (rest.head? == some '#') = isEmpty
    cases isClosed <;> cases isQuoted <;> cases isEmpty <;> rfl

theorem closesDate_append_congr (h : closesDate rest = closesDate rest') (front : Text) :
    closesDate (front ++ rest) = closesDate (front ++ rest') := by
  induction front with
  | nil => exact h
  | cons c front ih => simp [closesDate, ih]

theorem closesDate_of_lineEnds (h : LineEnds rest) : closesDate rest = false := by
  cases rest with
  | nil => rfl
  | cons c rest =>
    have hc := h c rfl
    have hne : c ≠ '#' := by
      rintro rfl
      cases hc
    simp [closesDate, hc, hne]

/-- Nothing that follows a date matters to it. -/
theorem dateTail?_append (h : dateTail? (tail ++ rest) = some tail.length) (rest' : Text) :
    dateTail? (tail ++ rest') = some tail.length := by
  have hline : ∀ c ∈ tail, (!isEol c) = true := by
    have hall := isEol_of_mem_take (dateTail?_le h)
    rw [take_left] at hall
    intro c hc
    rw [hall c hc]
    rfl
  simp only [dateTail?, takeWhile_append_of_pos hline] at h ⊢
  generalize rest.takeWhile (!isEol ·) = line at h
  generalize rest'.takeWhile (!isEol ·) = line'
  simp only [Option.ite_none_right_eq_some, Bool.and_eq_true, decide_eq_true_eq,
    Option.some.injEq] at h
  obtain ⟨⟨⟨-, hsome⟩, hquote⟩, hlength⟩ := h
  -- The closing mark is one of the date's own characters.
  have hmark : ∃ z ∈ tail, (z != '#') = false := by
    refine Classical.byContradiction fun hnone => ?_
    have hall : ∀ z ∈ tail, (z != '#') = true := by
      intro z hz
      exact Bool.of_not_eq_false fun hfalse => hnone ⟨z, hz, hfalse⟩
    rw [takeWhile_append_of_pos hall, length_append] at hlength
    omega
  rw [takeWhile_append_of_exists hmark] at hsome hquote hlength ⊢
  simp only [hsome, hquote, Bool.and_true, length_append, hlength]
  rw [if_pos]
  exact decide_eq_true (by omega)

end

/-! ## Other texts behind a token -/

/-- Two choices that are made in the same way give the same where both ways do. -/
theorem ite_eq_of {α : Type} {p : Prop} [Decidable p] {x x' y y' z : α} (hthen : p → x = z → x' = z)
    (helse : ¬p → y = z → y' = z) (h : (if p then x else y) = z) : (if p then x' else y') = z := by
  by_cases hp : p
  · rw [if_pos hp] at h ⊢
    exact hthen hp h
  · rw [if_neg hp] at h ⊢
    exact helse hp h

/-- The token does not run to the end of its line. -/
def isClosed : TokenKind → Text → Bool
  | .comment, _ => false
  | .stringLiteral, _ :: tail => stringTail (tail ++ [',']) == tail.length
  | .identifier, '[' :: tail => tail.getLast? == some ']'
  | _, _ => true

/-- Behind the token that begins with `c` the text `rest'` says the same as `rest`. -/
structure Near (kind : TokenKind) (c : Char) (tail rest rest' : Text) : Prop where
  head : ∀ p : Char → Bool, stops.all (!p ·) = true → (∀ x, isLetter x = true → p x = false) →
    rest.head?.any p = rest'.head?.any p
  name : isNameStart c = true → nameTail (tail ++ rest) = tail.length →
    nameTail (tail ++ rest') = tail.length
  number : kind = .number → numberTail (tail ++ rest) = tail.length →
    numberTail (tail ++ rest') = tail.length
  radix : c = '&' → radixTail? (tail ++ rest) = radixTail? (tail ++ rest')
  date : kind = .punct → c = '#' → tail = [] → closesDate rest = closesDate rest'
  continued : c = '_' → tail = [] → endsLine rest = endsLine rest'
  open_ : isClosed kind (c :: tail) = false → LineEnds rest → LineEnds rest'

namespace Near

variable {c : Char} {rest : Text} (h : Near kind c tail rest rest')

include h

theorem head_append (hstops : stops.all (!p ·) = true)
    (hletter : ∀ x, isLetter x = true → p x = false) :
    (tail ++ rest).head?.any p = (tail ++ rest').head?.any p := by
  cases tail with
  | nil => exact h.head p hstops hletter
  | cons x tail => rfl

section

variable (hstops : stops.all (!(· == x) ·) = true) (hx : isLetter x = false)

include hstops hx

theorem head_eq_iff : rest.head? = some x ↔ rest'.head? = some x := by
  have hany (o : Option Char) : o = some x ↔ o.any (· == x) = true := by cases o <;> simp
  rw [hany, hany, h.head _ hstops fun y hy => by simpa using ne_of_isLetter hy x hx]

theorem mark_append : ((tail ++ rest).head? == some x) = ((tail ++ rest').head? == some x) := by
  cases tail with
  | nil =>
    rw [Bool.eq_iff_iff, beq_iff_eq, beq_iff_eq]
    exact h.head_eq_iff hstops hx
  | cons y tail => rfl

end

theorem isSome_dateTail? (hkind : kind = .punct) (hc : c = '#') (htail : tail = []) :
    (dateTail? rest).isSome = (dateTail? rest').isSome := by
  have hmark : (rest.head? == some '#') = (rest'.head? == some '#') := by
    subst htail
    exact h.mark_append (by decide) (by decide)
  rw [Lexer.isSome_dateTail?, Lexer.isSome_dateTail?, h.date hkind hc htail, bne, bne, hmark]

theorem lineRest_append (hopen : isClosed kind (c :: tail) = false)
    (hline : lineRest (tail ++ rest) = tail.length) : lineRest (tail ++ rest') = tail.length := by
  obtain ⟨htail, hends⟩ := lineRest_append_iff.mp hline
  exact lineRest_append_iff.mpr ⟨htail, h.open_ hopen hends⟩

theorem stringTail_append (hkind : kind = .stringLiteral)
    (hstring : stringTail (tail ++ rest) = tail.length) : stringTail (tail ++ rest') = tail.length := by
  subst hkind
  have hquote : rest.head? = some '"' ↔ rest'.head? = some '"' :=
    h.head_eq_iff (by decide) (by decide)
  rcases Lexer.stringTail_append hstring with ⟨hne, hclosed⟩ | ⟨hends, hopen⟩
  · exact hclosed rest' (mt hquote.mpr hne)
  cases hclosed : isClosed .stringLiteral (c :: tail) with
  | false => exact hopen rest' (h.open_ hclosed hends)
  | true =>
    have hcomma : stringTail (tail ++ [',']) = tail.length := by simpa [isClosed] using hclosed
    rcases Lexer.stringTail_append hcomma with ⟨-, hall⟩ | ⟨hends, -⟩
    · refine hall rest' fun hhead => ?_
      cases hends '"' (hquote.mpr hhead)
    · cases hends ',' rfl

theorem bracketTail_append (hkind : kind = .identifier) (hc : c = '[')
    (hbracket : bracketTail (tail ++ rest) = tail.length) :
    bracketTail (tail ++ rest') = tail.length := by
  subst hkind hc
  rcases Lexer.bracketTail_append hbracket with hclosed | ⟨hlast, hends, hopen⟩
  · exact hclosed rest'
  · have hclosed : isClosed .identifier ('[' :: tail) = false := by simpa [isClosed] using hlast
    exact hopen rest' (h.open_ hclosed hends)

/-- The `Rem` that begins a comment is the same with the other text behind the comment. -/
theorem take_nameTail (hopen : isClosed kind (c :: tail) = false) (hends : LineEnds rest) :
    (tail ++ rest').take (nameTail (tail ++ rest')) = (tail ++ rest).take (nameTail (tail ++ rest)) := by
  have hle : nameTail tail ≤ tail.length := Nat.le_trans (nameTail_le tail) (lineRest_le tail)
  rw [nameTail_append_of_stops hends.stops, nameTail_append_of_stops (h.open_ hopen hends).stops,
    take_append_of_le_length hle, take_append_of_le_length hle]

/-- The token is the same with the other text behind it. -/
theorem recognize_append (hnewline : kind ≠ .newline) (hcontinuation : kind ≠ .continuation) :
    recognize ctx c (tail ++ rest) = (kind, tail.length) →
      recognize ctx c (tail ++ rest') = (kind, tail.length) := by
  unfold recognize
  -- The cases of `recognize` in its order.
  refine ite_eq_of (fun _ hkind => absurd (Prod.mk.inj hkind).1.symm hnewline) fun _ => ?_
  refine ite_eq_of (fun _ hkind => absurd (Prod.mk.inj hkind).1.symm hnewline) fun _ hkind => ?_
  by_cases hunderscore : c = '_'
  · subst hunderscore
    by_cases hcontinued : ('_' == '_' && ctx.afterBlank && endsLine (tail ++ rest)) = true
    · rw [if_pos hcontinued] at hkind
      exact absurd (Prod.mk.inj hkind).1.symm hcontinuation
    · rw [if_neg hcontinued] at hkind
      obtain ⟨rfl, hlength⟩ := Prod.mk.inj hkind
      obtain rfl : tail = [] := length_eq_zero_iff.mp hlength.symm
      rw [nil_append, h.continued rfl rfl] at hcontinued
      rw [nil_append, if_neg hcontinued]
      rfl
  have hnot {more : Text} : ¬(c == '_' && ctx.afterBlank && endsLine more) = true := by
    simp [hunderscore]
  rw [if_neg hnot] at hkind ⊢
  revert hkind
  refine ite_eq_of (fun _ hkind => ?_) fun _ => ite_eq_of (fun _ hkind => ?_) fun _ =>
    ite_eq_of (fun hhash hkind => ?_) fun _ => ite_eq_of (fun hbracket hkind => ?_) fun _ =>
    ite_eq_of (fun hname => ?_) fun _ hkind => ?_
  · obtain ⟨rfl, hlength⟩ := Prod.mk.inj hkind
    rw [h.lineRest_append rfl hlength]
  · obtain ⟨rfl, hlength⟩ := Prod.mk.inj hkind
    rw [h.stringTail_append rfl hlength]
  · cases hdate : dateTail? (tail ++ rest) with
    | some n =>
      rw [hdate] at hkind
      obtain ⟨rfl, rfl⟩ := Prod.mk.inj hkind
      rw [dateTail?_append hdate rest']
    | none =>
      rw [hdate] at hkind
      obtain ⟨rfl, hlength⟩ := Prod.mk.inj hkind
      obtain rfl : tail = [] := length_eq_zero_iff.mp hlength.symm
      have hnone := h.isSome_dateTail? rfl (beq_iff_eq.mp hhash) rfl
      rw [nil_append] at hdate
      rw [hdate, Option.isSome_none, eq_comm, Option.isSome_eq_false_iff, Option.isNone_iff_eq_none]
        at hnone
      rw [nil_append, hnone]
      rfl
  · obtain ⟨rfl, hlength⟩ := Prod.mk.inj hkind
    rw [h.bracketTail_append rfl (beq_iff_eq.mp hbracket) hlength]
  · by_cases hrem : (ctx.fresh && Text.fold (c :: (tail ++ rest).take (nameTail (tail ++ rest))) ==
        ['r', 'e', 'm']) = true
    · simp only [if_pos hrem]
      intro hkind
      obtain ⟨rfl, hlength⟩ := Prod.mk.inj hkind
      rw [h.take_nameTail rfl (lineRest_append_iff.mp hlength).2, if_pos hrem,
        h.lineRest_append rfl hlength]
    · simp only [if_neg hrem]
      intro hkind
      obtain ⟨rfl, hlength⟩ := Prod.mk.inj hkind
      rw [hlength, take_left] at hrem
      rw [h.name hname hlength, take_left, if_neg hrem]
  · have hdigit := h.head_append (p := isDigit) (by decide) fun x hx => isDigit_of_isLetter hx
    rw [← h.mark_append (x := '=') (by decide) (by decide),
      ← h.mark_append (x := '>') (by decide) (by decide), ← hdigit]
    revert hkind
    refine ite_eq_of (fun _ hkind => ?_) fun _ hkind => ?_
    · obtain ⟨rfl, hlength⟩ := Prod.mk.inj hkind
      rw [h.number rfl hlength]
    · by_cases hamp : c = '&'
      · rwa [← h.radix hamp]
      · have hnot {b : Bool} : ¬(c == '&' && b) = true := by simp [hamp]
        rwa [if_neg hnot] at hkind ⊢

end Near

namespace Near

variable {c : Char} {front rest : Text}

theorem refl (rest : Text) : Near kind c tail rest rest where
  head _ _ _ := rfl
  name _ hlength := hlength
  number _ hlength := hlength
  radix _ := rfl
  date _ _ _ := rfl
  continued _ _ := rfl
  open_ _ := id

/-- After some characters that stay, all that matters is how the two texts begin. -/
theorem any_head_append (h : rest.head?.any p = rest'.head?.any p) :
    (front ++ rest).head?.any p = (front ++ rest').head?.any p := by
  cases front with
  | nil => exact h
  | cons x front => rfl

theorem any_head_of_stops (h : Stops rest) (hp : stops.all (!p ·) = true) :
    rest.head?.any p = false := by
  cases rest with
  | nil => rfl
  | cons x rest => exact of_mem_stops p (h x rfl) hp

theorem lineEnds_append (h : LineEnds rest → LineEnds rest') (hends : LineEnds (front ++ rest)) :
    LineEnds (front ++ rest') := by
  cases front with
  | nil => exact h hends
  | cons x front => exact hends

/-- Names and numbers end where a character stands that ends them. -/
theorem of_ended (h : Stops rest) (h' : Stops rest')
    (hdate : c :: tail = ['#'] → closesDate (front ++ rest) = closesDate (front ++ rest'))
    (hcontinued : c :: tail = ['_'] → endsLine (front ++ rest) = endsLine (front ++ rest'))
    (hopen : isClosed kind (c :: tail) = false → LineEnds (front ++ rest) → LineEnds (front ++ rest')) :
    Near kind c tail (front ++ rest) (front ++ rest') where
  head p hp _ := any_head_append (by rw [any_head_of_stops h hp, any_head_of_stops h' hp])
  name _ hlength := by
    rw [← append_assoc, nameTail_append_of_stops h] at hlength
    rw [← append_assoc, nameTail_append_of_stops h', hlength]
  number _ hlength := by
    rw [← append_assoc, numberTail_append_of_stops h] at hlength
    rw [← append_assoc, numberTail_append_of_stops h', hlength]
  radix _ := by
    rw [← append_assoc, radixTail?_append_of_stops h, ← append_assoc, radixTail?_append_of_stops h']
  date _ hc htail := hdate (by rw [hc, htail])
  continued hc htail := hcontinued (by rw [hc, htail])
  open_ := hopen

/-- A token that is closed and is no mark that looks further ahead sees only up to the next character
that ends words and numbers. -/
theorem of_stops (h : Stops rest) (h' : Stops rest') (hclosed : isClosed kind (c :: tail) = true)
    (hhash : c :: tail ≠ ['#']) (hunderscore : c :: tail ≠ ['_']) :
    Near kind c tail (front ++ rest) (front ++ rest') := by
  refine of_ended h h' (fun hc => absurd hc hhash) (fun hc => absurd hc hunderscore) fun hopen => ?_
  rw [hclosed] at hopen
  cases hopen

theorem endsLine_append_of_lineEnds (h : LineEnds rest) (front : Text) :
    endsLine (front ++ rest) = endsLine front := by
  have hspace : ∀ x ∈ rest.head?, isSpace x = false := by
    intro x hx
    have heol := h x hx
    simp only [isEol, Bool.or_eq_true, beq_iff_eq] at heol
    rcases heol with rfl | rfl <;> rfl
  rw [endsLine, endsLine, dropWhile_append_of_head hspace]
  cases front.dropWhile isSpace with
  | cons x front => rfl
  | nil =>
    cases rest with
    | nil => rfl
    | cons x rest => exact h x rfl

/-- No token but line ends and continuations sees further than the end of its line. -/
theorem of_lineEnds (h : LineEnds rest) (h' : LineEnds rest') :
    Near kind c tail (front ++ rest) (front ++ rest') := by
  have hdate : closesDate rest = closesDate rest' := by
    rw [closesDate_of_lineEnds h, closesDate_of_lineEnds h']
  refine of_ended h.stops h'.stops (fun _ => closesDate_append_congr hdate front) (fun _ => ?_)
    fun _ => lineEnds_append fun _ => h'
  rw [endsLine_append_of_lineEnds h, endsLine_append_of_lineEnds h']

/-- A word can stand directly behind these characters without being taken for a part of what they
say. -/
def AdmitsWord (front : Text) : Prop := ∀ z ∈ front.getLast?, isNameChar z = false ∧ z ≠ '&'

theorem isNameChar_of_isHexDigit (h : isHexDigit x = true) : isNameChar x = true := by
  simp [isHexDigit, isNameChar, isLetter, isDigit, Char.le_def, UInt32.le_iff_toNat_le] at *
  omega

theorem isNameChar_of_isNameStart (h : isNameStart x = true) : isNameChar x = true := by
  simp only [isNameStart, Bool.or_eq_true] at h
  rcases h with h | h <;> simp [isNameChar, h]

theorem exists_of_admitsWord (h : AdmitsWord (c :: front)) (hc : isNameChar c = true) :
    ∃ z ∈ front, isNameChar z = false := by
  cases hlast : front.getLast? with
  | none =>
    obtain rfl := getLast?_eq_none_iff.mp hlast
    have := (h c rfl).1
    rw [hc] at this
    cases this
  | some z =>
    have hz : z ∈ (c :: front).getLast? := by
      rw [getLast?_cons, hlast]
      rfl
    exact ⟨z, mem_of_getLast? hlast, (h z hz).1⟩

theorem endsLine_append_of_letters (h : BothLetters rest rest') :
    endsLine (front ++ rest) = endsLine (front ++ rest') := by
  obtain ⟨a, b, r, r', rfl, rfl, ha, hb⟩ := h
  have hends {x : Char} (hx : isLetter x = true) (more : Text) :
      endsLine (front ++ x :: more) = ((front.dropWhile isSpace).head?.any isEol) := by
    have hspace : isSpace x = false := by
      simp [isSpace, ne_of_isLetter hx ' ' (by decide), ne_of_isLetter hx '\t' (by decide)]
    have heol : isEol x = false := by
      simp [isEol, ne_of_isLetter hx '\n' (by decide), ne_of_isLetter hx '\r' (by decide)]
    rw [endsLine, dropWhile_append_of_head (by rintro y ⟨⟩; exact hspace)]
    cases front.dropWhile isSpace with
    | nil => exact heol
    | cons y front => rfl
  rw [hends ha, hends hb]

theorem radixTail?_append_of_admitsWord (h : AdmitsWord ('&' :: front)) (rest rest' : Text) :
    radixTail? (front ++ rest) = radixTail? (front ++ rest') := by
  cases front with
  | nil => exact absurd rfl (h '&' rfl).2
  | cons x front =>
    by_cases hx : isNameChar x = true
    · have hlast : AdmitsWord (x :: front) := by
        intro z hz
        refine h z ?_
        rw [getLast?_cons, hz]
        rfl
      obtain ⟨z, hz, hzname⟩ := exists_of_admitsWord hlast hx
      have hhex : isHexDigit z = false := by
        refine Bool.eq_false_iff.mpr fun hhex => ?_
        rw [isNameChar_of_isHexDigit hhex] at hzname
        cases hzname
      rw [radixTail?_append_of_exists ⟨z, hz, hhex⟩, radixTail?_append_of_exists ⟨z, hz, hhex⟩]
    · have hmark : (x == 'H' || x == 'h' || x == 'O' || x == 'o') = false := by
        refine Bool.eq_false_iff.mpr fun hmark => hx ?_
        simp only [Bool.or_eq_true, beq_iff_eq] at hmark
        rcases hmark with ((rfl | rfl) | rfl) | rfl <;> rfl
      simp [radixTail?, hmark]

theorem numberTail_append_of_ne_nil (h : BothLetters rest rest') (hfront : front ≠ [])
    (hlength : numberTail (tail ++ (front ++ rest)) = tail.length) :
    numberTail (tail ++ (front ++ rest')) = tail.length := by
  rw [← append_assoc] at hlength ⊢
  by_cases hall : ∃ z ∈ tail ++ front, (isDigit z || z == '.') = false
  · rw [← numberTail_append_of_letters h hall, hlength]
  · -- Otherwise the number goes on after its end.
    have hall : ∀ z ∈ tail ++ front, (isDigit z || z == '.') = true :=
      fun z hz => Bool.of_not_eq_false fun hz' => hall ⟨z, hz, hz'⟩
    have hpos : 0 < front.length := length_pos_iff.mpr hfront
    simp only [numberTail, takeWhile_append_of_pos hall, length_append] at hlength
    omega

/-- A token does not see what word follows, and a number does not see it if something else stands
between them. -/
theorem of_letters (h : BothLetters rest rest') (hlast : AdmitsWord (c :: (tail ++ front)))
    (hnumber : kind = .number → front ≠ [])
    (hdate : kind = .punct → c = '#' → tail = [] → closesDate rest = closesDate rest') :
    Near kind c tail (front ++ rest) (front ++ rest') where
  head p _ hp := by
    obtain ⟨a, b, r, r', rfl, rfl, ha, hb⟩ := h
    refine any_head_append ?_
    rw [head?_cons, head?_cons, Option.any_some, Option.any_some, hp a ha, hp b hb]
  name hc hlength := by
    have hfront := exists_of_admitsWord hlast (isNameChar_of_isNameStart hc)
    rw [← append_assoc] at hlength ⊢
    rw [← nameTail_append_of_letters h hfront, hlength]
  number hkind hlength := numberTail_append_of_ne_nil h (hnumber hkind) hlength
  radix hc := by
    subst hc
    rw [← append_assoc, ← append_assoc]
    exact radixTail?_append_of_admitsWord hlast _ _
  date hkind hc htail := closesDate_append_congr (hdate hkind hc htail) front
  continued _ _ := endsLine_append_of_letters h
  open_ _ := by
    refine lineEnds_append fun hends => ?_
    obtain ⟨a, b, r, r', rfl, rfl, ha, hb⟩ := h
    have heol := hends a rfl
    simp [isEol, ne_of_isLetter ha '\n' (by decide), ne_of_isLetter ha '\r' (by decide)] at heol

end Near

end Lexer

end VbaRefactor
