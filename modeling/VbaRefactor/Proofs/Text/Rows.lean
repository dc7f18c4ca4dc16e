import VbaRefactor.Proofs.Text.Cut

/-!
# Texts with one kind of break

A text whose breaks are all the same terminator is its rows with that terminator between them. The
start, the end and the content of each line, and the text of a range of whole lines, are read off the
rows.
-/

namespace VbaRefactor

open List

variable {after before : List Text} {m row : Text}

namespace Text

/-- Every break of the text is `ending`. -/
def ClosedBy (ending t : Text) : Prop := ∀ b ∈ breaks t, b.terminator? = some ending

instance (ending t : Text) : Decidable (ClosedBy ending t) :=
  inferInstanceAs (Decidable (∀ b ∈ breaks t, _))

/-- The lines of a text, among them the empty one after a break at its end. -/
def rows (t : Text) : List Text := (t :: tails t).map headLine

/-- Lines each followed by a terminator. -/
def closed (ending : Text) (lines : List Text) : Text := lines.flatMap (· ++ ending)

theorem closed_append (ending : Text) (before after : List Text) :
    closed ending (before ++ after) = closed ending before ++ closed ending after :=
  flatMap_append

variable {c : Char} {lines : List Text}

theorem closed_take_succ (ending : Text) {line : Nat} (hrow : lines[line]? = some row) :
    closed ending (lines.take (line + 1)) = (closed ending (lines.take line) ++ row) ++ ending := by
  rw [take_add_one, hrow, closed_append, append_assoc]
  simp [closed]

/-- No character breaks a line. -/
def Plain (t : Text) : Prop := ∀ c ∈ t, isLineBreak c = false

instance (t : Text) : Decidable t.Plain := List.decidableBAll _ t

theorem Plain.not_mem {t : Text} (h : Plain t) (hc : isLineBreak c = true) : c ∉ t := by
  intro hmem
  rw [h c hmem] at hc
  cases hc

section

variable {ending t s : Text} {line : Nat}

/-- A text is one row, or a row, the terminator and the rest. -/
theorem ClosedBy.cases (h : ClosedBy ending t) :
    (tails t = [] ∧ headLine t = t) ∨
      ∃ s, tails t = s :: tails s ∧ t = headLine t ++ (ending ++ s) ∧ ClosedBy ending s := by
  unfold ClosedBy at h
  fun_induction breaks t with
  | case1 => exact .inl ⟨rfl, rfl⟩
  | case2 t ih =>
    have hending : some ['\r', '\n'] = some ending := h .crlf (by simp)
    have hrest : ClosedBy ending t := fun b hb => h b (by simp [hb])
    exact .inr ⟨t, tails_crlf t, by rw [headLine_crlf, ← Option.some.inj hending]; rfl, hrest⟩
  | case3 t hcr ih =>
    have hending : some ['\n'] = some ending := h .lf (by simp)
    have hrest : ClosedBy ending t := fun b hb => h b (by simp [hb])
    have htails : tails ('\n' :: t) = t :: tails t := tails_of_isLineBreak hcr (by decide)
    exact .inr ⟨t, htails, by rw [headLine_lf, ← Option.some.inj hending]; rfl, hrest⟩
  | case4 c t hcr hlf hc ih =>
    have hother : Break.other.terminator? = some ending := h .other (by simp)
    cases hother
  | case5 c t hcr hlf hc ih =>
    rw [tails_of_not_isLineBreak hcr hc, headLine_cons hcr hlf]
    rcases ih h with ⟨htails, hhead⟩ | ⟨s, htails, hparts, hrest⟩
    · exact .inl ⟨htails, by rw [hhead]⟩
    · exact .inr ⟨s, htails, by rw [cons_append, ← hparts], hrest⟩

theorem ClosedBy.plain_headLine (h : ClosedBy ending t) : Plain (headLine t) := by
  unfold ClosedBy at h
  fun_induction breaks t with
  | case1 => simp [Plain]
  | case2 t ih => simp [Plain, headLine_crlf]
  | case3 t hcr ih => simp [Plain, headLine_lf]
  | case4 c t hcr hlf hc ih =>
    have hother : Break.other.terminator? = some ending := h .other (by simp)
    cases hother
  | case5 c t hcr hlf hc ih =>
    rw [headLine_cons hcr hlf]
    exact forall_mem_cons.mpr ⟨by simpa using hc, ih h⟩

theorem rows_cons (htails : tails t = s :: tails s) : rows t = headLine t :: rows s := by
  rw [rows, htails]
  rfl

/-- Each line starts with its row, after the rows before it with their terminators. -/
theorem ClosedBy.getElem?_tails (h : ClosedBy ending t) (hs : (t :: tails t)[line]? = some s) :
    rows s = (rows t).drop line ∧ t = closed ending ((rows t).take line) ++ s ∧
      ClosedBy ending s := by
  induction line generalizing t with
  | zero =>
    obtain rfl : t = s := by simpa using hs
    exact ⟨rfl, by simp [closed], h⟩
  | succ line ih =>
    rw [getElem?_cons_succ] at hs
    rcases h.cases with ⟨htails, -⟩ | ⟨u, htails, hparts, hrest⟩
    · simp [htails] at hs
    rw [htails] at hs
    obtain ⟨hrows, hu, hclosed⟩ := ih hrest hs
    refine ⟨by rw [hrows, rows_cons htails]; rfl, ?_, hclosed⟩
    rw [rows_cons htails, take_succ_cons, closed, flatMap_cons, append_assoc, append_assoc]
    rw [closed] at hu
    rw [← hu]
    exact hparts

theorem ClosedBy.plain_of_mem_rows (h : ClosedBy ending t) (hrow : row ∈ rows t) : Plain row := by
  obtain ⟨s, hs, rfl⟩ := mem_map.mp hrow
  obtain ⟨line, hline⟩ := mem_iff_getElem?.mp hs
  exact (h.getElem?_tails hline).2.2.plain_headLine

theorem length_rows (t : Text) : (rows t).length = (tails t).length + 1 := by
  simp [rows]

theorem getElem?_rows (hs : (t :: tails t)[line]? = some s) : (rows t)[line]? = some (headLine s) := by
  rw [rows, getElem?_map, hs]
  rfl

theorem exists_getElem?_tails (hline : line < (rows t).length) :
    ∃ s, (t :: tails t)[line]? = some s := by
  rw [length_rows] at hline
  exact ⟨_, getElem?_eq_getElem (by simpa using hline)⟩

theorem ClosedBy.lineStart (h : ClosedBy ending t) (hline : line < (rows t).length) :
    t.lineStart (line + 1) = byteSize (closed ending ((rows t).take line)) := by
  obtain ⟨s, hs⟩ := exists_getElem?_tails hline
  obtain ⟨-, hparts, -⟩ := h.getElem?_tails hs
  have hsize := congrArg byteSize hparts
  rw [byteSize_append] at hsize
  rw [lineStart_eq hs]
  omega

theorem lineEnd_eq_row (hrow : (rows t)[line]? = some row) :
    t.lineEnd (line + 1) = t.lineStart (line + 1) + byteSize row := by
  obtain ⟨s, hs⟩ := exists_getElem?_tails (List.getElem?_eq_some_iff.mp hrow).1
  rw [getElem?_rows hs] at hrow
  rw [lineEnd_eq hs, lineStart_eq hs, Option.some.inj hrow]

theorem lineText_eq_row (hrow : (rows t)[line]? = some row) : t.lineText (line + 1) = row := by
  obtain ⟨s, hs⟩ := exists_getElem?_tails (List.getElem?_eq_some_iff.mp hrow).1
  rw [getElem?_rows hs] at hrow
  rw [lineText_eq hs, Option.some.inj hrow]

end

/-! ## Ranges of whole lines -/

/-- Lines each after a terminator. -/
def opened (ending : Text) (lines : List Text) : Text := lines.flatMap (ending ++ ·)

section

variable (ending : Text)

theorem intercalate_cons (line : Text) (lines : List Text) :
    ending.intercalate (line :: lines) = line ++ opened ending lines := by
  induction lines generalizing line with
  | nil => simp [opened]
  | cons next lines ih =>
    rw [intercalate_cons_cons, ih]
    simp [opened]

theorem intercalate_append_opened (h : before ≠ []) (after : List Text) :
    ending.intercalate (before ++ after) = ending.intercalate before ++ opened ending after := by
  obtain ⟨line, before, rfl⟩ := exists_cons_of_ne_nil h
  rw [cons_append, intercalate_cons, intercalate_cons]
  simp [opened]

theorem closed_append_intercalate (before : List Text) (h : after ≠ []) :
    closed ending before ++ ending.intercalate after = ending.intercalate (before ++ after) := by
  induction before with
  | nil => rfl
  | cons line before ih =>
    have hne : before ++ after ≠ [] := by simp [h]
    rw [cons_append, intercalate_cons_of_ne_nil hne, ← ih, closed, closed, flatMap_cons]
    simp

end

section

variable {ending t : Text} {middle : List Text}

theorem ClosedBy.eq_intercalate (h : ClosedBy ending t) : ending.intercalate (rows t) = t :=
  rejoined_eq_self ending h

section

variable (h : ClosedBy ending t) (hrows : rows t = before ++ (middle ++ after))
  (hmiddle : middle ≠ [])

include h hrows hmiddle

/-- A range of lines parts the text. -/
theorem ClosedBy.parts :
    t = closed ending before ++ (ending.intercalate middle ++ opened ending after) := by
  have hne : middle ++ after ≠ [] := by simp [hmiddle]
  rw [← intercalate_append_opened ending hmiddle, closed_append_intercalate ending before hne,
    ← hrows, h.eq_intercalate]

theorem ClosedBy.spanOfLines :
    t.spanOfLines (before.length + 1) (before.length + middle.length) =
      ⟨byteSize (closed ending before),
        byteSize (closed ending before) + byteSize (ending.intercalate middle)⟩ := by
  obtain ⟨init, last, rfl⟩ : ∃ init last, middle = init ++ [last] :=
    ⟨_, _, (dropLast_concat_getLast hmiddle).symm⟩
  have hlength : before.length + init.length < (rows t).length := by
    rw [hrows]
    simp only [length_append, length_singleton]
    omega
  have hrow : (rows t)[before.length + init.length]? = some last := by
    rw [hrows, getElem?_append_right (by omega), Nat.add_sub_cancel_left, append_assoc,
      getElem?_append_right (by omega)]
    simp
  have htakeBefore : (rows t).take before.length = before := by rw [hrows, take_left]
  have htakeInit : (rows t).take (before.length + init.length) = before ++ init := by
    rw [hrows, append_assoc, ← append_assoc, ← length_append, take_left]
  have hstart : t.lineStart (before.length + 1) = byteSize (closed ending before) := by
    rw [h.lineStart (by omega), htakeBefore]
  have hend : t.lineEnd (before.length + init.length + 1) =
      byteSize (closed ending before) + byteSize (ending.intercalate (init ++ [last])) := by
    rw [lineEnd_eq_row hrow, h.lineStart hlength, htakeInit]
    have hclosed : closed ending (before ++ init) ++ last =
        closed ending before ++ ending.intercalate (init ++ [last]) := by
      rw [← closed_append_intercalate ending init (by simp), intercalate_singleton]
      simp [closed]
    rw [← byteSize_append, hclosed, byteSize_append]
  rw [Text.spanOfLines, hstart, length_append, length_singleton, ← Nat.add_assoc, hend]

/-- The text of a range of whole lines is their rows with the terminator between them. -/
theorem ClosedBy.slice_spanOfLines :
    t.slice (t.spanOfLines (before.length + 1) (before.length + middle.length)) =
      ending.intercalate middle := by
  rw [h.spanOfLines hrows hmiddle]
  calc
    _ = slice (closed ending before ++ (ending.intercalate middle ++ opened ending after))
          ⟨_, _⟩ := by rw [← h.parts hrows hmiddle]
    _ = ending.intercalate middle := slice_append _ _ _

end

end

/-! ## The order of lines -/

theorem byteSize_closed_take_le (ending : Text) (lines : List Text) {a b : Nat} (h : a ≤ b) :
    byteSize (closed ending (lines.take a)) ≤ byteSize (closed ending (lines.take b)) := by
  have hsplit := take_append_drop a (lines.take b)
  rw [take_take, Nat.min_eq_left h] at hsplit
  rw [← hsplit, closed_append, byteSize_append]
  omega

section

variable {ending t : Text} {a b line : Nat}

theorem ClosedBy.lineStart_mono (h : ClosedBy ending t) (hle : a ≤ b) (hb : b < (rows t).length) :
    t.lineStart (a + 1) ≤ t.lineStart (b + 1) := by
  rw [h.lineStart hb, h.lineStart (Nat.lt_of_le_of_lt hle hb)]
  exact byteSize_closed_take_le ending (rows t) hle

/-- A line starts behind the terminator of the line before it. -/
theorem ClosedBy.lineStart_succ (h : ClosedBy ending t) (hline : line + 1 < (rows t).length) :
    t.lineStart (line + 1 + 1) = t.lineEnd (line + 1) + byteSize ending := by
  have hrow : (rows t)[line]? = some ((rows t)[line]) := getElem?_eq_getElem (by omega)
  rw [lineEnd_eq_row hrow, h.lineStart hline, h.lineStart (by omega), closed_take_succ ending hrow,
    byteSize_append, byteSize_append]

theorem lineStart_le_lineEnd (t : Text) (hline : line < (rows t).length) :
    t.lineStart (line + 1) ≤ t.lineEnd (line + 1) := by
  rw [lineEnd_eq_row (getElem?_eq_getElem hline)]
  omega

theorem ClosedBy.lineEnd_mono (h : ClosedBy ending t) (hle : a ≤ b) (hb : b < (rows t).length) :
    t.lineEnd (a + 1) ≤ t.lineEnd (b + 1) := by
  rcases Nat.lt_or_eq_of_le hle with hlt | rfl
  · have hnext := h.lineStart_succ (show a + 1 < (rows t).length by omega)
    have hmono := h.lineStart_mono (show a + 1 ≤ b by omega) hb
    have hend := lineStart_le_lineEnd t hb
    omega
  · exact Nat.le_refl _

end

/-! ## Splitting at line feeds -/

/-- LF or CR LF. -/
def IsTerminator (ending : Text) : Prop := ending = ['\n'] ∨ ending = ['\r', '\n']

theorem isTerminator_lineEnding (t : Text) : IsTerminator t.lineEnding := by
  rw [lineEnding]
  split
  · exact .inr rfl
  · exact .inl rfl

theorem split_ne_nil (sep : Char) (t : Text) : split sep t ≠ [] := by
  cases t with
  | nil => simp [split]
  | cons c t =>
    rw [split]
    split
    · simp
    · split <;> simp

theorem split_cons_self (sep : Char) (t : Text) : split sep (sep :: t) = [] :: split sep t := by
  rw [split]
  split
  · rename_i hsplit
    exact absurd hsplit (split_ne_nil sep t)
  · rename_i hsplit
    rw [if_pos rfl, hsplit]

theorem split_cons_of_ne {sep c : Char} {t piece : Text} {pieces : List Text} (hc : c ≠ sep)
    (h : split sep t = piece :: pieces) : split sep (c :: t) = (c :: piece) :: pieces := by
  rw [split, h]
  exact if_neg hc

theorem not_mem_of_mem_split {sep : Char} {t : Text} : ∀ piece ∈ split sep t, sep ∉ piece := by
  induction t with
  | nil => simp [split]
  | cons c t ih =>
    obtain ⟨first, rest, ht⟩ := exists_cons_of_ne_nil (split_ne_nil sep t)
    rw [ht] at ih
    by_cases hc : c = sep
    · rw [hc, split_cons_self, ht]
      exact forall_mem_cons.mpr ⟨not_mem_nil, ih⟩
    · rw [split_cons_of_ne hc ht]
      rw [forall_mem_cons] at ih ⊢
      simpa [Ne.symm hc] using ih

theorem splitLines_nil : splitLines [] = [[]] := rfl

theorem splitLines_lf (t : Text) : splitLines ('\n' :: t) = [] :: splitLines t := by
  rw [splitLines, split_cons_self, map_cons]
  rfl

theorem splitLines_crlf (t : Text) : splitLines ('\r' :: '\n' :: t) = [] :: splitLines t := by
  rw [splitLines, split_cons_of_ne (by decide) (split_cons_self '\n' t), map_cons]
  rfl

theorem splitLines_cons {t line : Text} (hlf : c ≠ '\n') (hcr : c ≠ '\r')
    (h : splitLines t = line :: lines) : splitLines (c :: t) = (c :: line) :: lines := by
  rw [splitLines] at h ⊢
  obtain ⟨piece, pieces, hsplit⟩ := exists_cons_of_ne_nil (split_ne_nil '\n' t)
  rw [hsplit, map_cons] at h
  obtain ⟨rfl, rfl⟩ := List.cons.inj h
  rw [split_cons_of_ne hlf hsplit, map_cons]
  congr 1
  by_cases hpiece : piece = []
  · simp [hpiece, dropCr, hcr]
  · exact dropCr_cons hpiece

theorem splitLines_ne_nil (t : Text) : splitLines t ≠ [] := by
  rw [splitLines, ne_eq, map_eq_nil_iff]
  exact split_ne_nil '\n' t

/-- The text has no character of a terminator. -/
def OneLine (t : Text) : Prop := '\n' ∉ t ∧ '\r' ∉ t

theorem Plain.oneLine {t : Text} (h : Plain t) : OneLine t :=
  ⟨h.not_mem (by decide), h.not_mem (by decide)⟩

/-- Every carriage return stands before a line feed. -/
inductive CrClosed : Text → Prop
  | nil : CrClosed []
  | crlf {t : Text} : CrClosed t → CrClosed ('\r' :: '\n' :: t)
  | cons {c : Char} {t : Text} : c ≠ '\r' → CrClosed t → CrClosed (c :: t)

namespace CrClosed

variable {a b t : Text}

theorem append (ha : CrClosed a) (hb : CrClosed b) : CrClosed (a ++ b) := by
  induction ha with
  | nil => exact hb
  | crlf _ ih => exact .crlf ih
  | cons hc _ ih => exact .cons hc ih

theorem of_not_mem (h : '\r' ∉ t) : CrClosed t := by
  induction t with
  | nil => exact .nil
  | cons c t ih =>
    rw [mem_cons, not_or] at h
    exact .cons (Ne.symm h.1) (ih h.2)

/-- The lines have no character of a terminator left. -/
theorem oneLine_of_mem (h : CrClosed t) : ∀ line ∈ splitLines t, OneLine line := by
  have hnil : OneLine [] := ⟨by simp, by simp⟩
  induction h with
  | nil => simpa [splitLines_nil] using hnil
  | crlf _ ih =>
    rw [splitLines_crlf]
    exact forall_mem_cons.mpr ⟨hnil, ih⟩
  | @cons c t hc _ ih =>
    by_cases hlf : c = '\n'
    · rw [hlf, splitLines_lf]
      exact forall_mem_cons.mpr ⟨hnil, ih⟩
    · obtain ⟨first, rest, hsplit⟩ := exists_cons_of_ne_nil (splitLines_ne_nil t)
      rw [hsplit, forall_mem_cons] at ih
      rw [splitLines_cons hlf hc hsplit, forall_mem_cons]
      simpa [OneLine, Ne.symm hlf, Ne.symm hc] using ih

end CrClosed

/-- The text with `ending` for every LF and CR LF. -/
def withEnding (ending : Text) : Text → Text
  | [] => []
  | '\r' :: '\n' :: t => ending ++ withEnding ending t
  | c :: t => if c = '\n' then ending ++ withEnding ending t else c :: withEnding ending t

/-- Changing the terminators is splitting the text into its lines and joining them. -/
theorem CrClosed.withEnding_eq (ending : Text) {t : Text} (h : CrClosed t) :
    withEnding ending t = ending.intercalate (splitLines t) := by
  induction h with
  | nil => rfl
  | @crlf t _ ih =>
    obtain ⟨first, rest, hsplit⟩ := exists_cons_of_ne_nil (splitLines_ne_nil t)
    rw [withEnding, ih, splitLines_crlf, hsplit, intercalate_cons_cons, nil_append]
  | @cons c t hc _ ih =>
    have hcr : ∀ s, c = '\r' → t = '\n' :: s → False := fun _ h _ => hc h
    obtain ⟨first, rest, hsplit⟩ := exists_cons_of_ne_nil (splitLines_ne_nil t)
    rw [withEnding.eq_3 _ _ _ hcr, ih]
    by_cases hlf : c = '\n'
    · rw [if_pos hlf, hlf, splitLines_lf, hsplit, intercalate_cons_cons, nil_append]
    · rw [if_neg hlf, splitLines_cons hlf hc hsplit, hsplit, intercalate_cons_cons_left]

theorem OneLine.splitLines {t : Text} (h : OneLine t) : splitLines t = [t] := by
  obtain ⟨hlf, hcr⟩ := h
  induction t with
  | nil => rfl
  | cons c t ih =>
    rw [mem_cons, not_or] at hlf hcr
    exact splitLines_cons (Ne.symm hlf.1) (Ne.symm hcr.1) (ih hlf.2 hcr.2)

section

variable {ending : Text}

theorem splitLines_ending (he : IsTerminator ending) (t : Text) :
    splitLines (ending ++ t) = [] :: splitLines t := by
  rcases he with rfl | rfl
  · exact splitLines_lf t
  · exact splitLines_crlf t

/-- The lines before a terminator, then those after it. -/
theorem splitLines_append_ending (he : IsTerminator ending) {a : Text} (ha : CrClosed a) (b : Text) :
    splitLines (a ++ (ending ++ b)) = splitLines a ++ splitLines b := by
  induction ha with
  | nil => exact splitLines_ending he b
  | @crlf a _ ih =>
    show splitLines ('\r' :: '\n' :: (a ++ (ending ++ b))) = _
    rw [splitLines_crlf, splitLines_crlf, ih]
    rfl
  | @cons c a hc _ ih =>
    show splitLines (c :: (a ++ (ending ++ b))) = _
    by_cases hlf : c = '\n'
    · rw [hlf, splitLines_lf, splitLines_lf, ih]
      rfl
    · obtain ⟨first, rest, hsplit⟩ := exists_cons_of_ne_nil (splitLines_ne_nil a)
      rw [hsplit] at ih
      rw [splitLines_cons hlf hc ih, splitLines_cons hlf hc hsplit]
      rfl

section

variable {lines : List Text} (he : IsTerminator ending) (hlines : ∀ line ∈ lines, OneLine line)

include he hlines

theorem splitLines_closed (t : Text) :
    splitLines (closed ending lines ++ t) = lines ++ splitLines t := by
  induction lines with
  | nil => rfl
  | cons line lines ih =>
    have hline := hlines line mem_cons_self
    have ih := ih (forall_mem_cons.mp hlines).2
    rw [closed] at ih
    rw [closed, flatMap_cons, append_assoc, append_assoc,
      splitLines_append_ending he (.of_not_mem hline.2), ih, hline.splitLines]
    rfl

theorem splitLines_intercalate (hne : lines ≠ []) :
    splitLines (ending.intercalate lines) = lines := by
  obtain ⟨init, last, rfl⟩ : ∃ init last, lines = init ++ [last] :=
    ⟨_, _, (dropLast_concat_getLast hne).symm⟩
  have hlast := hlines last (by simp)
  rw [← closed_append_intercalate ending init (by simp), intercalate_singleton,
    splitLines_closed he fun line hline => hlines line (mem_append_left _ hline),
    hlast.splitLines]

end

end

/-! ## Pieces of a text with one kind of break -/

theorem getLast?_closed_ne {ending : Text} (he : IsTerminator ending) (lines : List Text) :
    (closed ending lines).getLast? ≠ some '\r' := by
  have hlast : ending.getLast? = some '\n' := by rcases he with rfl | rfl <;> rfl
  induction lines with
  | nil => simp [closed]
  | cons line lines ih =>
    rw [closed] at ih
    rw [closed, flatMap_cons, getLast?_append, getLast?_append, hlast]
    cases hrest : (lines.flatMap (· ++ ending)).getLast? with
    | none => simp
    | some c =>
      rw [hrest] at ih
      simpa using ih

section

variable {ending t : Text} {line : Nat}

section

variable (h : ClosedBy ending t)

include h

theorem ClosedBy.isCut_lineStart (he : IsTerminator ending) (hline : line < (rows t).length) :
    t.IsCut (t.lineStart (line + 1)) := by
  obtain ⟨s, hs⟩ := exists_getElem?_tails hline
  obtain ⟨-, hparts, -⟩ := h.getElem?_tails hs
  exact ⟨_, s, hparts, (h.lineStart hline).symm, fun hcrlf => getLast?_closed_ne he _ hcrlf.1⟩

theorem ClosedBy.isCut_lineEnd (he : IsTerminator ending) (hline : line < (rows t).length) :
    t.IsCut (t.lineEnd (line + 1)) := by
  obtain ⟨s, hs⟩ := exists_getElem?_tails hline
  obtain ⟨-, hparts, hrest⟩ := h.getElem?_tails hs
  obtain ⟨after, hafter⟩ := headLine_prefix s
  refine ⟨closed ending ((rows t).take line) ++ headLine s, after, ?_, ?_, ?_⟩
  · rw [append_assoc, hafter]
    exact hparts
  · rw [lineEnd_eq_row (getElem?_rows hs), h.lineStart hline, byteSize_append]
  rintro ⟨hcr, -⟩
  rw [getLast?_append] at hcr
  cases hlast : (headLine s).getLast? with
  | none =>
    rw [hlast] at hcr
    exact getLast?_closed_ne he _ hcr
  | some c =>
    rw [hlast] at hcr
    have hmem := mem_of_getLast? (hlast.trans hcr)
    exact hrest.plain_headLine.not_mem (by decide) hmem

/-- The text from the start of one line to that of another. -/
theorem ClosedBy.slice_lineStart {a b : Nat} (hle : a ≤ b) (hb : b < (rows t).length) :
    t.slice ⟨t.lineStart (a + 1), t.lineStart (b + 1)⟩ =
      closed ending (((rows t).drop a).take (b - a)) := by
  obtain ⟨s, hs⟩ := exists_getElem?_tails hb
  obtain ⟨-, hparts, -⟩ := h.getElem?_tails hs
  have htake : (rows t).take b = (rows t).take a ++ ((rows t).drop a).take (b - a) := by
    rw [← take_add, Nat.add_sub_cancel' hle]
  rw [h.lineStart hb, h.lineStart (Nat.lt_of_le_of_lt hle hb)]
  rw [htake] at hparts ⊢
  generalize (rows t).take a = before at hparts ⊢
  generalize ((rows t).drop a).take (b - a) = middle at hparts ⊢
  rw [closed_append, append_assoc] at hparts
  rw [hparts]
  exact slice_parts _ _ _ rfl (by rw [closed_append, byteSize_append])

theorem ClosedBy.slice_lineStart_byteSize (hline : line < (rows t).length) :
    t.slice ⟨t.lineStart (line + 1), t.byteSize⟩ = ending.intercalate ((rows t).drop line) := by
  obtain ⟨s, hs⟩ := exists_getElem?_tails hline
  obtain ⟨hrows, hparts, hrest⟩ := h.getElem?_tails hs
  have hsize := congrArg byteSize hparts
  rw [byteSize_append] at hsize
  rw [h.lineStart hline, ← hrows, hrest.eq_intercalate, hsize]
  generalize (rows t).take line = before at hparts ⊢
  have hslice := slice_parts (closed ending before) s [] rfl rfl
  rw [append_nil] at hslice
  rw [hparts]
  exact hslice

/-- Between the end of a line and the start of the next one stands a terminator. -/
theorem ClosedBy.slice_terminator (hline : line + 1 < (rows t).length) :
    t.slice ⟨t.lineEnd (line + 1), t.lineStart (line + 1 + 1)⟩ = ending := by
  obtain ⟨s, hs⟩ := exists_getElem?_tails hline
  obtain ⟨-, hparts, -⟩ := h.getElem?_tails hs
  have hrow : (rows t)[line]? = some ((rows t)[line]) := getElem?_eq_getElem (by omega)
  have hend : t.lineEnd (line + 1) =
      byteSize (closed ending ((rows t).take line) ++ (rows t)[line]) := by
    rw [lineEnd_eq_row hrow, h.lineStart (by omega), byteSize_append]
  rw [closed_take_succ ending hrow, append_assoc _ ending] at hparts
  rw [h.lineStart_succ hline, hend]
  generalize closed ending ((rows t).take line) ++ (rows t)[line] = before at hparts ⊢
  rw [hparts]
  exact slice_parts before ending s rfl rfl

theorem ClosedBy.lineEnd_last (hline : line + 1 = (rows t).length) :
    t.lineEnd (line + 1) = t.byteSize := by
  obtain ⟨row, hrow⟩ : ∃ row, (rows t)[line]? = some row :=
    ⟨_, getElem?_eq_getElem (show line < (rows t).length by omega)⟩
  have hall : (rows t).take line ++ [row] = rows t := by
    have htake := take_add_one (l := rows t) (i := line)
    rw [hrow, hline, take_length] at htake
    exact htake.symm
  have hjoin := closed_append_intercalate ending ((rows t).take line) (cons_ne_nil row [])
  rw [hall, h.eq_intercalate, intercalate_singleton] at hjoin
  rw [lineEnd_eq_row hrow, h.lineStart (by omega), ← byteSize_append, hjoin]

end

end

variable {ending t : Text}

theorem ClosedBy.crClosed (h : ClosedBy ending t) : CrClosed t := by
  unfold ClosedBy at h
  fun_induction breaks t with
  | case1 => exact .nil
  | case2 t ih => exact .crlf (ih (forall_mem_cons.mp h).2)
  | case3 t hcr ih => exact .cons (by decide) (ih (forall_mem_cons.mp h).2)
  | case4 c t hcr hlf hc ih =>
    have hother : Break.other.terminator? = some ending := h .other (by simp)
    cases hother
  | case5 c t hcr hlf hc ih =>
    have hne : c ≠ '\r' := by
      rintro rfl
      exact hc (by decide)
    exact .cons hne (ih h)

/-- What stands between two cuts has its breaks whole. -/
theorem ClosedBy.slice (h : ClosedBy ending t) {p q : Nat} (hp : t.IsCut p) (hq : t.IsCut q)
    (hle : p ≤ q) : ClosedBy ending (t.slice ⟨p, q⟩) := by
  obtain ⟨a, b, rfl, rfl, hab⟩ := hp
  obtain ⟨c, d, hparts, rfl, hcd⟩ := hq
  obtain ⟨m, rfl, rfl⟩ := exists_middle hparts hle
  have hslice : Text.slice (a ++ (m ++ d)) ⟨byteSize a, byteSize (a ++ m)⟩ = m :=
    slice_parts a m d rfl (byteSize_append a m).symm
  have hmd : Meet m d := by
    intro hcrlf
    apply hcd
    refine ⟨?_, hcrlf.2⟩
    rw [getLast?_append, hcrlf.1]
    rfl
  rw [hslice]
  intro brk hbrk
  apply h brk
  rw [breaks_append hab, breaks_append hmd]
  exact mem_append_right _ (mem_append_left _ hbrk)

theorem CrClosed.getLast?_ne (h : CrClosed t) : t.getLast? ≠ some '\r' := by
  induction h with
  | nil => simp
  | @crlf t _ ih =>
    cases t with
    | nil => simp
    | cons c t => simpa using ih
  | @cons c t hc _ ih =>
    cases t with
    | nil => simpa using hc
    | cons d t => simpa using ih

theorem ClosedBy.meet {a : Text} (h : ClosedBy ending a) (b : Text) : Meet a b :=
  fun hcrlf => h.crClosed.getLast?_ne hcrlf.1

theorem ClosedBy.append {a b : Text} (ha : ClosedBy ending a) (hb : ClosedBy ending b) :
    ClosedBy ending (a ++ b) := by
  rw [ClosedBy, breaks_append (ha.meet b)]
  exact forall_mem_append.mpr ⟨ha, hb⟩

theorem ClosedBy.withEnding_eq (he : IsTerminator ending) (h : ClosedBy ending t) :
    withEnding ending t = t := by
  have hsplit := splitLines_intercalate he (fun row hrow => (h.plain_of_mem_rows hrow).oneLine)
    (show rows t ≠ [] from cons_ne_nil _ _)
  rw [h.eq_intercalate] at hsplit
  rw [h.crClosed.withEnding_eq, hsplit, h.eq_intercalate]

theorem Plain.breaks_eq_nil (h : Plain t) : breaks t = [] := by
  fun_induction breaks t with
  | case1 => rfl
  | case2 t ih => exact absurd (h '\r' mem_cons_self) (by decide)
  | case3 t ih => exact absurd (h '\n' mem_cons_self) (by decide)
  | case4 c t hcr hlf hbreak ih => exact absurd (h c mem_cons_self) (by simp [hbreak])
  | case5 c t hcr hlf hbreak ih => exact ih (forall_mem_cons.mp h).2

theorem closedBy_ending (he : IsTerminator ending) : ClosedBy ending ending := by
  rcases he with rfl | rfl <;> decide

theorem closedBy_of_plain (h : Plain t) : ClosedBy ending t := by
  rw [ClosedBy, h.breaks_eq_nil]
  exact forall_mem_nil _

theorem closedBy_closed (he : IsTerminator ending) (hlines : ∀ line ∈ lines, Plain line) :
    ClosedBy ending (closed ending lines) := by
  induction lines with
  | nil => exact forall_mem_nil _
  | cons line lines ih =>
    obtain ⟨hline, hlines⟩ := forall_mem_cons.mp hlines
    exact ((closedBy_of_plain hline).append (closedBy_ending he)).append (ih hlines)

/-- A text of one line whose breaks are all terminators has none. -/
theorem ClosedBy.plain_of_oneLine (h : ClosedBy ending t) (hone : OneLine t) : Plain t := by
  unfold ClosedBy at h
  fun_induction breaks t with
  | case1 => exact forall_mem_nil _
  | case2 t ih => exact absurd mem_cons_self hone.2
  | case3 t hcr ih => exact absurd mem_cons_self hone.1
  | case4 c t hcr hlf hc ih =>
    have hother : Break.other.terminator? = some ending := h .other (by simp)
    cases hother
  | case5 c t hcr hlf hc ih =>
    refine forall_mem_cons.mpr ⟨Bool.of_not_eq_true hc, ih h ?_⟩
    exact ⟨fun hmem => hone.1 (mem_cons_of_mem _ hmem), fun hmem => hone.2 (mem_cons_of_mem _ hmem)⟩

theorem Plain.tails_eq_nil (h : Plain t) : tails t = [] := by
  fun_induction tails t with
  | case1 => rfl
  | case2 t ih => exact absurd (h '\r' mem_cons_self) (by decide)
  | case3 c t hcr hbreak ih => exact absurd (h c mem_cons_self) (by simp [hbreak])
  | case4 c t hcr hbreak ih => exact ih (forall_mem_cons.mp h).2

theorem OneLine.meet {a b : Text} (hm : OneLine m) (ha : Meet a (m ++ b)) :
    Meet a m ∧ Meet (a ++ m) b := by
  refine ⟨?_, ?_⟩
  · rintro ⟨hlast, hhead⟩
    exact ha ⟨hlast, by rw [head?_append, hhead]; rfl⟩
  rintro ⟨hlast, hhead⟩
  rw [getLast?_append] at hlast
  cases hend : m.getLast? with
  | none =>
    rw [hend] at hlast
    rw [getLast?_eq_none_iff.mp hend] at ha
    exact ha ⟨hlast, hhead⟩
  | some c =>
    rw [hend] at hlast
    cases hlast
    exact hm.2 (mem_of_getLast? hend)

theorem OneLine.meet_append (hm : OneLine m) (hne : m ≠ []) (a b : Text) : Meet a (m ++ b) := by
  rintro ⟨-, hhead⟩
  cases m with
  | nil => exact hne rfl
  | cons c tail =>
    cases hhead
    exact hm.1 mem_cons_self

section

variable {t a b : Text} (ht : t = a ++ (m ++ b)) (hm : Plain m)

include ht hm

/-- A text without line breaks lies on one line. -/
theorem lineOf_plain (ha : Meet a (m ++ b)) :
    t.lineOf (byteSize a + byteSize m) = t.lineOf (byteSize a) := by
  obtain ⟨hmeet, hmeet'⟩ := hm.oneLine.meet ha
  rw [lineOf_cut ht rfl ha, lineOf_cut (a := a ++ m) (by rw [ht, append_assoc])
    (byteSize_append a m) hmeet', tails_append hmeet, hm.tails_eq_nil, append_nil, length_map]

/-- Behind a line feed a line begins. -/
theorem lineStart_lineOf (ha : ∀ c ∈ a.getLast?, c = '\n') :
    t.lineStart (t.lineOf (byteSize a + byteSize m)) = byteSize a := by
  have hmeet : Meet a (m ++ b) := by
    rintro ⟨hlast, -⟩
    cases ha '\r' hlast
  obtain ⟨s, hs⟩ : ∃ s, (a :: tails a)[(tails a).length]? = some s :=
    ⟨_, getElem?_eq_getElem (by simp)⟩
  have hsuffix := suffix_of_mem_cons_tails (mem_of_getElem? hs)
  have hnil : s = [] := by
    obtain ⟨u, rfl⟩ := hsuffix
    cases hend : s.getLast? with
    | none => exact getLast?_eq_none_iff.mp hend
    | some c =>
      obtain rfl : c = '\n' := ha c (by rw [getLast?_append, hend]; rfl)
      exact absurd (mem_of_getLast? hend) (not_mem_of_tails_eq_nil (tails_last hs))
  have hcut := getElem?_tails_cut ht hmeet hs
  rw [lineOf_plain ht hm hmeet, lineOf_cut ht rfl hmeet, lineStart_eq hcut, hnil, ht, byteSize_append]
  simp

end

end Text

end VbaRefactor
