import VbaRefactor.Edit.Basic

/-!
# Line breaks and the lines between them

A text is cut into lines in two ways at once: a line starts after any line break, and it ends before
the next line feed. `breaks` lists the line breaks of a text, and `rejoined` is the text that its own
lines give when they are put together again. The two cuts agree, and the text comes back, exactly
where all breaks are of one kind, LF or CR LF.
-/

namespace VbaRefactor

open List

/-- The kinds of line breaks. -/
inductive Break where
  | lf
  | crlf
  /-- A carriage return alone, VT, FF, NEL, LS or PS. -/
  | other
deriving DecidableEq, Repr

/-- The break as it stands in the text, where it is one that can close a line. -/
def Break.terminator? : Break → Option Text
  | .lf => some ['\n']
  | .crlf => some ['\r', '\n']
  | .other => none

/-- The number of characters that a break takes away from the lines around it. -/
def Break.width (b : Break) : Nat := (b.terminator?.map List.length).getD 0

namespace Text

/-- The line breaks of a text in order. -/
def breaks : Text → List Break
  | [] => []
  | '\r' :: '\n' :: t => .crlf :: breaks t
  | c :: t =>
    if c = '\n' then .lf :: breaks t
    else if isLineBreak c then .other :: breaks t
    else breaks t

/-- What follows each line break, in order. -/
def tails : Text → List Text
  | [] => []
  | '\r' :: '\n' :: t => t :: tails t
  | c :: t => if isLineBreak c then t :: tails t else tails t

/-- The text up to its first line feed, without the carriage return that this line feed closes. -/
def headLine (t : Text) : Text :=
  if '\n' ∈ t then dropCr (t.takeWhile (· != '\n')) else t

/-- The lines that start at the beginning and after each line break, with `ending` between them. -/
def rejoined (ending t : Text) : Text := ending.intercalate ((t :: t.tails).map headLine)

/-! ## One character at a time -/

section

variable {c : Char} {t : Text}

theorem breaks_crlf (t : Text) : breaks ('\r' :: '\n' :: t) = .crlf :: breaks t := by
  simp [breaks]

theorem tails_crlf (t : Text) : tails ('\r' :: '\n' :: t) = t :: tails t := by
  simp [tails]

theorem tails_of_isLineBreak (hcr : ∀ s, c = '\r' → t = '\n' :: s → False)
    (hc : isLineBreak c = true) : tails (c :: t) = t :: tails t := by
  rw [tails.eq_3 c t hcr, if_pos hc]

theorem tails_of_not_isLineBreak (hcr : ∀ s, c = '\r' → t = '\n' :: s → False)
    (hc : ¬ isLineBreak c = true) : tails (c :: t) = tails t := by
  rw [tails.eq_3 c t hcr, if_neg hc]

@[simp]
theorem headLine_nil : headLine [] = [] := rfl

theorem headLine_lf (t : Text) : headLine ('\n' :: t) = [] := by
  simp [headLine, dropCr]

theorem headLine_crlf (t : Text) : headLine ('\r' :: '\n' :: t) = [] := by
  simp [headLine, dropCr]

theorem dropCr_cons {s : Text} (hs : s ≠ []) : dropCr (c :: s) = c :: dropCr s := by
  obtain ⟨d, s, rfl⟩ := exists_cons_of_ne_nil hs
  simp only [dropCr, getLast?_cons_cons, dropLast_cons_cons]
  split <;> rfl

theorem headLine_cons (hcr : ∀ s, c = '\r' → t = '\n' :: s → False) (hc : c ≠ '\n') :
    headLine (c :: t) = c :: headLine t := by
  by_cases hmem : '\n' ∈ t
  · have htake : (c :: t).takeWhile (· != '\n') = c :: t.takeWhile (· != '\n') := by
      simp [hc]
    rw [headLine, headLine, if_pos hmem, if_pos (mem_cons_of_mem c hmem), htake]
    by_cases hempty : t.takeWhile (· != '\n') = []
    · -- The line feed follows at once, so `c` is no carriage return.
      have hne : c ≠ '\r' := by
        intro heq
        cases t with
        | nil => simp at hmem
        | cons d t =>
          have hd : d = '\n' := by simpa [takeWhile_cons] using hempty
          exact hcr t heq (by rw [hd])
      rw [hempty]
      simp [dropCr, hne]
    · exact dropCr_cons hempty
  · have hmem' : '\n' ∉ c :: t := by simp [hmem, Ne.symm hc]
    rw [headLine, headLine, if_neg hmem, if_neg hmem']

end

/-! ## Lines as the heads of what follows the breaks -/

theorem byteSize_le_of_suffix {s t : Text} (h : s <:+ t) : byteSize s ≤ byteSize t := by
  obtain ⟨a, rfl⟩ := h
  rw [byteSize_append]
  omega

theorem suffix_of_mem_tails {s t : Text} (h : s ∈ tails t) : s <:+ t := by
  fun_induction tails t with
  | case1 => simp at h
  | case2 t ih =>
    have hsub : s <:+ t := by
      rcases mem_cons.mp h with rfl | h
      · exact suffix_refl _
      · exact ih h
    exact hsub.trans ⟨['\r', '\n'], rfl⟩
  | case3 c t _ _ ih =>
    have hsub : s <:+ t := by
      rcases mem_cons.mp h with rfl | h
      · exact suffix_refl _
      · exact ih h
    exact hsub.trans (suffix_cons c t)
  | case4 c t _ _ ih => exact (ih h).trans (suffix_cons c t)

theorem suffix_of_mem_cons_tails {s t : Text} (h : s ∈ t :: tails t) : s <:+ t := by
  rcases mem_cons.mp h with rfl | h
  · exact suffix_refl _
  · exact suffix_of_mem_tails h

theorem map_tails_shift (pos k : Nat) (t : Text) :
    (tails t).map (fun s => pos + k + (byteSize t - byteSize s)) =
      (tails t).map fun s => pos + (k + byteSize t - byteSize s) := by
  apply map_congr_left
  intro s hs
  have hle := byteSize_le_of_suffix (suffix_of_mem_tails hs)
  omega

/-- A line starts where what follows a break starts. -/
theorem startsFrom_eq_map_tails (pos : Nat) (t : Text) :
    startsFrom pos t = (tails t).map fun s => pos + (byteSize t - byteSize s) := by
  fun_induction startsFrom pos t with
  | case1 => rfl
  | case2 pos t ih =>
    have hsize : byteSize ('\r' :: '\n' :: t) = 2 + byteSize t := by
      rw [byteSize_cons, byteSize_cons, ← Nat.add_assoc]
      rfl
    rw [ih, tails_crlf, map_cons, hsize, map_tails_shift, Nat.add_sub_cancel]
  | case3 pos c t hcr hc ih =>
    rw [ih, tails_of_isLineBreak hcr hc, map_cons, byteSize_cons, map_tails_shift,
      Nat.add_sub_cancel]
  | case4 pos c t hcr hc ih =>
    rw [ih, tails_of_not_isLineBreak hcr hc, byteSize_cons, map_tails_shift]

theorem lineStarts_eq_map (t : Text) :
    t.lineStarts = (t :: tails t).map fun s => byteSize t - byteSize s := by
  simp [lineStarts, startsFrom_eq_map_tails]

section

variable {t s : Text} {line : Nat}

theorem lineStart_eq (h : (t :: tails t)[line]? = some s) :
    t.lineStart (line + 1) = byteSize t - byteSize s := by
  rw [lineStart, lineStarts_eq_map, Nat.add_sub_cancel, getElem?_map, h]
  rfl

theorem headLine_prefix (t : Text) : headLine t <+: t := by
  rw [headLine]
  split
  · rw [dropCr]
    split
    · exact (List.dropLast_prefix _).trans (List.takeWhile_prefix _)
    · exact List.takeWhile_prefix _
  · exact prefix_refl t

theorem length_takeWhile_lt_iff (t : Text) :
    (t.takeWhile (· != '\n')).length < t.length ↔ '\n' ∈ t := by
  induction t with
  | nil => simp
  | cons c t ih =>
    by_cases hc : c = '\n'
    · simp [hc]
    · simp [hc, ih, Ne.symm hc]

/-- A line ends where the head of what starts there ends. -/
theorem lineEnd_eq (h : (t :: tails t)[line]? = some s) :
    t.lineEnd (line + 1) = byteSize t - byteSize s + byteSize (headLine s) := by
  obtain ⟨a, ha⟩ := suffix_of_mem_cons_tails (mem_of_getElem? h)
  have hstart : byteSize t - byteSize s = byteSize a := by
    rw [← ha, byteSize_append, Nat.add_sub_cancel]
  have hdrop : t.dropBytes (byteSize a) = s := by rw [← ha, dropBytes_append]
  simp only [lineEnd]
  rw [lineStart_eq h, hstart, hdrop]
  rw [headLine]
  by_cases hmem : '\n' ∈ s
  · rw [if_pos ((length_takeWhile_lt_iff s).mpr hmem), if_pos hmem]
  · rw [if_neg (mt (length_takeWhile_lt_iff s).mp hmem), if_neg hmem, ← ha, byteSize_append]

theorem lineText_eq (h : (t :: tails t)[line]? = some s) : t.lineText (line + 1) = headLine s := by
  obtain ⟨a, ha⟩ := suffix_of_mem_cons_tails (mem_of_getElem? h)
  obtain ⟨b, hb⟩ := headLine_prefix s
  have hstart : byteSize t - byteSize s = byteSize a := by
    rw [← ha, byteSize_append, Nat.add_sub_cancel]
  rw [lineText, lineStart_eq h, lineEnd_eq h, hstart]
  have hcut : t = a ++ (headLine s ++ b) := by rw [hb, ha]
  calc
    t.slice ⟨byteSize a, byteSize a + byteSize (headLine s)⟩
      = slice (a ++ (headLine s ++ b)) ⟨byteSize a, byteSize a + byteSize (headLine s)⟩ := by
        rw [← hcut]
    _ = headLine s := slice_append a (headLine s) b

end

theorem length_lineStarts (t : Text) : t.lineStarts.length = (tails t).length + 1 := by
  simp [lineStarts_eq_map]

variable {b : Break} {t : Text}

theorem endsWithNewline_cons {c : Char} (ht : t ≠ []) :
    endsWithNewline (c :: t) = endsWithNewline t := by
  obtain ⟨d, t, rfl⟩ := exists_cons_of_ne_nil ht
  simp [endsWithNewline]

/-- Nothing follows the last break of a text that ends with a line feed. -/
theorem getLast?_tails (h : t.endsWithNewline = true) : (tails t).getLast? = some [] := by
  fun_induction tails t with
  | case1 => simp [endsWithNewline] at h
  | case2 t ih =>
    by_cases ht : t = []
    · simp [ht, tails]
    · rw [endsWithNewline_cons (by simp), endsWithNewline_cons ht] at h
      simp [getLast?_cons, ih h]
  | case3 c t _ _ ih =>
    by_cases ht : t = []
    · simp [ht, tails]
    · rw [endsWithNewline_cons ht] at h
      simp [getLast?_cons, ih h]
  | case4 c t _ hc ih =>
    by_cases ht : t = []
    · have hlf : c = '\n' := by simpa [ht, endsWithNewline] using h
      simp [hlf, isLineBreak] at hc
    · rw [endsWithNewline_cons ht] at h
      exact ih h

theorem lineCount_le (t : Text) : t.lineCount ≤ (t :: tails t).length := by
  rw [lineCount, length_lineStarts, length_cons]
  split <;> omega

theorem lines_eq_map_take (t : Text) : t.lines = ((t :: tails t).take t.lineCount).map headLine := by
  have hle := lineCount_le t
  apply ext_getElem
  · rw [lines, length_map, length_map, length_range, length_take]
    omega
  · intro i hi _
    simp only [lines, length_map, length_range] at hi
    have hget : (t :: tails t)[i]? = some ((t :: tails t)[i]) := getElem?_eq_getElem (by omega)
    simp only [lines, getElem_map, getElem_range, getElem_take]
    exact lineText_eq hget

theorem intercalate_append {α : Type} (sep : List α) {xs ys : List (List α)} (hx : xs ≠ [])
    (hy : ys ≠ []) :
    sep.intercalate (xs ++ ys) = sep.intercalate xs ++ sep ++ sep.intercalate ys := by
  induction xs with
  | nil => exact absurd rfl hx
  | cons x xs ih =>
    cases xs with
    | nil =>
      obtain ⟨y, ys, rfl⟩ := exists_cons_of_ne_nil hy
      simp
    | cons x' xs =>
      have ih := ih (by simp)
      simp only [cons_append, intercalate_cons_cons] at ih ⊢
      rw [ih]
      simp

/-- The empty line after a final break is the only one that is not counted. -/
theorem map_headLine_eq (t : Text) :
    (t :: tails t).map headLine = t.lines ++ if t.endsWithNewline then [[]] else [] := by
  rw [lines_eq_map_take]
  by_cases htrail : t.endsWithNewline = true
  · obtain ⟨before, hbefore⟩ := getLast?_eq_some_iff.mp (getLast?_tails htrail)
    have hcount : t.lineCount = (t :: before).length := by
      rw [lineCount, if_pos htrail, length_lineStarts, hbefore]
      simp
    have htake : (t :: tails t).take t.lineCount = t :: before := by
      rw [hcount, hbefore, ← cons_append, take_left]
    rw [htake, hbefore, ← cons_append, map_append, if_pos htrail]
    rfl
  · have hcount : t.lineCount = (t :: tails t).length := by
      rw [lineCount, if_neg htrail, length_lineStarts, length_cons]
    rw [hcount, take_length, if_neg htrail, append_nil]

/-- A terminator at the end is one before an empty last line. -/
theorem joinLines_eq (lines : List Text) (ending : Text) (trailing : Bool) :
    joinLines lines ending trailing =
      ending.intercalate (lines ++ if trailing then [[]] else []) := by
  rw [joinLines]
  cases trailing with
  | false => simp
  | true =>
    by_cases hempty : lines = []
    · simp [hempty]
    · rw [if_pos rfl, intercalate_append _ hempty (by simp)]
      simp [hempty]

/-- The lines of a text joined again by its own terminator. -/
theorem text_ofText (t : Text) : (ModuleLines.ofText t).text = rejoined t.lineEnding t := by
  show joinLines t.lines t.lineEnding t.endsWithNewline = _
  rw [joinLines_eq, ← map_headLine_eq, rejoined]

/-! ## Which texts come back -/

section

variable {c : Char} {t : Text} (ending : Text)

theorem rejoined_lf (t : Text) : rejoined ending ('\n' :: t) = ending ++ rejoined ending t := by
  have htails : tails ('\n' :: t) = t :: tails t := tails_of_isLineBreak (by simp) (by decide)
  simp [rejoined, htails, intercalate_cons_cons, headLine_lf]

theorem rejoined_crlf (t : Text) :
    rejoined ending ('\r' :: '\n' :: t) = ending ++ rejoined ending t := by
  simp [rejoined, tails_crlf, intercalate_cons_cons, headLine_crlf]

/-- After a break that closes no line, the line goes on, and what follows is there twice. -/
theorem rejoined_other (hcr : ∀ s, c = '\r' → t = '\n' :: s → False) (hlf : c ≠ '\n')
    (hc : isLineBreak c = true) :
    rejoined ending (c :: t) = c :: (headLine t ++ (ending ++ rejoined ending t)) := by
  simp [rejoined, tails_of_isLineBreak hcr hc, intercalate_cons_cons, headLine_cons hcr hlf]

theorem rejoined_plain (hcr : ∀ s, c = '\r' → t = '\n' :: s → False) (hlf : c ≠ '\n')
    (hc : ¬ isLineBreak c = true) : rejoined ending (c :: t) = c :: rejoined ending t := by
  simp only [rejoined, tails_of_not_isLineBreak hcr hc, map_cons, headLine_cons hcr hlf,
    intercalate_cons_cons_left]

/-- Rejoining with a terminator that no break is wider than loses no characters, and adds none only
where every break is as wide. -/
theorem length_le_length_rejoined {t : Text} (h : ∀ b ∈ breaks t, b.width ≤ ending.length) :
    t.length ≤ (rejoined ending t).length ∧
      ((rejoined ending t).length ≤ t.length → ∀ b ∈ breaks t, b.width = ending.length) := by
  fun_induction breaks t with
  | case1 => simp [rejoined, tails]
  | case2 t ih =>
    obtain ⟨hwidth, htail⟩ := forall_mem_cons.mp h
    obtain ⟨hle, heq⟩ := ih htail
    have hbreak : Break.crlf.width = 2 := rfl
    simp only [rejoined_crlf, length_cons, length_append, forall_mem_cons]
    exact ⟨by omega, fun hlength => ⟨by omega, heq (by omega)⟩⟩
  | case3 t hcr ih =>
    obtain ⟨hwidth, htail⟩ := forall_mem_cons.mp h
    obtain ⟨hle, heq⟩ := ih htail
    have hbreak : Break.lf.width = 1 := rfl
    simp only [rejoined_lf, length_cons, length_append, forall_mem_cons]
    exact ⟨by omega, fun hlength => ⟨by omega, heq (by omega)⟩⟩
  | case4 c t hcr hlf hc ih =>
    obtain ⟨hle, heq⟩ := ih (forall_mem_cons.mp h).2
    have hbreak : Break.other.width = 0 := rfl
    simp only [rejoined_other ending hcr hlf hc, length_cons, length_append, forall_mem_cons]
    exact ⟨by omega, fun hlength => ⟨by omega, heq (by omega)⟩⟩
  | case5 c t hcr hlf hc ih =>
    obtain ⟨hle, heq⟩ := ih h
    simp only [rejoined_plain ending hcr hlf hc, length_cons]
    exact ⟨by omega, fun hlength => heq (by omega)⟩

/-- A text comes back where its only break is the one it is joined with. -/
theorem rejoined_eq_self (h : ∀ b ∈ breaks t, b.terminator? = some ending) : rejoined ending t = t := by
  fun_induction breaks t with
  | case1 => simp [rejoined, tails]
  | case2 t ih =>
    have hending : some ['\r', '\n'] = some ending := h .crlf (by simp)
    rw [rejoined_crlf, ih (forall_mem_cons.mp h).2, ← Option.some.inj hending]
    rfl
  | case3 t hcr ih =>
    have hending : some ['\n'] = some ending := h .lf (by simp)
    rw [rejoined_lf, ih (forall_mem_cons.mp h).2, ← Option.some.inj hending]
    rfl
  | case4 c t hcr hlf hc ih => exact absurd (h .other (by simp)) (by simp [Break.terminator?])
  | case5 c t hcr hlf hc ih => rw [rejoined_plain ending hcr hlf hc, ih h]

end

theorem hasCrLf_iff (t : Text) : t.hasCrLf = true ↔ .crlf ∈ breaks t := by
  fun_induction breaks t with
  | case1 => simp [hasCrLf]
  | case2 t ih => simp [hasCrLf]
  | case3 t hcr ih => simp [hasCrLf, ih]
  | case4 c t hcr hlf hc ih => simp [hasCrLf.eq_2 c t hcr, ih]
  | case5 c t hcr hlf hc ih => simp [hasCrLf.eq_2 c t hcr, ih]

theorem lineEnding_eq (t : Text) :
    t.lineEnding = if .crlf ∈ breaks t then ['\r', '\n'] else ['\n'] := by
  simp [lineEnding, hasCrLf_iff]

theorem width_le_length_lineEnding (hb : b ∈ breaks t) : b.width ≤ t.lineEnding.length := by
  rw [lineEnding_eq]
  cases b with
  | lf => split <;> decide
  | crlf => rw [if_pos hb]; decide
  | other => exact Nat.zero_le _

theorem terminator?_of_width (h : b.width = t.lineEnding.length) :
    b.terminator? = some t.lineEnding := by
  rw [lineEnding_eq] at h ⊢
  by_cases hcrlf : .crlf ∈ breaks t
  · rw [if_pos hcrlf] at h ⊢
    cases b with
    | crlf => rfl
    | lf | other => exact absurd h (by decide)
  · rw [if_neg hcrlf] at h ⊢
    cases b with
    | lf => rfl
    | crlf | other => exact absurd h (by decide)

/-- The text that its lines give is the text itself where every break is the terminator. -/
theorem text_ofText_eq_self_iff (t : Text) :
    (ModuleLines.ofText t).text = t ↔ ∀ b ∈ breaks t, b.terminator? = some t.lineEnding := by
  rw [text_ofText]
  constructor
  · intro h b hb
    have hwidth := (length_le_length_rejoined t.lineEnding fun b => width_le_length_lineEnding).2
      (Nat.le_of_eq (congrArg List.length h))
    exact terminator?_of_width (hwidth b hb)
  · exact rejoined_eq_self t.lineEnding

/-- No break but LF and CR LF, and not both of them. -/
def Unmixed (t : Text) : Prop :=
  (∀ b ∈ breaks t, b = .lf ∨ b = .crlf) ∧ ¬ (.lf ∈ breaks t ∧ .crlf ∈ breaks t)

instance (t : Text) : Decidable t.Unmixed := inferInstanceAs (Decidable (_ ∧ _))

theorem unmixed_iff (t : Text) :
    t.Unmixed ↔ ∀ b ∈ breaks t, b.terminator? = some t.lineEnding := by
  rw [lineEnding_eq]
  constructor
  · rintro ⟨hkind, hboth⟩ b hb
    by_cases hcrlf : .crlf ∈ breaks t
    · rw [if_pos hcrlf]
      rcases hkind b hb with rfl | rfl
      · exact absurd ⟨hb, hcrlf⟩ hboth
      · rfl
    · rw [if_neg hcrlf]
      rcases hkind b hb with rfl | rfl
      · rfl
      · exact absurd hb hcrlf
  · intro h
    refine ⟨?_, ?_⟩
    · intro b hb
      cases b with
      | lf => exact .inl rfl
      | crlf => exact .inr rfl
      | other => exact absurd (h _ hb) (by simp [Break.terminator?])
    · rintro ⟨hlf, hcrlf⟩
      have hending := h _ hlf
      rw [if_pos hcrlf] at hending
      exact absurd hending (by decide)

/-- Lines start after any break and end at the next line feed. Putting the lines of a text together
again gives the text back exactly where it has no break but LF and CR LF, and not both. -/
theorem rejoin_lines_eq_self_iff (t : Text) :
    t.lineStarts = ((t :: tails t).map fun s => byteSize t - byteSize s) ∧
    t.lines = ((t :: tails t).take t.lineCount).map headLine ∧
    (joinLines t.lines t.lineEnding t.endsWithNewline = t ↔ t.Unmixed) := by
  refine ⟨lineStarts_eq_map t, lines_eq_map_take t, ?_⟩
  rw [unmixed_iff]
  exact text_ofText_eq_self_iff t

end Text

end VbaRefactor
