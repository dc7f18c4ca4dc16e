import VbaRefactor.Proofs.Edit.Groups

/-!
# Groups of lines with new texts

Whole lines of a text can be given new texts in two ways: by putting the texts in place of the spans of
the lines, and by the line edits of `Refill.groupEdits`. `patchRows` says what lines come out, and both
ways give them.
-/

namespace VbaRefactor

open List Text Edit ModuleLines

variable {groups : List (LineRange × Text)} {count : Nat} {ending text : Text}

namespace Refill

/-- The groups stand behind a line in order, share no line, and end at the last of `count` lines. -/
def Laid (count line : Nat) : List (LineRange × Text) → Prop
  | [] => line ≤ count
  | (g, _) :: rest => line < g.first ∧ g.first ≤ g.last ∧ Laid count g.last rest

/-- The lines behind a line, with new texts for groups of them. -/
def patchRows (rows : List Text) (line : Nat) : List (LineRange × Text) → List Text
  | [] => rows.drop line
  | (g, out) :: rest =>
    (rows.drop line).take (g.first - 1 - line) ++ (out.splitLines ++ patchRows rows g.last rest)

/-- The spans of groups of lines, with their new texts. -/
def groupSpans (text : Text) (groups : List (LineRange × Text)) : List (Span × Text) :=
  groups.map fun g => (text.spanOfLines g.1.first g.1.last, g.2)

theorem Laid.le {line : Nat} (h : Laid count line groups) : line ≤ count := by
  induction groups generalizing line with
  | nil => exact h
  | cons g rest ih =>
    obtain ⟨hfirst, hordered, hrest⟩ := h
    have hle := ih hrest
    omega

/-! ## New texts in place of spans -/

section

variable {line : Nat}

theorem patched_lineEnd (ht : ClosedBy ending text) (he : IsTerminator ending)
    (hlaid : Laid (rows text).length (line + 1) groups)
    (hline : line + 1 < (rows text).length) :
    patched text (text.lineEnd (line + 1)) (groupSpans text groups) =
      ending ++ patched text (text.lineStart (line + 1 + 1)) (groupSpans text groups) := by
  have hend := (ht.isCut_lineEnd he (show line < _ by omega)).isBoundary
  have hstart := (ht.isCut_lineStart he hline).isBoundary
  have hsucc := ht.lineStart_succ hline
  have hterminator := ht.slice_terminator hline
  cases groups with
  | nil =>
    show text.slice ⟨_, _⟩ = ending ++ text.slice ⟨_, _⟩
    rw [← slice_add hend hstart (isBoundary_byteSize text) (by omega) hstart.le, hterminator]
  | cons g rest =>
    obtain ⟨hfirst, hordered, hrest⟩ := hlaid
    have hlast := hrest.le
    have hg := (ht.isCut_lineStart he (show g.1.first - 1 < _ by omega)).isBoundary
    have hmono := ht.lineStart_mono (show line + 1 ≤ g.1.first - 1 by omega) (by omega)
    rw [Nat.sub_add_cancel (show 1 ≤ g.1.first by omega)] at hg hmono
    show text.slice ⟨_, text.lineStart g.1.first⟩ ++ _ =
      ending ++ (text.slice ⟨_, text.lineStart g.1.first⟩ ++ _)
    rw [← slice_add hend hstart hg (by omega) hmono, hterminator, append_assoc]

/-- Putting new texts in place of the spans of groups gives the patched lines. -/
theorem splitLines_patched (ht : ClosedBy ending text) (he : IsTerminator ending)
    (hlaid : Laid (rows text).length line groups) (hout : ∀ g ∈ groups, g.2.CrClosed)
    (hline : line < (rows text).length) :
    splitLines (patched text (text.lineStart (line + 1)) (groupSpans text groups)) =
      patchRows (rows text) line groups := by
  have hrows : ∀ row ∈ rows text, row.OneLine := fun row hrow => (ht.plain_of_mem_rows hrow).oneLine
  induction groups generalizing line with
  | nil =>
    show splitLines (text.slice ⟨_, _⟩) = _
    rw [ht.slice_lineStart_byteSize hline, patchRows]
    refine splitLines_intercalate he (fun row hrow => hrows row (mem_of_mem_drop hrow)) ?_
    rw [ne_eq, drop_eq_nil_iff]
    omega
  | cons g rest ih =>
    rcases g with ⟨g, out⟩
    obtain ⟨hfirst, hordered, hrest⟩ := hlaid
    have hlast := hrest.le
    have hclosed : out.CrClosed := hout (g, out) mem_cons_self
    have hslice := ht.slice_lineStart (show line ≤ g.first - 1 by omega) (by omega)
    rw [Nat.sub_add_cancel (show 1 ≤ g.first by omega)] at hslice
    -- The new text of the group ends its last line, after which a terminator or nothing follows.
    have hafter : splitLines (out ++ patched text (text.lineEnd g.last) (groupSpans text rest)) =
        out.splitLines ++ patchRows (rows text) g.last rest := by
      obtain ⟨last, hlastEq⟩ : ∃ last, g.last = last + 1 := ⟨g.last - 1, by omega⟩
      rw [hlastEq] at hrest hlast ⊢
      rcases Nat.lt_or_eq_of_le hlast with hlt | hall
      · rw [patched_lineEnd ht he hrest hlt, splitLines_append_ending he hclosed,
          ih hrest (forall_mem_cons.mp hout).2 hlt]
      cases rest with
      | nil =>
        show splitLines (out ++ text.slice ⟨_, _⟩) = _
        rw [ht.lineEnd_last hall, slice_self, patchRows, hall, drop_length, append_nil, append_nil]
      | cons next rest =>
        have hbounds := hrest.2.2.le
        have hbehind := hrest.1
        have hnext := hrest.2.1
        omega
    show splitLines (text.slice ⟨_, text.lineStart g.first⟩ ++ (out ++ patched text _ _)) = _
    have htake : ∀ row ∈ ((rows text).drop line).take (g.first - 1 - line), row.OneLine :=
      fun row hrow => hrows row (mem_of_mem_drop (mem_of_mem_take hrow))
    rw [hslice, splitLines_closed he htake, patchRows]
    exact congrArg _ hafter

end

/-! ## The edits of a group -/

/-- The edits that give lines from `first` on new contents, where these differ. -/
def lineEdits (text : Text) (first : Nat) (lines : List (Text × Nat)) : List Edit :=
  lines.filterMap fun (line, offset) =>
    if line = text.lineText (first + offset) then none
    else some (.replace (.single (first + offset)) line)

section

variable {g : LineRange} {out : Text} {first offset : Nat} {lines : List Text} {m : ModuleLines}

theorem groupEdits_cases (hg : g.first ≤ g.last) :
    (out = text.slice (text.spanOfLines g.first g.last) ∧ groupEdits text g out = []) ∨
    (out.splitLines.length = g.last - g.first + 1 ∧
      groupEdits text g out = lineEdits text g.first out.splitLines.zipIdx) ∨
    (∃ line, out.splitLines = [line] ∧ g.first < g.last ∧
      groupEdits text g out = [.replace (.single g.first) line, .delete ⟨g.first + 1, g.last⟩]) ∨
    groupEdits text g out = [.replace g (['\n'].intercalate out.splitLines)] := by
  by_cases hsame : out = text.slice (text.spanOfLines g.first g.last)
  · exact .inl ⟨hsame, by rw [groupEdits, if_pos hsame]⟩
  right
  simp only [groupEdits, if_neg hsame]
  by_cases hcount : out.splitLines.length = g.last - g.first + 1
  · rw [if_pos hcount]
    exact .inl ⟨hcount, rfl⟩
  · right
    rw [if_neg hcount]
    split
    · rename_i line hline
      rw [hline, length_singleton] at hcount
      exact .inl ⟨line, hline, by omega, rfl⟩
    · exact .inr rfl

theorem within_lineEdits :
    ∀ e ∈ lineEdits text first (lines.zipIdx offset),
      e.Within (first + offset) (first + (offset + lines.length) - 1) := by
  intro e he
  obtain ⟨⟨line, place⟩, hp, he⟩ := mem_filterMap.mp he
  have hplace := mem_zipIdx hp
  simp only [Option.ite_none_left_eq_some, Option.some.injEq] at he
  obtain ⟨-, rfl⟩ := he
  refine ⟨_, rfl, ?_, Nat.le_refl _, ?_⟩
  · simp only [LineRange.single]
    omega
  · simp only [LineRange.single]
    omega

/-- The edits of a group take lines of the group only. -/
theorem within_groupEdits (hg : g.first ≤ g.last) :
    ∀ e ∈ groupEdits text g out, e.Within g.first g.last := by
  intro e he
  rcases groupEdits_cases hg with ⟨-, hedits⟩ | ⟨hcount, hedits⟩ | ⟨line, -, hlt, hedits⟩ | hedits
  · rw [hedits] at he
    cases he
  · rw [hedits] at he
    obtain ⟨r, hr, hbounds⟩ := within_lineEdits e he
    exact ⟨r, hr, by omega⟩
  · rw [hedits] at he
    rcases mem_cons.mp he with rfl | he
    · exact ⟨_, rfl, Nat.le_refl _, Nat.le_refl _, hg⟩
    · obtain rfl := mem_singleton.mp he
      exact ⟨_, rfl, Nat.le_succ _, hlt, Nat.le_refl _⟩
  · rw [hedits] at he
    obtain rfl := mem_singleton.mp he
    exact ⟨g, rfl, Nat.le_refl _, hg, Nat.le_refl _⟩

theorem lineEdits_cons (text : Text) (first : Nat) (line : Text) (offset : Nat)
    (rest : List (Text × Nat)) :
    lineEdits text first ((line, offset) :: rest) =
      (if line = text.lineText (first + offset) then []
      else [.replace (.single (first + offset)) line]) ++ lineEdits text first rest := by
  by_cases hsame : line = text.lineText (first + offset)
  · simp [lineEdits, ← hsame]
  · simp [lineEdits, hsame]

/-- The edit of a line gives it its new content, and no edit is needed where it has it already. -/
theorem placeLines_lineEdit (hm : m.lines = rows text) {line : Text} (hline : line.OneLine)
    {number : Nat} (hnumber : 0 < number) (hlast : number ≤ (rows text).length) :
    m.placeLines (if line = text.lineText number then [] else [.replace (.single number) line]) number =
      [line] := by
  split
  · rename_i hsame
    have hget := getElem?_eq_getElem (l := rows text) (i := number - 1) (by omega)
    have htext := lineText_eq_row hget
    rw [Nat.sub_add_cancel hnumber] at htext
    rw [m.placeLines_of_silent (by simp), hm, hget, hsame, htext]
    rfl
  · rw [← hline.splitLines]
    simp [placeLines, insertedText?, replacedText?, LineRange.single]

theorem placesFrom_lineEdits (hm : m.lines = rows text) (hlines : ∀ line ∈ lines, line.OneLine)
    (hfirst : 0 < first) (hlast : first + (offset + lines.length) ≤ (rows text).length + 1) :
    m.placesFrom (lineEdits text first (lines.zipIdx offset)) (first + offset) lines.length = lines := by
  induction lines generalizing offset with
  | nil => simp [placesFrom]
  | cons line rest ih =>
    rw [length_cons] at hlast
    have hrest : m.placesFrom (lineEdits text first (rest.zipIdx (offset + 1))) (first + offset + 1)
        rest.length = rest := ih (forall_mem_cons.mp hlines).2 (by omega)
    have hahead : ∀ e ∈ lineEdits text first (rest.zipIdx (offset + 1)), e.Silent (first + offset) :=
      fun e he => (within_lineEdits e he).silent (by omega)
    rw [zipIdx_cons, length_cons, placesFrom_succ, lineEdits_cons, m.placeLines_append_left hahead,
      placeLines_lineEdit hm (hlines line mem_cons_self) (by omega) (by omega)]
    apply congrArg (line :: ·)
    refine (placesFrom_congr ?_).trans hrest
    intro k hk _
    apply m.placeLines_append_right
    intro e he
    split at he
    · cases he
    · obtain rfl := mem_singleton.mp he
      exact Within.silent ⟨_, rfl, Nat.le_refl _, Nat.le_refl _, Nat.le_refl _⟩ (.inr hk)

theorem placesFrom_replace (m : ModuleLines) {first last : Nat} (hle : first ≤ last) {new : List Text}
    {edits : List Edit} (hplace : m.placeLines edits first = new)
    (htaken : ∀ k, first < k → k ≤ last → m.placeLines edits k = []) :
    m.placesFrom edits first (last - first + 1) = new := by
  have hrest : m.placesFrom edits (first + 1) (last - first) = [] := by
    rw [placesFrom, flatMap_eq_nil_iff]
    intro k hk
    rw [mem_range'_1] at hk
    exact htaken k (by omega) (by omega)
  rw [placesFrom_succ, hrest, hplace, append_nil]

/-- New lines stand at the first line that an edit takes, and nothing at the others. -/
theorem placesFrom_singleton (m : ModuleLines) {e : Edit} (he : e.range? = some g)
    (hle : g.first ≤ g.last) : m.placesFrom [e] g.first (g.last - g.first + 1) = e.output := by
  refine placesFrom_replace m hle ?_ ?_
  · cases e <;> cases he <;>
      simp [placeLines, insertedText?, replacedText?, takesLine, range?, LineRange.holds, output, hle]
  · intro k hk hlast
    have hne : g.first ≠ k := by omega
    have htakes : g.first ≤ k ∧ k ≤ g.last := by omega
    cases e <;> cases he <;>
      simp [placeLines, insertedText?, replacedText?, takesLine, range?, LineRange.holds, hne, htakes]

section

variable (ht : ClosedBy ending text) (he : IsTerminator ending)

include ht he

theorem splitLines_slice_spanOfLines (hfirst : 0 < g.first) (hordered : g.first ≤ g.last)
    (hlast : g.last ≤ (rows text).length) :
    splitLines (text.slice (text.spanOfLines g.first g.last)) =
      ((rows text).drop (g.first - 1)).take (g.last - g.first + 1) := by
  have hparts : rows text = (rows text).take (g.first - 1) ++
      (((rows text).drop (g.first - 1)).take (g.last - g.first + 1) ++
        ((rows text).drop (g.first - 1)).drop (g.last - g.first + 1)) := by
    rw [take_append_drop, take_append_drop]
  have hbefore : ((rows text).take (g.first - 1)).length = g.first - 1 := by
    rw [length_take]
    omega
  have hmiddle : (((rows text).drop (g.first - 1)).take (g.last - g.first + 1)).length =
      g.last - g.first + 1 := by
    rw [length_take, length_drop]
    omega
  have hne : ((rows text).drop (g.first - 1)).take (g.last - g.first + 1) ≠ [] := by
    intro hnil
    rw [hnil] at hmiddle
    simp at hmiddle
  have hslice := ht.slice_spanOfLines hparts hne
  rw [hbefore, hmiddle, Nat.sub_add_cancel hfirst,
    show g.first - 1 + (g.last - g.first + 1) = g.last by omega] at hslice
  rw [hslice]
  refine splitLines_intercalate he ?_ hne
  intro row hrow
  exact (ht.plain_of_mem_rows (mem_of_mem_drop (mem_of_mem_take hrow))).oneLine

/-- All kinds of edits for a group put the lines of its new text in its place. -/
theorem placesFrom_groupEdits {m : ModuleLines} (hm : m.lines = rows text)
    (hfirst : 0 < g.first) (hordered : g.first ≤ g.last) (hlast : g.last ≤ (rows text).length)
    (hout : out.CrClosed) :
    m.placesFrom (groupEdits text g out) g.first (g.last - g.first + 1) = out.splitLines := by
  rcases groupEdits_cases hordered with
    ⟨hsame, hedits⟩ | ⟨hcount, hedits⟩ | ⟨line, hline, hlt, hedits⟩ | hedits
  · have hplaces : m.placesFrom [] (g.first - 1 + 1) (g.last - g.first + 1) =
        (m.lines.drop (g.first - 1)).take (g.last - g.first + 1) := m.placesFrom_of_silent (by simp)
    rw [Nat.sub_add_cancel hfirst, hm] at hplaces
    rw [hedits, hplaces, hsame, splitLines_slice_spanOfLines ht he hfirst hordered hlast]
  · have hplaces : m.placesFrom (lineEdits text g.first (out.splitLines.zipIdx 0)) (g.first + 0)
        out.splitLines.length = out.splitLines :=
      placesFrom_lineEdits hm hout.oneLine_of_mem hfirst (by omega)
    rw [hcount, Nat.add_zero] at hplaces
    rw [hedits, hplaces]
  · have hone : line.OneLine := hout.oneLine_of_mem line (by simp [hline])
    rw [hedits, hline, ← hone.splitLines]
    apply placesFrom_replace m hordered
    · simp [placeLines, insertedText?, replacedText?, LineRange.single]
    · intro k hk hle
      have hne : g.first ≠ k := by omega
      have htakes : g.first + 1 ≤ k ∧ k ≤ g.last := by omega
      simp [placeLines, insertedText?, replacedText?, takesLine,
        range?, LineRange.holds, LineRange.single, hne, htakes]
  · have hlines := splitLines_intercalate (.inl rfl) hout.oneLine_of_mem (splitLines_ne_nil out)
    rw [hedits]
    exact (placesFrom_singleton m rfl hordered).trans hlines

end

end

/-! ## The edits of all groups -/

/-- The edits of groups in order. -/
def patchEdits (text : Text) (groups : List (LineRange × Text)) : List Edit :=
  groups.flatMap fun g => groupEdits text g.1 g.2

section

variable {line : Nat}

theorem within_patchEdits (hlaid : Laid count line groups) :
    ∀ e ∈ patchEdits text groups, e.Within (line + 1) count := by
  induction groups generalizing line with
  | nil => simp [patchEdits]
  | cons g rest ih =>
    obtain ⟨hfirst, hordered, hrest⟩ := hlaid
    have hlast := hrest.le
    intro e he
    rcases mem_append.mp he with he | he
    · obtain ⟨r, hr, hbounds⟩ := within_groupEdits hordered e he
      exact ⟨r, hr, by omega⟩
    · obtain ⟨r, hr, hbounds⟩ := ih hrest e he
      exact ⟨r, hr, by omega⟩

/-- The edits of all groups give the patched lines. -/
theorem placesFrom_patchEdits (ht : ClosedBy ending text) (he : IsTerminator ending)
    {m : ModuleLines} (hm : m.lines = rows text)
    (hlaid : Laid (rows text).length line groups) (hout : ∀ g ∈ groups, g.2.CrClosed)
    {before : List Edit} (hbefore : ∀ e ∈ before, e.Within 1 line) :
    m.placesFrom (before ++ patchEdits text groups) (line + 1) ((rows text).length + 1 - line) =
      patchRows (rows text) line groups := by
  have hsilent {k : Nat} (hk : line < k) : ∀ e ∈ before, e.Silent k :=
    fun e he => (hbefore e he).silent (.inr hk)
  induction groups generalizing line before with
  | nil =>
    have hall : ∀ k, line < k → k ≤ line + ((rows text).length + 1 - line) →
        ∀ e ∈ before ++ patchEdits text [], e.Silent k := by
      intro k hk _
      rw [patchEdits, flatMap_nil, append_nil]
      exact hsilent hk
    rw [m.placesFrom_of_silent hall, hm, patchRows, take_of_length_le]
    rw [length_drop]
    omega
  | cons g rest ih =>
    rcases g with ⟨g, out⟩
    obtain ⟨hfirst, hordered, hrest⟩ := hlaid
    have hlast := hrest.le
    have hgroup : ∀ e ∈ groupEdits text g out, e.Within g.first g.last := within_groupEdits hordered
    have hafter : ∀ e ∈ patchEdits text rest, e.Within (g.last + 1) (rows text).length :=
      within_patchEdits hrest
    have hedits : patchEdits text ((g, out) :: rest) = groupEdits text g out ++ patchEdits text rest :=
      rfl
    have hcount : (rows text).length + 1 - line = (g.first - 1 - line) +
        ((g.last - g.first + 1) + ((rows text).length + 1 - g.last)) := by omega
    have huntouched : m.placesFrom (before ++ (groupEdits text g out ++ patchEdits text rest)) (line + 1)
        (g.first - 1 - line) = ((rows text).drop line).take (g.first - 1 - line) := by
      rw [← hm]
      apply m.placesFrom_of_silent
      intro k hk hle e he
      rcases mem_append.mp he with he | he
      · exact hsilent hk e he
      · rcases mem_append.mp he with he | he
        · exact (hgroup e he).silent (by omega)
        · exact (hafter e he).silent (by omega)
    have hhere : m.placesFrom (before ++ (groupEdits text g out ++ patchEdits text rest)) g.first
        (g.last - g.first + 1) = out.splitLines := by
      refine (placesFrom_congr ?_).trans
        (placesFrom_groupEdits ht he hm (by omega) hordered hlast (hout _ mem_cons_self))
      intro k hk hlt
      rw [m.placeLines_append_right (hsilent (by omega))]
      exact m.placeLines_append_left fun e he => (hafter e he).silent (by omega)
    have hsofar : ∀ e ∈ before ++ groupEdits text g out, e.Within 1 g.last := by
      intro e he
      rcases mem_append.mp he with he | he
      · obtain ⟨r, hr, hbounds⟩ := hbefore e he
        exact ⟨r, hr, by omega⟩
      · obtain ⟨r, hr, hbounds⟩ := hgroup e he
        exact ⟨r, hr, by omega⟩
    have hthere := ih hrest (forall_mem_cons.mp hout).2 hsofar
      fun hk e he => (hsofar e he).silent (.inr hk)
    rw [append_assoc] at hthere
    rw [hcount, placesFrom_add, placesFrom_add,
      show line + 1 + (g.first - 1 - line) = g.first by omega,
      show g.first + (g.last - g.first + 1) = g.last + 1 by omega, patchRows, hedits, huntouched, hhere,
      hthere]

end

end Refill

end VbaRefactor
