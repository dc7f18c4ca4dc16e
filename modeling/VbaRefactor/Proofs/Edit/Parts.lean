import Mathlib.Data.List.Perm.Basic
import VbaRefactor.Proofs.Edit.Substitution

/-!
# Changes made by edits of lines

Edits can come in any order, as long as those of each part keep to lines of their own. What they make
of a module is its text with all changes put in place of their spans. Lines that are inserted besides
stand between what the changes before and behind them make.
-/

namespace VbaRefactor

open List Text Edit ModuleLines

variable {m : ModuleLines} {line pos : Nat} {added : Text} {α : Type}

namespace Refill

/-! ## Changes one after another -/

/-- The text from `pos` to `stop` with other texts in place of spans. -/
def patchedTo (text : Text) (stop pos : Nat) : List (Span × Text) → Text
  | [] => text.slice ⟨pos, stop⟩
  | (span, out) :: rest => text.slice ⟨pos, span.start⟩ ++ (out ++ patchedTo text stop span.stop rest)

/-- The spans stand in order from `pos` to `stop` and begin and end between characters. -/
def Chain (text : Text) (stop pos : Nat) : List (Span × Text) → Prop
  | [] => text.IsBoundary pos ∧ text.IsBoundary stop ∧ pos ≤ stop
  | (span, _) :: rest => text.IsBoundary pos ∧ pos ≤ span.start ∧ text.IsBoundary span.start ∧
      span.start ≤ span.stop ∧ Chain text stop span.stop rest

section

variable {text : Text} {stop mid : Nat} {changes first second : List (Span × Text)}

theorem patched_eq_patchedTo (text : Text) (pos : Nat) (changes : List (Span × Text)) :
    patched text pos changes = patchedTo text text.byteSize pos changes := by
  induction changes generalizing pos with
  | nil => rfl
  | cons c rest ih => rw [patched, patchedTo, ih]

theorem Chain.isBoundary (h : Chain text stop pos changes) : text.IsBoundary pos := by
  cases changes with
  | nil => exact h.1
  | cons c rest => exact h.1

theorem Chain.isBoundary_stop (h : Chain text stop pos changes) : text.IsBoundary stop := by
  induction changes generalizing pos with
  | nil => exact h.2.1
  | cons c rest ih => exact ih h.2.2.2.2

theorem Chain.append (h : Chain text mid pos first) (h' : Chain text stop mid second) :
    Chain text stop pos (first ++ second) := by
  induction first generalizing pos with
  | nil =>
    obtain ⟨hpos, hmid, hle⟩ := h
    cases second with
    | nil => exact ⟨hpos, h'.2.1, Nat.le_trans hle h'.2.2⟩
    | cons c rest => exact ⟨hpos, Nat.le_trans hle h'.2.1, h'.2.2⟩
  | cons c rest ih => exact ⟨h.1, h.2.1, h.2.2.1, h.2.2.2.1, ih h.2.2.2.2⟩

theorem patchedTo_append (h : Chain text mid pos first) (h' : Chain text stop mid second) :
    patchedTo text stop pos (first ++ second) =
      patchedTo text mid pos first ++ patchedTo text stop mid second := by
  induction first generalizing pos with
  | nil =>
    obtain ⟨hpos, hmid, hle⟩ := h
    cases second with
    | nil => exact (slice_add hpos hmid h'.2.1 hle h'.2.2).symm
    | cons c rest =>
      rw [nil_append, patchedTo, patchedTo, patchedTo,
        ← slice_add hpos hmid h'.2.2.1 hle h'.2.1, append_assoc]
  | cons c rest ih =>
    rw [cons_append, patchedTo, patchedTo, ih h.2.2.2.2]
    simp

/-- Each change begins where those before it have ended. -/
theorem Chain.pairwise (h : Chain text stop pos changes) :
    (∀ c ∈ changes, pos ≤ c.1.start) ∧ changes.Pairwise fun a b => a.1.stop ≤ b.1.start := by
  induction changes generalizing pos with
  | nil => exact ⟨forall_mem_nil _, .nil⟩
  | cons c rest ih =>
    obtain ⟨hall, hpairs⟩ := ih h.2.2.2.2
    refine ⟨?_, pairwise_cons.mpr ⟨hall, hpairs⟩⟩
    intro c' hc'
    have hstart := h.2.1
    have hspan := h.2.2.2.1
    rcases mem_cons.mp hc' with rfl | hc'
    · exact hstart
    · have := hall c' hc'
      omega

end

/-! ## Parts of lines -/

/-- Changes on some lines, and the edits that make them. -/
structure EditPart (α : Type) where
  range : LineRange
  changes : List α
  edits : List Edit

section

variable (view : α → Span × Text) (text : Text)

/-- The new text of the lines. -/
def EditPart.out (part : EditPart α) : Text :=
  patchedTo text (text.lineEnd part.range.last) (text.lineStart part.range.first)
    (part.changes.map view)

/-- The lines are lines of the text, the changes lie on them, and the edits make these changes. -/
structure EditPart.Makes (part : EditPart α) : Prop where
  first : 0 < part.range.first
  ordered : part.range.first ≤ part.range.last
  last : part.range.last ≤ (Text.rows text).length
  chain : Chain text (text.lineEnd part.range.last) (text.lineStart part.range.first)
    (part.changes.map view)
  closed : Text.ClosedBy text.lineEnding (part.out view text)
  quiet : ∀ e ∈ part.edits, ∀ line, line < part.range.first ∨ part.range.last < line → e.Silent line
  places : ∀ m : ModuleLines, m.lines = Text.rows text →
    m.placesFrom part.edits part.range.first (part.range.last - part.range.first + 1) =
      (part.out view text).splitLines

/-- The parts are made, one behind another. -/
structure Made (parts : List (EditPart α)) : Prop where
  makes : ∀ part ∈ parts, part.Makes view text
  apart : parts.Pairwise fun a b => a.range.last < b.range.first

def changesOf (parts : List (EditPart α)) : List α := parts.flatMap EditPart.changes

def editsOf (parts : List (EditPart α)) : List Edit := parts.flatMap EditPart.edits

/-- The lines of parts with their new texts. -/
def outs (parts : List (EditPart α)) : List (LineRange × Text) :=
  parts.map fun part => (part.range, part.out view text)

end

section

variable {view : α → Span × Text} {text : Text} {part : EditPart α} {parts : List (EditPart α)}

theorem Made.tail (h : Made view text (part :: parts)) :
    part.Makes view text ∧ (∀ other ∈ parts, part.range.last < other.range.first) ∧
      Made view text parts := by
  obtain ⟨hpart, hmakes⟩ := forall_mem_cons.mp h.makes
  obtain ⟨hfirst, hapart⟩ := pairwise_cons.mp h.apart
  exact ⟨hpart, hfirst, hmakes, hapart⟩

theorem Made.laid (h : Made view text parts) (hline : ∀ part ∈ parts, line < part.range.first)
    (hle : line ≤ (rows text).length) :
    Laid (rows text).length line (outs view text parts) := by
  induction parts generalizing line with
  | nil => exact hle
  | cons part parts ih =>
    obtain ⟨hpart, hfirst, hparts⟩ := h.tail
    exact ⟨hline part mem_cons_self, hpart.ordered, ih hparts hfirst hpart.last⟩

theorem Made.quiet (h : Made view text parts)
    (hline : ∀ part ∈ parts, line < part.range.first ∨ part.range.last < line) :
    ∀ e ∈ editsOf parts, e.Silent line := by
  intro e he
  obtain ⟨part, hpart, he⟩ := mem_flatMap.mp he
  exact (h.makes part hpart).quiet e he line (hline part hpart)

/-- Parts that keep to lines of their own can be put in order. -/
theorem exists_made (hmakes : ∀ part ∈ parts, part.Makes view text)
    (hapart : parts.Pairwise fun a b => a.range.last < b.range.first ∨ b.range.last < a.range.first) :
    ∃ sorted, sorted.Perm parts ∧ Made view text sorted := by
  have hperm := mergeSort_perm parts fun a b => a.range.first ≤ b.range.first
  have hsorted : (parts.mergeSort fun a b => a.range.first ≤ b.range.first).Pairwise
      fun a b => decide (a.range.first ≤ b.range.first) = true := by
    apply pairwise_mergeSort
    · intro a b c hab hbc
      simp only [decide_eq_true_eq] at hab hbc ⊢
      omega
    · intro a b
      simp only [Bool.or_eq_true, decide_eq_true_eq]
      omega
  have hmakes' : ∀ part ∈ parts.mergeSort fun a b => a.range.first ≤ b.range.first,
      part.Makes view text := fun part hpart => hmakes part (hperm.mem_iff.mp hpart)
  refine ⟨_, hperm, hmakes', ?_⟩
  have hboth := hsorted.and ((hperm.pairwise_iff Or.symm).mpr hapart)
  refine hboth.imp_of_mem ?_
  rintro a b - hb ⟨hle, hlt⟩
  have hordered := (hmakes' b hb).ordered
  rw [decide_eq_true_eq] at hle
  omega

/-- The edits of parts, after others that leave these lines alone, give the lines of the parts their
new texts. -/
theorem Made.placesFrom (hm : m.lines = rows text) (h : Made view text parts)
    (hline : ∀ part ∈ parts, line < part.range.first) (hle : line ≤ (rows text).length)
    {before : List Edit} (hbefore : ∀ k, line < k → ∀ e ∈ before, e.Silent k) :
    m.placesFrom (before ++ editsOf parts) (line + 1) ((rows text).length - line) =
      patchRows (rows text) line (outs view text parts) := by
  induction parts generalizing line before with
  | nil =>
    have hall : ∀ k, line < k → k ≤ line + ((rows text).length - line) →
        ∀ e ∈ before ++ editsOf ([] : List (EditPart α)), e.Silent k := by
      intro k hk _
      rw [editsOf, flatMap_nil, append_nil]
      exact hbefore k hk
    rw [m.placesFrom_of_silent hall, hm, outs, map_nil, patchRows, take_of_length_le]
    exact Nat.le_of_eq length_drop
  | cons part parts ih =>
    obtain ⟨hpart, hnext, hparts⟩ := h.tail
    have hstart := hline part mem_cons_self
    have hfirst := hpart.first
    have hordered := hpart.ordered
    have hlast := hpart.last
    have hedits : editsOf (part :: parts) = part.edits ++ editsOf parts := rfl
    have hcount : (rows text).length - line = (part.range.first - 1 - line) +
        ((part.range.last - part.range.first + 1) + ((rows text).length - part.range.last)) := by
      omega
    have hbehind {k : Nat} (hk : k ≤ part.range.last) : ∀ e ∈ editsOf parts, e.Silent k :=
      hparts.quiet fun other hother => .inl (Nat.lt_of_le_of_lt hk (hnext other hother))
    have huntouched : m.placesFrom (before ++ (part.edits ++ editsOf parts)) (line + 1)
        (part.range.first - 1 - line) =
          ((rows text).drop line).take (part.range.first - 1 - line) := by
      rw [← hm]
      apply m.placesFrom_of_silent
      intro k hk hle e he
      rcases mem_append.mp he with he | he
      · exact hbefore k hk e he
      · rcases mem_append.mp he with he | he
        · exact hpart.quiet e he k (by omega)
        · exact hbehind (by omega) e he
    have hhere : m.placesFrom (before ++ (part.edits ++ editsOf parts)) part.range.first
        (part.range.last - part.range.first + 1) = (part.out view text).splitLines := by
      refine (placesFrom_congr ?_).trans (hpart.places m hm)
      intro k hk hlt
      rw [m.placeLines_append_right (hbefore k (by omega))]
      exact m.placeLines_append_left (hbehind (by omega))
    have hsofar : ∀ k, part.range.last < k → ∀ e ∈ before ++ part.edits, e.Silent k := by
      intro k hk e he
      rcases mem_append.mp he with he | he
      · exact hbefore k (by omega) e he
      · exact hpart.quiet e he k (.inr hk)
    have hthere := ih hparts hnext hlast hsofar
    rw [append_assoc] at hthere
    rw [hcount, placesFrom_add, placesFrom_add,
      show line + 1 + (part.range.first - 1 - line) = part.range.first by omega,
      show part.range.first + (part.range.last - part.range.first + 1) = part.range.last + 1 by omega,
      hedits, huntouched, hhere, hthere]
    rfl

end

section

variable {view : α → Span × Text} {text : Text} {parts : List (EditPart α)}
  (ht : ClosedBy text.lineEnding text)

include ht

theorem lineEnd_le_lineStart {next : Nat} (hline : 0 < line) (hlt : line < next)
    (hnext : next ≤ (rows text).length) : text.lineEnd line ≤ text.lineStart next := by
  obtain ⟨line, rfl⟩ := Nat.exists_eq_add_of_lt hline
  obtain ⟨next, rfl⟩ := Nat.exists_eq_add_of_lt (Nat.zero_lt_of_lt hlt)
  rw [Nat.zero_add] at hlt hnext ⊢
  rw [Nat.zero_add]
  have hmono := ht.lineStart_mono (a := line + 1) (b := next) (by omega) (by omega)
  have hsucc : text.lineStart (line + 1 + 1) = _ := ht.lineStart_succ (by omega)
  omega

/-- The text with the new texts of the parts is the text with all their changes. -/
theorem Made.patched_outs (h : Made view text parts) (hpos : text.IsBoundary pos)
    (hle : ∀ part ∈ parts, pos ≤ text.lineStart part.range.first) :
    Chain text text.byteSize pos ((changesOf parts).map view) ∧
      patched text pos (groupSpans text (outs view text parts)) =
        patched text pos ((changesOf parts).map view) := by
  induction parts generalizing pos with
  | nil => exact ⟨⟨hpos, isBoundary_byteSize text, hpos.le⟩, rfl⟩
  | cons part parts ih =>
    obtain ⟨hpart, hnext, hparts⟩ := h.tail
    have hchanges : (changesOf (part :: parts)).map view =
        [] ++ (part.changes.map view ++ (changesOf parts).map view) := by
      rw [nil_append, ← map_append]
      rfl
    have hgap : Chain text (text.lineStart part.range.first) pos [] :=
      ⟨hpos, hpart.chain.isBoundary, hle part mem_cons_self⟩
    obtain ⟨hchain, hrest⟩ := ih hparts hpart.chain.isBoundary_stop fun other hother =>
      lineEnd_le_lineStart ht (Nat.lt_of_lt_of_le hpart.first hpart.ordered) (hnext other hother)
        (Nat.le_trans (hparts.makes other hother).ordered (hparts.makes other hother).last)
    have hbehind := hpart.chain.append hchain
    rw [hchanges]
    refine ⟨hgap.append hbehind, ?_⟩
    rw [patched_eq_patchedTo text pos ([] ++ _), patchedTo_append hgap hbehind,
      patchedTo_append hpart.chain hchain, ← patched_eq_patchedTo, ← hrest]
    rfl

/-- The new texts of the parts leave no other line breaks than those of the text. -/
theorem Made.closedBy_patched (h : Made view text parts) (hpos : text.IsCut pos)
    (hle : ∀ part ∈ parts, pos ≤ text.lineStart part.range.first) :
    ClosedBy text.lineEnding (patched text pos (groupSpans text (outs view text parts))) := by
  have he := isTerminator_lineEnding text
  induction parts generalizing pos with
  | nil => exact ht.slice hpos (isCut_byteSize text) hpos.isBoundary.le
  | cons part parts ih =>
    obtain ⟨hpart, hnext, hparts⟩ := h.tail
    obtain ⟨first, hfirst⟩ := Nat.exists_eq_add_of_lt hpart.first
    obtain ⟨last, hlast⟩ := Nat.exists_eq_add_of_lt (Nat.lt_of_lt_of_le hpart.first hpart.ordered)
    have hordered := hpart.ordered
    have hrows := hpart.last
    rw [Nat.zero_add] at hfirst hlast
    have hstart : text.IsCut (text.lineStart part.range.first) := by
      rw [hfirst]
      exact ht.isCut_lineStart he (by omega)
    have hstop : text.IsCut (text.lineEnd part.range.last) := by
      rw [hlast]
      exact ht.isCut_lineEnd he (by omega)
    refine (ht.slice hpos hstart (hle part mem_cons_self)).append (hpart.closed.append ?_)
    exact ih hparts hstop fun other hother =>
      lineEnd_le_lineStart ht (Nat.lt_of_lt_of_le hpart.first hpart.ordered) (hnext other hother)
        (Nat.le_trans (hparts.makes other hother).ordered (hparts.makes other hother).last)

/-- The lines that the edits of parts leave are those of the text with all changes. -/
theorem Made.places (hm : m.lines = rows text) (h : Made view text parts) :
    m.placesFrom (editsOf parts) 1 (rows text).length =
        splitLines (patched text 0 ((changesOf parts).map view)) ∧
      ClosedBy text.lineEnding (patched text 0 ((changesOf parts).map view)) := by
  have hfirst : ∀ part ∈ parts, 0 < part.range.first := fun part hpart => (h.makes part hpart).first
  have hplaces : m.placesFrom ([] ++ editsOf parts) _ _ = _ :=
    h.placesFrom hm hfirst (Nat.zero_le _) fun _ _ => forall_mem_nil _
  have hclosed := h.closedBy_patched ht (isCut_zero text) fun _ _ => Nat.zero_le _
  have hout : ∀ g ∈ outs view text parts, g.2.CrClosed := by
    exact forall_mem_map.mpr fun part hpart => (h.makes part hpart).closed.crClosed
  have hsplit := splitLines_patched ht (isTerminator_lineEnding text)
    (h.laid hfirst (Nat.zero_le _)) hout (by rw [length_rows]; omega)
  have hzero : text.lineStart (0 + 1) = 0 := rfl
  rw [hzero] at hsplit
  rw [nil_append, Nat.zero_add, Nat.sub_zero] at hplaces
  rw [← (h.patched_outs ht (isBoundary_zero text) fun _ _ => Nat.zero_le _).2]
  exact ⟨hplaces.trans hsplit.symm, hclosed⟩

end

/-! ## Inserted lines -/

section

variable {view : α → Span × Text} {text : Text}

/-- A line that stays as it is. -/
def EditPart.untouched (line : Nat) : EditPart α := ⟨.single line, [], []⟩

/-- The part with lines inserted before it. -/
def EditPart.inserting (part : EditPart α) (change : α) (added : Text) : EditPart α :=
  ⟨part.range, change :: part.changes, .insert part.range.first added :: part.edits⟩

theorem makes_untouched (ht : ClosedBy text.lineEnding text) (hline : 0 < line)
    (hle : line ≤ (rows text).length) :
    (EditPart.untouched line : EditPart α).Makes view text := by
  obtain ⟨line, rfl⟩ := Nat.exists_eq_add_of_lt hline
  rw [Nat.zero_add] at hle ⊢
  have he := isTerminator_lineEnding text
  have hstart : text.IsCut (text.lineStart (line + 1)) := ht.isCut_lineStart he (by omega)
  have hstop : text.IsCut (text.lineEnd (line + 1)) := ht.isCut_lineEnd he (by omega)
  have hordered : text.lineStart (line + 1) ≤ text.lineEnd (line + 1) :=
    lineStart_le_lineEnd text (by omega)
  have hrow := getElem?_eq_getElem (l := rows text) (i := line) (by omega)
  have hout : (EditPart.untouched (line + 1) : EditPart α).out view text = (rows text)[line] :=
    lineText_eq_row hrow
  refine ⟨Nat.succ_pos line, Nat.le_refl _, hle, ⟨hstart.isBoundary, hstop.isBoundary, hordered⟩,
    ht.slice hstart hstop hordered, forall_mem_nil _, ?_⟩
  intro m hm
  have hplain := ht.plain_of_mem_rows (getElem_mem (l := rows text) (n := line) (by omega))
  have hplaces : m.placesFrom [] (line + 1) 1 = _ :=
    m.placesFrom_of_silent fun _ _ _ => forall_mem_nil _
  have hcount : line + 1 - (line + 1) + 1 = 1 := by omega
  rw [hout, hplain.oneLine.splitLines, EditPart.untouched, LineRange.single, hcount, hplaces, hm,
    drop_eq_getElem_cons (by omega), take_succ_cons, take_zero]

theorem EditPart.Makes.inserting {part : EditPart α} (h : part.Makes view text) {change : α}
    (hadded : ∀ line ∈ added.splitLines, line.Plain)
    (hchange : view change = (⟨text.lineStart part.range.first, text.lineStart part.range.first⟩,
      Text.closed text.lineEnding added.splitLines)) :
    (part.inserting change added).Makes view text := by
  have he := isTerminator_lineEnding text
  have hout : (part.inserting change added).out view text =
      Text.closed text.lineEnding added.splitLines ++ part.out view text := by
    rw [EditPart.out, EditPart.inserting, map_cons, hchange, patchedTo, slice_self, nil_append]
    rfl
  have hstart := h.chain.isBoundary
  refine ⟨h.first, h.ordered, h.last, ?_, ?_, ?_, ?_⟩
  · rw [EditPart.inserting, map_cons, hchange]
    exact ⟨hstart, Nat.le_refl _, hstart, Nat.le_refl _, h.chain⟩
  · rw [hout]
    exact (closedBy_closed he hadded).append h.closed
  · intro e hmem line hline
    rcases mem_cons.mp hmem with rfl | hmem
    · refine ⟨?_, rfl, rfl⟩
      have hordered := h.ordered
      have hline : line < part.range.first ∨ part.range.last < line := hline
      rw [insertedText?, if_neg (by omega)]
    · exact h.quiet e hmem line hline
  · intro m hm
    rw [hout, splitLines_closed he fun line hline => (hadded line hline).oneLine, ← h.places m hm]
    exact m.placesFrom_insert added part.edits _ _

section

variable {parts : List (EditPart α)} (ht : ClosedBy text.lineEnding text)
  (h : Made view text parts)

include ht h

/-- Lines can be inserted before a line where no part holds it inside. -/
theorem Made.exists_insert (hline : 0 < line) (hle : line ≤ (rows text).length)
    (houtside : ∀ part ∈ parts, part.range.last < line ∨ line ≤ part.range.first) {change : α}
    (hadded : ∀ row ∈ added.splitLines, row.Plain) (hchange : view change =
      (⟨text.lineStart line, text.lineStart line⟩, closed text.lineEnding added.splitLines)) :
    ∃ before after parts', parts = before ++ after ∧ Made view text parts' ∧
      (∀ part' ∈ parts', part'.range.first = line ∨ ∃ part ∈ parts, part'.range = part.range) ∧
      changesOf parts' = changesOf before ++ change :: changesOf after ∧
      editsOf parts' = editsOf before ++ .insert line added :: editsOf after := by
  induction parts with
  | nil =>
    refine ⟨[], [], [(EditPart.untouched line).inserting change added], rfl, ⟨?_, pairwise_singleton _ _⟩,
      ?_, rfl, rfl⟩
    · exact forall_mem_singleton.mpr ((makes_untouched ht hline hle).inserting hadded hchange)
    · exact forall_mem_singleton.mpr (.inl rfl)
  | cons part parts ih =>
    obtain ⟨hpart, hnext, hparts⟩ := h.tail
    obtain ⟨houtside, hothers⟩ := forall_mem_cons.mp houtside
    rcases Nat.lt_trichotomy line part.range.first with hlt | rfl | hgt
    · -- Before the first part.
      refine ⟨[], part :: parts, (EditPart.untouched line).inserting change added :: part :: parts, rfl,
        ⟨?_, ?_⟩, ?_, rfl, rfl⟩
      · refine forall_mem_cons.mpr ⟨?_, h.makes⟩
        exact (makes_untouched ht hline hle).inserting hadded hchange
      · refine pairwise_cons.mpr ⟨?_, h.apart⟩
        refine forall_mem_cons.mpr ⟨hlt, fun other hother => ?_⟩
        have hbehind := hnext other hother
        have hordered := hpart.ordered
        show line < other.range.first
        omega
      · refine forall_mem_cons.mpr ⟨.inl rfl, fun other hother => .inr ⟨other, hother, rfl⟩⟩
    · refine ⟨[], part :: parts, part.inserting change added :: parts, rfl, ⟨?_, ?_⟩, ?_, rfl, rfl⟩
      · exact forall_mem_cons.mpr ⟨hpart.inserting hadded hchange, hparts.makes⟩
      · exact pairwise_cons.mpr ⟨hnext, hparts.apart⟩
      · exact forall_mem_cons.mpr ⟨.inl rfl, fun other hother =>
          .inr ⟨other, mem_cons_of_mem _ hother, rfl⟩⟩
    · have hlast : part.range.last < line := by omega
      obtain ⟨before, after, parts', rfl, hmade, hranges, hchanges, hedits⟩ := ih hparts hothers
      refine ⟨part :: before, after, part :: parts', rfl, ⟨?_, ?_⟩, ?_, ?_, ?_⟩
      · exact forall_mem_cons.mpr ⟨hpart, hmade.makes⟩
      · refine pairwise_cons.mpr ⟨?_, hmade.apart⟩
        intro part' hpart'
        rcases hranges part' hpart' with hfirst | ⟨other, hother, hrange⟩
        · rw [hfirst]
          exact hlast
        · rw [hrange]
          exact hnext other hother
      · refine forall_mem_cons.mpr ⟨.inr ⟨part, mem_cons_self, rfl⟩, ?_⟩
        intro part' hpart'
        rcases hranges part' hpart' with hfirst | ⟨other, hother, hrange⟩
        · exact .inl hfirst
        · exact .inr ⟨other, mem_cons_of_mem _ hother, hrange⟩
      · show part.changes ++ changesOf parts' = _
        rw [hchanges, ← append_assoc]
        rfl
      · show part.edits ++ editsOf parts' = _
        rw [hedits, ← append_assoc]
        rfl

/-- The text of a module after edits that have the effect of those of parts, and of lines added behind
the last one. -/
theorem Made.joined_edited {edits : List Edit} {added? : Option Text}
    (hreaches : ∀ e ∈ edits, e.Reaches text.lines.length) (hsame : SameEffect edits
      (editsOf parts ++ (added?.map (Edit.insert ((Text.rows text).length + 1))).toList)) :
    (ModuleLines.ofText text).joined ((ModuleLines.ofText text).edited edits) =
      patched text 0 ((changesOf parts).map view) ++
        Text.opened text.lineEnding (added?.toList.flatMap Text.splitLines) := by
  generalize hn : ModuleLines.mk (Text.rows text) text.lineEnding false = n
  have hlines : n.lines = Text.rows text := by rw [← hn]
  generalize htail : (added?.map (Edit.insert ((Text.rows text).length + 1))).toList = tail at hsame
  have hsilent : ∀ k ≤ (Text.rows text).length, ∀ e ∈ tail, e.Silent k := by
    intro k hk e hmem
    rw [← htail, Option.mem_toList, Option.map_eq_some_iff] at hmem
    obtain ⟨added, -, rfl⟩ := hmem
    refine ⟨?_, rfl, rfl⟩
    rw [Edit.insertedText?, if_neg (by omega)]
  have hplaces : n.placesFrom (editsOf parts ++ tail) 1 (Text.rows text).length =
      n.placesFrom (editsOf parts) 1 (Text.rows text).length := by
    apply ModuleLines.placesFrom_congr
    intro k _ hk
    exact n.placeLines_append_left (hsilent k (by omega))
  have hbehind : n.placesFrom (editsOf parts ++ tail) (1 + (Text.rows text).length) 1 =
      added?.toList.flatMap Text.splitLines := by
    have hquiet : ∀ e ∈ editsOf parts, e.Silent ((Text.rows text).length + 1) :=
      h.quiet fun part hpart => .inr (Nat.lt_succ_of_le (h.makes part hpart).last)
    rw [Nat.add_comm 1, ModuleLines.placesFrom_succ, n.placeLines_append_right hquiet, ← htail,
      ModuleLines.placeLines]
    cases added? with
    | none =>
      simp [hlines, ModuleLines.placesFrom]
    | some added =>
      simp [hlines, ModuleLines.placesFrom, Edit.insertedText?, Edit.replacedText?, Edit.takesLine,
        Edit.range?]
  obtain ⟨hsplit, hclosed⟩ := h.places ht hlines
  rw [EditQueue.joined_edited hreaches, hn, hsame.edited_eq, ModuleLines.edited, hlines,
    ModuleLines.placesFrom_add, hplaces, hbehind, hsplit,
    Text.intercalate_append_opened _ (Text.splitLines_ne_nil _), ← hclosed.crClosed.withEnding_eq,
    hclosed.withEnding_eq (Text.isTerminator_lineEnding text)]

end

end

end Refill

end VbaRefactor
