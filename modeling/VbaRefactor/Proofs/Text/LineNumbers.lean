import VbaRefactor.Proofs.Text.Cut

/-!
# Line numbers and line starts

Looking up the line of a position and the start of a line are adjoint: a line starts at or before a
position if and only if its number is at most that of the position's line. So every position lies at or
after the start of its own line, and the columns of an extent lose nothing.
-/

namespace VbaRefactor

open List

namespace Text

theorem length_breaks (t : Text) : (breaks t).length = (tails t).length := by
  fun_induction tails t with
  | case1 => rfl
  | case2 t ih => rw [breaks_crlf, length_cons, ih, length_cons]
  | case3 c t hcr hc ih =>
    rw [breaks.eq_3 c t hcr, if_pos hc]
    split <;> rw [length_cons, ih, length_cons]
  | case4 c t hcr hc ih =>
    have hlf : c ≠ '\n' := by
      rintro rfl
      exact hc rfl
    rw [breaks.eq_3 c t hcr, if_neg hlf, if_neg hc, ih]

/-- What follows a later break is shorter. -/
theorem pairwise_tails (t : Text) : (t :: tails t).Pairwise fun a b => byteSize b < byteSize a := by
  refine pairwise_cons.mpr ⟨fun s => byteSize_lt_of_mem_tails, ?_⟩
  fun_induction tails t with
  | case1 => exact List.Pairwise.nil
  | case2 t ih | case3 c t hcr hc ih =>
    exact pairwise_cons.mpr ⟨fun s => byteSize_lt_of_mem_tails, ih⟩
  | case4 c t hcr hc ih => exact ih

theorem pairwise_lineStarts (t : Text) : t.lineStarts.Pairwise (· < ·) := by
  rw [lineStarts_eq_map, pairwise_map]
  refine (pairwise_tails t).imp_of_mem ?_
  intro a b ha hb hlt
  have hle := byteSize_le_of_suffix (suffix_of_mem_cons_tails ha)
  omega

/-- In an increasing list the entries up to a bound stand in front, so their number says which
indices they have. -/
theorem getElem_le_iff {l : List Nat} (h : l.Pairwise (· < ·)) {i : Nat} (hi : i < l.length)
    (bound : Nat) : l[i] ≤ bound ↔ i < (l.filter (· ≤ bound)).length := by
  induction l generalizing i with
  | nil => cases hi
  | cons a l ih =>
    obtain ⟨hfirst, hrest⟩ := pairwise_cons.mp h
    by_cases ha : a ≤ bound
    · rw [filter_cons_of_pos (by simpa using ha), length_cons]
      cases i with
      | zero => simp [ha]
      | succ i =>
        rw [getElem_cons_succ, ih hrest (by simpa using hi)]
        omega
    · -- nothing behind an entry past the bound is within it
      have hnone : (a :: l).filter (· ≤ bound) = [] := by
        rw [filter_eq_nil_iff]
        refine forall_mem_cons.mpr ⟨by simpa using ha, fun b hb => ?_⟩
        have hlt := hfirst b hb
        simp only [decide_eq_true_eq]
        omega
      have hle : a ≤ (a :: l)[i] := by
        rcases mem_cons.mp (getElem_mem hi) with heq | hmem
        · exact Nat.le_of_eq heq.symm
        · exact Nat.le_of_lt (hfirst _ hmem)
      rw [hnone, length_nil]
      omega

section

variable {t : Text} {line pos : Nat}

theorem lineStart_le_iff (hfirst : 1 ≤ line) (hlast : line ≤ (breaks t).length + 1)
    (hpos : pos ≤ t.byteSize) : t.lineStart line ≤ pos ↔ line ≤ t.lineOf pos := by
  have hlt : line - 1 < t.lineStarts.length := by
    rw [length_lineStarts, ← length_breaks]
    omega
  have hstart : t.lineStart line = t.lineStarts[line - 1] := by
    rw [lineStart, getElem?_eq_getElem hlt, Option.getD_some]
  simp only [lineOf, Nat.min_eq_left hpos]
  rw [hstart, getElem_le_iff (pairwise_lineStarts t) hlt]
  omega

/-- The line of a position is one of the lines of the text. -/
theorem lineOf_bounds (t : Text) (pos : Nat) : 1 ≤ t.lineOf pos ∧ t.lineOf pos ≤ (breaks t).length + 1 := by
  constructor
  · simp [lineOf, lineStarts]
  · rw [length_breaks, ← length_lineStarts]
    exact length_filter_le _ _

theorem lineStart_lineOf_le (hpos : pos ≤ t.byteSize) : t.lineStart (t.lineOf pos) ≤ pos := by
  obtain ⟨hfirst, hlast⟩ := lineOf_bounds t pos
  exact (lineStart_le_iff hfirst hlast hpos).mpr (Nat.le_refl _)

end

/-- The number of a position's line and the start of a line are adjoint. With that the lines and columns
of a span give its ends back, no column is cut off at zero, and line numbers grow with positions. -/
theorem lineStart_le_iff_le_lineOf (t : Text) :
    (∀ line pos, 1 ≤ line → line ≤ (breaks t).length + 1 → pos ≤ t.byteSize →
      (t.lineStart line ≤ pos ↔ line ≤ t.lineOf pos)) ∧
    (∀ s : Span, s.start ≤ s.stop → s.stop ≤ t.byteSize →
      t.lineStart (t.extent s).lineStart ≤ s.start ∧ t.lineStart (t.extent s).lineEnd ≤ s.stop ∧
      t.lineStart (t.extent s).lineStart + (t.extent s).colStart = s.start ∧
      t.lineStart (t.extent s).lineEnd + (t.extent s).colEnd = s.stop) ∧
    ∀ p q, p ≤ q → t.lineOf p ≤ t.lineOf q := by
  refine ⟨fun line pos => lineStart_le_iff, ?_, fun p q => lineOf_mono t⟩
  intro s hle hstop
  have hstartLine := lineStart_lineOf_le (Nat.le_trans hle hstop)
  have hstopLine := lineStart_lineOf_le hstop
  exact ⟨hstartLine, hstopLine, Nat.add_sub_of_le hstartLine, Nat.add_sub_of_le hstopLine⟩

/-- Between the two characters of a CR LF the line before it goes on, and after NEL and LS a new one
begins. -/
theorem lineStart_le_iff_le_lineOf_breaks :
    let t : Text := "a\r\nb\u0085c\u2028".toList
    (breaks t).length = 3 ∧ (t.lineStart 2 ≤ 2 ↔ 2 ≤ t.lineOf 2) ∧ t.lineOf 2 = 1 ∧
      (t.lineStart 4 ≤ 10 ↔ 4 ≤ t.lineOf 10) ∧ t.lineOf 10 = 4 ∧
      t.lineStart (t.extent ⟨2, 7⟩).lineEnd + (t.extent ⟨2, 7⟩).colEnd = 7 := by
  intro t
  obtain ⟨hadjoint, hextent, -⟩ := lineStart_le_iff_le_lineOf t
  exact ⟨by decide, hadjoint 2 2 (by decide) (by decide) (by decide), by decide,
    hadjoint 4 10 (by decide) (by decide) (by decide), by decide,
    (hextent ⟨2, 7⟩ (by decide) (by decide)).2.2.2⟩

end Text

end VbaRefactor
