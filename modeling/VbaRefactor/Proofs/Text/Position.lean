import VbaRefactor.Proofs.Text.Rows

/-!
# Texts inside a text

A text can hold another one at a position. What stands in front of the position can be parted from
what follows, and its line breaks tell on which line a part ends.
-/

namespace VbaRefactor

open List

namespace Text

/-- The text holds another one at a position. -/
def HasAt (t : Text) (pos : Nat) (x : Text) : Prop := ∃ a b, t = a ++ (x ++ b) ∧ byteSize a = pos

section

variable {t x y : Text} {pos : Nat} {ending : Text}

theorem hasAt_zero (t : Text) : t.HasAt 0 t := ⟨[], [], by simp, rfl⟩

theorem HasAt.left (h : t.HasAt pos (x ++ y)) : t.HasAt pos x := by
  obtain ⟨a, b, rfl, hpos⟩ := h
  exact ⟨a, y ++ b, by simp, hpos⟩

theorem HasAt.right (h : t.HasAt pos (x ++ y)) : t.HasAt (pos + x.byteSize) y := by
  obtain ⟨a, b, rfl, rfl⟩ := h
  exact ⟨a ++ x, b, by simp, byteSize_append a x⟩

theorem HasAt.le (h : t.HasAt pos x) : pos + x.byteSize ≤ t.byteSize := by
  obtain ⟨a, b, rfl, rfl⟩ := h
  rw [byteSize_append, byteSize_append]
  omega

/-- Up to a position, all breaks of the text are `ending`. -/
def ClosedTo (ending t : Text) (pos : Nat) : Prop :=
  ∃ a b, t = a ++ b ∧ byteSize a = pos ∧ ClosedBy ending a

theorem closedTo_zero (ending t : Text) : ClosedTo ending t 0 :=
  ⟨[], t, rfl, rfl, by simp [ClosedBy, breaks]⟩

theorem ClosedTo.isCut (h : ClosedTo ending t pos) : t.IsCut pos := by
  obtain ⟨a, b, ht, hpos, hclosed⟩ := h
  exact ⟨a, b, ht, hpos, hclosed.meet b⟩

theorem eq_of_append_eq {a b c d : Text} (h : a ++ b = c ++ d) (hsize : byteSize a = byteSize c) :
    a = c ∧ b = d := by
  obtain ⟨m, rfl, rfl⟩ := exists_middle h (Nat.le_of_eq hsize)
  have hm : m = [] := by
    apply byteSize_eq_zero
    rw [byteSize_append] at hsize
    omega
  subst hm
  exact ⟨(append_nil a).symm, rfl⟩

theorem ClosedTo.add (h : ClosedTo ending t pos) (ht : t.HasAt pos x) (hx : ClosedBy ending x) :
    ClosedTo ending t (pos + x.byteSize) := by
  obtain ⟨a, b, rfl, rfl, hclosed⟩ := h
  obtain ⟨c, d, hparts, hsize⟩ := ht
  obtain ⟨rfl, rfl⟩ := eq_of_append_eq hparts hsize.symm
  exact ⟨a ++ x, d, by simp, byteSize_append a x, hclosed.append hx⟩

theorem endsWithNewline_append (a b : Text) :
    (a ++ b).endsWithNewline = if b = [] then a.endsWithNewline else b.endsWithNewline := by
  cases b with
  | nil => rw [append_nil, if_pos rfl]
  | cons c b =>
    rw [if_neg (cons_ne_nil c b), endsWithNewline, endsWithNewline, getLast?_append,
      getLast?_cons, Option.some_or]

/-- A text ends on a line that counts, unless it is a line break at the end of all. -/
theorem HasAt.lineOf_le (h : t.HasAt pos x) (hcut : t.IsCut (pos + x.byteSize)) (hx : x ≠ [])
    (hend : t.byteSize = pos + x.byteSize → x.endsWithNewline = false) : t.lineOf (pos + x.byteSize) ≤ t.lines.length := by
  obtain ⟨a, b, ht, hpos⟩ := h
  obtain ⟨c, d, hparts, hsize, hmeet⟩ := hcut
  have hsplit : (a ++ x) ++ b = c ++ d := by rw [append_assoc, ← ht, hparts]
  obtain ⟨rfl, rfl⟩ := eq_of_append_eq hsplit (by rw [byteSize_append, hpos, hsize])
  rw [lineOf_cut hparts hsize hmeet, lines, length_map, length_range, lineCount,
    length_lineStarts, hparts, tails_append hmeet, length_append, length_map]
  split
  · rename_i hnewline
    have hb : b ≠ [] := by
      rintro rfl
      have hall : t.byteSize = pos + x.byteSize := by rw [hparts, append_nil, hsize]
      rw [append_nil, endsWithNewline_append, if_neg hx, hend hall] at hnewline
      cases hnewline
    rw [endsWithNewline_append, if_neg hb] at hnewline
    have hlast := getLast?_tails hnewline
    have hsome : tails b ≠ [] := by
      intro hnil
      rw [hnil] at hlast
      cases hlast
    have hcount := length_pos_iff.mpr hsome
    omega
  · omega

theorem takeBytes_append_of_le (x y : Text) {n : Nat} (h : x.byteSize ≤ n) :
    takeBytes n (x ++ y) = x ++ takeBytes (n - x.byteSize) y := by
  induction x generalizing n with
  | nil => rfl
  | cons c x ih =>
    have hpos := c.utf8Size_pos
    rw [byteSize_cons] at h
    obtain ⟨k, rfl⟩ : ∃ k, n = k + 1 := ⟨n - 1, by omega⟩
    rw [cons_append, takeBytes, ih (by omega), byteSize_cons, Nat.sub_add_eq, cons_append]

theorem HasAt.slice_add (h : t.HasAt pos x) {q : Nat} (hq : pos + x.byteSize ≤ q) :
    t.slice ⟨pos, q⟩ = x ++ t.slice ⟨pos + x.byteSize, q⟩ := by
  obtain ⟨a, b, rfl, rfl⟩ := h
  have hright : dropBytes (a.byteSize + x.byteSize) (a ++ (x ++ b)) = b := by
    rw [← byteSize_append, ← append_assoc, dropBytes_append]
  rw [slice, slice, dropBytes_append, hright, takeBytes_append_of_le x b (by simp only; omega)]
  simp only [Nat.sub_add_eq]

theorem HasAt.slice_eq (h : t.HasAt pos x) : t.slice ⟨pos, pos + x.byteSize⟩ = x := by
  rw [h.slice_add (Nat.le_refl _), slice_self, append_nil]

end

/-! ## Lists in a text -/

/-- The span has its ends at cuts of the text, and no line break before its end. -/
structure Slot (t : Text) (s : Span) : Prop where
  le : s.start ≤ s.stop
  cutStart : t.IsCut s.start
  cutStop : t.IsCut s.stop
  noBreak : (t.slice s).endsWithNewline = false

/-- A region of a text is a list with these slots. -/
structure Marked (t : Text) (region : Span) (slots : List Span) : Prop where
  some : region.start < region.stop
  cutStart : t.IsCut region.start
  cutStop : t.IsCut region.stop
  ended : region.stop = t.byteSize → t.endsWithNewline = false
  slot : ∀ s ∈ slots, t.Slot s
  inside : ∀ s ∈ slots, region.start ≤ s.start ∧ s.stop ≤ region.stop
  parted : slots.Pairwise fun a b => a.stop < b.start

theorem Slot.empty {t : Text} {pos : Nat} (h : t.IsCut pos) : t.Slot (.empty pos) :=
  ⟨Nat.le_refl _, h, h, by rw [Span.empty, slice_self]; rfl⟩

end Text

end VbaRefactor
