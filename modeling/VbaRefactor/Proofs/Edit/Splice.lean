import VbaRefactor.Edit.Queue

/-!
# What pending edits make of a module

`ModuleLines.edited` says line by line what stands at the place of each line of a module once edits
are applied. A buffer walks its edits in one pass instead and jumps over the lines that they take
away. The two agree on every settled buffer: one whose ranges are lines of the module and share none,
and whose inserts stand outside of them.
-/

namespace VbaRefactor

open List Edit ModuleLines

variable {ranged rest : List (LineRange × Edit)} {edits : List Edit} {count line : Nat}

namespace LineRange

/-- The line lies in the range. -/
def holds (r : LineRange) (line : Nat) : Bool := r.first ≤ line && line ≤ r.last

theorem overlaps_iff (r s : LineRange) :
    r.overlaps s = true ↔ r.first ≤ s.last ∧ s.first ≤ r.last := by
  simp [overlaps]

theorem contains_iff (r s : LineRange) :
    r.contains s = true ↔ r.first ≤ s.first ∧ s.last ≤ r.last := by
  simp [contains]

theorem holdsInsert_iff (r : LineRange) (line : Nat) :
    r.holdsInsert line = true ↔ r.first < line ∧ line ≤ r.last := by
  simp [holdsInsert]

theorem holds_iff (r : LineRange) (line : Nat) :
    r.holds line = true ↔ r.first ≤ line ∧ line ≤ r.last := by
  simp [holds]

theorem overlaps_comm (r s : LineRange) : r.overlaps s = s.overlaps r := by
  simp [overlaps, Bool.and_comm]

end LineRange

namespace Edit

/-- The text of an edit that inserts before a line. -/
def insertedText? (line : Nat) : Edit → Option Text
  | .insert before text => if before = line then some text else none
  | _ => none

/-- The text of an edit that replaces a range that starts at a line. -/
def replacedText? (line : Nat) : Edit → Option Text
  | .replace range text => if range.first = line then some text else none
  | _ => none

/-- The edit replaces or deletes a line. -/
def takesLine (line : Nat) (e : Edit) : Bool := e.range?.any (·.holds line)

/-- Edits of ranges have no insertion among them. -/
theorem filter_isNone_eq_nil {edits : List Edit} (h : ∀ e ∈ edits, e.range?.isSome = true) :
    edits.filter (·.range?.isNone) = [] := by
  rw [filter_eq_nil_iff]
  intro e he
  simpa [Option.isSome_iff_ne_none] using h e he

end Edit

namespace ModuleLines

/-- What stands at the place of a line once edits are applied: the lines inserted before it, then the
replacement that starts there, or the line itself if no edit takes it away. The place after the last
line has no line of its own. -/
def placeLines (m : ModuleLines) (edits : List Edit) (line : Nat) : List Text :=
  (edits.filterMap (Edit.insertedText? line)).flatMap Text.splitLines ++
    match edits.findSome? (Edit.replacedText? line) with
    | some text => text.splitLines
    | none => if edits.any (Edit.takesLine line) then [] else m.lines[line - 1]?.toList

/-- The lines of the places from `line` on, `count` of them. -/
def placesFrom (m : ModuleLines) (edits : List Edit) (line count : Nat) : List Text :=
  (List.range' line count).flatMap (m.placeLines edits)

/-- The lines of a module once edits are applied. -/
def edited (m : ModuleLines) (edits : List Edit) : List Text :=
  m.placesFrom edits 1 (m.lines.length + 1)

theorem placesFrom_succ (m : ModuleLines) (edits : List Edit) (line count : Nat) :
    m.placesFrom edits line (count + 1) =
      m.placeLines edits line ++ m.placesFrom edits (line + 1) count := by
  simp [placesFrom, range'_succ]

theorem placesFrom_add (m : ModuleLines) (edits : List Edit) (line a b : Nat) :
    m.placesFrom edits line (a + b) =
      m.placesFrom edits line a ++ m.placesFrom edits (line + a) b := by
  rw [placesFrom, placesFrom, placesFrom, ← flatMap_append, range'_append_1]

theorem placesFrom_congr {m n : ModuleLines} {edits' : List Edit}
    (h : ∀ k, line ≤ k → k < line + count → m.placeLines edits k = n.placeLines edits' k) :
    m.placesFrom edits line count = n.placesFrom edits' line count := by
  rw [placesFrom, placesFrom, flatMap_def, flatMap_def]
  congr 1
  apply map_congr_left
  intro k hk
  rw [mem_range'_1] at hk
  exact h k hk.1 hk.2

end ModuleLines

/-! ## Edits that leave a line alone -/

/-- The edit neither inserts before the line nor takes it. -/
structure Edit.Silent (line : Nat) (e : Edit) : Prop where
  inserts : e.insertedText? line = none
  replaces : e.replacedText? line = none
  takes : e.takesLine line = false

/-- The edit takes lines from `first` to `last` and inserts nothing. -/
def Edit.Within (first last : Nat) (e : Edit) : Prop :=
  ∃ r, e.range? = some r ∧ first ≤ r.first ∧ r.first ≤ r.last ∧ r.last ≤ last

theorem Edit.Within.silent {first last : Nat} {e : Edit} (h : e.Within first last)
    (hline : line < first ∨ last < line) : e.Silent line := by
  obtain ⟨r, hr, hfirst, hordered, hlast⟩ := h
  have htakes : e.takesLine line = false := by
    have hout : ¬ r.holds line = true := by
      rw [LineRange.holds_iff]
      omega
    rw [takesLine, hr]
    simpa using hout
  cases e with
  | insert before text => cases hr
  | delete range => exact ⟨rfl, rfl, htakes⟩
  | replace range text =>
    cases hr
    refine ⟨rfl, ?_, htakes⟩
    rw [replacedText?, if_neg (by omega)]

/-- The edit takes some of the first lines, `count` of them, or inserts before one of these or right
behind them. -/
def Edit.Reaches (count : Nat) (e : Edit) : Prop :=
  e.Within 1 count ∨ ∃ line text, e = .insert line text ∧ 0 < line ∧ line ≤ count + 1

theorem Edit.Reaches.silent {e : Edit} (h : e.Reaches count) (hline : count + 1 < line) :
    e.Silent line := by
  rcases h with hwithin | ⟨before, text, rfl, -, hle⟩
  · exact hwithin.silent (.inr (by omega))
  · refine ⟨?_, rfl, rfl⟩
    rw [insertedText?, if_neg (by omega)]

theorem Edit.Reaches.untaken {e : Edit} (h : e.Reaches count) :
    e.replacedText? (count + 1) = none ∧ e.takesLine (count + 1) = false := by
  rcases h with hwithin | ⟨before, text, rfl, -⟩
  · have hsilent := hwithin.silent (.inr (Nat.lt_succ_self count))
    exact ⟨hsilent.replaces, hsilent.takes⟩
  · exact ⟨rfl, rfl⟩

namespace ModuleLines

section

variable {before after : List Edit}

theorem silent_all (h : ∀ e ∈ edits, e.Silent line) :
    edits.filterMap (insertedText? line) = [] ∧ edits.findSome? (replacedText? line) = none ∧
      edits.any (takesLine line) = false := by
  refine ⟨?_, ?_, ?_⟩
  · rw [filterMap_eq_nil_iff]
    exact fun e he => (h e he).inserts
  · rw [findSome?_eq_none_iff]
    exact fun e he => (h e he).replaces
  · rw [any_eq_false]
    intro e he
    simp [(h e he).takes]

theorem placeLines_append_right (m : ModuleLines) (h : ∀ e ∈ before, e.Silent line) :
    m.placeLines (before ++ edits) line = m.placeLines edits line := by
  obtain ⟨hinserts, hreplaces, htakes⟩ := silent_all h
  rw [placeLines, placeLines, filterMap_append, findSome?_append, any_append, hinserts,
    hreplaces, htakes]
  rfl

theorem placeLines_append_left (m : ModuleLines) (h : ∀ e ∈ after, e.Silent line) :
    m.placeLines (edits ++ after) line = m.placeLines edits line := by
  obtain ⟨hinserts, hreplaces, htakes⟩ := silent_all h
  rw [placeLines, placeLines, filterMap_append, findSome?_append, any_append, hinserts,
    hreplaces, htakes, append_nil, Option.or_none, Bool.or_false]

theorem placeLines_of_silent (m : ModuleLines) (h : ∀ e ∈ edits, e.Silent line) :
    m.placeLines edits line = m.lines[line - 1]?.toList := by
  obtain ⟨hinserts, hreplaces, htakes⟩ := silent_all h
  rw [placeLines, hinserts, hreplaces, htakes]
  rfl

theorem placesFrom_of_silent (m : ModuleLines)
    (h : ∀ k, line < k → k ≤ line + count → ∀ e ∈ edits, e.Silent k) :
    m.placesFrom edits (line + 1) count = (m.lines.drop line).take count := by
  induction count generalizing line with
  | zero => simp [placesFrom]
  | succ count ih =>
    have hrest : m.placesFrom edits (line + 1 + 1) count = (m.lines.drop (line + 1)).take count :=
      ih fun k hk hle => h k (by omega) (by omega)
    rw [placesFrom_succ, hrest, m.placeLines_of_silent (h (line + 1) (by omega) (by omega)),
      Nat.add_sub_cancel]
    rcases Nat.lt_or_ge line m.lines.length with hlt | hge
    · rw [drop_eq_getElem_cons hlt, take_succ_cons, getElem?_eq_getElem hlt]
      rfl
    · rw [drop_eq_nil_of_le hge, drop_eq_nil_of_le (by omega), getElem?_eq_none hge]
      simp

/-- At a line that no edit takes stand the lines inserted before it and the line itself. -/
theorem placeLines_of_untaken (m : ModuleLines)
    (h : ∀ e ∈ edits, e.replacedText? line = none ∧ e.takesLine line = false) :
    m.placeLines edits line = (edits.filterMap (insertedText? line)).flatMap Text.splitLines ++
        m.lines[line - 1]?.toList := by
  have hreplaces : edits.findSome? (replacedText? line) = none := by
    rw [findSome?_eq_none_iff]
    exact fun e he => (h e he).1
  have htakes : edits.any (takesLine line) = false := by
    rw [any_eq_false]
    intro e he
    simp [(h e he).2]
  rw [placeLines, hreplaces, htakes]
  rfl

/-- Lines behind those that edits may take stay behind them, and behind lines that are inserted. -/
theorem edited_append {m n : ModuleLines} {extra : List Text} (hlines : n.lines = m.lines ++ extra)
    (h : ∀ e ∈ edits, e.Reaches m.lines.length) : n.edited edits = m.edited edits ++ extra := by
  have hbehind : ∀ k, m.lines.length + 1 < k → ∀ e ∈ edits, e.Silent k :=
    fun k hk e he => (h e he).silent hk
  have hsame : n.placesFrom edits 1 m.lines.length = m.placesFrom edits 1 m.lines.length := by
    apply placesFrom_congr
    intro k hk hlt
    rw [placeLines, placeLines, hlines, getElem?_append_left (by omega)]
  have huntaken : ∀ e ∈ edits, e.replacedText? (m.lines.length + 1) = none ∧
      e.takesLine (m.lines.length + 1) = false := fun e he => (h e he).untaken
  have hend : n.placeLines edits (m.lines.length + 1) =
      m.placeLines edits (m.lines.length + 1) ++ extra[0]?.toList := by
    rw [n.placeLines_of_untaken huntaken, m.placeLines_of_untaken huntaken, hlines,
      Nat.add_sub_cancel, getElem?_append_right (Nat.le_refl _), Nat.sub_self,
      getElem?_eq_none (Nat.le_refl _), Option.toList_none, append_nil]
  have hextra : n.placesFrom edits (m.lines.length + 1 + 1) extra.length = extra.drop 1 := by
    rw [n.placesFrom_of_silent fun k hk _ => hbehind k hk, hlines, drop_append,
      drop_eq_nil_of_le (by omega), Nat.add_sub_cancel_left, nil_append,
      take_of_length_le (by simp)]
  have hparts : extra[0]?.toList ++ extra.drop 1 = extra := by cases extra <;> rfl
  calc
    n.edited edits = n.placesFrom edits 1 (m.lines.length + (extra.length + 1)) := by
      rw [edited, hlines, length_append, Nat.add_assoc]
    _ = m.placesFrom edits 1 m.lines.length ++
        (m.placeLines edits (m.lines.length + 1) ++ extra) := by
      rw [placesFrom_add, hsame, placesFrom_succ, Nat.add_comm 1, hend, hextra, append_assoc,
        hparts]
    _ = m.edited edits ++ extra := by
      have hnone : m.placesFrom edits (m.lines.length + 1 + 1) 0 = [] := rfl
      rw [edited, placesFrom_add, placesFrom_succ, Nat.add_comm 1, hnone, append_nil, append_assoc]

theorem placeLines_insert (m : ModuleLines) (added : Text) (edits : List Edit) (line k : Nat) :
    m.placeLines (.insert line added :: edits) k =
      (if line = k then added.splitLines else []) ++ m.placeLines edits k := by
  have hreplaces : (Edit.insert line added :: edits).findSome? (replacedText? k) =
      edits.findSome? (replacedText? k) := rfl
  rw [placeLines, hreplaces, filterMap_cons, any_cons, insertedText?]
  by_cases h : line = k <;> simp [h, placeLines, takesLine, range?]

/-- Lines that are inserted stand before what the other edits make of the line. -/
theorem placesFrom_insert (m : ModuleLines) (added : Text) (edits : List Edit) (line count : Nat) :
    m.placesFrom (.insert line added :: edits) line (count + 1) =
      added.splitLines ++ m.placesFrom edits line (count + 1) := by
  have hrest : m.placesFrom (.insert line added :: edits) (line + 1) count =
      m.placesFrom edits (line + 1) count := by
    refine placesFrom_congr fun k hk _ => ?_
    rw [placeLines_insert, if_neg (by omega), nil_append]
  rw [placesFrom_succ, placesFrom_succ, hrest, placeLines_insert, if_pos rfl, append_assoc]

theorem edited_nil (m : ModuleLines) : m.edited [] = m.lines := by
  rw [edited, m.placesFrom_of_silent (by simp), drop_zero, take_of_length_le (by omega)]

end

end ModuleLines

namespace EditBuffer

/-- The ranges of the edits are lines of the module and share none, and no insert stands inside. -/
structure Settled (b : EditBuffer) : Prop where
  bounded : ∀ e ∈ b.edits, ∀ r, e.range? = some r →
    0 < r.first ∧ r.first ≤ r.last ∧ r.last ≤ b.module.lines.length
  apart : b.edits.Pairwise fun e f => ∀ r s, e.range? = some r → f.range? = some s →
    r.overlaps s = false
  outside : ∀ e ∈ b.edits, ∀ r, e.range? = some r → ∀ line text, .insert line text ∈ b.edits →
    r.holdsInsert line = false

namespace Settled

variable {b : EditBuffer} {e f : Edit} {r s : LineRange}

/-- One edit at most takes a line away. -/
theorem eq_of_holds (hb : b.Settled) (he : e ∈ b.edits) (hf : f ∈ b.edits)
    (hr : e.range? = some r) (hs : f.range? = some s) (hrl : r.holds line = true)
    (hsl : s.holds line = true) : e = f := by
  have hover : r.overlaps s = true := by
    rw [LineRange.holds_iff] at hrl hsl
    rw [LineRange.overlaps_iff]
    omega
  have happart := hb.apart
  generalize b.edits = edits at he hf happart
  induction edits with
  | nil => simp at he
  | cons g edits ih =>
    obtain ⟨hhead, htail⟩ := pairwise_cons.mp happart
    rcases mem_cons.mp he with rfl | hetail <;> rcases mem_cons.mp hf with rfl | hftail
    · rfl
    · exact absurd hover (by simp [hhead f hftail r s hr hs])
    · rw [LineRange.overlaps_comm] at hover
      exact absurd hover (by simp [hhead e hetail s r hs hr])
    · exact ih hetail hftail htail

theorem first_holds (hb : b.Settled) (he : e ∈ b.edits) (hr : e.range? = some r) :
    r.holds r.first = true := by
  have hbounds := hb.bounded e he r hr
  rw [LineRange.holds_iff]
  omega

end Settled

theorem insertsAt_eq (b : EditBuffer) (line : Nat) :
    b.insertsAt line = (b.edits.filterMap (insertedText? line)).flatMap Text.splitLines := by
  rw [insertsAt]
  induction b.edits with
  | nil => rfl
  | cons e edits ih =>
    rw [flatMap_cons, filterMap_cons, ih]
    cases e with
    | replace range text => rfl
    | delete range => rfl
    | insert before text => by_cases hline : before = line <;> simp [insertedText?, hline]

variable {b : EditBuffer} {e : Edit} {r : LineRange}

theorem replacedText?_eq_some {text : Text} (h : e.replacedText? line = some text) :
    ∃ r, e = .replace r text ∧ r.first = line := by
  cases e with
  | replace range t =>
    simp only [replacedText?, Option.ite_none_right_eq_some, Option.some.injEq] at h
    exact ⟨range, by rw [h.2], h.1⟩
  | delete range => simp [replacedText?] at h
  | insert before t => simp [replacedText?] at h

section

variable {b : EditBuffer} {e : Edit} {r : LineRange}

/-- A line that no edit takes away stays. -/
theorem placeLines_of_free (hb : b.Settled)
    (hfree : ∀ e ∈ b.edits, ∀ r, e.range? = some r → r.holds line = false) :
    b.module.placeLines b.edits line = b.insertsAt line ++ b.module.lines[line - 1]?.toList := by
  have hreplaced : b.edits.findSome? (replacedText? line) = none := by
    rw [findSome?_eq_none_iff]
    intro e he
    cases htext : e.replacedText? line with
    | none => rfl
    | some text =>
      obtain ⟨r, rfl, rfl⟩ := replacedText?_eq_some htext
      have hholds := hb.first_holds he rfl
      exact absurd hholds (by simp [hfree _ he r rfl])
  have htaken : b.edits.any (takesLine line) = false := by
    rw [any_eq_false]
    intro e he
    cases hr : e.range? with
    | none => simp [takesLine, hr]
    | some r => simp [takesLine, hr, hfree e he r hr]
  rw [placeLines, hreplaced, htaken, insertsAt_eq]
  rfl

/-- Where a range starts, what its edit brings in stands. -/
theorem placeLines_first (hb : b.Settled) (he : e ∈ b.edits) (hr : e.range? = some r) :
    b.module.placeLines b.edits r.first = b.insertsAt r.first ++ e.output := by
  have hfirst := hb.first_holds he hr
  have hother : ∀ f ∈ b.edits, ∀ text, f.replacedText? r.first = some text → f = e := by
    intro f hf text htext
    obtain ⟨s, rfl, hs⟩ := replacedText?_eq_some htext
    have hsfirst := hb.first_holds hf rfl
    exact hb.eq_of_holds hf he rfl hr (hs ▸ hsfirst) hfirst
  rw [placeLines, insertsAt_eq]
  congr 1
  cases e with
  | insert before text => simp [range?] at hr
  | replace range text =>
    obtain rfl : range = r := by simpa [range?] using hr
    have hfound : b.edits.findSome? (replacedText? range.first) = some text := by
      cases hfind : b.edits.findSome? (replacedText? range.first) with
      | none =>
        have hnone := findSome?_eq_none_iff.mp hfind _ he
        simp [replacedText?] at hnone
      | some found =>
        obtain ⟨f, hf, htext⟩ := exists_of_findSome?_eq_some hfind
        rw [hother f hf found htext] at htext
        simpa [replacedText?] using htext.symm
    rw [hfound]
    rfl
  | delete range =>
    have hnone : b.edits.findSome? (replacedText? r.first) = none := by
      rw [findSome?_eq_none_iff]
      intro f hf
      cases htext : f.replacedText? r.first with
      | none => rfl
      | some text =>
        rw [hother f hf text htext] at htext
        simp [replacedText?] at htext
    have htaken : b.edits.any (takesLine r.first) = true :=
      any_eq_true.mpr ⟨_, he, by simp [takesLine, hr, hfirst]⟩
    rw [hnone, htaken]
    rfl

/-- Behind the first line of a range nothing stands. -/
theorem placeLines_inside (hb : b.Settled) (he : e ∈ b.edits) (hr : e.range? = some r)
    (hfirst : r.first < line) (hlast : line ≤ r.last) : b.module.placeLines b.edits line = [] := by
  have hholds : r.holds line = true := by
    rw [LineRange.holds_iff]
    omega
  have hinserts : b.edits.filterMap (insertedText? line) = [] := by
    rw [filterMap_eq_nil_iff]
    intro f hf
    cases f with
    | replace range text => rfl
    | delete range => rfl
    | insert before text =>
      have houtside := hb.outside e he r hr before text hf
      have hne : before ≠ line := by
        rintro rfl
        rw [(LineRange.holdsInsert_iff r before).mpr ⟨hfirst, hlast⟩] at houtside
        cases houtside
      simp [insertedText?, hne]
  have hreplaced : b.edits.findSome? (replacedText? line) = none := by
    rw [findSome?_eq_none_iff]
    intro f hf
    cases htext : f.replacedText? line with
    | none => rfl
    | some text =>
      obtain ⟨s, rfl, rfl⟩ := replacedText?_eq_some htext
      have heq := hb.eq_of_holds hf he rfl hr (hb.first_holds hf rfl) hholds
      rw [← heq] at hr
      obtain rfl : s = r := by simpa [range?] using hr
      omega
  have htaken : b.edits.any (takesLine line) = true :=
    any_eq_true.mpr ⟨e, he, by simp [takesLine, hr, hholds]⟩
  rw [placeLines, hinserts, hreplaced, htaken]
  rfl

end

/-- The edits of ranges that are still to come when the pass stands at a line: in order, and all but
those of ranges that it left behind. -/
structure Ahead (b : EditBuffer) (ranged : List (LineRange × Edit)) (line : Nat) : Prop where
  pending : ∀ p ∈ ranged, p.2 ∈ b.edits ∧ p.2.range? = some p.1
  ahead : ∀ p ∈ ranged, line ≤ p.1.first
  ordered : ranged.Pairwise fun p q => p.1.last < q.1.first
  complete : ∀ e ∈ b.edits, ∀ r, e.range? = some r → r.last < line ∨ (r, e) ∈ ranged

namespace Ahead

variable {b : EditBuffer} {r : LineRange} {e : Edit}

/-- Past a range, the rest is to come. -/
theorem tail (hb : b.Settled) (h : b.Ahead ((r, e) :: rest) line) :
    b.Ahead rest (r.last + 1) := by
  obtain ⟨hfirst, hordered⟩ := pairwise_cons.mp h.ordered
  refine ⟨?_, ?_, hordered, ?_⟩
  · intro p hp
    exact h.pending p (mem_cons_of_mem _ hp)
  · intro p hp
    exact hfirst p hp
  intro f hf s hs
  rcases h.complete f hf s hs with hbehind | hmem
  · obtain ⟨he, hr⟩ := h.pending (r, e) mem_cons_self
    have hle := h.ahead (r, e) mem_cons_self
    have hbounds := hb.bounded e he r hr
    simp only at hle
    exact .inl (by omega)
  · rcases mem_cons.mp hmem with heq | hmem
    · obtain ⟨rfl, rfl⟩ := Prod.mk.inj heq
      exact .inl (Nat.lt_succ_self _)
    · exact .inr hmem

section

variable (h : b.Ahead ranged line) (hnext : ∀ p ∈ ranged, p.1.first ≠ line)

include h hnext

/-- A line before the next range is not taken away. -/
theorem free : ∀ e ∈ b.edits, ∀ r, e.range? = some r → r.holds line = false := by
  intro e he r hr
  have hne : ¬ r.holds line = true := by
    rw [LineRange.holds_iff]
    rcases h.complete e he r hr with hbehind | hmem
    · omega
    · have hle := h.ahead _ hmem
      have hne := hnext _ hmem
      simp only at hle hne
      omega
  simpa using hne

/-- With no range at the line, the pass takes one step. -/
theorem step : b.Ahead ranged (line + 1) := by
  refine ⟨h.pending, ?_, h.ordered, ?_⟩
  · intro p hp
    have hle := h.ahead p hp
    have hne := hnext p hp
    omega
  · intro e he r hr
    rcases h.complete e he r hr with hbehind | hmem
    · exact .inl (Nat.lt_succ_of_lt hbehind)
    · exact .inr hmem

end

end Ahead

theorem placesFrom_inside (hb : b.Settled) (he : e ∈ b.edits) (hr : e.range? = some r) (count : Nat)
    (hcount : r.first + count ≤ r.last) : b.module.placesFrom b.edits (r.first + 1) count = [] := by
  rw [placesFrom, flatMap_eq_nil_iff]
  intro line hline
  rw [mem_range'_1] at hline
  exact placeLines_inside hb he hr (by omega) (by omega)

section

variable {b : EditBuffer} {r : LineRange} {e : Edit}

theorem linesFrom_first (hline : r.first ≤ b.module.lines.length) :
    b.linesFrom ((r, e) :: rest) r.first =
      b.insertsAt r.first ++ (e.output ++ b.linesFrom rest (r.last + 1)) := by
  rw [linesFrom.eq_def, if_pos hline]
  simp

theorem linesFrom_step (hline : line ≤ b.module.lines.length)
    (hnext : ∀ p ∈ ranged, p.1.first ≠ line) :
    b.linesFrom ranged line =
      b.insertsAt line ++ (b.module.lines[line - 1]?.toList ++ b.linesFrom ranged (line + 1)) := by
  rw [linesFrom.eq_def, if_pos hline]
  cases ranged with
  | nil => rfl
  | cons p rest => simp [hnext p mem_cons_self]

theorem linesFrom_end (hline : b.module.lines.length < line) :
    b.linesFrom ranged line = b.insertsAt (b.module.lines.length + 1) := by
  rw [linesFrom.eq_def, if_neg (by omega)]

/-- Either the next range starts at the line, or none does. -/
theorem Ahead.next (hb : b.Settled) (h : b.Ahead ranged line) :
    (∃ r e rest, ranged = (r, e) :: rest ∧ r.first = line) ∨ ∀ p ∈ ranged, p.1.first ≠ line := by
  cases ranged with
  | nil => exact .inr (by simp)
  | cons p rest =>
    rcases p with ⟨r, e⟩
    by_cases hfirst : r.first = line
    · exact .inl ⟨r, e, rest, rfl, hfirst⟩
    -- Those behind the next range start after it ends.
    right
    refine forall_mem_cons.mpr ⟨hfirst, fun p hp => ?_⟩
    have hle := h.ahead _ mem_cons_self
    have hafter := (pairwise_cons.mp h.ordered).1 p hp
    obtain ⟨he, hr⟩ := h.pending _ mem_cons_self
    have hbounds := hb.bounded e he r hr
    simp only at hle hafter
    omega

/-- The pass over the lines gives, from any line on, what stands at the places of the lines. -/
theorem linesFrom_eq_placesFrom (hb : b.Settled) (h : b.Ahead ranged line)
    (hline : line ≤ b.module.lines.length + 1) :
    b.linesFrom ranged line =
      b.module.placesFrom b.edits line (b.module.lines.length + 2 - line) := by
  -- On the number of lines to come, since the pass jumps to the end of a range.
  induction hleft : b.module.lines.length + 1 - line using Nat.strongRecOn
    generalizing ranged line with
  | ind left ih =>
    by_cases hend : b.module.lines.length < line
    · obtain rfl : line = b.module.lines.length + 1 := by omega
      have hfree := h.free (fun p hp hfirst => by
        obtain ⟨he, hr⟩ := h.pending p hp
        have hbounds := hb.bounded p.2 he p.1 hr
        omega)
      have hcount : b.module.lines.length + 2 - (b.module.lines.length + 1) = 0 + 1 := by omega
      rw [linesFrom_end hend, hcount, placesFrom_succ, placeLines_of_free hb hfree]
      simp [placesFrom]
    · rcases h.next hb with ⟨r, e, rest, rfl, rfl⟩ | hnext
      · obtain ⟨he, hr⟩ : e ∈ b.edits ∧ e.range? = some r := h.pending _ mem_cons_self
        have hbounds := hb.bounded e he r hr
        have ih := ih _ (by omega) (h.tail hb) (by omega) rfl
        have hcount : b.module.lines.length + 2 - r.first =
            ((r.last - r.first) + (b.module.lines.length + 2 - (r.last + 1))) + 1 := by
          omega
        have hpast : r.first + 1 + (r.last - r.first) = r.last + 1 := by omega
        rw [linesFrom_first (by omega), ih, hcount, placesFrom_succ,
          placesFrom_add, placesFrom_inside hb he hr _ (by omega),
          placeLines_first hb he hr, hpast]
        simp
      · have ih := ih _ (by omega) (h.step hnext) (by omega) rfl
        have hcount : b.module.lines.length + 2 - line =
            (b.module.lines.length + 2 - (line + 1)) + 1 := by
          omega
        rw [linesFrom_step (by omega) hnext, ih, hcount, placesFrom_succ,
          placeLines_of_free hb (h.free hnext)]
        simp

end

theorem mem_ranged : (r, e) ∈ b.ranged ↔ e ∈ b.edits ∧ e.range? = some r := by
  rw [ranged, mem_mergeSort, mem_filterMap]
  constructor
  · rintro ⟨f, hf, hmap⟩
    obtain ⟨s, hs, heq⟩ := Option.map_eq_some_iff.mp hmap
    obtain ⟨rfl, rfl⟩ := Prod.mk.inj heq
    exact ⟨hf, hs⟩
  · rintro ⟨he, hr⟩
    exact ⟨e, he, by rw [hr]; rfl⟩

theorem ranged_sorted (b : EditBuffer) : b.ranged.Pairwise fun p q => p.1.first ≤ q.1.first := by
  have hsorted : b.ranged.Pairwise fun p q => decide (p.1.first ≤ q.1.first) = true := by
    apply pairwise_mergeSort
    · intro p q s hpq hqs
      simp only [decide_eq_true_eq] at hpq hqs ⊢
      omega
    · intro p q
      simp only [Bool.or_eq_true, decide_eq_true_eq]
      omega
  exact hsorted.imp fun h => by simpa using h

theorem ranged_apart (hb : b.Settled) : b.ranged.Pairwise fun p q => p.1.overlaps q.1 = false := by
  have hperm : b.ranged.Perm (b.edits.filterMap fun e => e.range?.map (·, e)) := mergeSort_perm _ _
  refine hperm.symm.pairwise ?_ ?_
  · rw [pairwise_filterMap]
    refine hb.apart.imp ?_
    intro e f happart p hp q hq
    obtain ⟨r, hr, rfl⟩ := Option.map_eq_some_iff.mp hp
    obtain ⟨s, hs, rfl⟩ := Option.map_eq_some_iff.mp hq
    exact happart r s hr hs
  · intro p q h
    rw [LineRange.overlaps_comm]
    exact h

/-- Before the first line, all edits of ranges are to come. -/
theorem ahead_ranged (hb : b.Settled) : b.Ahead b.ranged 1 := by
  refine ⟨?_, ?_, ?_, ?_⟩
  · rintro ⟨r, e⟩ hp
    exact mem_ranged.mp hp
  · rintro ⟨r, e⟩ hp
    obtain ⟨he, hr⟩ := mem_ranged.mp hp
    exact (hb.bounded e he r hr).1
  · refine ((b.ranged_sorted.and (ranged_apart hb)).imp_of_mem ?_)
    rintro ⟨r, e⟩ ⟨s, f⟩ hp hq ⟨hle, happart⟩
    obtain ⟨hf, hs⟩ := mem_ranged.mp hq
    have hbounds := hb.bounded f hf s hs
    have hover := mt (LineRange.overlaps_iff r s).mpr (by simp [happart])
    simp only at hle ⊢
    omega
  · intro e he r hr
    exact .inr (mem_ranged.mpr ⟨he, hr⟩)

/-- Applying the edits of a settled buffer puts at the place of each line what belongs there. -/
theorem applied_eq_edited (hb : b.Settled) : b.applied = b.module.edited b.edits := by
  rw [applied, linesFrom_eq_placesFrom hb (ahead_ranged hb) (by omega)]
  rfl

/-! ## What a buffer takes -/

section

variable {new pending : Edit} {range taken : LineRange}

theorem judgeAgainst_insert (new : Edit) (range : LineRange) (line : Nat) (text : Text)
    (edits : List Edit) :
    judgeAgainst new range (.insert line text :: edits) = if .insert line text = new then .absorbed
      else if range.holdsInsert line then .overlap (line, line) (bounds range)
      else judgeAgainst new range edits := by
  rw [judgeAgainst.eq_def]

theorem judgeAgainst_range (new : Edit) (range : LineRange) (edits : List Edit)
    (hr : pending.range? = some taken) :
    judgeAgainst new range (pending :: edits) = if pending = new then .absorbed
      else if taken.overlaps range then
        if new.isDelete && taken.contains range then .absorbed
        else .overlap (bounds taken) (bounds range)
      else judgeAgainst new range edits := by
  rw [judgeAgainst.eq_def]
  cases pending with
  | insert line text => simp [range?] at hr
  | replace r text =>
    cases hr
    rfl
  | delete r =>
    cases hr
    rfl

/-- An edit of a range is queued only if no pending edit stands in its way. -/
theorem judgeAgainst_queued (h : judgeAgainst new range edits = .queued) :
    ∀ e ∈ edits, (∀ r, e.range? = some r → r.overlaps range = false) ∧
      ∀ line text, e = .insert line text → range.holdsInsert line = false := by
  induction edits with
  | nil => simp
  | cons pending edits ih =>
    cases hr : pending.range? with
    | some taken =>
      rw [judgeAgainst_range new range edits hr] at h
      by_cases heq : pending = new
      · simp [heq] at h
      by_cases hover : taken.overlaps range = true
      · rw [if_neg heq, if_pos hover] at h
        split at h <;> cases h
      rw [if_neg heq, if_neg hover] at h
      intro e he
      rcases mem_cons.mp he with rfl | he
      · refine ⟨?_, ?_⟩
        · intro r hr'
          rw [hr] at hr'
          cases hr'
          simpa using hover
        · rintro line text rfl
          cases hr
      · exact ih h e he
    | none =>
      cases pending with
      | replace r text => cases hr
      | delete r => cases hr
      | insert line text =>
        rw [judgeAgainst_insert] at h
        by_cases heq : .insert line text = new
        · simp [heq] at h
        by_cases hholds : range.holdsInsert line = true
        · simp [heq, hholds] at h
        rw [if_neg heq, if_neg hholds] at h
        intro e he
        rcases mem_cons.mp he with rfl | he
        · refine ⟨by simp [hr], ?_⟩
          rintro before t ht
          cases ht
          simpa using hholds
        · exact ih h e he

/-- An edit of a range is absorbed by one that is equal to it, or by one from whose range it deletes. -/
theorem judgeAgainst_absorbed (h : judgeAgainst new range edits = .absorbed) :
    new ∈ edits ∨ (new.isDelete = true ∧ ∃ e ∈ edits, ∃ r, e.range? = some r ∧
      r.contains range = true) := by
  induction edits with
  | nil => simp [judgeAgainst] at h
  | cons pending edits ih =>
    have hlater (hrest : judgeAgainst new range edits = .absorbed) :
        new ∈ pending :: edits ∨ (new.isDelete = true ∧ ∃ e ∈ pending :: edits, ∃ r,
          e.range? = some r ∧ r.contains range = true) := by
      rcases ih hrest with hmem | ⟨hdelete, e, he, r, hr, hcontains⟩
      · exact .inl (mem_cons_of_mem _ hmem)
      · exact .inr ⟨hdelete, e, mem_cons_of_mem _ he, r, hr, hcontains⟩
    by_cases heq : pending = new
    · exact .inl (heq ▸ mem_cons_self)
    cases hr : pending.range? with
    | some taken =>
      rw [judgeAgainst_range new range edits hr, if_neg heq] at h
      by_cases hover : taken.overlaps range = true
      · rw [if_pos hover] at h
        split at h
        · rename_i hboth
          rw [Bool.and_eq_true] at hboth
          exact .inr ⟨hboth.1, pending, mem_cons_self, taken, hr, hboth.2⟩
        · cases h
      · rw [if_neg hover] at h
        exact hlater h
    | none =>
      cases pending with
      | replace r text => cases hr
      | delete r => cases hr
      | insert line text =>
        rw [judgeAgainst_insert, if_neg heq] at h
        split at h
        · cases h
        · exact hlater h

end

end EditBuffer

end VbaRefactor
