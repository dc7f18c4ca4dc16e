import Mathlib.Data.List.DropRight
import VbaRefactor.Text.Continuation
import VbaRefactor.Proofs.Text.Rows

/-!
# Joined lines

A continued line is a head, its mark (an underscore) and blanks. Joining takes the marks of the lines
before the last away and moves blanks only, so that every other character stays, in its order.
-/

namespace VbaRefactor

open List

namespace Text

/-- The characters that are not blank. -/
def ink (t : Text) : Text := t.filter (!isBlank ·)

/-- The last character that is not blank is an underscore, alone on the line or after a blank. -/
def isContinued (line : Text) : Bool :=
  line.trimEnd.getLast? = some '_' &&
    (line.trim = ['_'] || line.trimEnd.dropLast.getLast?.any isBlank)

/-- The line without the last character that is not blank. -/
def withoutMark (line : Text) : Text := line.eraseIdx (line.trimEnd.length - 1)

/-- The lines, all but the last without their marks. -/
def withoutMarks : List Text → List Text
  | [] => []
  | [last] => [last]
  | line :: next :: rest => line.withoutMark :: withoutMarks (next :: rest)

section

variable {c : Char} {t out line head : Text} {lines : List Text} {continued : Bool}

/-! ## Trimmed texts -/

@[simp]
theorem ink_nil : ink [] = [] := rfl

@[simp]
theorem ink_append (s t : Text) : ink (s ++ t) = s.ink ++ t.ink := filter_append s t

@[simp]
theorem ink_trimStart (t : Text) : t.trimStart.ink = t.ink := by
  induction t with
  | nil => rfl
  | cons c t ih => by_cases hc : isBlank c <;> simp_all [ink, trimStart]

theorem trimEnd_eq (t : Text) : t.trimEnd = (trimStart t.reverse).reverse := rfl

@[simp]
theorem ink_trimEnd (t : Text) : t.trimEnd.ink = t.ink := by
  have hstart := ink_trimStart t.reverse
  rw [trimEnd_eq]
  simp_all [ink]

theorem trimEnd_append_blank (h : isBlank c = true) (t : Text) : trimEnd (t ++ [c]) = t.trimEnd := by
  simp [trimEnd, h]

theorem trimEnd_dropCr (t : Text) : t.dropCr.trimEnd = t.trimEnd := by
  unfold dropCr
  split
  · rename_i hlast
    obtain ⟨init, rfl⟩ := getLast?_eq_some_iff.mp hlast
    simp [trimEnd_append_blank (show isBlank '\r' = true from rfl)]
  · rfl

theorem dropCr_sublist (t : Text) : t.dropCr.Sublist t := by
  unfold dropCr
  split
  · exact dropLast_sublist t
  · exact .refl t

@[simp]
theorem ink_dropCr (t : Text) : t.dropCr.ink = t.ink := by
  rw [← ink_trimEnd, trimEnd_dropCr, ink_trimEnd]

@[simp]
theorem ink_joint (out line : Text) : (joint out line).ink = [] := by
  unfold joint
  split <;> rfl

/-! ## Marks -/

theorem exists_tail (h : line.trimEnd = head ++ ['_']) :
    ∃ tail, line = head ++ '_' :: tail ∧ ∀ c ∈ tail, isBlank c = true := by
  refine ⟨line.rtakeWhile isBlank, ?_, fun c hc => mem_rtakeWhile_imp hc⟩
  rw [append_cons, ← h]
  exact rdropWhile_append_rtakeWhile.symm

theorem trimEnd_trimStart (h : line.trimEnd = head ++ ['_']) :
    line.trimStart.trimEnd = head.trimStart ++ ['_'] := by
  obtain ⟨tail, rfl, htail⟩ := exists_tail h
  have hstart : trimStart (head ++ '_' :: tail) = head.trimStart ++ '_' :: tail := by
    unfold trimStart
    rw [dropWhile_append, dropWhile_cons_of_neg (by decide)]
    split <;> simp_all
  rw [hstart, append_cons, trimEnd, reverse_append, dropWhile_append_of_pos (by simpa using htail)]
  simp [isBlank]

theorem ink_withoutMark (h : line.trimEnd = head ++ ['_']) : line.withoutMark.ink = head.ink := by
  obtain ⟨tail, hline, htail⟩ := exists_tail h
  have htail : ink tail = [] := by simpa [ink] using htail
  rw [withoutMark, h, hline]
  simp [eraseIdx_append_of_length_le, htail]

/-- The underscore of a continued line stands alone or after a blank. -/
theorem exists_mark (h : line.isContinued = true) :
    ∃ head, line.trimEnd = head ++ ['_'] ∧ ∀ c ∈ head.getLast?, isBlank c = true := by
  simp only [isContinued, Bool.and_eq_true, Bool.or_eq_true, decide_eq_true_eq] at h
  obtain ⟨hlast, hbefore⟩ := h
  obtain ⟨head, hhead⟩ := getLast?_eq_some_iff.mp hlast
  refine ⟨head, hhead, fun c hc => ?_⟩
  rcases hbefore with halone | hblank
  · rw [trim, trimEnd_trimStart hhead] at halone
    have hnil : trimStart head = [] := append_cancel_right (halone.trans (nil_append _).symm)
    exact dropWhile_eq_nil_iff.mp hnil c (mem_of_getLast? hc)
  · simpa [hhead, Option.mem_def.mp hc] using hblank

theorem continuedHead?_eq (h : line.trimEnd = head ++ ['_'])
    (hblank : ∀ c ∈ head.getLast?, isBlank c = true) : line.continuedHead? = some head := by
  simp only [continuedHead?, h, getLast?_concat, dropLast_concat, if_pos]
  cases hlast : head.getLast? with
  | none => simp [getLast?_eq_none_iff.mp hlast]
  | some c => simp [hblank c hlast]

/-- A continued line is cut at its mark, also where the blanks before it are dropped. -/
theorem exists_continuedHead (h : line.isContinued = true) (continued : Bool) :
    ∃ head, head.ink = line.withoutMark.ink ∧
      (if continued then line.dropCr.trimStart else line.dropCr).continuedHead? = some head := by
  obtain ⟨head, hhead, hblank⟩ := exists_mark h
  rw [ink_withoutMark hhead]
  rw [← trimEnd_dropCr] at hhead
  cases continued with
  | false => exact ⟨head, rfl, continuedHead?_eq hhead hblank⟩
  | true =>
    refine ⟨_, ink_trimStart head, continuedHead?_eq (trimEnd_trimStart hhead) fun c hc => hblank c ?_⟩
    rw [← takeWhile_append_dropWhile (p := isBlank) (l := head), getLast?_append]
    exact Option.or_eq_some_iff.mpr (.inl hc)

/-! ## What joining keeps -/

/-- Joining keeps the ink of the lines without their marks. -/
theorem ink_joinContinued (h : ∀ line ∈ lines.dropLast, line.isContinued = true) :
    (joinContinued out continued lines).ink = out.ink ++ ink (withoutMarks lines).flatten := by
  fun_induction joinContinued out continued lines with
  | case1 => simp [withoutMarks]
  | case2 out continued raw line out' head next rest hhead ih =>
    rw [dropLast_cons_cons, forall_mem_cons] at h
    obtain ⟨start, hstart, hcut⟩ := exists_continuedHead h.1 continued
    cases hhead.symm.trans hcut
    rw [ih h.2]
    cases continued <;> simp [withoutMarks, out', hstart]
  | case3 out continued raw line out' =>
    cases continued <;> simp [withoutMarks, out', line]
  | case4 out continued raw line out' next rest hhead ih =>
    rw [dropLast_cons_cons, forall_mem_cons] at h
    obtain ⟨start, hstart, hcut⟩ := exists_continuedHead h.1 continued
    cases hhead.symm.trans hcut

theorem mem_of_mem_trimStart (h : c ∈ t.trimStart) : c ∈ t := (dropWhile_sublist _).subset h

theorem mem_of_mem_trimEnd (h : c ∈ t.trimEnd) : c ∈ t := by
  rw [trimEnd, mem_reverse] at h
  exact mem_reverse.mp ((dropWhile_sublist _).subset h)

theorem mem_of_continuedHead? (h : line.continuedHead? = some head) (hc : c ∈ head) : c ∈ line := by
  have hhead : head = line.trimEnd.dropLast := by grind [continuedHead?]
  rw [hhead] at hc
  exact mem_of_mem_trimEnd ((dropLast_sublist _).subset hc)

theorem mem_joint (h : c ∈ joint out line) : c = ' ' := by
  unfold joint at h
  split at h <;> simp_all

theorem not_mem_next (hc : c ≠ ' ') (hout : c ∉ out) (hline : c ∉ line.dropCr) :
    let next := if continued then line.dropCr.trimStart else line.dropCr
    c ∉ next ∧ c ∉ if continued then out ++ joint out next else out := by
  cases continued with
  | false => exact ⟨hline, hout⟩
  | true =>
    refine ⟨mt mem_of_mem_trimStart hline, fun hmem => ?_⟩
    exact (mem_append.mp hmem).elim hout fun hmem => hc (mem_joint hmem)

/-- Joined lines have no character but their own, blanks, and a line feed behind a line that is not
continued. -/
theorem not_mem_joinContinued (hc : c ≠ ' ') (hout : c ∉ out)
    (hlines : ∀ line ∈ lines, c ∉ line.dropCr)
    (hlf : c = '\n' → ∀ line ∈ lines.dropLast, line.isContinued = true) :
    c ∉ joinContinued out continued lines := by
  fun_induction joinContinued out continued lines with
  | case1 => exact hout
  | case2 out continued raw line out' head next rest hhead ih =>
    obtain ⟨hraw, hrest⟩ := forall_mem_cons.mp hlines
    obtain ⟨hline, hnext⟩ := not_mem_next hc hout hraw
    refine ih ?_ hrest fun heq line hline => hlf heq line (mem_cons_of_mem _ hline)
    rw [mem_append, not_or]
    exact ⟨hnext, fun hmem => hline (mem_of_continuedHead? hhead (mem_of_mem_trimEnd hmem))⟩
  | case3 out continued raw line out' =>
    rw [mem_append, not_or]
    exact (not_mem_next hc hout (hlines raw mem_cons_self)).symm
  | case4 out continued raw line out' next rest hhead ih =>
    obtain ⟨hraw, hrest⟩ := forall_mem_cons.mp hlines
    obtain ⟨hline, hnext⟩ := not_mem_next hc hout hraw
    refine ih ?_ hrest fun heq line hline => hlf heq line (mem_cons_of_mem _ hline)
    have hne : c ≠ '\n' := fun heq => by
      obtain ⟨_, -, hcut⟩ := exists_continuedHead (hlf heq raw mem_cons_self) continued
      cases hhead.symm.trans hcut
    simp only [mem_append, mem_singleton, not_or]
    exact ⟨⟨hnext, hline⟩, hne⟩

theorem CrClosed.joinContinuations (h : CrClosed t) : CrClosed t.joinContinuations := by
  apply CrClosed.of_not_mem
  apply not_mem_joinContinued (by decide) not_mem_nil _ fun hlf => absurd hlf (by decide)
  intro line hline
  exact (h.oneLine_of_mem _ (mem_map_of_mem hline)).2

theorem ink_intercalate (lines : List Text) : ink (['\n'].intercalate lines) = ink lines.flatten := by
  induction lines with
  | nil => rfl
  | cons line lines ih =>
    cases lines with
    | nil => simp
    | cons next lines =>
      rw [intercalate_cons_cons, flatten_cons, ink_append, ink_append, ink_append, ih]
      simp [ink, isBlank]

/-- Where all lines but the last are continued, joining gives one line, and takes nothing but the
marks and blanks away. -/
theorem joinContinuations_keeps_ink (h : ∀ line ∈ (t.split '\n').dropLast, line.isContinued = true) :
    '\n' ∉ t.joinContinuations ∧
      t.joinContinuations.ink = ink (['\n'].intercalate (withoutMarks (t.split '\n'))) := by
  constructor
  · apply not_mem_joinContinued (by decide) not_mem_nil _ fun _ => h
    intro line hline
    exact mt ((dropCr_sublist line).subset ·) (not_mem_of_mem_split line hline)
  · rw [ink_intercalate]
    exact ink_joinContinued h

/-- A line that is its mark only, a name with an underscore, and an underscore on the last line. -/
theorem joinContinuations_keeps_ink_marks :
    let t : Text := "Foo( _\r\n  a_b _\t\n_\n, c_ _".toList
    (∀ line ∈ (t.split '\n').dropLast, line.isContinued = true) ∧ '\n' ∉ t.joinContinuations ∧
      t.joinContinuations.ink = "Foo(a_b,c__".toList := by
  intro t
  have hlines : ∀ line ∈ (t.split '\n').dropLast, line.isContinued = true := by decide
  obtain ⟨hlf, hink⟩ := joinContinuations_keeps_ink hlines
  exact ⟨hlines, hlf, hink.trans (by decide)⟩

end

end Text

end VbaRefactor
