import VbaRefactor.Proofs.Text.Breaks

/-!
# Cutting a text by position

A position is a boundary if it stands between two characters, and a cut if it does not part a
carriage return from its line feed either. Slices between boundaries add up. At a cut, the line of the
position is counted by the breaks before it, starts after the last of them, and ends with the head of
what follows.
-/

namespace VbaRefactor

open List

namespace Text

/-- The position stands between two characters, or at an end. -/
def IsBoundary (t : Text) (pos : Nat) : Prop := ∃ a b, t = a ++ b ∧ byteSize a = pos

/-- No break of two characters is parted where the texts meet. -/
def Meet (a b : Text) : Prop := ¬ (a.getLast? = some '\r' ∧ b.head? = some '\n')

/-- The position is a boundary and not inside a break. -/
def IsCut (t : Text) (pos : Nat) : Prop := ∃ a b, t = a ++ b ∧ byteSize a = pos ∧ Meet a b

theorem isCut_iff (t : Text) (pos : Nat) :
    t.IsCut pos ↔ ∃ n ∈ List.range (t.length + 1),
      byteSize (t.take n) = pos ∧ ¬ ((t.take n).getLast? = some '\r' ∧ (t.drop n).head? = some '\n') := by
  constructor
  · rintro ⟨a, b, rfl, hsize, hmeet⟩
    refine ⟨a.length, ?_, ?_⟩
    · rw [mem_range, length_append]
      omega
    · rw [take_left, drop_left]
      exact ⟨hsize, hmeet⟩
  · rintro ⟨n, -, hsize, hmeet⟩
    exact ⟨t.take n, t.drop n, (take_append_drop n t).symm, hsize, hmeet⟩

instance (t : Text) (pos : Nat) : Decidable (t.IsCut pos) :=
  decidable_of_iff _ (isCut_iff t pos).symm

variable {a b t : Text} {c : Char} {p q pos : Nat}

theorem IsCut.isBoundary (h : t.IsCut pos) : t.IsBoundary pos := by
  obtain ⟨a, b, hparts, hsize, -⟩ := h
  exact ⟨a, b, hparts, hsize⟩

theorem byteSize_eq_zero (h : byteSize t = 0) : t = [] := by
  cases t with
  | nil => rfl
  | cons c t =>
    have hpos := c.utf8Size_pos
    rw [byteSize_cons] at h
    omega

theorem isBoundary_zero (t : Text) : t.IsBoundary 0 := ⟨[], t, rfl, rfl⟩

theorem isBoundary_byteSize (t : Text) : t.IsBoundary t.byteSize :=
  ⟨t, [], (append_nil t).symm, rfl⟩

theorem isCut_zero (t : Text) : t.IsCut 0 := ⟨[], t, rfl, rfl, by simp [Meet]⟩

theorem isCut_byteSize (t : Text) : t.IsCut t.byteSize :=
  ⟨t, [], (append_nil t).symm, rfl, by simp [Meet]⟩

theorem IsBoundary.le (h : t.IsBoundary pos) : pos ≤ t.byteSize := by
  obtain ⟨a, b, rfl, rfl⟩ := h
  rw [byteSize_append]
  omega

/-- Of two ways to part a text, the later one goes on from the earlier one. -/
theorem exists_middle {a b c d : Text} (h : a ++ b = c ++ d) (hle : byteSize a ≤ byteSize c) :
    ∃ m, c = a ++ m ∧ b = m ++ d := by
  rcases append_eq_append_iff.mp h with ⟨m, hc, hb⟩ | ⟨m, ha, hd⟩
  · exact ⟨m, hc, hb⟩
  have hempty : m = [] := by
    apply byteSize_eq_zero
    rw [ha, byteSize_append] at hle
    omega
  subst hempty
  refine ⟨[], ?_, ?_⟩
  · simpa using ha.symm
  · simpa using hd.symm

/-- Two boundaries part a text into three. -/
theorem exists_parts (hp : t.IsBoundary p) (hq : t.IsBoundary q) (hle : p ≤ q) :
    ∃ a m d, t = a ++ (m ++ d) ∧ byteSize a = p ∧ byteSize a + byteSize m = q := by
  obtain ⟨a, b, rfl, rfl⟩ := hp
  obtain ⟨c, d, hparts, rfl⟩ := hq
  obtain ⟨m, rfl, rfl⟩ := exists_middle hparts hle
  exact ⟨a, m, d, rfl, rfl, (byteSize_append a m).symm⟩

theorem slice_parts (a m d : Text) (hp : byteSize a = p) (hq : byteSize a + byteSize m = q) :
    slice (a ++ (m ++ d)) ⟨p, q⟩ = m := by
  subst hp hq
  exact slice_append a m d

theorem slice_add {p q r : Nat} (hp : t.IsBoundary p) (hq : t.IsBoundary q) (hr : t.IsBoundary r)
    (hpq : p ≤ q) (hqr : q ≤ r) : t.slice ⟨p, q⟩ ++ t.slice ⟨q, r⟩ = t.slice ⟨p, r⟩ := by
  obtain ⟨a, m, d, rfl, ha, hm⟩ := exists_parts hp hq hpq
  obtain ⟨c, e, hparts, hc⟩ := hr
  have hsplit : (a ++ m) ++ d = c ++ e := by rw [append_assoc, hparts]
  obtain ⟨n, rfl, rfl⟩ := exists_middle hsplit (by rw [byteSize_append]; omega)
  have hfirst : slice (a ++ (m ++ (n ++ e))) ⟨p, q⟩ = m := slice_parts a m _ ha hm
  have hsecond : slice (a ++ (m ++ (n ++ e))) ⟨q, r⟩ = n := by
    rw [← append_assoc]
    exact slice_parts (a ++ m) n e (by rw [byteSize_append, hm]) (by rw [← byteSize_append, hc])
  have hboth : slice (a ++ (m ++ (n ++ e))) ⟨p, r⟩ = m ++ n := by
    rw [← append_assoc m]
    refine slice_parts a (m ++ n) e ha ?_
    rw [← hc, byteSize_append, byteSize_append, byteSize_append, Nat.add_assoc]
  rw [hfirst, hsecond, hboth]

theorem slice_self (t : Text) (p : Nat) : t.slice ⟨p, p⟩ = [] := by
  simp [slice, takeBytes]

/-! ## Lines at a cut -/

theorem Meet.tail (h : Meet (c :: a) b) : Meet a b := by
  cases a with
  | nil => simp [Meet]
  | cons d a => simpa [Meet] using h

/-- A carriage return at the end of the first text is alone there. -/
theorem Meet.not_crlf (h : Meet (c :: a) b) (hcr : ∀ s, c = '\r' → a = '\n' :: s → False) :
    ∀ s, c = '\r' → a ++ b = '\n' :: s → False := by
  intro s hc hs
  cases a with
  | nil =>
    apply h
    rw [nil_append] at hs
    rw [hs]
    exact ⟨by simp [hc], rfl⟩
  | cons d a =>
    have hd : d = '\n' := (List.cons.inj hs).1
    exact hcr a hc (by rw [hd])

theorem tails_append (h : Meet a b) : tails (a ++ b) = (tails a).map (· ++ b) ++ tails b := by
  fun_induction tails a with
  | case1 => rfl
  | case2 a ih =>
    show tails ('\r' :: '\n' :: (a ++ b)) = _
    rw [tails_crlf, ih h.tail.tail]
    rfl
  | case3 c a hcr hc ih =>
    show tails (c :: (a ++ b)) = _
    rw [tails_of_isLineBreak (h.not_crlf hcr) hc, ih h.tail]
    rfl
  | case4 c a hcr hc ih =>
    show tails (c :: (a ++ b)) = _
    rw [tails_of_not_isLineBreak (h.not_crlf hcr) hc, ih h.tail]

theorem breaks_append (h : Meet a b) : breaks (a ++ b) = breaks a ++ breaks b := by
  fun_induction breaks a with
  | case1 => rfl
  | case2 a ih =>
    show breaks ('\r' :: '\n' :: (a ++ b)) = _
    rw [breaks_crlf, ih h.tail.tail]
    rfl
  | case3 a hcr ih =>
    show breaks ('\n' :: (a ++ b)) = _
    rw [breaks.eq_3 _ _ (h.not_crlf hcr), if_pos rfl, ih h.tail]
    rfl
  | case4 c a hcr hlf hc ih =>
    show breaks (c :: (a ++ b)) = _
    rw [breaks.eq_3 _ _ (h.not_crlf hcr), if_neg hlf, if_pos hc, ih h.tail]
    rfl
  | case5 c a hcr hlf hc ih =>
    show breaks (c :: (a ++ b)) = _
    rw [breaks.eq_3 _ _ (h.not_crlf hcr), if_neg hlf, if_neg hc, ih h.tail]

theorem headLine_append (ha : '\n' ∉ a) (h : Meet a b) : headLine (a ++ b) = a ++ headLine b := by
  induction a with
  | nil => rfl
  | cons c a ih =>
    rw [mem_cons, not_or] at ha
    have hcr : ∀ s, c = '\r' → a = '\n' :: s → False := by
      rintro s - rfl
      exact ha.2 mem_cons_self
    show headLine (c :: (a ++ b)) = _
    rw [headLine_cons (h.not_crlf hcr) (Ne.symm ha.1), ih ha.2 h.tail]
    rfl

theorem byteSize_lt_of_mem_tails {s t : Text} (h : s ∈ tails t) : byteSize s < byteSize t := by
  fun_induction tails t with
  | case1 => simp at h
  | case2 t ih =>
    have hpos := Char.utf8Size_pos '\r'
    rw [byteSize_cons, byteSize_cons]
    rcases mem_cons.mp h with rfl | h
    · omega
    · have hlt := ih h
      omega
  | case3 c t hcr hc ih =>
    have hpos := c.utf8Size_pos
    rw [byteSize_cons]
    rcases mem_cons.mp h with rfl | h
    · omega
    · have hlt := ih h
      omega
  | case4 c t hcr hc ih =>
    have hlt := ih h
    rw [byteSize_cons]
    omega

section

variable {t a b : Text} {pos : Nat}

/-- The line of a cut is counted by the breaks before it. -/
theorem lineOf_cut (ht : t = a ++ b) (hpos : byteSize a = pos) (h : Meet a b) :
    t.lineOf pos = (tails a).length + 1 := by
  have hsize : byteSize t = pos + byteSize b := by rw [ht, byteSize_append, hpos]
  have hstarts : t.lineStarts = ((a :: tails a).map fun s => byteSize t - byteSize (s ++ b)) ++
        (tails b).map fun s => byteSize t - byteSize s := by
    rw [lineStarts_eq_map, map_cons]
    subst ht
    rw [tails_append h, map_append, map_map]
    rfl
  have hbefore : ((a :: tails a).map fun s => byteSize t - byteSize (s ++ b)).filter (· ≤ pos) =
      (a :: tails a).map fun s => byteSize t - byteSize (s ++ b) := by
    rw [filter_eq_self]
    refine forall_mem_map.mpr fun s _ => ?_
    rw [byteSize_append]
    simp only [decide_eq_true_eq]
    omega
  have hafter : ((tails b).map fun s => byteSize t - byteSize s).filter (· ≤ pos) = [] := by
    rw [filter_eq_nil_iff]
    refine forall_mem_map.mpr fun s hs => ?_
    have hlt := byteSize_lt_of_mem_tails hs
    simp only [decide_eq_true_eq]
    omega
  have hbound : min pos t.byteSize = pos := by omega
  simp only [lineOf, hbound]
  rw [hstarts, filter_append, hbefore, hafter]
  simp

/-- What follows the breaks before a cut is what follows them in the text before it, and the rest. -/
theorem getElem?_tails_cut (ht : t = a ++ b) (h : Meet a b) {line : Nat} {s : Text}
    (hs : (a :: tails a)[line]? = some s) : (t :: tails t)[line]? = some (s ++ b) := by
  have hlist : t :: tails t = (a :: tails a).map (· ++ b) ++ tails b := by
    rw [ht, tails_append h]
    rfl
  have hlt := (List.getElem?_eq_some_iff.mp hs).1
  rw [hlist, getElem?_append_left (by simpa using hlt), getElem?_map, hs]
  rfl

end

theorem tails_eq_nil_or_cons (t : Text) : tails t = [] ∨ ∃ s, tails t = s :: tails s := by
  fun_induction tails t with
  | case1 => exact .inl rfl
  | case2 t ih => exact .inr ⟨t, rfl⟩
  | case3 c t hcr hc ih => exact .inr ⟨t, rfl⟩
  | case4 c t hcr hc ih => exact ih

/-- No break follows the last one. -/
theorem tails_last {t s : Text} (hs : (t :: tails t)[(tails t).length]? = some s) : tails s = [] := by
  induction hlength : (tails t).length generalizing t with
  | zero =>
    have hnil : tails t = [] := length_eq_zero_iff.mp hlength
    obtain rfl : t = s := by simpa [hlength] using hs
    exact hnil
  | succ n ih =>
    rcases tails_eq_nil_or_cons t with hnil | ⟨u, hu⟩
    · simp [hnil] at hlength
    · rw [hu, length_cons] at hlength hs
      rw [getElem?_cons_succ] at hs
      exact ih hs (by omega)

theorem not_mem_of_tails_eq_nil (h : tails t = []) : '\n' ∉ t := by
  fun_induction tails t with
  | case1 => simp
  | case2 t ih => cases h
  | case3 c t hcr hc ih => cases h
  | case4 c t hcr hc ih =>
    rw [mem_cons, not_or]
    refine ⟨?_, ih h⟩
    rintro rfl
    exact hc (by decide)

theorem Meet.of_suffix {a b s : Text} (h : Meet a b) (hs : s <:+ a) : Meet s b := by
  rintro ⟨hlast, hhead⟩
  apply h
  obtain ⟨u, rfl⟩ := hs
  refine ⟨?_, hhead⟩
  rw [getLast?_append, hlast]
  rfl

/-- A cut lies on its line, between the start and the end of it. -/
theorem IsCut.on_line (h : t.IsCut pos) :
    t.lineStart (t.lineOf pos) ≤ pos ∧ pos ≤ t.lineEnd (t.lineOf pos) ∧
      0 < t.lineOf pos ∧ t.lineOf pos ≤ (tails t).length + 1 := by
  obtain ⟨a, b, ht, hpos, hmeet⟩ := h
  obtain ⟨s, hs⟩ : ∃ s, (a :: tails a)[(tails a).length]? = some s :=
    ⟨_, getElem?_eq_getElem (by simp)⟩
  have hcut := getElem?_tails_cut ht hmeet hs
  have hsuffix := suffix_of_mem_cons_tails (mem_of_getElem? hs)
  have hhead : headLine (s ++ b) = s ++ headLine b :=
    headLine_append (not_mem_of_tails_eq_nil (tails_last hs)) (hmeet.of_suffix hsuffix)
  have hle := byteSize_le_of_suffix hsuffix
  have hsize : byteSize t = byteSize a + byteSize b := by rw [ht, byteSize_append]
  have hcount : (tails t).length = (tails a).length + (tails b).length := by
    rw [ht, tails_append hmeet]
    simp
  rw [lineOf_cut ht hpos hmeet, lineStart_eq hcut, lineEnd_eq hcut, hhead, byteSize_append,
    byteSize_append]
  omega

theorem lineOf_mono (t : Text) (h : p ≤ q) : t.lineOf p ≤ t.lineOf q := by
  simp only [lineOf]
  rw [← countP_eq_length_filter, ← countP_eq_length_filter]
  apply countP_mono_left
  intro start _ hstart
  simp only [decide_eq_true_eq] at hstart ⊢
  omega

end Text

end VbaRefactor
