import Mathlib.Data.List.Perm.Subperm
import VbaRefactor.Proofs.Edit.Groups
import VbaRefactor.Proofs.Text.Position

/-!
# Renderings of nested refills

A rendering of a span goes on in front of its first refill with the text as it is, takes the value of
the refill that starts the span and holds all others up to its end, and so on behind it. `Refill.Inside`
says which refills lie in the span, while the values of those on the stack, which stand outside of it,
are being made.
-/

namespace VbaRefactor

open List

variable {stack : List Nat} {k pos : Nat} {r : Refill} {span : Span} {out t x : Text}

theorem Text.HasAt.cut (h : t.HasAt pos x) : Refill.cut t ⟨pos, pos + x.byteSize⟩ = .ok x := by
  rw [Refill.cut_ok (Nat.le_add_right _ _) h.le]
  obtain ⟨a, b, rfl, hpos⟩ := h
  rw [Text.slice_parts a x b hpos (by rw [hpos])]

namespace Refill

/-! ## What renderings pick -/

section

variable {a b c : Nat} {refills : List (Refill × Nat)}

theorem picks_eq_nil (h : ∀ p ∈ refills, ¬ span.contains p.1.region = true) :
    picks span pos refills = [] := by
  induction refills with
  | nil => rfl
  | cons p rest ih =>
    have hout := h p mem_cons_self
    rw [picks, if_neg (by simp [hout]), ih (forall_mem_cons.mp h).2]

section

variable (hordered : ∀ p ∈ refills, p.1.region.start ≤ p.1.region.stop)

include hordered

theorem picks_narrow (hab : a ≤ b) (hpos : b ≤ pos) :
    picks ⟨a, c⟩ pos refills = picks ⟨b, c⟩ pos refills := by
  induction refills generalizing pos with
  | nil => rfl
  | cons p rest ih =>
    have hp := hordered p mem_cons_self
    have ih {pos : Nat} (hpos : b ≤ pos) : picks ⟨a, c⟩ pos rest = picks ⟨b, c⟩ pos rest :=
      ih (forall_mem_cons.mp hordered).2 hpos
    have hsame : (decide (pos ≤ p.1.region.start) && (Span.mk a c).contains p.1.region) =
        (decide (pos ≤ p.1.region.start) && (Span.mk b c).contains p.1.region) := by
      rw [Bool.eq_iff_iff]
      simp only [Bool.and_eq_true, decide_eq_true_eq, contains_iff]
      omega
    rw [picks, picks, hsame]
    split
    · rename_i hpick
      simp only [Bool.and_eq_true, decide_eq_true_eq] at hpick
      rw [ih (by omega)]
    · exact ih hpos

/-- What starts in front of all refills of a span can be left out of it. -/
theorem picks_skip (hab : a ≤ b)
    (h : ∀ p ∈ refills, (Span.mk a c).contains p.1.region = true → b ≤ p.1.region.start) :
    picks ⟨a, c⟩ a refills = picks ⟨b, c⟩ b refills := by
  induction refills with
  | nil => rfl
  | cons p rest ih =>
    have hp := h p mem_cons_self
    have hpordered := hordered p mem_cons_self
    have hrest : ∀ q ∈ rest, q.1.region.start ≤ q.1.region.stop := (forall_mem_cons.mp hordered).2
    simp only [contains_iff] at hp
    rw [picks, picks]
    by_cases hin : (Span.mk b c).contains p.1.region = true
    · have hbounds := (contains_iff _ _).mp hin
      rw [if_pos, if_pos, picks_narrow hrest hab (Nat.le_trans hbounds.1 hpordered)]
      · simp [hin, hbounds.1]
      · simp only [Bool.and_eq_true, decide_eq_true_eq, contains_iff] at hbounds ⊢
        omega
    · rw [if_neg, if_neg, ih hrest (forall_mem_cons.mp h).2]
      · simp [hin]
      · simp only [Bool.and_eq_true, decide_eq_true_eq, contains_iff] at hin ⊢
        omega

/-- A rendering of a span takes first the refill that starts it and holds all others up to its end. -/
theorem picks_first (hsorted : refills.Pairwise fun p q => p.1.Before q.1) (hab : a < b)
    (hbc : b ≤ c) (hfirst : ∃ p ∈ refills, p.1.region = ⟨a, b⟩)
    (h : ∀ p ∈ refills, (Span.mk a c).contains p.1.region = true →
      p.1.region.stop ≤ b ∨ b ≤ p.1.region.start) :
    ∃ p ∈ refills, p.1.region = ⟨a, b⟩ ∧ picks ⟨a, c⟩ a refills = p :: picks ⟨b, c⟩ b refills := by
  induction refills with
  | nil =>
    obtain ⟨p, hp, -⟩ := hfirst
    simp at hp
  | cons p rest ih =>
    have hrest : ∀ q ∈ rest, q.1.region.start ≤ q.1.region.stop := (forall_mem_cons.mp hordered).2
    obtain ⟨hbefore, hsorted⟩ := pairwise_cons.mp hsorted
    by_cases hregion : p.1.region = ⟨a, b⟩
    · refine ⟨p, mem_cons_self, hregion, ?_⟩
      rw [picks, if_pos, picks, if_neg, hregion, picks_narrow hrest (Nat.le_of_lt hab) (Nat.le_refl b)]
      · simp only [hregion, Bool.and_eq_true, decide_eq_true_eq, contains_iff]
        omega
      · simp only [hregion, Bool.and_eq_true, decide_eq_true_eq, contains_iff]
        omega
    · -- The refill that starts the span comes later, so this one lies outside of the span.
      obtain ⟨q, hq, hqregion⟩ := hfirst
      have hq : q ∈ rest := by
        rcases mem_cons.mp hq with rfl | hq
        · exact absurd hqregion hregion
        · exact hq
      have hout : ¬ (a ≤ p.1.region.start ∧ p.1.region.stop ≤ c) := by
        intro hin
        have hend := h p mem_cons_self ((contains_iff _ _).mpr hin)
        have hpq := hbefore q hq
        rw [Before, hqregion] at hpq
        simp only at hpq
        apply hregion
        rw [show p.1.region = ⟨p.1.region.start, p.1.region.stop⟩ from rfl, Span.mk.injEq]
        omega
      obtain ⟨r, hr, hrregion, hpicks⟩ :=
        ih hrest hsorted ⟨q, hq, hqregion⟩ (forall_mem_cons.mp h).2
      refine ⟨r, mem_cons_of_mem _ hr, hrregion, ?_⟩
      rw [picks, if_neg, picks, if_neg, hpicks]
      · simp only [Bool.and_eq_true, decide_eq_true_eq, contains_iff]
        omega
      · simp only [Bool.and_eq_true, decide_eq_true_eq, contains_iff]
        omega

end

theorem assemble_hasAt {value : Nat → Refill → Except RefillFault Text} (hx : t.HasAt a x)
    (h : assemble t value c (a + x.byteSize) refills = .ok out) :
    assemble t value c a refills = .ok (x ++ out) := by
  cases refills with
  | nil =>
    obtain ⟨hle, hsize, rfl⟩ := cut_eq_ok h
    rw [assemble, cut_ok (Nat.le_trans (Nat.le_add_right _ _) hle) hsize, hx.slice_add hle]
  | cons p rest =>
    rw [assemble] at h
    obtain ⟨before, hbefore, h⟩ := bind_eq_ok_iff.mp h
    obtain ⟨here, hhere, h⟩ := bind_eq_ok_iff.mp h
    obtain ⟨after, hafter, h⟩ := bind_eq_ok_iff.mp h
    cases h
    obtain ⟨hle, hsize, rfl⟩ := cut_eq_ok hbefore
    rw [assemble, cut_ok (Nat.le_trans (Nat.le_add_right _ _) hle) hsize, hhere, hafter,
      hx.slice_add hle]
    simp [bind, Except.bind, pure, Except.pure]

end

/-- Distinct places in a list are at most as many as its items. -/
theorem length_lt_of_nodup {n : Nat} (hnodup : (k :: stack).Nodup)
    (hplaces : ∀ j ∈ k :: stack, j < n) : stack.length < n := by
  have hsubset : (k :: stack) ⊆ List.range n := fun j hj => mem_range.mpr (hplaces j hj)
  have hle := (hnodup.subperm hsubset).length_le
  rwa [length_cons, length_range] at hle

/-- Of some refills, `own` are those in a span, and those on the stack stand outside of it. -/
structure Inside (refills : List Refill) (stack : List Nat) (span : Span) (own : List Refill) :
    Prop where
  all : ∀ r ∈ own, r ∈ refills
  only : ∀ r ∈ refills, span.contains r.region = true → r ∈ own
  outer : ∀ k ∈ stack, ∃ r, refills[k]? = some r ∧ ¬ span.contains r.region = true
  nodup : stack.Nodup

namespace Inside

variable {refills own part : List Refill} {inner : Span}

section

variable (h : Inside refills stack span own)

include h

theorem free : ∀ p ∈ refills.zipIdx, span.contains p.1.region = true → p.2 ∉ stack := by
  intro p hp hin hmem
  obtain ⟨r, hr, hout⟩ := h.outer p.2 hmem
  rw [mem_zipIdx_iff_getElem?.mp hp] at hr
  cases hr
  exact hout hin

theorem narrow (hspan : span.contains inner = true) (hall : ∀ r ∈ part, r ∈ own)
    (hpart : ∀ r ∈ own, inner.contains r.region = true → r ∈ part) :
    Inside refills stack inner part := by
  have hup : ∀ r : Refill, inner.contains r.region = true → span.contains r.region = true := by
    intro r hr
    rw [contains_iff] at hspan hr ⊢
    omega
  refine ⟨fun r hr => h.all r (hall r hr), fun r hr hin => hpart r (h.only r hr (hup r hin)) hin, ?_,
    h.nodup⟩
  intro k hk
  obtain ⟨r, hr, hout⟩ := h.outer k hk
  exact ⟨r, hr, fun hin => hout (hup r hin)⟩

theorem push (hk : refills[k]? = some r) (hnew : k ∉ stack) (hout : ¬ span.contains r.region = true) :
    Inside refills (k :: stack) span own := by
  refine ⟨h.all, h.only, ?_, nodup_cons.mpr ⟨hnew, h.nodup⟩⟩
  exact forall_mem_cons.mpr ⟨⟨r, hk, hout⟩, h.outer⟩

/-- A refill off the stack leaves room on it. -/
theorem length_lt (hk : k < refills.length) (hnew : k ∉ stack) : stack.length < refills.length := by
  refine length_lt_of_nodup (nodup_cons.mpr ⟨hnew, h.nodup⟩) (forall_mem_cons.mpr ⟨hk, ?_⟩)
  intro j hj
  obtain ⟨r, hr, -⟩ := h.outer j hj
  exact (List.getElem?_eq_some_iff.mp hr).1

end

theorem render_eq_cut (h : Inside refills stack span []) : render t refills stack span = cut t span := by
  have hnone : ∀ p ∈ refills.zipIdx, ¬ span.contains p.1.region = true := by
    intro p hp hin
    exact not_mem_nil (h.only p.1 (mem_of_mem_zipIdx hp) hin)
  rw [render_eq_assemble t refills h.free, picks_eq_nil hnone, assemble]

section

variable {a b c : Nat}

section

variable (h : Inside refills stack ⟨a, c⟩ own)
  (hordered : ∀ r ∈ refills, r.region.start ≤ r.region.stop)

include h hordered

/-- A text in front of all refills is rendered as it is. -/
theorem render_plain (hx : t.HasAt a x) (hown : ∀ r ∈ own, a + x.byteSize ≤ r.region.start)
    (hrest : render t refills stack ⟨a + x.byteSize, c⟩ = .ok out) :
    render t refills stack ⟨a, c⟩ = .ok (x ++ out) := by
  have hplaced : ∀ p ∈ refills.zipIdx, p.1.region.start ≤ p.1.region.stop :=
    fun p hp => hordered p.1 (mem_of_mem_zipIdx hp)
  have hstart : ∀ p ∈ refills.zipIdx, (Span.mk a c).contains p.1.region = true →
      a + x.byteSize ≤ p.1.region.start :=
    fun p hp hin => hown p.1 (h.only p.1 (mem_of_mem_zipIdx hp) hin)
  have hle : a ≤ a + x.byteSize := Nat.le_add_right _ _
  have hfree : ∀ p ∈ refills.zipIdx,
      (Span.mk (a + x.byteSize) c).contains p.1.region = true → p.2 ∉ stack := by
    intro p hp hin
    apply h.free p hp
    rw [contains_iff] at hin ⊢
    exact ⟨Nat.le_trans hle hin.1, hin.2⟩
  rw [render_eq_assemble t refills hfree] at hrest
  rw [render_eq_assemble t refills h.free, picks_skip hplaced hle hstart]
  exact assemble_hasAt hx hrest

/-- The refill that starts a span is rendered first, then what follows its region. -/
theorem render_first (hsorted : refills.zipIdx.Pairwise fun p q => p.1.Before q.1) (hab : a < b)
    (hbc : b ≤ c) (hsize : c ≤ t.byteSize) (hr : r ∈ own) (hregion : r.region = ⟨a, b⟩)
    (hone : ∀ s ∈ own, s.region = ⟨a, b⟩ → s = r)
    (hown : ∀ s ∈ own, s.region.stop ≤ b ∨ b ≤ s.region.start) {here : Text}
    (hvalue : ∀ k, refills[k]? = some r → k ∉ stack →
      value t (render t refills (k :: stack)) r = .ok here)
    (hrest : render t refills stack ⟨b, c⟩ = .ok out) :
    render t refills stack ⟨a, c⟩ = .ok (here ++ out) := by
  have hplaced : ∀ p ∈ refills.zipIdx, p.1.region.start ≤ p.1.region.stop :=
    fun p hp => hordered p.1 (mem_of_mem_zipIdx hp)
  have hfree : ∀ p ∈ refills.zipIdx, (Span.mk b c).contains p.1.region = true → p.2 ∉ stack := by
    intro p hp hin
    apply h.free p hp
    simp only [contains_iff] at hin ⊢
    omega
  have hexists : ∃ p ∈ refills.zipIdx, p.1.region = ⟨a, b⟩ := by
    obtain ⟨k, hk⟩ := mem_iff_getElem?.mp (h.all r hr)
    exact ⟨(r, k), mem_zipIdx_iff_getElem?.mpr hk, hregion⟩
  obtain ⟨p, hp, hpregion, hpicks⟩ := picks_first hplaced hsorted hab hbc hexists
    fun q hq hin => hown q.1 (h.only q.1 (mem_of_mem_zipIdx hq) hin)
  have hin : (Span.mk a c).contains p.1.region = true := by
    rw [contains_iff, hpregion]
    exact ⟨Nat.le_refl a, hbc⟩
  have hpk : refills[p.2]? = some p.1 := mem_zipIdx_iff_getElem?.mp hp
  have hpr : p.1 = r := hone p.1 (h.only p.1 (mem_of_mem_zipIdx hp) hin) hpregion
  have hnew : p.2 ∉ stack := h.free p hp hin
  have hroom := h.length_lt (List.getElem?_eq_some_iff.mp hpk).1 hnew
  have hhere : valueAt t refills stack p.2 p.1 = .ok here := by
    rw [valueAt, if_neg (by simp only [not_or]; exact ⟨hnew, by omega⟩), hpr]
    exact hvalue p.2 (hpr ▸ hpk) hnew
  rw [render_eq_assemble t refills hfree] at hrest
  rw [render_eq_assemble t refills h.free, hpicks, assemble, hhere, hpregion]
  simp only at hrest ⊢
  rw [cut_ok (Nat.le_refl a) (by omega), Text.slice_self, hrest]
  rfl

end

end

end Inside

end Refill

end VbaRefactor
