import VbaRefactor.Proofs.Edit.Acceptance
import VbaRefactor.Proofs.Edit.Inside

/-!
# Refills that replace their regions

A refill with one slot, its region, and a literal for it replaces the region by that text. Renderings
of such refills never fail. A rendering can be split where no region goes across, and a region that
is a whole span is rendered as its text, whatever is replaced inside it.
-/

namespace VbaRefactor

open List

namespace Refill

/-- The refill that replaces a span. -/
def replacing (span : Span) (new : Text) : Refill := ⟨span, [span], [.literal new], false⟩

/-- The refill replaces a part of the text. -/
structure Replaces (text : Text) (r : Refill) : Prop where
  form : ∃ new, r = replacing r.region new
  some : r.region.start < r.region.stop
  startBound : text.IsBoundary r.region.start
  stopBound : text.IsBoundary r.region.stop

section

variable {a b c pos : Nat} {refills : List (Refill × Nat)}

/-- Where no region goes across a position, a rendering picks first before and then behind it. -/
theorem picks_split (hsome : ∀ p ∈ refills, p.1.region.start < p.1.region.stop)
    (hsorted : refills.Pairwise fun p q => p.1.Before q.1) (hab : a ≤ b) (hbc : b ≤ c)
    (h : ∀ p ∈ refills, (Span.mk a c).contains p.1.region = true →
      p.1.region.stop ≤ b ∨ b ≤ p.1.region.start) (hpos : pos ≤ b) :
    picks ⟨a, c⟩ pos refills = picks ⟨a, b⟩ pos refills ++ picks ⟨b, c⟩ b refills := by
  induction refills generalizing pos with
  | nil => rfl
  | cons p rest ih =>
    obtain ⟨hfirst, hsorted⟩ := pairwise_cons.mp hsorted
    have hpsome := hsome p mem_cons_self
    have hp := h p mem_cons_self
    have hrest : ∀ q ∈ rest, q.1.region.start < q.1.region.stop := (forall_mem_cons.mp hsome).2
    have ih {pos : Nat} (hpos : pos ≤ b) := ih hrest hsorted (forall_mem_cons.mp h).2 hpos
    simp only [contains_iff] at hp
    rw [picks, picks, picks]
    simp only [Bool.and_eq_true, decide_eq_true_eq, contains_iff]
    by_cases hpick : pos ≤ p.1.region.start ∧ a ≤ p.1.region.start ∧ p.1.region.stop ≤ c
    · rw [if_pos hpick]
      rcases hp hpick.2 with hleft | hright
      · rw [if_pos (by omega), if_neg (by omega), ih hleft, cons_append]
      -- All that follows starts behind the position too.
      have hnone : ∀ q ∈ rest, ¬ (Span.mk a b).contains q.1.region = true := by
        intro q hq hin
        have hbefore := hfirst q hq
        have hqsome := hrest q hq
        rw [Before] at hbefore
        simp only [contains_iff] at hin
        omega
      rw [if_neg (by omega), if_pos (by omega), picks_eq_nil hnone, nil_append,
        picks_narrow (fun q hq => Nat.le_of_lt (hrest q hq)) hab (by omega)]
    · rw [if_neg hpick, ih hpos, if_neg (by omega)]
      congr 1
      rw [if_neg]
      omega

end

section

variable {text : Text} {refills : List Refill} {stack : List Nat} {a b c : Nat}

theorem value_replacing {inner : Span → Except RefillFault Text} (hinner : inner ⟨a, a⟩ = .ok [])
    (hinner' : inner ⟨b, b⟩ = .ok []) (new : Text) :
    value text inner (replacing ⟨a, b⟩ new) = .ok new := by
  simp [value, replacing, contents, separator, hinner, hinner', bind, Except.bind, pure, Except.pure]

theorem render_empty (h : ∀ r ∈ refills, r.region.start < r.region.stop) (ha : a ≤ text.byteSize) :
    render text refills stack ⟨a, a⟩ = .ok [] := by
  have hnone : ∀ p ∈ refills.zipIdx, ¬ (Span.mk a a).contains p.1.region = true := by
    intro p hp hin
    have := h p.1 (mem_of_mem_zipIdx hp)
    simp only [contains_iff] at hin
    omega
  rw [render_eq_assemble text refills fun p hp hin => absurd hin (hnone p hp), picks_eq_nil hnone,
    assemble, cut_ok (Nat.le_refl a) ha, Text.slice_self]

section

variable (h : ∀ r ∈ refills, r.Replaces text)

include h

theorem valueAt_replacing {p : Refill × Nat} (hp : p ∈ refills.zipIdx) :
    ∃ new, p.1 = replacing p.1.region new ∧ valueAt text refills [] p.2 p.1 = .ok new := by
  have hmem := mem_of_mem_zipIdx hp
  have hr := h p.1 hmem
  have hsome : ∀ r ∈ refills, r.region.start < r.region.stop := fun r hr => (h r hr).some
  have hlen := length_pos_of_mem hmem
  obtain ⟨new, hnew⟩ := hr.form
  refine ⟨new, hnew, ?_⟩
  rw [valueAt, if_neg (by simp only [not_mem_nil, length_nil, false_or]; omega), hnew]
  exact value_replacing (render_empty hsome hr.startBound.le) (render_empty hsome hr.stopBound.le) new

/-- A rendering of replacements gives a text. -/
theorem exists_render_replacing (hac : a ≤ c) (hc : c ≤ text.byteSize) :
    ∃ out, render text (sorted refills) [] ⟨a, c⟩ = .ok out := by
  have hall : ∀ r ∈ sorted refills, r.Replaces text := fun r hr => h r (mem_sorted_iff.mp hr)
  rw [render_eq_assemble text _ fun _ _ _ => not_mem_nil]
  refine assemble_picks ?_ hc hac ?_
  · intro p hp
    exact Nat.le_of_lt (hall p.1 (mem_of_mem_zipIdx hp)).some
  · intro p hp
    obtain ⟨new, -, hvalue⟩ := valueAt_replacing hall (mem_of_mem_picks hp)
    exact ⟨new, hvalue⟩

/-- Renderings on both sides of a position add up, if no region goes across it. -/
theorem render_split (ha : text.IsBoundary a) (hb : text.IsBoundary b) (hc : text.IsBoundary c)
    (hab : a ≤ b) (hbc : b ≤ c) (hacross : ∀ r ∈ refills, (Span.mk a c).contains r.region = true →
      r.region.stop ≤ b ∨ b ≤ r.region.start) :
    ∃ first second, render text (sorted refills) [] ⟨a, b⟩ = .ok first ∧
      render text (sorted refills) [] ⟨b, c⟩ = .ok second ∧
      render text (sorted refills) [] ⟨a, c⟩ = .ok (first ++ second) := by
  have hall : ∀ p ∈ (sorted refills).zipIdx, p.1.Replaces text :=
    fun p hp => h p.1 (mem_sorted_iff.mp (mem_of_mem_zipIdx hp))
  obtain ⟨first, hfirst⟩ := exists_render_replacing h hab hb.le
  obtain ⟨second, hsecond⟩ := exists_render_replacing h hbc hc.le
  refine ⟨first, second, hfirst, hsecond, ?_⟩
  rw [render_eq_assemble text _ fun _ _ _ => not_mem_nil] at hfirst hsecond ⊢
  have hsplit := picks_split (fun p hp => (hall p hp).some) (sorted_zipIdx_pairwise refills)
    hab hbc (fun p hp hin => hacross p.1 (mem_sorted_iff.mp (mem_of_mem_zipIdx hp)) hin) hab
  simp only at hfirst hsecond ⊢
  rw [hsplit, assemble_append (fun p hp => (hall p (mem_of_mem_picks hp)).startBound)
    (fun p hp => (hall p (mem_of_mem_picks hp)).stopBound) ha hb hb hc (Nat.le_refl b) hfirst hsecond,
    Text.slice_self, nil_append]

/-- A region is rendered as the text that replaces it, or as that of another refill of it. -/
theorem render_region {r : Refill} (hr : r ∈ refills) :
    ∃ new, replacing r.region new ∈ refills ∧
      render text (sorted refills) [] r.region = .ok new := by
  have hall : ∀ r ∈ sorted refills, r.Replaces text := fun r hr => h r (mem_sorted_iff.mp hr)
  have hplaced : ∀ p ∈ (sorted refills).zipIdx, p.1.region.start < p.1.region.stop :=
    fun p hp => (hall p.1 (mem_of_mem_zipIdx hp)).some
  have hregion := h r hr
  obtain ⟨k, hk⟩ := mem_iff_getElem?.mp (mem_sorted_iff.mpr hr)
  obtain ⟨p, hp, hpregion, hpicks⟩ := picks_first (fun p hp => Nat.le_of_lt (hplaced p hp))
    (sorted_zipIdx_pairwise refills) hregion.some (Nat.le_refl _)
    ⟨(r, k), mem_zipIdx_iff_getElem?.mpr hk, rfl⟩ (by
      intro q _ hin
      rw [contains_iff] at hin
      exact .inl hin.2)
  obtain ⟨new, hnew, hvalue⟩ := valueAt_replacing hall hp
  have hnone : ∀ q ∈ (sorted refills).zipIdx,
      ¬ (Span.mk r.region.stop r.region.stop).contains q.1.region = true := by
    intro q hq hin
    have := hplaced q hq
    simp only [contains_iff] at hin
    omega
  refine ⟨new, ?_, ?_⟩
  · have hmem := mem_sorted_iff.mp (mem_of_mem_zipIdx hp)
    rwa [hnew, hpregion] at hmem
  · rw [render_eq_assemble text _ fun _ _ _ => not_mem_nil, hpicks, picks_eq_nil hnone, assemble,
      assemble, hvalue, hpregion, cut_ok (Nat.le_refl _) hregion.startBound.le,
      cut_ok (Nat.le_refl _) hregion.stopBound.le, Text.slice_self, Text.slice_self]
    simp [bind, Except.bind, pure, Except.pure]

end

end

end Refill

end VbaRefactor
