import VbaRefactor.Proofs.Edit.Outermost

/-!
# Renderings end

A rendering of a span needs the values of the refills inside it, and the value of a refill needs
renderings of parts of its region, in which only the refill itself is left out. Where the regions are
distinct, a region inside a part of another one is strictly smaller, so no refill is needed for its own
value, however the regions overlap.
-/

namespace VbaRefactor

open List

namespace Refill

/-- The region and the slots in it stand in order, and the fills are own slots, nothing or literals. -/
structure Ordered (r : Refill) : Prop where
  le : r.region.start ≤ r.region.stop
  slotInside : ∀ s ∈ r.slots, r.region.start ≤ s.start ∧ s.start ≤ s.stop ∧ s.stop ≤ r.region.stop
  slotsOrdered : r.slots.Pairwise fun a b => a.stop ≤ b.start
  fillsOwn : ∀ s, .source s ∈ r.fills → s ∈ r.slots

/-- The value of the refill needs a rendering of the part. -/
def Needs (r : Refill) (part : Span) : Prop :=
  match r.slots.head?, r.slots.getLast? with
  | some first, some last =>
    part = ⟨r.region.start, first.start⟩ ∨ .source part ∈ r.fills ∨ part = ⟨last.stop, r.region.stop⟩
  | _, _ => part = r.region

/-- The renderings that can be under way at once when a span is rendered: on the stack are the places
of the refills whose values are being made, the innermost first, and `part` is what is rendered for the
innermost of them. -/
inductive Active (refills : List Refill) (span : Span) : List Nat → Span → Prop where
  | start : Active refills span [] span
  | call {stack : List Nat} {part inner : Span} {place : Nat} {r : Refill}
    (houter : Active refills span stack part) (hplace : refills[place]? = some r)
    (hother : stack.head? ≠ some place) (hin : part.contains r.region = true) (hneeds : r.Needs inner) :
    Active refills span (place :: stack) inner

section

variable {text : Text} {refills : List Refill} {r : Refill} {span part : Span} {stack : List Nat}
  {places : List (Refill × Nat)} {use : Nat → Bool}

/-- The parts that are rendered for a refill lie in its region. -/
theorem Ordered.needs (hr : r.Ordered) (h : r.Needs part) :
    part.start ≤ part.stop ∧ r.region.contains part = true := by
  unfold Needs at h
  rw [contains_iff]
  split at h
  · rename_i first last hfirst hlast
    have hfirstIn := hr.slotInside first (mem_of_mem_head? hfirst)
    have hlastIn := hr.slotInside last (mem_of_getLast? hlast)
    rcases h with rfl | hsource | rfl
    · simp only
      omega
    · have := hr.slotInside part (hr.fillsOwn part hsource)
      omega
    · simp only
      omega
  · subst h
    exact ⟨hr.le, Nat.le_refl _, Nat.le_refl _⟩

/-! ## No rendering is entered again -/

/-- What holds of the renderings under way: the part lies in the region of the innermost refill, which
lies in all the others. -/
def Entered (refills : List Refill) (span : Span) (stack : List Nat) (part : Span) : Prop :=
  part.start ≤ part.stop ∧ span.contains part = true ∧
    ∀ place rest, stack = place :: rest → ∃ r, refills[place]? = some r ∧ Within refills rest r ∧
      r.region.contains part = true

section

variable {place : Nat} (h : Entered refills span stack part)
  (hdistinct : refills.Pairwise fun a b => a.region ≠ b.region)

include h hdistinct

/-- A refill in the part that is not the innermost one lies in all that are under way. -/
theorem Entered.within (hplace : refills[place]? = some r) (hother : stack.head? ≠ some place)
    (hin : part.contains r.region = true) : Within refills stack r := by
  cases stack with
  | nil => exact ⟨nodup_nil, by simp⟩
  | cons top rest =>
    obtain ⟨outer, htop, hwithin, hpart⟩ := h.2.2 top rest rfl
    refine hwithin.cons hdistinct htop (mem_of_getElem? hplace) ?_ ?_
    · rintro rfl
      have hnodup : refills.Nodup := hdistinct.imp fun hne heq => hne (congrArg Refill.region heq)
      have hlt := (List.getElem?_eq_some_iff.mp htop).1
      exact hother (congrArg some ((getElem?_inj hlt hnodup).mp (htop.trans hplace.symm)))
    · rw [contains_iff] at hin hpart ⊢
      omega

theorem Entered.call (hr : r.Ordered) (hplace : refills[place]? = some r)
    (hother : stack.head? ≠ some place) (hin : part.contains r.region = true) {inner : Span}
    (hneeds : r.Needs inner) : Entered refills span (place :: stack) inner := by
  obtain ⟨hle, hinner⟩ := hr.needs hneeds
  refine ⟨hle, ?_, ?_⟩
  · have hspan := h.2.1
    rw [contains_iff] at hspan hin hinner ⊢
    omega
  · rintro _ _ ⟨⟩
    exact ⟨r, hplace, h.within hdistinct hplace hother hin, hinner⟩

end

theorem Active.entered (h : Active refills span stack part) (hspan : span.start ≤ span.stop)
    (hdistinct : refills.Pairwise fun a b => a.region ≠ b.region)
    (hordered : ∀ r ∈ refills, r.Ordered) : Entered refills span stack part := by
  induction h with
  | start => exact ⟨hspan, by simp [contains_iff], by simp⟩
  | call houter hplace hother hin hneeds ih =>
    exact ih.call hdistinct (hordered _ (mem_of_getElem? hplace)) hplace hother hin hneeds

/-! ## Every rendering has a result -/

theorem exists_weave {value : Nat → Refill → Except RefillFault Text} {pos : Nat}
    (hpos : pos ≤ span.stop) (hsize : span.stop ≤ text.byteSize)
    (hle : ∀ p ∈ places, p.1.region.start ≤ p.1.region.stop)
    (hvalue : ∀ p ∈ places, use p.2 = true → span.contains p.1.region = true →
      ∃ out, value p.2 p.1 = .ok out) : ∃ out, weave text span use value pos places = .ok out := by
  induction places generalizing pos with
  | nil => exact ⟨_, cut_ok hpos hsize⟩
  | cons p rest ih =>
    rcases p with ⟨r, place⟩
    rw [forall_mem_cons] at hle hvalue
    have hrest {pos : Nat} (hpos : pos ≤ span.stop) := ih hpos hle.2 hvalue.2
    rw [weave]
    split
    · rename_i hused
      simp only [Bool.and_eq_true, decide_eq_true_eq] at hused
      have hbounds := (contains_iff _ _).mp hused.2
      have hregion := hle.1
      simp only at hregion
      obtain ⟨here, hhere⟩ := hvalue.1 hused.1.1 hused.2
      obtain ⟨after, hafter⟩ := hrest hbounds.2
      simp only at hhere
      rw [cut_ok hused.1.2 (by omega), hhere, hafter]
      exact ⟨_, rfl⟩
    · exact hrest hpos

theorem Ordered.exists_value (hr : r.Ordered) (hsize : r.region.stop ≤ text.byteSize)
    {inner : Span → Except RefillFault Text} (h : ∀ part, r.Needs part → ∃ out, inner part = .ok out) :
    ∃ out, value text inner r = .ok out := by
  rcases hfirst : r.slots.head? with _ | first
  · simp only [value, hfirst]
    exact h r.region (by simp only [Needs, hfirst])
  obtain ⟨last, hlast⟩ : ∃ last, r.slots.getLast? = some last :=
    ⟨_, getLast?_eq_some_getLast (ne_nil_of_mem (mem_of_mem_head? hfirst))⟩
  simp only [Needs, hfirst, hlast] at h
  obtain ⟨before, hbefore⟩ := h _ (.inl rfl)
  obtain ⟨after, hafter⟩ := h _ (.inr (.inr rfl))
  have hslots : ∀ s ∈ r.slots, s.stop ≤ text.byteSize ∧ s.start ≤ s.stop := by
    intro s hs
    have := hr.slotInside s hs
    omega
  have hsource : ∀ s, .source s ∈ r.fills → inner s = .ok ((inner s).toOption.getD []) := by
    intro s hs
    obtain ⟨out, hout⟩ := h s (.inr (.inl hs))
    rw [hout]
    rfl
  have hmiddle := contents_eq_separated hslots hr.slotsOrdered hsource
  simp only [value, hfirst, hlast, hbefore, hmiddle, hafter]
  exact ⟨_, rfl⟩

/-- Where all is entered in order, a rendering has a result. -/
theorem Entered.exists_render (h : Entered refills span stack part) (hsize : span.stop ≤ text.byteSize)
    (hdistinct : refills.Pairwise fun a b => a.region ≠ b.region)
    (hordered : ∀ r ∈ refills, r.Ordered) : ∃ out, render text refills stack part = .ok out := by
  induction hleft : refills.length - stack.length using Nat.strongRecOn generalizing stack part with
  | ind left ih =>
    have hpart := (contains_iff _ _).mp h.2.1
    rw [render]
    apply exists_weave h.1 (by omega)
    · intro p hp
      exact (hordered p.1 (mem_of_mem_zipIdx hp)).le
    rintro ⟨r, place⟩ hp hused hin
    have hplace : refills[place]? = some r := mem_zipIdx_iff_getElem?.mp hp
    have hother : stack.head? ≠ some place := of_decide_eq_true hused
    have hr := hordered r (mem_of_getElem? hplace)
    have hwithin := h.within hdistinct hplace hother hin
    have hlength := hwithin.length_lt hplace
    simp only
    rw [if_neg (by simp [hwithin.not_mem hplace, hlength])]
    apply hr.exists_value
    · have := (contains_iff _ _).mp hin
      simp only at this
      omega
    · intro inner hneeds
      refine ih _ ?_ (h.call hdistinct hr hplace hother hin hneeds) rfl
      rw [length_cons]
      omega

/-! ## The recursion without its check -/

theorem weave_congr {value value' : Nat → Refill → Except RefillFault Text} (pos : Nat)
    (h : ∀ p ∈ places, use p.2 = true → span.contains p.1.region = true →
      value p.2 p.1 = value' p.2 p.1) :
    weave text span use value pos places = weave text span use value' pos places := by
  induction places generalizing pos with
  | nil => rfl
  | cons p rest ih =>
    rcases p with ⟨r, place⟩
    rw [forall_mem_cons] at h
    rw [weave, weave, ih pos h.2, ih r.region.stop h.2]
    split
    · rename_i hused
      simp only [Bool.and_eq_true] at hused
      rw [h.1 hused.1.1 hused.2]
    · rfl

/-- The check for a refill that is needed for its own value is not met. -/
theorem Entered.render_eq (h : Entered refills span stack part)
    (hdistinct : refills.Pairwise fun a b => a.region ≠ b.region) :
    render text refills stack part = weave text part (stack.head? ≠ some ·)
        (fun place r => value text (render text refills (place :: stack)) r) part.start
        refills.zipIdx := by
  rw [render]
  apply weave_congr
  rintro ⟨r, place⟩ hp hused hin
  have hplace : refills[place]? = some r := mem_zipIdx_iff_getElem?.mp hp
  have hwithin := h.within hdistinct hplace (of_decide_eq_true hused) hin
  have hlength := hwithin.length_lt hplace
  exact if_neg (by simp [hwithin.not_mem hplace, hlength])

theorem Entered.nodup (h : Entered refills span stack part) :
    stack.Nodup ∧ stack.length ≤ refills.length := by
  cases stack with
  | nil => exact ⟨nodup_nil, Nat.zero_le _⟩
  | cons place rest =>
    obtain ⟨r, hplace, hwithin, -⟩ := h.2.2 place rest rfl
    exact ⟨nodup_cons.mpr ⟨hwithin.not_mem hplace, hwithin.1⟩, hwithin.length_lt hplace⟩

end

/-- A rendering of refills with distinct regions has a result, so all it cuts out of the text lies there
in order. No refill is on the stack twice when it calls itself, hence the stack is never higher than
there are refills, and the check of the stack can be left out of the recursion. -/
theorem render_never_reenters (text : Text) (refills : List Refill) (span : Span)
    (hdistinct : refills.Pairwise fun a b => a.region ≠ b.region)
    (hordered : ∀ r ∈ refills, r.Ordered) (hspan : span.start ≤ span.stop)
    (hsize : span.stop ≤ text.byteSize) :
    (∃ out, render text refills [] span = .ok out) ∧
    ∀ stack part, Active refills span stack part →
      stack.Nodup ∧ stack.length ≤ refills.length ∧ part.start ≤ part.stop ∧
      part.stop ≤ text.byteSize ∧
      render text refills stack part =
        weave text part (stack.head? ≠ some ·)
          (fun place r => value text (render text refills (place :: stack)) r) part.start
          refills.zipIdx := by
  have hentered {stack : List Nat} {part : Span} (h : Active refills span stack part) :=
    h.entered hspan hdistinct hordered
  refine ⟨(hentered .start).exists_render hsize hdistinct hordered, ?_⟩
  intro stack part hactive
  have h := hentered hactive
  have hpart := (contains_iff _ _).mp h.2.1
  exact ⟨h.nodup.1, h.nodup.2, h.1, by omega, h.render_eq hdistinct⟩

/-- A list whose only slot is its whole region, one that overlaps it, and an empty one between them. -/
def overlapping : List Refill :=
  [⟨⟨0, 4⟩, [⟨0, 4⟩], [.source ⟨0, 4⟩, .source ⟨0, 4⟩], false⟩,
    ⟨⟨2, 6⟩, [⟨2, 3⟩, ⟨4, 6⟩], [.source ⟨4, 6⟩, .source ⟨2, 3⟩], true⟩,
    ⟨⟨3, 3⟩, [], [], false⟩]

theorem render_never_reenters_overlapping :
    (overlapping.Pairwise fun a b => a.region ≠ b.region) ∧
      ∃ out, render "(a, b)" overlapping [] ⟨0, 6⟩ = .ok out := by
  have hdistinct : overlapping.Pairwise fun a b => a.region ≠ b.region := by decide
  have hordered : ∀ r ∈ overlapping, r.Ordered := by
    intro r hr
    simp only [overlapping, mem_cons, not_mem_nil, or_false] at hr
    rcases hr with rfl | rfl | rfl <;> exact ⟨by decide, by decide, by decide, by simp⟩
  exact ⟨hdistinct, (render_never_reenters _ _ _ hdistinct hordered (by decide) (by decide)).1⟩

end Refill

end VbaRefactor
