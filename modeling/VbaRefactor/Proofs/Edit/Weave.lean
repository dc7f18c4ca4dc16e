import VbaRefactor.Edit.Refill
import VbaRefactor.Proofs.Text.Joining

/-!
# Renderings of refills

What a refill makes of its region is put together from pieces of the text and from literals. Where
regions and slots begin and end at cuts of a text with one kind of break, every carriage return of a
rendering keeps its line feed. A rendering of a span is the pieces between the refills that it picks,
with their values; two renderings of neighbouring spans add up.
-/

namespace VbaRefactor

open List Text Except

variable {pos : Nat} {use : Nat → Bool} {r : Refill} {out text : Text}

theorem bind_eq_ok_iff {ε α β : Type} {x : Except ε α} {f : α → Except ε β} {y : β} :
    (x >>= f) = .ok y ↔ ∃ a, x = .ok a ∧ f a = .ok y := by
  cases x with
  | error e => simp [bind, Except.bind]
  | ok a => simp [bind, Except.bind]

/-- The fill is one of the slots, nothing, or a text of one line. -/
def Fill.Own (slots : List Span) : Fill → Prop
  | .source span => span ∈ slots
  | .empty => True
  | .literal new => new.Plain

instance (slots : List Span) (f : Fill) : Decidable (f.Own slots) :=
  match f with
  | .source span => inferInstanceAs (Decidable (span ∈ slots))
  | .empty => .isTrue trivial
  | .literal new => inferInstanceAs (Decidable new.Plain)

namespace Refill

/-- The region lies in the text, it and the slots begin and end at cuts, and the fills are own slots,
nothing or texts of one line. Slots may stand in any order and anywhere in the text. -/
structure Sound (text : Text) (r : Refill) : Prop where
  ordered : r.region.start ≤ r.region.stop
  startCut : text.IsCut r.region.start
  stopCut : text.IsCut r.region.stop
  slotCut : ∀ s ∈ r.slots, text.IsCut s.start ∧ text.IsCut s.stop
  fillsOwn : ∀ f ∈ r.fills, f.Own r.slots

theorem sound_iff (text : Text) (r : Refill) :
    r.Sound text ↔ r.region.start ≤ r.region.stop ∧ text.IsCut r.region.start ∧
      text.IsCut r.region.stop ∧ (∀ s ∈ r.slots, text.IsCut s.start ∧ text.IsCut s.stop) ∧
      ∀ f ∈ r.fills, f.Own r.slots :=
  ⟨fun ⟨ho, hs, he, hc, hf⟩ => ⟨ho, hs, he, hc, hf⟩, fun ⟨ho, hs, he, hc, hf⟩ => ⟨ho, hs, he, hc, hf⟩⟩

instance (text : Text) (r : Refill) : Decidable (r.Sound text) :=
  decidable_of_iff _ (sound_iff text r).symm

theorem cut_eq_ok {span : Span} (h : cut text span = .ok out) :
    span.start ≤ span.stop ∧ span.stop ≤ text.byteSize ∧ out = text.slice span := by
  rw [cut] at h
  split at h
  · rename_i hbounds
    simp only [Bool.and_eq_true, decide_eq_true_eq] at hbounds
    exact ⟨hbounds.1, hbounds.2, (ok.inj h).symm⟩
  · cases h

theorem cut_ok {p q : Nat} (hle : p ≤ q) (hq : q ≤ text.byteSize) :
    cut text ⟨p, q⟩ = .ok (text.slice ⟨p, q⟩) := by
  rw [cut, if_pos (by simp [hle, hq])]

/-! ## Carriage returns keep their line feeds -/

/-- A way to read spans gives texts whose carriage returns keep their line feeds, at all cuts. -/
def ReadsClosed (text : Text) (inner : Span → Except RefillFault Text) : Prop :=
  ∀ p q out, text.IsCut p → text.IsCut q → inner ⟨p, q⟩ = .ok out → out.CrClosed

section

variable {ending : Text} {inner : Span → Except RefillFault Text} {index : Nat} {slots : List Span}

theorem readsClosed_cut (ht : ClosedBy ending text) : ReadsClosed text (cut text) := by
  intro p q out hp hq h
  obtain ⟨hle, -, rfl⟩ := cut_eq_ok h
  exact (ht.slice hp hq hle).crClosed

theorem crClosed_separator (ht : ClosedBy ending text)
    (hslots : ∀ s ∈ slots, text.IsCut s.start ∧ text.IsCut s.stop)
    (h : separator text slots index = .ok out) : out.CrClosed := by
  rw [separator] at h
  split at h
  · cases h
    exact .nil
  · split at h
    · rename_i before after hbefore hafter
      have hstop := (hslots before (mem_of_getElem? hbefore)).2
      have hstart := (hslots after (mem_of_getElem? hafter)).1
      exact readsClosed_cut ht _ _ _ hstop hstart h
    · cases h
      exact .of_not_mem (by decide)

/-- What a fill stands for. -/
def fillText (inner : Span → Except RefillFault Text) : Fill → Except RefillFault Text
  | .source span => inner span
  | .empty => .ok []
  | .literal literal => .ok literal

theorem contents_cons (text : Text) (slots : List Span) (inner : Span → Except RefillFault Text)
    (index : Nat) (fill : Fill) (rest : List Fill) :
    contents text slots inner index (fill :: rest) = (do
      let before ← separator text slots index
      let content ← fillText inner fill
      let after ← contents text slots inner (index + 1) rest
      return before ++ content ++ after) := by
  cases fill <;> rfl

theorem crClosed_contents (ht : ClosedBy ending text) (hinner : ReadsClosed text inner)
    (hslots : ∀ s ∈ slots, text.IsCut s.start ∧ text.IsCut s.stop) {fills : List Fill}
    (hfills : ∀ f ∈ fills, f.Own slots) (h : contents text slots inner index fills = .ok out) :
    out.CrClosed := by
  induction fills generalizing index out with
  | nil =>
    cases h
    exact .nil
  | cons fill rest ih =>
    rw [contents_cons] at h
    obtain ⟨before, hbefore, h⟩ := bind_eq_ok_iff.mp h
    obtain ⟨content, hcontent, h⟩ := bind_eq_ok_iff.mp h
    obtain ⟨after, hafter, h⟩ := bind_eq_ok_iff.mp h
    cases h
    have hclosed : content.CrClosed := by
      have hown := hfills fill mem_cons_self
      cases fill with
      | source s => exact hinner _ _ _ (hslots s hown).1 (hslots s hown).2 hcontent
      | empty =>
        cases hcontent
        exact .nil
      | literal literal =>
        cases hcontent
        exact .of_not_mem hown.oneLine.2
    have hrest := ih (forall_mem_cons.mp hfills).2 hafter
    exact ((crClosed_separator ht hslots hbefore).append hclosed).append hrest

theorem crClosed_value (ht : ClosedBy ending text) (hinner : ReadsClosed text inner)
    (hr : r.Sound text) (h : value text inner r = .ok out) : out.CrClosed := by
  rw [value] at h
  split at h
  · rename_i first last hfirst hlast
    obtain ⟨before, hbefore, h⟩ := bind_eq_ok_iff.mp h
    obtain ⟨middle, hmiddle, h⟩ := bind_eq_ok_iff.mp h
    obtain ⟨after, hafter, h⟩ := bind_eq_ok_iff.mp h
    have hfirstCut := hr.slotCut first (mem_of_mem_head? hfirst)
    have hlastCut := hr.slotCut last (mem_of_getLast? hlast)
    have hwhole : (before ++ middle ++ after).CrClosed :=
      ((hinner _ _ _ hr.startCut hfirstCut.1 hbefore).append
        (crClosed_contents ht hinner hr.slotCut hr.fillsOwn hmiddle)).append
        (hinner _ _ _ hlastCut.2 hr.stopCut hafter)
    cases h
    split
    · exact hwhole.joinContinuations
    · exact hwhole
  · exact hinner _ _ _ hr.startCut hr.stopCut h

theorem crClosed_weave (ht : ClosedBy ending text) {span : Span}
    {value : Nat → Refill → Except RefillFault Text} {refills : List (Refill × Nat)}
    (hsound : ∀ p ∈ refills, p.1.Sound text)
    (hvalue : ∀ place r out, r.Sound text → value place r = .ok out → out.CrClosed)
    (hpos : text.IsCut pos) (hstop : text.IsCut span.stop)
    (h : weave text span use value pos refills = .ok out) : out.CrClosed := by
  induction refills generalizing pos out with
  | nil => exact readsClosed_cut ht _ _ _ hpos hstop h
  | cons p rest ih =>
    rcases p with ⟨r, place⟩
    have hr := hsound (r, place) mem_cons_self
    have ih {pos : Nat} {out : Text} (hpos : text.IsCut pos)
        (h : weave text span use value pos rest = .ok out) : out.CrClosed :=
      ih (forall_mem_cons.mp hsound).2 hpos h
    rw [weave] at h
    split at h
    · obtain ⟨before, hbefore, h⟩ := bind_eq_ok_iff.mp h
      obtain ⟨here, hhere, h⟩ := bind_eq_ok_iff.mp h
      obtain ⟨after, hafter, h⟩ := bind_eq_ok_iff.mp h
      cases h
      exact ((readsClosed_cut ht _ _ _ hpos hr.startCut hbefore).append
        (hvalue place r here hr hhere)).append (ih hr.stopCut hafter)
    · exact ih hpos h

theorem mem_of_mem_zipIdx {refills : List Refill} {p : Refill × Nat} (h : p ∈ refills.zipIdx) :
    p.1 ∈ refills := by
  obtain ⟨r, place⟩ := p
  exact (mem_zipIdx' h).2 ▸ getElem_mem _

/-- A rendering keeps the line feed of each carriage return, however deep refills are nested. -/
theorem readsClosed_render (ht : ClosedBy ending text) {refills : List Refill}
    (hsound : ∀ r ∈ refills, r.Sound text) (stack : List Nat) :
    ReadsClosed text (render text refills stack) := by
  induction hleft : refills.length - stack.length using Nat.strongRecOn generalizing stack with
  | ind left ih =>
    intro p q out hp hq h
    rw [render] at h
    refine crClosed_weave ht (fun p hp => hsound _ (mem_of_mem_zipIdx hp)) ?_ hp hq h
    intro place r out hr hvalue
    split at hvalue
    · cases hvalue
    · rename_i hcircular
      rw [not_or] at hcircular
      have hinner := ih _ (by rw [length_cons]; omega) (place :: stack) rfl
      exact crClosed_value ht hinner hr hvalue

end

/-! ## Renderings as pieces and values -/

/-- The refills that a rendering of a span applies, from a position on. -/
def picks (span : Span) (pos : Nat) : List (Refill × Nat) → List (Refill × Nat)
  | [] => []
  | p :: rest =>
    if pos ≤ p.1.region.start && span.contains p.1.region then
      p :: picks span p.1.region.stop rest
    else picks span pos rest

/-- The text from `pos` to `stop` with the values of refills in place of their regions. -/
def assemble (text : Text) (value : Nat → Refill → Except RefillFault Text) (stop pos : Nat) :
    List (Refill × Nat) → Except RefillFault Text
  | [] => cut text ⟨pos, stop⟩
  | p :: rest => do
    let before ← cut text ⟨pos, p.1.region.start⟩
    let here ← value p.2 p.1
    let after ← assemble text value stop p.1.region.stop rest
    return before ++ here ++ after

variable {refills : List (Refill × Nat)} {span : Span}

theorem weave_eq_assemble (text : Text) (span : Span)
    (value : Nat → Refill → Except RefillFault Text) (pos : Nat)
    (huse : ∀ p ∈ refills, span.contains p.1.region = true → use p.2 = true) :
    weave text span use value pos refills =
      assemble text value span.stop pos (picks span pos refills) := by
  induction refills generalizing pos with
  | nil => rfl
  | cons p rest ih =>
    rcases p with ⟨r, place⟩
    have hhead := huse (r, place) mem_cons_self
    have ih := fun pos => ih pos (forall_mem_cons.mp huse).2
    rw [weave, picks]
    by_cases hpick : (decide (pos ≤ r.region.start) && span.contains r.region) = true
    · have hused : use place = true := hhead (Bool.and_eq_true_iff.mp hpick).2
      rw [hused, Bool.true_and, if_pos hpick, if_pos hpick]
      simp only [ih, assemble]
    · rw [Bool.and_assoc, if_neg (by simp_all), if_neg hpick]
      exact ih pos

/-- What a rendering puts in place of a refill; on the stack are the places of the refills whose
content is being made. -/
def valueAt (text : Text) (refills : List Refill) (stack : List Nat) (place : Nat) (r : Refill) :
    Except RefillFault Text :=
  if place ∈ stack ∨ refills.length ≤ stack.length then .error (.circular place)
  else value text (render text refills (place :: stack)) r

theorem render_eq_assemble (text : Text) (refills : List Refill) {stack : List Nat}
    (hfree : ∀ p ∈ refills.zipIdx, span.contains p.1.region = true → p.2 ∉ stack) :
    render text refills stack span =
      assemble text (valueAt text refills stack) span.stop span.start
        (picks span span.start refills.zipIdx) := by
  rw [render, weave_eq_assemble]
  · rfl
  · intro p hp hin
    have hout := hfree p hp hin
    rw [decide_eq_true_eq]
    intro hhead
    exact hout (mem_of_mem_head? hhead)

theorem mem_of_mem_picks {p : Refill × Nat} (h : p ∈ picks span pos refills) : p ∈ refills := by
  induction refills generalizing pos with
  | nil => simp [picks] at h
  | cons q rest ih =>
    rw [picks] at h
    split at h
    · rcases mem_cons.mp h with rfl | h
      · exact mem_cons_self
      · exact mem_cons_of_mem _ (ih h)
    · exact mem_cons_of_mem _ (ih h)

/-! ## The order of refills -/

/-- A refill starts earlier, or at the same position and ends no earlier. -/
def Before (r s : Refill) : Prop :=
  r.region.start < s.region.start ∨ (r.region.start = s.region.start ∧ s.region.stop ≤ r.region.stop)

theorem mem_sorted_iff {refills : List Refill} : r ∈ sorted refills ↔ r ∈ refills :=
  (mergeSort_perm refills _).mem_iff

theorem sorted_zipIdx_pairwise (refills : List Refill) :
    (sorted refills).zipIdx.Pairwise fun p q => p.1.Before q.1 := by
  have hsorted : (sorted refills).Pairwise fun a b => (a.region.start < b.region.start
      || (a.region.start == b.region.start && b.region.stop ≤ a.region.stop)) = true := by
    apply pairwise_mergeSort
    · intro a b c hab hbc
      simp only [Bool.or_eq_true, Bool.and_eq_true, decide_eq_true_eq, beq_iff_eq] at hab hbc ⊢
      omega
    · intro a b
      simp only [Bool.or_eq_true, Bool.and_eq_true, decide_eq_true_eq, beq_iff_eq]
      omega
  rw [← zipIdx_map_fst 0 (sorted refills), pairwise_map] at hsorted
  refine hsorted.imp ?_
  intro p q hpq
  simp only [Bool.or_eq_true, Bool.and_eq_true, decide_eq_true_eq, beq_iff_eq] at hpq
  exact hpq

/-- Neighbouring pieces add up, with what stands between them. -/
theorem assemble_append {value : Nat → Refill → Except RefillFault Text} {stop mid mid' : Nat}
    {first second : List (Refill × Nat)} {a b : Text}
    (hsecond : ∀ p ∈ second, text.IsBoundary p.1.region.start)
    (hfirst : ∀ p ∈ first, text.IsBoundary p.1.region.stop) (hpos : text.IsBoundary pos)
    (hmid : text.IsBoundary mid) (hmid' : text.IsBoundary mid') (hstop : text.IsBoundary stop)
    (hle : mid ≤ mid') (ha : assemble text value mid pos first = .ok a)
    (hb : assemble text value stop mid' second = .ok b) :
    assemble text value stop pos (first ++ second) = .ok (a ++ (text.slice ⟨mid, mid'⟩ ++ b)) := by
  induction first generalizing pos a with
  | nil =>
    obtain ⟨hposmid, -, rfl⟩ := cut_eq_ok ha
    -- What comes next, the end or the first refill, starts with a piece of the text.
    have hjoin {q : Nat} (hq : text.IsBoundary q) (hmidq : mid' ≤ q) :
        text.slice ⟨pos, q⟩ =
          text.slice ⟨pos, mid⟩ ++ (text.slice ⟨mid, mid'⟩ ++ text.slice ⟨mid', q⟩) := by
      rw [Text.slice_add hmid hmid' hq hle hmidq,
        Text.slice_add hpos hmid hq hposmid (Nat.le_trans hle hmidq)]
    cases second with
    | nil =>
      obtain ⟨hmidstop, hsize, rfl⟩ := cut_eq_ok hb
      have hall : pos ≤ stop := by
        simp only at hposmid hmidstop
        omega
      rw [nil_append, assemble, cut_ok hall hsize, hjoin hstop hmidstop]
    | cons p rest =>
      rw [assemble] at hb
      obtain ⟨before, hbefore, hb⟩ := bind_eq_ok_iff.mp hb
      obtain ⟨here, hhere, hb⟩ := bind_eq_ok_iff.mp hb
      obtain ⟨after, hafter, hb⟩ := bind_eq_ok_iff.mp hb
      cases hb
      obtain ⟨hmidstart, hsize, rfl⟩ := cut_eq_ok hbefore
      have hall : pos ≤ p.1.region.start := by
        simp only at hposmid hmidstart
        omega
      have hstart := hsecond p mem_cons_self
      rw [nil_append, assemble, cut_ok hall hsize, hjoin hstart hmidstart, hhere, hafter]
      simp [bind, Except.bind, pure, Except.pure]
  | cons p rest ih =>
    rw [assemble] at ha
    obtain ⟨before, hbefore, ha⟩ := bind_eq_ok_iff.mp ha
    obtain ⟨here, hhere, ha⟩ := bind_eq_ok_iff.mp ha
    obtain ⟨after, hafter, ha⟩ := bind_eq_ok_iff.mp ha
    cases ha
    have ih := ih (forall_mem_cons.mp hfirst).2 (hfirst p mem_cons_self)
      hafter
    rw [cons_append, assemble, hbefore, hhere, ih]
    simp [bind, Except.bind, pure, Except.pure]

end Refill

end VbaRefactor
