import Mathlib.Data.List.Pairwise
import VbaRefactor.Proofs.Edit.Rearrange

/-!
# Renderings of nested refills

A rendering scans the flat list of refills once for each list that it fills. Where any two regions lie
apart or one in a slot of the other, the scan picks the outermost regions of a span, at every depth,
so a rendering is the text with each outermost region replaced by its value, and the value of a refill
is made of the values of the others inside its slots.
-/

namespace VbaRefactor

open List Text

variable {refills : List Refill} {slots : List Span} {pos : Nat} {r : Refill}
  {first last span : Span} {text : Text}

/-- What a fill puts into a slot, where `inner` tells what stands in a span. -/
def Fill.content (inner : Span → Text) : Fill → Text
  | .source span => inner span
  | .empty => []
  | .literal new => new

namespace Refill

/-- The list lies in a slot of the other one. -/
def InSlot (a b : Refill) : Prop := a.region ≠ b.region ∧ ∃ s ∈ b.slots, s.contains a.region = true

/-- The lists lie apart, or one of them in a slot of the other. -/
def Nests (a b : Refill) : Prop :=
  a.region.stop ≤ b.region.start ∨ b.region.stop ≤ a.region.start ∨ a.InSlot b ∨ b.InSlot a

instance (a b : Refill) : Decidable (a.InSlot b) := inferInstanceAs (Decidable (_ ∧ _))

instance (a b : Refill) : Decidable (a.Nests b) := inferInstanceAs (Decidable (_ ∨ _))

/-! ## What a rendering should be -/

/-- The refills with a region inside the span that lies in no other region there. -/
def outermost (span : Span) (refills : List Refill) : List Refill :=
  refills.filter fun r => span.contains r.region ∧
    ∀ r' ∈ refills, span.contains r'.region → r'.region.contains r.region → r' = r

/-- The text from `pos` to `stop` with values in place of the regions of refills that stand in a row. -/
def putIn (text : Text) (value : Refill → Text) (stop pos : Nat) : List Refill → Text
  | [] => text.slice ⟨pos, stop⟩
  | r :: rest =>
    text.slice ⟨pos, r.region.start⟩ ++ value r ++ putIn text value stop r.region.stop rest

/-- The text of a span with every outermost region replaced by its value. -/
def replaced (text : Text) (value : Refill → Text) (refills : List Refill) (span : Span) : Text :=
  putIn text value span.stop span.start (outermost span refills)

/-- What separates the first two slots, or a comma where there is no second. -/
def gap (text : Text) : List Span → Text
  | a :: b :: _ => text.slice ⟨a.stop, b.start⟩
  | _ => ", "

/-- Contents, each after its separator. -/
def trailing (text : Text) (slots : List Span) : List Text → Text
  | [] => []
  | content :: rest => gap text slots ++ content ++ trailing text slots.tail rest

/-- Contents with the separators of the slots between them. -/
def separated (text : Text) (slots : List Span) : List Text → Text
  | [] => []
  | content :: rest => content ++ trailing text slots rest

/-- The text before the first slot, the new contents and the text after the last slot. -/
def refilled (text : Text) (inner : Span → Text) (r : Refill) : Text :=
  match r.slots.head?, r.slots.getLast? with
  | some first, some last =>
    text.slice ⟨r.region.start, first.start⟩ ++
      separated text r.slots (r.fills.map (Fill.content inner)) ++
      text.slice ⟨last.stop, r.region.stop⟩
  | _, _ => text.slice r.region

/-- Each refill has the value that the values of the others inside its slots give it. -/
def IsValue (text : Text) (refills : List Refill) (value : Refill → Text) : Prop :=
  ∀ r ∈ refills, value r = refilled text (replaced text value (refills.filter (· ≠ r))) r

/-- The region is not empty, the slots lie in it in order, and the fills are own slots, nothing or
literals. -/
structure Proper (text : Text) (r : Refill) : Prop where
  nonempty : r.region.start < r.region.stop
  startBoundary : text.IsBoundary r.region.start
  stopBoundary : text.IsBoundary r.region.stop
  slotInside : ∀ s ∈ r.slots, r.region.start ≤ s.start ∧ s.start ≤ s.stop ∧ s.stop ≤ r.region.stop
  slotBoundary : ∀ s ∈ r.slots, text.IsBoundary s.start ∧ text.IsBoundary s.stop
  slotsOrdered : r.slots.Pairwise fun a b => a.stop ≤ b.start
  fillsOwn : ∀ s, .source s ∈ r.fills → s ∈ r.slots
  flat : r.collapse = false

/-- The refills stand in the order of `sorted`, their regions are distinct, and of any two regions
that do not lie apart, one lies in a single slot of the other. -/
structure WellNested (text : Text) (refills : List Refill) : Prop where
  ordered : refills.Pairwise Before
  distinct : refills.Pairwise fun a b => a.region ≠ b.region
  nests : refills.Pairwise Nests
  proper : ∀ r ∈ refills, r.Proper text

/-! ## The outermost regions of a sorted list -/

instance (a b : Refill) : Decidable (a.Before b) := inferInstanceAs (Decidable (_ ∨ _))

/-- What an earlier refill is to a later one: it ends before it, or has it inside. -/
def Leads (a b : Refill) : Prop :=
  a.region.stop ≤ b.region.start ∨ (a.region.contains b.region ∧ a.region ≠ b.region)

section

variable {rest : List Refill} {value value' : Refill → Text}

theorem Proper.contains_of_inSlot {a b : Refill} (hb : b.Proper text) (h : a.InSlot b) :
    b.region.contains a.region = true ∧ a.region ≠ b.region := by
  obtain ⟨hne, s, hs, hin⟩ := h
  have := hb.slotInside s hs
  rw [contains_iff] at hin ⊢
  exact ⟨⟨by omega, by omega⟩, hne⟩

theorem span_eq_of_contains {a b : Span} (hab : a.contains b = true) (hba : b.contains a = true) :
    a = b := by
  rw [contains_iff] at hab hba
  rcases a with ⟨_, _⟩
  rcases b with ⟨_, _⟩
  simp only [Span.mk.injEq] at hab hba ⊢
  omega

theorem WellNested.leads (h : WellNested text refills) : refills.Pairwise Leads := by
  have hboth := (h.ordered.and h.nests).imp_of_mem (S := Leads) ?_
  · exact hboth
  rintro a b ha hb ⟨hbefore, hnests⟩
  have haProper := h.proper a ha
  have hbProper := h.proper b hb
  have hne := hbProper.nonempty
  rcases hnests with happart | happart | hin | hin
  · exact .inl happart
  · rcases hbefore with hlt | ⟨heq, hle⟩ <;> omega
  · -- The earlier region cannot lie in the later one.
    obtain ⟨hcontains, hdistinct⟩ := hbProper.contains_of_inSlot hin
    refine absurd (span_eq_of_contains ?_ hcontains) hdistinct
    rw [contains_iff] at hcontains ⊢
    rcases hbefore with hlt | ⟨heq, hle⟩ <;> omega
  · obtain ⟨hcontains, hdistinct⟩ := haProper.contains_of_inSlot hin
    exact .inr ⟨hcontains, hdistinct.symm⟩

theorem outermost_cons_of_not (hout : ¬ span.contains r.region) :
    outermost span (r :: rest) = outermost span rest := by
  simp [outermost, hout]

/-- The first region inside a span is an outermost one, and the others come after its end. -/
theorem outermost_cons (hin : span.contains r.region) (hnonempty : ∀ r' ∈ r :: rest,
    r'.region.start < r'.region.stop) (hleads : ∀ r' ∈ rest, r.Leads r') :
    outermost span (r :: rest) = r :: outermost ⟨r.region.stop, span.stop⟩ rest := by
  have hr := hnonempty r mem_cons_self
  have hfirst : ∀ r' ∈ r :: rest, span.contains r'.region → r'.region.contains r.region → r' = r := by
    intro r' hr' _ hcontains
    rcases mem_cons.mp hr' with rfl | hr'
    · rfl
    · rcases hleads r' hr' with hapart | ⟨hcontained, hne⟩
      · have := hnonempty r' (mem_cons_of_mem _ hr')
        rw [contains_iff] at hcontains
        omega
      · exact absurd (span_eq_of_contains hcontained hcontains) hne
  rw [outermost, filter_cons_of_pos (by simpa only [decide_eq_true_eq] using ⟨hin, hfirst⟩),
    outermost]
  rw [contains_iff] at hin
  congr 1
  apply filter_congr
  intro r' hr'
  have hne' := hnonempty r' (mem_cons_of_mem _ hr')
  rw [decide_eq_decide]
  constructor
  · rintro ⟨hin', hall⟩
    rcases hleads r' hr' with hapart | ⟨hcontained, hne⟩
    · rw [contains_iff] at hin' ⊢
      refine ⟨⟨hapart, hin'.2⟩, ?_⟩
      intro r'' hr'' hin'' hcontains
      refine hall r'' (mem_cons_of_mem _ hr'') ?_ hcontains
      rw [contains_iff] at hin'' ⊢
      simp only at hin''
      omega
    · have := hall r mem_cons_self ((contains_iff _ _).mpr hin) hcontained
      exact absurd (congrArg Refill.region this) hne
  · rintro ⟨hin', hall⟩
    rw [contains_iff] at hin'
    simp only at hin'
    refine ⟨(contains_iff _ _).mpr ⟨by omega, hin'.2⟩, ?_⟩
    intro r'' hr'' hin'' hcontains
    rw [contains_iff] at hcontains
    rcases mem_cons.mp hr'' with rfl | hr''
    · omega
    · refine hall r'' hr'' ?_ ((contains_iff _ _).mpr hcontains)
      rw [contains_iff] at hin'' ⊢
      rcases hleads r'' hr'' with hapart | ⟨hcontained, -⟩
      · exact ⟨hapart, hin''.2⟩
      · rw [contains_iff] at hcontained
        omega

theorem mem_of_mem_outermost (h : r ∈ outermost span refills) :
    r ∈ refills ∧ span.contains r.region = true := by
  rw [outermost, mem_filter, decide_eq_true_eq] at h
  exact ⟨h.1, h.2.1⟩

theorem putIn_congr (stop pos : Nat) (h : ∀ r ∈ refills, value r = value' r) :
    putIn text value stop pos refills = putIn text value' stop pos refills := by
  induction refills generalizing pos with
  | nil => rfl
  | cons r rest ih =>
    rw [putIn, putIn, h r mem_cons_self, ih _ fun r' hr' => h r' (mem_cons_of_mem _ hr')]

theorem replaced_congr (h : ∀ r ∈ refills, span.contains r.region = true → value r = value' r) :
    replaced text value refills span = replaced text value' refills span := by
  apply putIn_congr
  intro r hr
  obtain ⟨hmem, hin⟩ := mem_of_mem_outermost hr
  exact h r hmem hin

/-- The scan of a sorted list puts in the values of the outermost of the refills that it uses. -/
theorem weave_eq_putIn {use : Nat → Bool} {value : Nat → Refill → Except RefillFault Text}
    {given : Refill → Text} {places : List (Refill × Nat)} (hpos : span.start ≤ pos)
    (hstop : pos ≤ span.stop) (hsize : span.stop ≤ text.byteSize)
    (hnonempty : ∀ p ∈ places, p.1.region.start < p.1.region.stop)
    (hleads : places.Pairwise fun p q => p.1.Leads q.1)
    (hvalue : ∀ p ∈ places, use p.2 = true → span.contains p.1.region = true →
      value p.2 p.1 = .ok (given p.1)) :
    weave text span use value pos places = .ok (putIn text given span.stop pos
      (outermost ⟨pos, span.stop⟩ ((places.filter (use ·.2)).map Prod.fst))) := by
  induction places generalizing pos with
  | nil => exact cut_ok hstop hsize
  | cons p rest ih =>
    rcases p with ⟨r, place⟩
    obtain ⟨hfirst, hrest⟩ := pairwise_cons.mp hleads
    have hr := hnonempty (r, place) mem_cons_self
    have ih {pos : Nat} (hpos : span.start ≤ pos) (hstop : pos ≤ span.stop) :=
      ih hpos hstop (forall_mem_cons.mp hnonempty).2 hrest (forall_mem_cons.mp hvalue).2
    rw [weave]
    by_cases hused : use place = true
    · rw [filter_cons_of_pos (p := fun q : Refill × Nat => use q.2) hused, map_cons]
      by_cases hin : (⟨pos, span.stop⟩ : Span).contains r.region = true
      · have hhere := hvalue (r, place) mem_cons_self hused
        rw [contains_iff] at hhere
        have hin' := (contains_iff _ _).mp hin
        simp only at hin' hr hhere
        rw [outermost_cons hin, putIn, if_pos (by simp [hused, contains_iff]; omega),
          cut_ok hin'.1 (by omega), hhere ⟨by omega, hin'.2⟩, ih (by omega) hin'.2]
        · rfl
        · simp only [mem_cons, mem_map, mem_filter]
          rintro r' (rfl | ⟨q, ⟨hq, -⟩, rfl⟩)
          · exact hr
          · exact hnonempty q (mem_cons_of_mem _ hq)
        · simp only [mem_map, mem_filter]
          rintro r' ⟨q, ⟨hq, -⟩, rfl⟩
          exact hfirst q hq
      · rw [outermost_cons_of_not hin, if_neg ?_, ih hpos hstop]
        simp only [contains_iff] at hin
        simp only [Bool.and_eq_true, decide_eq_true_eq, contains_iff]
        omega
    · rw [filter_cons_of_neg (p := fun q : Refill × Nat => use q.2) hused, if_neg (by simp [hused]),
        ih hpos hstop]

end

/-! ## The value of a refill -/

section

variable {inner : Span → Except RefillFault Text} {given : Span → Text} {fills : List Fill}

theorem separator_succ (index : Nat)
    (hslots : ∀ s ∈ slots, s.stop ≤ text.byteSize ∧ s.start ≤ s.stop)
    (hordered : slots.Pairwise fun a b => a.stop ≤ b.start) :
    separator text slots (index + 1) = .ok (gap text (slots.drop index)) := by
  rw [separator, if_neg (by omega), Nat.add_sub_cancel]
  rcases hdrop : slots.drop index with _ | ⟨a, _ | ⟨b, rest⟩⟩
  · have hlen : slots.length ≤ index := drop_eq_nil_iff.mp hdrop
    rw [getElem?_eq_none hlen]
    rfl
  · have hlen := congrArg List.length hdrop
    rw [length_drop, length_singleton] at hlen
    rw [getElem?_eq_none (i := index + 1) (by omega)]
    cases slots[index]? <;> rfl
  · have hfirst : slots[index]? = some a := by rw [← head?_drop, hdrop]; rfl
    have hsecond : slots[index + 1]? = some b := by
      rw [← head?_drop, ← tail_drop, hdrop]
      rfl
    have hsub : (a :: b :: rest).Sublist slots := by
      rw [← hdrop]
      exact drop_sublist index slots
    have hle : a.stop ≤ b.start := rel_of_pairwise_cons (hordered.sublist hsub) (by simp)
    have hb := hslots b (hsub.subset (by simp))
    rw [hfirst, hsecond]
    exact cut_ok hle (by omega)

theorem fillText_eq {fill : Fill} (h : ∀ s, fill = .source s → inner s = .ok (given s)) :
    fillText inner fill = .ok (fill.content given) := by
  cases fill with
  | source s => exact h s rfl
  | empty => rfl
  | literal new => rfl

theorem contents_succ (index : Nat)
    (hslots : ∀ s ∈ slots, s.stop ≤ text.byteSize ∧ s.start ≤ s.stop)
    (hordered : slots.Pairwise fun a b => a.stop ≤ b.start)
    (hinner : ∀ s, .source s ∈ fills → inner s = .ok (given s)) :
    contents text slots inner (index + 1) fills =
      .ok (trailing text (slots.drop index) (fills.map (Fill.content given))) := by
  induction fills generalizing index with
  | nil => rfl
  | cons fill rest ih =>
    have hfill : fillText inner fill = .ok (fill.content given) :=
      fillText_eq fun s hs => hinner s (hs ▸ mem_cons_self)
    rw [contents_cons, separator_succ index hslots hordered, hfill,
      ih (index + 1) fun s hs => hinner s (mem_cons_of_mem _ hs), map_cons, trailing,
      tail_drop]
    rfl

theorem contents_eq_separated (hslots : ∀ s ∈ slots, s.stop ≤ text.byteSize ∧ s.start ≤ s.stop)
    (hordered : slots.Pairwise fun a b => a.stop ≤ b.start)
    (hinner : ∀ s, .source s ∈ fills → inner s = .ok (given s)) :
    contents text slots inner 0 fills =
      .ok (separated text slots (fills.map (Fill.content given))) := by
  cases fills with
  | nil => rfl
  | cons fill rest =>
    have hfill : fillText inner fill = .ok (fill.content given) :=
      fillText_eq fun s hs => hinner s (hs ▸ mem_cons_self)
    rw [contents_cons, hfill, contents_succ 0 hslots hordered fun s hs =>
      hinner s (mem_cons_of_mem _ hs)]
    rfl

/-- A part of the region that no slot reaches into. -/
def Outside (r : Refill) (part : Span) : Prop :=
  r.region.contains part = true ∧ ∀ s ∈ r.slots, part.stop ≤ s.start ∨ s.stop ≤ part.start

/-- The slots lie between the start of the first and the stop of the last one. -/
theorem slots_between (hle : ∀ s ∈ slots, s.start ≤ s.stop)
    (hordered : slots.Pairwise fun a b => a.stop ≤ b.start) (hfirst : slots.head? = some first)
    (hlast : slots.getLast? = some last) :
    ∀ s ∈ slots, first.start ≤ s.start ∧ s.stop ≤ last.stop := by
  obtain ⟨rest, hrest⟩ := head?_eq_some_iff.mp hfirst
  obtain ⟨init, hinit⟩ := getLast?_eq_some_iff.mp hlast
  intro s hs
  constructor
  · rw [hrest] at hordered hs hle
    rcases mem_cons.mp hs with rfl | hs
    · exact Nat.le_refl _
    · exact Nat.le_trans (hle first mem_cons_self) (rel_of_pairwise_cons hordered hs)
  · rw [hinit] at hordered hs hle
    rcases mem_append.mp hs with hs | hs
    · have := (pairwise_append.mp hordered).2.2 s hs last mem_cons_self
      exact Nat.le_trans this (hle last (by simp))
    · exact Nat.le_of_eq (congrArg Span.stop (mem_singleton.mp hs))

/-- A refill is filled as its slots tell, if the text outside of the slots stays. -/
theorem Proper.value_eq (hr : r.Proper text)
    (houter : ∀ part, part.start ≤ part.stop → r.Outside part →
      inner part = .ok (text.slice part)) (hinner : ∀ s ∈ r.slots, inner s = .ok (given s)) :
    value text inner r = .ok (refilled text given r) := by
  have hslots : ∀ s ∈ r.slots, s.stop ≤ text.byteSize ∧ s.start ≤ s.stop := fun s hs =>
    ⟨(hr.slotBoundary s hs).2.le, (hr.slotInside s hs).2.1⟩
  rcases hfirst : r.slots.head? with _ | first
  · have hnil : r.slots = [] := head?_eq_none_iff.mp hfirst
    simp only [value, refilled, hfirst]
    exact houter r.region (Nat.le_of_lt hr.nonempty) ⟨by simp [contains_iff], by simp [hnil]⟩
  · obtain ⟨last, hlast⟩ : ∃ last, r.slots.getLast? = some last :=
      ⟨_, getLast?_eq_some_getLast (ne_nil_of_mem (mem_of_mem_head? hfirst))⟩
    have hbetween := slots_between (fun s hs => (hslots s hs).2) hr.slotsOrdered hfirst hlast
    have hfirstIn := hr.slotInside first (mem_of_mem_head? hfirst)
    have hlastIn := hr.slotInside last (mem_of_getLast? hlast)
    have hbefore := houter ⟨r.region.start, first.start⟩ hfirstIn.1
      ⟨(contains_iff _ _).mpr ⟨Nat.le_refl _, by simp only; omega⟩,
        fun s hs => .inl (hbetween s hs).1⟩
    have hafter := houter ⟨last.stop, r.region.stop⟩ hlastIn.2.2
      ⟨(contains_iff _ _).mpr ⟨by simp only; omega, Nat.le_refl _⟩,
        fun s hs => .inr (hbetween s hs).2⟩
    have hmiddle := contents_eq_separated hslots hr.slotsOrdered fun s hs => hinner s (hr.fillsOwn s hs)
    simp only [value, refilled, hfirst, hlast, hbefore, hmiddle, hafter, hr.flat]
    rfl

end

/-! ## Renderings at every depth -/

section

variable {stack : List Nat} {value : Refill → Text} {place : Nat} {a b : Refill}

theorem eq_of_region (h : refills.Pairwise fun a b => a.region ≠ b.region) (ha : a ∈ refills)
    (hb : b ∈ refills) (heq : a.region = b.region) : a = b := by
  have : Std.Symm fun a b : Refill => a.region ≠ b.region := ⟨fun _ _ => Ne.symm⟩
  by_contra hne
  exact h.forall ha hb hne heq

theorem WellNested.nodup (h : WellNested text refills) : refills.Nodup :=
  h.distinct.imp fun hne heq => hne (congrArg Refill.region heq)

instance : Std.Symm Nests where
  symm a b h := by
    rcases h with h | h | h | h
    · exact .inr (.inl h)
    · exact .inl h
    · exact .inr (.inr (.inr h))
    · exact .inr (.inr (.inl h))

/-- A region inside another one lies in one of its slots. -/
theorem WellNested.exists_slot (h : WellNested text refills) (ha : a ∈ refills) (hb : b ∈ refills)
    (hne : a ≠ b) (hin : b.region.contains a.region = true) :
    ∃ s ∈ b.slots, s.contains a.region = true := by
  have haNonempty := (h.proper a ha).nonempty
  have hbounds := (contains_iff _ _).mp hin
  rcases h.nests.forall ha hb hne with hapart | hapart | hslot | hslot
  · omega
  · omega
  · exact hslot.2
  · obtain ⟨hcontains, hdistinct⟩ := (h.proper a ha).contains_of_inSlot hslot
    exact absurd (span_eq_of_contains hin hcontains) hdistinct

/-- The refills that a rendering scans. -/
def scanned (refills : List Refill) (stack : List Nat) : List Refill :=
  (refills.zipIdx.filter fun p => stack.head? ≠ some p.2).map Prod.fst

theorem WellNested.scanned_cons (h : WellNested text refills) (hplace : refills[place]? = some r) :
    scanned refills (place :: stack) = refills.filter (· ≠ r) := by
  have hsame : ∀ p ∈ refills.zipIdx, p.2 = place ↔ p.1 = r := by
    rintro ⟨r', i⟩ hp
    have hi : refills[i]? = some r' := mem_zipIdx_iff_getElem?.mp hp
    have hlt : i < refills.length := (List.getElem?_eq_some_iff.mp hi).1
    constructor
    · rintro rfl
      exact Option.some.inj (hi.symm.trans hplace)
    · rintro rfl
      exact (getElem?_inj hlt h.nodup).mp (hi.trans hplace.symm)
  have hmap := filter_map (f := Prod.fst) (p := fun r' => decide (r' ≠ r)) (l := refills.zipIdx)
  rw [zipIdx_map_fst] at hmap
  rw [hmap, scanned]
  congr 1
  apply filter_congr
  intro p hp
  simp [eq_comm (a := place), hsame p hp]

theorem WellNested.render_eq (h : WellNested text refills) (hspan : span.start ≤ span.stop)
    (hsize : span.stop ≤ text.byteSize)
    (hvalue : ∀ i r', refills[i]? = some r' → stack.head? ≠ some i →
      span.contains r'.region = true → valueAt text refills stack i r' = .ok (value r')) :
    render text refills stack span = .ok (replaced text value (scanned refills stack) span) := by
  rw [render]
  refine weave_eq_putIn (Nat.le_refl _) hspan hsize ?_ ?_ ?_
  · intro p hp
    exact (h.proper p.1 (mem_of_mem_zipIdx hp)).nonempty
  · have hleads := h.leads
    rwa [← zipIdx_map_fst 0 refills, pairwise_map] at hleads
  · intro p hp hused hin
    exact hvalue p.2 p.1 (mem_zipIdx_iff_getElem?.mp hp) (of_decide_eq_true hused) hin

theorem replaced_of_none (hnone : ∀ r ∈ refills, ¬ span.contains r.region) :
    replaced text value refills span = text.slice span := by
  have hnil : outermost span refills = [] := filter_eq_nil_iff.mpr fun r hr => by simp [hnone r hr]
  rw [replaced, hnil, putIn]

/-- The places on the stack are those of other refills that the refill lies in. -/
def Within (refills : List Refill) (stack : List Nat) (r : Refill) : Prop :=
  stack.Nodup ∧ ∀ i ∈ stack, ∃ r', refills[i]? = some r' ∧ r' ≠ r ∧
    r'.region.contains r.region = true

theorem Within.not_mem (h : Within refills stack r) (hplace : refills[place]? = some r) :
    place ∉ stack := by
  intro hmem
  obtain ⟨r', hr', hne, -⟩ := h.2 place hmem
  exact hne (Option.some.inj (hr'.symm.trans hplace))

theorem Within.length_lt (h : Within refills stack r) (hplace : refills[place]? = some r) :
    stack.length < refills.length := by
  refine length_lt_of_nodup (nodup_cons.mpr ⟨h.not_mem hplace, h.1⟩) (forall_mem_cons.mpr
    ⟨(List.getElem?_eq_some_iff.mp hplace).1, ?_⟩)
  intro i hi
  obtain ⟨r', hr', -⟩ := h.2 i hi
  exact (List.getElem?_eq_some_iff.mp hr').1

theorem Within.cons (hwithin : Within refills stack r)
    (h : refills.Pairwise fun a b => a.region ≠ b.region) (hplace : refills[place]? = some r)
    {r' : Refill} (hr' : r' ∈ refills) (hne : r' ≠ r) (hin : r.region.contains r'.region = true) :
    Within refills (place :: stack) r' := by
  refine ⟨nodup_cons.mpr ⟨hwithin.not_mem hplace, hwithin.1⟩, ?_⟩
  refine forall_mem_cons.mpr ⟨⟨r, hplace, hne.symm, hin⟩, fun i hi => ?_⟩
  obtain ⟨outer, houter, -, hcontains⟩ := hwithin.2 i hi
  refine ⟨outer, houter, ?_, ?_⟩
  · rintro rfl
    exact hne (eq_of_region h hr' (mem_of_getElem? hplace) (span_eq_of_contains hcontains hin))
  · simp only [contains_iff] at hin hcontains ⊢
    omega

/-- What a rendering puts in place of a refill is made of the values of the others in its slots. -/
theorem WellNested.valueAt_eq (h : WellNested text refills) (hplace : refills[place]? = some r)
    (hwithin : Within refills stack r)
    (hvalue : ∀ i r', refills[i]? = some r' → r' ≠ r → r.region.contains r'.region = true →
      valueAt text refills (place :: stack) i r' = .ok (value r')) :
    valueAt text refills stack place r =
      .ok (refilled text (replaced text value (refills.filter (· ≠ r))) r) := by
  have hmem := mem_of_getElem? hplace
  have hr := h.proper r hmem
  have hlength := hwithin.length_lt hplace
  have hrender : ∀ part : Span, part.start ≤ part.stop → r.region.contains part = true →
      render text refills (place :: stack) part =
        .ok (replaced text value (refills.filter (· ≠ r)) part) := by
    intro part hle hin
    have hbounds := (contains_iff _ _).mp hin
    have hscanned : scanned refills (place :: stack) = _ := h.scanned_cons hplace
    rw [← hscanned]
    refine h.render_eq hle (Nat.le_trans hbounds.2 hr.stopBoundary.le) ?_
    intro i r' hi hother hin'
    refine hvalue i r' hi ?_ ?_
    · rintro rfl
      have hlt : i < refills.length := (List.getElem?_eq_some_iff.mp hi).1
      exact hother (congrArg some ((getElem?_inj hlt h.nodup).mp (hi.trans hplace.symm)).symm)
    · simp only [contains_iff] at hin' ⊢
      omega
  rw [valueAt, if_neg (by simp [hwithin.not_mem hplace, hlength])]
  apply hr.value_eq
  · rintro part hle ⟨hin, hapart⟩
    rw [hrender part hle hin, replaced_of_none]
    -- A region outside of the slots would lie in one of them.
    intro r' hr' hin'
    obtain ⟨hr', hne⟩ := mem_filter.mp hr'
    have hinside : r.region.contains r'.region = true := by
      simp only [contains_iff] at hin hin' ⊢
      omega
    obtain ⟨s, hs, hcontains⟩ := h.exists_slot hr' hmem (of_decide_eq_true hne) hinside
    have hnonempty := (h.proper r' hr').nonempty
    have := hapart s hs
    simp only [contains_iff] at hin' hcontains
    omega
  · intro s hs
    have := hr.slotInside s hs
    exact hrender s this.2.1 ((contains_iff _ _).mpr ⟨this.1, this.2.2⟩)

theorem WellNested.size_lt (h : WellNested text refills) (ha : a ∈ refills) (hb : b ∈ refills)
    (hne : a ≠ b) (hin : b.region.contains a.region = true) : a.region.size < b.region.size := by
  have hdistinct : ¬ a.region.contains b.region = true := fun hcontains =>
    hne (eq_of_region h.distinct ha hb (span_eq_of_contains hcontains hin))
  have hnonempty := (h.proper a ha).nonempty
  simp only [contains_iff] at hin hdistinct
  simp only [Span.size]
  omega

/-- Each refill has one value, however deep it lies when it is rendered. -/
theorem WellNested.exists_valueAt (h : WellNested text refills) (hr : r ∈ refills) :
    ∃ v, ∀ place stack, refills[place]? = some r → Within refills stack r →
      valueAt text refills stack place r = .ok v := by
  induction hsize : r.region.size using Nat.strongRecOn generalizing r with
  | ind size ih =>
    have hinside : ∀ r', r' ∈ refills ∧ r' ≠ r ∧ r.region.contains r'.region = true →
        ∃ v, ∀ place stack, refills[place]? = some r' → Within refills stack r' →
          valueAt text refills stack place r' = .ok v := by
      rintro r' ⟨hr', hne, hin⟩
      exact ih r'.region.size (hsize ▸ h.size_lt hr' hr hne hin) hr' rfl
    choose! value hvalue using hinside
    refine ⟨refilled text (replaced text value (refills.filter (· ≠ r))) r, ?_⟩
    intro place stack hplace hwithin
    apply h.valueAt_eq hplace hwithin
    intro i r' hi hne hin
    have hr' := mem_of_getElem? hi
    exact hvalue r' ⟨hr', hne, hin⟩ i _ hi (hwithin.cons h.distinct hplace hr' hne hin)

theorem Proper.refilled_congr (hr : r.Proper text) {inner inner' : Span → Text}
    (h : ∀ s ∈ r.slots, inner s = inner' s) : refilled text inner r = refilled text inner' r := by
  have hfills : r.fills.map (Fill.content inner) = r.fills.map (Fill.content inner') := by
    apply map_congr_left
    intro fill hfill
    cases fill with
    | source s => exact h s (hr.fillsOwn s hfill)
    | empty => rfl
    | literal new => rfl
  rw [refilled, refilled, hfills]

/-- The values of the refills inside a refill determine its value. -/
theorem IsValue.unique (h : WellNested text refills) {other : Refill → Text}
    (hvalue : IsValue text refills value) (hother : IsValue text refills other) (hr : r ∈ refills) :
    other r = value r := by
  induction hsize : r.region.size using Nat.strongRecOn generalizing r with
  | ind size ih =>
    rw [hvalue r hr, hother r hr]
    apply (h.proper r hr).refilled_congr
    intro s hs
    apply replaced_congr
    intro r' hr' hin
    obtain ⟨hr', hne⟩ := mem_filter.mp hr'
    have hslot := (h.proper r hr).slotInside s hs
    have hinside : r.region.contains r'.region = true := by
      simp only [contains_iff] at hin ⊢
      omega
    exact ih r'.region.size (hsize ▸ h.size_lt hr' hr (of_decide_eq_true hne) hinside) hr' rfl

/-! ## Slots filled with themselves -/

theorem putIn_slice {stop : Nat} (hproper : ∀ r ∈ refills, r.Proper text)
    (hleads : refills.Pairwise Leads) (hpos : text.IsBoundary pos) (hstop : text.IsBoundary stop)
    (hle : pos ≤ stop) :
    putIn text (fun r => text.slice r.region) stop pos (outermost ⟨pos, stop⟩ refills) =
      text.slice ⟨pos, stop⟩ := by
  induction refills generalizing pos with
  | nil => rfl
  | cons r rest ih =>
    obtain ⟨hfirst, hrest⟩ := pairwise_cons.mp hleads
    have hr := hproper r mem_cons_self
    have hnonempty := hr.nonempty
    have ih {pos : Nat} (hpos : text.IsBoundary pos) (hle : pos ≤ stop) :=
      ih (fun r' hr' => hproper r' (mem_cons_of_mem _ hr')) hrest hpos hle
    by_cases hin : (⟨pos, stop⟩ : Span).contains r.region = true
    · rw [outermost_cons hin (fun r' hr' => (hproper r' hr').nonempty) hfirst, putIn]
      rw [contains_iff] at hin
      simp only at hin
      rw [ih hr.stopBoundary hin.2,
        slice_add hpos hr.startBoundary hr.stopBoundary hin.1 (by omega),
        slice_add hpos hr.stopBoundary hstop (by omega) hin.2]
    · rw [outermost_cons_of_not hin, ih hpos hle]

/-- The slots with their separators are the text from the first to the last one. -/
theorem separated_slots
    (hslots : ∀ s ∈ slots, text.IsBoundary s.start ∧ text.IsBoundary s.stop ∧ s.start ≤ s.stop)
    (hordered : slots.Pairwise fun a b => a.stop ≤ b.start) (hfirst : slots.head? = some first)
    (hlast : slots.getLast? = some last) :
    separated text slots (slots.map text.slice) = text.slice ⟨first.start, last.stop⟩ := by
  induction slots generalizing first with
  | nil => cases hfirst
  | cons a rest ih =>
    cases hfirst
    rcases rest with _ | ⟨b, rest⟩
    · cases hlast
      exact append_nil _
    have hlast' : (b :: rest).getLast? = some last := by
      rw [← hlast, getLast?_cons_cons]
    obtain ⟨hahead, hrest⟩ := pairwise_cons.mp hordered
    have hrestSlots := fun s hs => hslots s (mem_cons_of_mem a hs)
    have hbetween := slots_between (fun s hs => (hrestSlots s hs).2.2) hrest rfl hlast' b
      mem_cons_self
    obtain ⟨haStart, haStop, haLe⟩ := hslots a mem_cons_self
    obtain ⟨hbStart, -, hbLe⟩ := hrestSlots b mem_cons_self
    have hlastStop := (hslots last (mem_of_getLast? hlast)).2.1
    have hab := hahead b mem_cons_self
    calc separated text (a :: b :: rest) ((a :: b :: rest).map text.slice)
        = text.slice a ++ (text.slice ⟨a.stop, b.start⟩ ++
            separated text (b :: rest) ((b :: rest).map text.slice)) := by
          simp [separated, trailing, gap]
      _ = text.slice ⟨a.start, last.stop⟩ := by
          rw [ih hrestSlots hrest rfl hlast', slice_add haStop hbStart hlastStop hab (by omega),
            slice_add haStart haStop hlastStop haLe (by omega)]

/-- The texts of the regions are values if each slot is filled with itself. -/
theorem WellNested.isValue_slice (h : WellNested text refills)
    (hfills : ∀ r ∈ refills, r.fills = r.slots.map .source) :
    IsValue text refills fun r => text.slice r.region := by
  intro r hr
  have hproper := h.proper r hr
  have hslots : ∀ s ∈ r.slots, text.IsBoundary s.start ∧ text.IsBoundary s.stop ∧
      s.start ≤ s.stop := fun s hs =>
    ⟨(hproper.slotBoundary s hs).1, (hproper.slotBoundary s hs).2, (hproper.slotInside s hs).2.1⟩
  have hinner : ∀ s ∈ r.slots, replaced text (fun r => text.slice r.region)
      (refills.filter (· ≠ r)) s = text.slice s := by
    intro s hs
    obtain ⟨hstart, hstop, hle⟩ := hslots s hs
    exact putIn_slice (fun r' hr' => h.proper r' (mem_of_mem_filter hr'))
      (h.leads.sublist filter_sublist) hstart hstop hle
  rw [hproper.refilled_congr hinner, refilled, hfills r hr, map_map]
  split
  · rename_i first last hfirst hlast
    have hfirstIn := hproper.slotInside first (mem_of_mem_head? hfirst)
    have hlastIn := hproper.slotInside last (mem_of_getLast? hlast)
    have hbetween := slots_between (fun s hs => (hslots s hs).2.2) hproper.slotsOrdered hfirst hlast
      first (mem_of_mem_head? hfirst)
    have hfirstStart := (hslots first (mem_of_mem_head? hfirst)).1
    have hlastStop := (hslots last (mem_of_getLast? hlast)).2.1
    have hmiddle := separated_slots hslots hproper.slotsOrdered hfirst hlast
    calc text.slice r.region
        = text.slice ⟨r.region.start, first.start⟩ ++ text.slice ⟨first.start, last.stop⟩ ++
            text.slice ⟨last.stop, r.region.stop⟩ := by
          rw [slice_add hproper.startBoundary hfirstStart hlastStop hfirstIn.1 (by omega),
            slice_add hproper.startBoundary hlastStop hproper.stopBoundary (by omega) hlastIn.2.2]
      _ = _ := by rw [← hmiddle]; rfl
  · rfl

/-- A rendering of well nested refills is the text with every outermost region replaced by its value,
and the values are the only ones that are made of each other as the slots tell. Where each slot is
filled with itself, the text stays as it is. -/
theorem render_replaces_outermost (h : WellNested text refills) :
    ∃ value, IsValue text refills value ∧
      (∀ other, IsValue text refills other → ∀ r ∈ refills, other r = value r) ∧
      ∀ span, text.IsBoundary span.start → text.IsBoundary span.stop → span.start ≤ span.stop →
        render text refills [] span = .ok (replaced text value refills span) ∧
        ((∀ r ∈ refills, r.fills = r.slots.map .source) →
          render text refills [] span = .ok (text.slice span)) := by
  choose! value hvalue using fun r (hr : r ∈ refills) => h.exists_valueAt hr
  have hempty : ∀ r, Within refills [] r := fun r => ⟨List.nodup_nil, by simp⟩
  have hisValue : IsValue text refills value := by
    intro r hr
    obtain ⟨place, hplace⟩ := List.mem_iff_getElem?.mp hr
    apply Except.ok.inj (ε := RefillFault)
    rw [← hvalue r hr place [] hplace (hempty r)]
    apply h.valueAt_eq hplace (hempty r)
    intro i r' hi hne hin
    have hr' := List.mem_of_getElem? hi
    exact hvalue r' hr' i _ hi ((hempty r).cons h.distinct hplace hr' hne hin)
  refine ⟨value, hisValue, fun other hother r hr => hisValue.unique h hother hr, ?_⟩
  intro span hstart hstop hle
  have hrender : render text refills [] span = .ok (replaced text value refills span) := by
    have hscanned : scanned refills [] = refills := by simp [scanned]
    rw [← congrArg (replaced text value · span) hscanned]
    apply h.render_eq hle hstop.le
    intro i r' hi _ _
    exact hvalue r' (List.mem_of_getElem? hi) i [] hi (hempty r')
  refine ⟨hrender, ?_⟩
  intro hfills
  have hsame : ∀ r ∈ refills, value r = text.slice r.region := fun r hr =>
    (h.isValue_slice hfills).unique h hisValue hr
  rw [hrender, replaced_congr fun r hr _ => hsame r hr]
  exact congrArg Except.ok (putIn_slice h.proper h.leads hstart hstop hle)

end

/-- A call in an argument of another one. -/
def nestedText : Text := "    Foo Bar(1, 2), 3\n"

/-- The arguments of both calls change places, and the inner call gets a third one. -/
def nestedRefills : List Refill :=
  [⟨⟨8, 20⟩, [⟨8, 17⟩, ⟨19, 20⟩], [.source ⟨19, 20⟩, .source ⟨8, 17⟩], false⟩,
    ⟨⟨12, 16⟩, [⟨12, 13⟩, ⟨15, 16⟩], [.source ⟨15, 16⟩, .source ⟨12, 13⟩, .literal "0"], false⟩]

theorem render_replaces_outermost_calls : WellNested nestedText nestedRefills ∧
    ∃ value, IsValue nestedText nestedRefills value ∧
      render nestedText nestedRefills [] ⟨0, 21⟩ =
        .ok (replaced nestedText value nestedRefills ⟨0, 21⟩) ∧
      replaced nestedText value nestedRefills ⟨0, 21⟩ = "    Foo 3, Bar(2, 1, 0)\n" := by
  have hcuts : ∀ pos ≤ 21, nestedText.IsBoundary pos := by
    intro pos hpos
    apply Text.IsCut.isBoundary
    exact (by decide +kernel : ∀ pos < 22, nestedText.IsCut pos) pos (by omega)
  have hspans : ∀ r ∈ nestedRefills, r.region.start < r.region.stop ∧ r.region.stop ≤ 21 ∧
      ∀ s ∈ r.slots, r.region.start ≤ s.start ∧ s.start ≤ s.stop ∧ s.stop ≤ r.region.stop := by
    decide
  have hnested : WellNested nestedText nestedRefills := by
    refine ⟨by decide, by decide, by decide, ?_⟩
    intro r hr
    obtain ⟨hnonempty, hsize, hslots⟩ := hspans r hr
    refine ⟨hnonempty, hcuts _ (by omega), hcuts _ hsize, hslots, ?_, ?_, ?_, ?_⟩
    · intro s hs
      have := hslots s hs
      exact ⟨hcuts _ (by omega), hcuts _ (by omega)⟩
    · exact (by decide : ∀ r ∈ nestedRefills, r.slots.Pairwise fun a b => a.stop ≤ b.start) r hr
    · intro s hs
      exact (by decide : ∀ r ∈ nestedRefills, ∀ f ∈ r.fills, f.Own r.slots) r hr (.source s) hs
    · exact (by decide : ∀ r ∈ nestedRefills, r.collapse = false) r hr
  obtain ⟨value, hvalue, -, hrender⟩ := render_replaces_outermost hnested
  have hwhole := (hrender ⟨0, 21⟩ (hcuts 0 (by decide)) (hcuts 21 (by decide)) (by decide)).1
  refine ⟨hnested, value, hvalue, hwhole, ?_⟩
  have heval : render nestedText nestedRefills [] ⟨0, 21⟩ = .ok "    Foo 3, Bar(2, 1, 0)\n" := by
    decide +kernel
  exact Except.ok.inj (hwhole.symm.trans heval)

end Refill

end VbaRefactor
