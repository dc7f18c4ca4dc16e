import VbaRefactor.Proofs.Edit.Weave
import VbaRefactor.Proofs.Permutation
import VbaRefactor.Proofs.Text.Position

/-!
# Layouts of texts with lists

A layout is a text in which lists are marked: each has slots, in which lists can stand again, a gap
before every slot, and a tail. Reordering a layout arranges the slots of all its lists and keeps the
gaps. Reordering by an order and then by its inverse gives the layout back.
-/

namespace VbaRefactor

open List Text

variable {n : Nat} {ending : Text}

/-- A text with its lists marked. -/
inductive Layout where
  | nil
  | plain (text : Text) (rest : Layout)
  /-- A list with a gap before each slot; the first gap and the tail are its two ends. -/
  | list (gaps : List Text) (slots : List Layout) (tail : Text) (rest : Layout)

namespace Layout

/-- Gaps and texts in turn. -/
def interleave : List Text → List Text → Text
  | gap :: gaps, text :: texts => gap ++ text ++ interleave gaps texts
  | _, _ => []

theorem interleave_nil_right (gaps : List Text) : interleave gaps [] = [] := by
  cases gaps <;> rfl

mutual

/-- The text without the marks. -/
def text : Layout → Text
  | .nil => []
  | .plain t rest => t ++ rest.text
  | .list gaps slots tail rest => interleave gaps (texts slots) ++ tail ++ rest.text

def texts : List Layout → List Text
  | [] => []
  | l :: rest => l.text :: texts rest

end

mutual

/-- The layout with the slots of every list arranged. -/
def reorder (order : Permutation) : Layout → Layout
  | .nil => .nil
  | .plain t rest => .plain t (rest.reorder order)
  | .list gaps slots tail rest =>
    .list gaps (order.arrange (reorders order slots)) tail (rest.reorder order)

/-- The slots, each reordered by itself. -/
def reorders (order : Permutation) : List Layout → List Layout
  | [] => []
  | l :: rest => l.reorder order :: reorders order rest

end

theorem texts_eq_map (slots : List Layout) : texts slots = slots.map text := by
  induction slots with
  | nil => rfl
  | cons l rest ih => rw [texts, ih, map_cons]

theorem reorders_eq_map (order : Permutation) (slots : List Layout) :
    reorders order slots = slots.map (reorder order) := by
  induction slots with
  | nil => rfl
  | cons l rest ih => rw [reorders, ih, map_cons]

/-! ## Where the lists stand -/

/-- The slots with the positions at which they start, for a list at `pos`. -/
def placed (pos : Nat) : List Text → List Layout → List (Nat × Layout)
  | gap :: gaps, l :: slots =>
    (pos + gap.byteSize, l) :: placed (pos + gap.byteSize + l.text.byteSize) gaps slots
  | _, _ => []

/-- The span of a slot at its position. -/
def slotSpan (slot : Nat × Layout) : Span := ⟨slot.1, slot.1 + slot.2.text.byteSize⟩

/-- The fill that keeps a slot as it is. -/
def slotFill (slot : Nat × Layout) : Fill :=
  if slot.2.text = [] then .empty else .source (slotSpan slot)

def listSize (gaps : List Text) (slots : List Layout) (tail : Text) : Nat :=
  (interleave gaps (texts slots) ++ tail).byteSize

/-- The refill that fills the slots of a list at `pos` as they are. -/
def listRefill (pos : Nat) (gaps : List Text) (slots : List Layout) (tail : Text) : Refill where
  region := ⟨pos, pos + listSize gaps slots tail⟩
  slots := (placed pos gaps slots).map slotSpan
  fills := (placed pos gaps slots).map slotFill
  collapse := false

mutual

/-- The refills of all lists of a layout at `pos`, an outer list before those in its slots. -/
def lists (pos : Nat) : Layout → List Refill
  | .nil => []
  | .plain t rest => rest.lists (pos + t.byteSize)
  | .list gaps slots tail rest =>
    listRefill pos gaps slots tail ::
      (listsIn pos gaps slots ++ rest.lists (pos + listSize gaps slots tail))

/-- The refills of the lists in slots. -/
def listsIn (pos : Nat) : List Text → List Layout → List Refill
  | gap :: gaps, l :: slots =>
    l.lists (pos + gap.byteSize) ++ listsIn (pos + gap.byteSize + l.text.byteSize) gaps slots
  | _, _ => []

end

/-- The refill with its fills arranged. -/
def arranged (order : Permutation) (r : Refill) : Refill := { r with fills := order.arrange r.fills }

/-- The refills that reorder a layout at `pos`. -/
def refills (order : Permutation) (pos : Nat) (l : Layout) : List Refill :=
  (l.lists pos).map (arranged order)

theorem listsIn_eq_flatMap (pos : Nat) (gaps : List Text) (slots : List Layout) :
    listsIn pos gaps slots = (placed pos gaps slots).flatMap fun slot => slot.2.lists slot.1 := by
  induction slots generalizing pos gaps with
  | nil =>
    cases gaps with
    | nil => rfl
    | cons gap gaps => rfl
  | cons l slots ih =>
    cases gaps with
    | nil => rfl
    | cons gap gaps => rw [listsIn, placed, ih, flatMap_cons]

theorem reorder_eq_self (order : Permutation) : ∀ (l : Layout) {pos : Nat}, l.lists pos = [] →
    l.reorder order = l
  | .nil, _, _ => rfl
  | .plain t rest, _, h => by rw [reorder, reorder_eq_self order rest h]
  | .list .., _, h => by simp [lists] at h

mutual

theorem reorder_identity (n : Nat) : ∀ l : Layout, l.reorder (.identity n) = l
  | .nil => rfl
  | .plain t rest => by rw [reorder, reorder_identity n rest]
  | .list gaps slots tail rest => by
    rw [reorder, reorders_identity n slots, reorder_identity n rest, Permutation.arrange_identity]

theorem reorders_identity (n : Nat) : ∀ slots : List Layout, reorders (.identity n) slots = slots
  | [] => rfl
  | l :: rest => by rw [reorders, reorder_identity n l, reorders_identity n rest]

end

/-! ## Regular layouts -/

/-- The slots of a list are as many as its gaps and at least `n`, the first `n` and the last are not
empty, gaps part the slots, and no slot ends with a line break. -/
structure Fits (n : Nat) (ending : Text) (gaps : List Text) (slots : List Layout) (tail : Text) :
    Prop where
  paired : gaps.length = slots.length
  wide : n ≤ slots.length
  parted : ∀ gap ∈ gaps.drop 1, gap ≠ []
  gapsClosed : ∀ gap ∈ gaps, Text.ClosedBy ending gap
  tailClosed : Text.ClosedBy ending tail
  given : ∀ l ∈ slots.take n, l.text ≠ []
  lastGiven : ∀ l ∈ slots.getLast?, l.text ≠ []
  slotsEnd : ∀ l ∈ slots, l.text.endsWithNewline = false

instance (n : Nat) (ending : Text) (gaps : List Text) (slots : List Layout) (tail : Text) :
    Decidable (Fits n ending gaps slots tail) :=
  decidable_of_iff (_ ∧ _ ∧ _ ∧ _ ∧ _ ∧ _ ∧ _ ∧ _)
    ⟨fun ⟨hp, hw, ha, hg, ht, hs, hl, he⟩ => ⟨hp, hw, ha, hg, ht, hs, hl, he⟩,
      fun ⟨hp, hw, ha, hg, ht, hs, hl, he⟩ => ⟨hp, hw, ha, hg, ht, hs, hl, he⟩⟩

/-- All lists of a layout can be reordered by an order of `n` places, every piece between the marks has
breaks by `ending` only, and no list at the end of the text has a line break for its own end. -/
inductive Regular (n : Nat) (ending : Text) : Layout → Prop
  | nil : Regular n ending .nil
  | plain {t : Text} {rest : Layout} :
    Text.ClosedBy ending t → Regular n ending rest → Regular n ending (.plain t rest)
  | list {gaps : List Text} {slots : List Layout} {tail : Text} {rest : Layout} :
    Fits n ending gaps slots tail → (rest.text = [] → tail.endsWithNewline = false) →
      (∀ l ∈ slots, Regular n ending l) → Regular n ending rest →
        Regular n ending (.list gaps slots tail rest)

mutual

/-- Whether a layout is regular. -/
def isRegular (n : Nat) (ending : Text) : Layout → Bool
  | .nil => true
  | .plain t rest => decide (Text.ClosedBy ending t) && rest.isRegular n ending
  | .list gaps slots tail rest =>
    decide (Fits n ending gaps slots tail) && decide (rest.text = [] → tail.endsWithNewline = false)
      && areRegular n ending slots && rest.isRegular n ending

/-- Whether slots are regular. -/
def areRegular (n : Nat) (ending : Text) : List Layout → Bool
  | [] => true
  | l :: rest => l.isRegular n ending && areRegular n ending rest

end

mutual

theorem regular_of_isRegular : ∀ {l : Layout}, l.isRegular n ending = true → l.Regular n ending
  | .nil, _ => .nil
  | .plain t rest, h => by
    simp only [isRegular, Bool.and_eq_true, decide_eq_true_eq] at h
    exact .plain h.1 (regular_of_isRegular h.2)
  | .list gaps slots tail rest, h => by
    simp only [isRegular, Bool.and_eq_true, decide_eq_true_eq] at h
    exact .list h.1.1.1 h.1.1.2 (regular_of_areRegular h.1.2) (regular_of_isRegular h.2)

theorem regular_of_areRegular :
    ∀ {slots : List Layout}, areRegular n ending slots = true → ∀ l ∈ slots, l.Regular n ending
  | [], _ => by simp
  | first :: rest, h => by
    simp only [areRegular, Bool.and_eq_true] at h
    have hfirst := regular_of_isRegular h.1
    have hrest := regular_of_areRegular h.2
    exact forall_mem_cons.mpr ⟨hfirst, hrest⟩

end

section

variable {order : Permutation} {l : Layout}

/-! ## Reordered texts have the same characters -/

theorem interleave_perm : ∀ {gaps texts : List Text}, gaps.length = texts.length →
    (interleave gaps texts).Perm (gaps.flatten ++ texts.flatten)
  | [], [], _ => .refl _
  | gap :: gaps, t :: texts, h => by
    have ih := interleave_perm (Nat.succ.inj h)
    calc
      (gap ++ t ++ interleave gaps texts).Perm (gap ++ t ++ (gaps.flatten ++ texts.flatten)) :=
        ih.append_left _
      _ = gap ++ (t ++ (gaps.flatten ++ texts.flatten)) := append_assoc _ _ _
      (gap ++ (t ++ (gaps.flatten ++ texts.flatten))).Perm
          (gap ++ (gaps.flatten ++ (t ++ texts.flatten))) :=
        (perm_append_comm_assoc _ _ _).append_left _
      _ = (gap :: gaps).flatten ++ (t :: texts).flatten := by simp

theorem Regular.text_reorder_perm (h : l.Regular n ending) (ho : order.Valid) :
    (l.reorder order).text.Perm l.text := by
  induction h with
  | nil => exact .refl _
  | plain _ _ ih => exact ih.append_left _
  | @list gaps slots tail rest hfits _ _ _ ihslots ihrest =>
    have hslots : (texts (order.arrange (reorders order slots))).flatten.Perm (texts slots).flatten := by
      rw [texts_eq_map, texts_eq_map, reorders_eq_map]
      calc
        ((order.arrange (slots.map (reorder order))).map text).flatten.Perm
            ((slots.map (reorder order)).map text).flatten :=
          ((ho.perm_arrange _).map text).flatten
        _ = slots.flatMap (text ∘ reorder order) := by rw [map_map, flatMap_def]
        (slots.flatMap (text ∘ reorder order)).Perm (slots.flatMap text) :=
          List.Perm.flatMap_left slots ihslots
        _ = (slots.map text).flatten := flatMap_def
    have hlist : (interleave gaps (texts (order.arrange (reorders order slots)))).Perm
        (interleave gaps (texts slots)) := by
      refine (interleave_perm ?_).trans ((hslots.append_left _).trans (interleave_perm ?_).symm)
      · rw [texts_eq_map, length_map, ho.length_arrange, reorders_eq_map, length_map, hfits.paired]
      · rw [texts_eq_map, length_map, hfits.paired]
    exact (hlist.append_right _).append ihrest

theorem byteSize_perm {a b : Text} (h : a.Perm b) : a.byteSize = b.byteSize := by
  induction h with
  | nil => rfl
  | cons c _ ih => rw [byteSize_cons, byteSize_cons, ih]
  | swap c d t =>
    rw [byteSize_cons, byteSize_cons, byteSize_cons, byteSize_cons]
    omega
  | trans _ _ ih ih' => exact ih.trans ih'

theorem Regular.text_reorder_eq_nil_iff (h : l.Regular n ending) (ho : order.Valid) :
    (l.reorder order).text = [] ↔ l.text = [] := by
  have hperm := h.text_reorder_perm ho
  constructor
  · intro hnil
    exact (hnil ▸ hperm).nil_eq.symm
  · intro hnil
    exact (hnil ▸ hperm).eq_nil

/-! ## Reordered layouts are regular -/

theorem interleave_append : ∀ {gaps texts : List Text}, gaps.length = texts.length →
    ∀ gaps' texts', interleave (gaps ++ gaps') (texts ++ texts') =
      interleave gaps texts ++ interleave gaps' texts'
  | [], [], _, _, _ => rfl
  | gap :: gaps, t :: texts, h, gaps', texts' => by
    have ih := interleave_append (Nat.succ.inj h) gaps' texts'
    rw [cons_append, cons_append, interleave, ih, interleave, ← append_assoc]

theorem Fits.endsWithNewline {gaps : List Text} {slots : List Layout} {tail : Text}
    (h : Fits n ending gaps slots tail) (htail : tail.endsWithNewline = false) :
    (interleave gaps (texts slots) ++ tail).endsWithNewline = false := by
  rw [endsWithNewline_append]
  split
  · rcases eq_nil_or_concat slots with rfl | ⟨before, last, rfl⟩
    · rw [eq_nil_of_length_eq_zero h.paired]
      rfl
    rcases eq_nil_or_concat gaps with rfl | ⟨gaps, gap, rfl⟩
    · have hpaired := h.paired
      simp at hpaired
    have hlen : gaps.length = (before.map text).length := by
      have hpaired := h.paired
      simp only [concat_eq_append, length_append, length_singleton] at hpaired
      rw [length_map]
      omega
    have hlast : last.text ≠ [] := h.lastGiven last (by simp)
    rw [texts_eq_map, concat_eq_append, concat_eq_append, map_append, interleave_append hlen]
    have hends := h.slotsEnd last (by simp)
    simp [interleave, endsWithNewline_append, hlast, hends]
  · exact htail

section

variable {items : List α} {x : α} {α : Type} (ho : order.Valid) (hlen : order.size ≤ items.length)

include ho hlen

theorem mem_take_arrange (h : x ∈ (order.arrange items).take order.size) :
    x ∈ items.take order.size := by
  rw [Permutation.arrange, take_left' (ho.length_apply hlen)] at h
  obtain ⟨old, hold, hget⟩ := mem_filterMap.mp h
  rw [mem_take_iff_getElem]
  obtain ⟨hlt, rfl⟩ := List.getElem?_eq_some_iff.mp hget
  exact ⟨old, by have := ho.lt old hold; omega, rfl⟩

theorem getLast?_arrange (h : x ∈ (order.arrange items).getLast?) :
    x ∈ items.take order.size ∨ x ∈ items.getLast? := by
  by_cases hall : items.length = order.size
  · left
    apply mem_take_arrange ho hlen
    rw [take_of_length_le (by rw [ho.length_arrange]; omega)]
    exact mem_of_getLast? h
  · right
    have hdrop : items.drop order.size ≠ [] := by
      rw [ne_eq, drop_eq_nil_iff]
      omega
    rw [Permutation.arrange, getLast?_append_of_ne_nil _ hdrop, getLast?_drop,
      if_neg (by omega)] at h
    exact h

end

/-- A reordered layout is regular, and its text ends with a line break if the old one does. -/
theorem Regular.reordered (h : l.Regular order.size ending) (ho : order.Valid) :
    (l.reorder order).Regular order.size ending ∧
      (l.reorder order).text.endsWithNewline = l.text.endsWithNewline := by
  induction h with
  | nil => exact ⟨.nil, rfl⟩
  | @plain t rest ht hrest ih =>
    refine ⟨.plain ht ih.1, ?_⟩
    rw [reorder, text, text, endsWithNewline_append, endsWithNewline_append, ih.2]
    simp only [hrest.text_reorder_eq_nil_iff ho]
  | @list gaps slots tail rest hfits htail hslots hrest ihslots ihrest =>
    have hwide : order.size ≤ (slots.map (reorder order)).length := by
      rw [length_map]
      exact hfits.wide
    have hgiven : ∀ l ∈ (slots.map (reorder order)).take order.size, l.text ≠ [] := by
      intro l hl
      rw [← map_take] at hl
      obtain ⟨l, hmem, rfl⟩ := mem_map.mp hl
      exact mt ((hslots l (mem_of_mem_take hmem)).text_reorder_eq_nil_iff ho).mp
        (hfits.given l hmem)
    have hmem : ∀ l ∈ order.arrange (slots.map (reorder order)),
        ∃ old ∈ slots, old.reorder order = l := by
      intro l hl
      exact mem_map.mp ((ho.perm_arrange _).mem_iff.mp hl)
    have hnew : Fits order.size ending gaps (order.arrange (reorders order slots)) tail := by
      rw [reorders_eq_map]
      refine { hfits with paired := ?_, wide := ?_, given := ?_, lastGiven := ?_, slotsEnd := ?_ }
      · rw [ho.length_arrange, length_map, hfits.paired]
      · rw [ho.length_arrange]
        exact hwide
      · intro l hl
        exact hgiven l (mem_take_arrange ho hwide hl)
      · intro l hl
        rcases getLast?_arrange ho hwide hl with hl | hl
        · exact hgiven l hl
        · rw [getLast?_map] at hl
          obtain ⟨old, hold, rfl⟩ := Option.map_eq_some_iff.mp hl
          exact mt ((hslots old (mem_of_getLast? hold)).text_reorder_eq_nil_iff ho).mp
            (hfits.lastGiven old hold)
      · intro l hl
        obtain ⟨old, hold, rfl⟩ := hmem l hl
        rw [(ihslots old hold).2]
        exact hfits.slotsEnd old hold
    have hnil := hrest.text_reorder_eq_nil_iff ho
    refine ⟨.list hnew (fun h => htail (hnil.mp h)) ?_ ihrest.1, ?_⟩
    · intro l hl
      rw [reorders_eq_map] at hl
      obtain ⟨old, hold, rfl⟩ := hmem l hl
      exact (ihslots old hold).1
    · rw [reorder, text, text, endsWithNewline_append, endsWithNewline_append _ rest.text, ihrest.2]
      simp only [hnil]
      split
      · rename_i hend
        rw [hnew.endsWithNewline (htail hend), hfits.endsWithNewline (htail hend)]
      · rfl

/-! ## Back to the old order -/

end

end Layout

end VbaRefactor
