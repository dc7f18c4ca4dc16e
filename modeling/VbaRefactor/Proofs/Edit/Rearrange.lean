import VbaRefactor.Proofs.Edit.Inside
import VbaRefactor.Proofs.Edit.Layout

/-!
# Renderings of layouts

The refills that reorder a layout, among any others that stand outside of it, render to the text of
the reordered layout.
-/

namespace VbaRefactor

open List Text Refill

variable {stack : List Nat} {inner : Span → Except RefillFault Text}

namespace Layout

section

variable {t : Text} {pos : Nat} {gaps : List Text} {slots : List Layout} {slot : Nat × Layout}
  {a b : Nat × Layout} {gap : Text} {i : Nat}

/-! ## The places of slots -/

theorem map_snd_placed : ∀ {gaps : List Text} {slots : List Layout} (pos : Nat),
    gaps.length = slots.length → (placed pos gaps slots).map Prod.snd = slots
  | [], [], _, _ => rfl
  | gap :: gaps, l :: slots, pos, h => by
    rw [placed, map_cons, map_snd_placed _ (Nat.succ.inj h)]

theorem mem_of_mem_placed (h : slot ∈ placed pos gaps slots) : slot.2 ∈ slots := by
  fun_induction placed pos gaps slots with
  | case1 pos gap gaps l slots ih =>
    rcases mem_cons.mp h with rfl | h
    · exact mem_cons_self
    · exact mem_cons_of_mem _ (ih h)
  | case2 => simp at h

/-- A slot lies in its list, and the gaps have room beside it. -/
theorem bounds_of_mem_placed (h : slot ∈ placed pos gaps slots) :
    pos ≤ slot.1 ∧ (slotSpan slot).stop ≤ pos + (interleave gaps (texts slots)).byteSize := by
  fun_induction placed pos gaps slots with
  | case1 pos gap gaps l slots ih =>
    rw [texts, interleave, byteSize_append, byteSize_append]
    rcases mem_cons.mp h with rfl | h
    · simp only [slotSpan]
      omega
    · have ih := ih h
      omega
  | case2 => simp at h

theorem byteSize_le_of_mem_slots (hlen : gaps.length = slots.length) {l : Layout} (h : l ∈ slots) :
    byteSize gaps.flatten + l.text.byteSize ≤ (interleave gaps (texts slots)).byteSize := by
  obtain ⟨before, after, rfl⟩ := append_of_mem h
  have hperm : (interleave gaps (texts (before ++ l :: after))).Perm _ :=
    interleave_perm (by rw [texts_eq_map, length_map, hlen])
  rw [byteSize_perm hperm, texts_eq_map, map_append, map_cons, flatten_append,
    flatten_cons, byteSize_append, byteSize_append, byteSize_append]
  omega

theorem hasAt_of_mem_placed (ht : t.HasAt pos (interleave gaps (texts slots)))
    (h : slot ∈ placed pos gaps slots) : t.HasAt slot.1 slot.2.text := by
  fun_induction placed pos gaps slots with
  | case1 pos gap gaps l slots ih =>
    rw [texts, interleave] at ht
    rcases mem_cons.mp h with rfl | h
    · exact ht.left.right
    · refine ih ?_ h
      have hright := ht.right
      rwa [byteSize_append, ← Nat.add_assoc] at hright
  | case2 => simp at h

theorem head_gap (ht : t.HasAt pos (interleave gaps (texts slots))) (hgap : gap ∈ gaps.head?)
    (hsome : slots ≠ []) :
    t.HasAt pos gap ∧ ∀ slot ∈ placed pos gaps slots, pos + gap.byteSize ≤ slot.1 := by
  obtain ⟨l, slots, rfl⟩ := exists_cons_of_ne_nil hsome
  cases gaps with
  | nil => cases hgap
  | cons first gaps =>
    cases hgap
    rw [texts, interleave] at ht
    refine ⟨ht.left.left, ?_⟩
    refine forall_mem_cons.mpr ⟨Nat.le_refl _, fun slot hslot => ?_⟩
    have hbounds := bounds_of_mem_placed hslot
    omega

/-- Of two slots, one stands behind the other. -/
theorem placed_apart (ha : a ∈ placed pos gaps slots) (hb : b ∈ placed pos gaps slots) (hne : a ≠ b) :
    (slotSpan a).stop ≤ b.1 ∨ (slotSpan b).stop ≤ a.1 := by
  fun_induction placed pos gaps slots with
  | case1 pos gap gaps l slots ih =>
    rcases mem_cons.mp ha with rfl | ha
    · rcases mem_cons.mp hb with rfl | hb
      · exact absurd rfl hne
      · exact .inl (bounds_of_mem_placed hb).1
    · rcases mem_cons.mp hb with rfl | hb
      · exact .inr (bounds_of_mem_placed ha).1
      · exact ih ha hb
  | case2 => simp at ha

/-- Between two slots stands their gap. -/
theorem gap_of_placed (ht : t.HasAt pos (interleave gaps (texts slots)))
    (ha : (placed pos gaps slots)[i]? = some a) (hb : (placed pos gaps slots)[i + 1]? = some b)
    (hgap : gaps[i + 1]? = some gap) :
    t.HasAt (slotSpan a).stop gap ∧ b.1 = (slotSpan a).stop + gap.byteSize := by
  fun_induction placed pos gaps slots generalizing i with
  | case1 pos first gaps l slots ih =>
    rw [texts, interleave] at ht
    have hright := ht.right
    rw [byteSize_append, ← Nat.add_assoc] at hright
    cases i with
    | zero =>
      cases gaps with
      | nil => simp [placed] at hb
      | cons gap' gaps =>
        cases slots with
        | nil => simp [placed] at hb
        | cons l' slots =>
          cases ha
          cases hgap
          rw [placed] at hb
          cases hb
          rw [texts, interleave] at hright
          exact ⟨hright.left.left, rfl⟩
    | succ i =>
      exact ih hright ha hb hgap
  | case2 => simp at ha

theorem stop_of_getLast?_placed (hlen : gaps.length = slots.length)
    (h : (placed pos gaps slots).getLast? = some slot) :
    (slotSpan slot).stop = pos + (interleave gaps (texts slots)).byteSize := by
  fun_induction placed pos gaps slots with
  | case1 pos gap gaps l slots ih =>
    rw [texts, interleave, byteSize_append, byteSize_append]
    cases hrest : placed (pos + gap.byteSize + l.text.byteSize) gaps slots with
    | nil =>
      rw [hrest, getLast?_singleton] at h
      cases h
      have hnone := congrArg (List.map Prod.snd) hrest
      rw [map_snd_placed _ (Nat.succ.inj hlen)] at hnone
      rw [hnone, map_nil, texts, interleave_nil_right]
      simp only [slotSpan, byteSize_nil]
      omega
    | cons next rest =>
      rw [hrest, getLast?_cons_cons, ← hrest] at h
      have ih := ih (Nat.succ.inj hlen) h
      omega
  | case2 => simp at h

/-! ## The value of a list -/

theorem append_interleave (gap : Text) (gaps : List Text) {texts : List Text} (h : texts ≠ []) :
    gap ++ interleave ([] :: gaps) texts = interleave (gap :: gaps) texts := by
  obtain ⟨x, texts, rfl⟩ := exists_cons_of_ne_nil h
  rw [interleave, interleave, nil_append, append_assoc]

/-- The contents of slots are the fills with the separators between them. -/
theorem contents_eq_interleave {spans : List Span} {separators : List Text}
    (hseparators : ∀ i x, separators[i]? = some x → separator t spans i = .ok x) {α : Type}
    {items : List α} {fill : α → Fill} {content : α → Text}
    (hitems : ∀ a ∈ items, fillText inner (fill a) = .ok (content a))
    (hlen : i + items.length ≤ separators.length) :
    contents t spans inner i (items.map fill) =
      .ok (interleave (separators.drop i) (items.map content)) := by
  induction items generalizing i with
  | nil => rw [map_nil, map_nil, contents, interleave_nil_right]
  | cons a items ih =>
    rw [length_cons] at hlen
    have hi : i < separators.length := by omega
    have hseparator := hseparators i _ (getElem?_eq_getElem hi)
    have ih := ih (forall_mem_cons.mp hitems).2 (i := i + 1) (by omega)
    rw [map_cons, contents_cons, hseparator, hitems a mem_cons_self, ih,
      drop_eq_getElem_cons hi, map_cons, interleave]
    rfl

section

variable {n : Nat} {ending tail : Text} {order : Permutation} {r : Refill} {refills : List Refill}

theorem Fits.separator (h : Fits n ending gaps slots tail)
    (ht : t.HasAt pos (interleave gaps (texts slots))) {i : Nat} {x : Text}
    (hx : ([] :: gaps.drop 1)[i]? = some x) :
    Refill.separator t ((placed pos gaps slots).map slotSpan) i = .ok x := by
  have hlen : (placed pos gaps slots).length = gaps.length := by
    rw [← length_map Prod.snd, map_snd_placed pos h.paired, h.paired]
  rw [Refill.separator]
  cases i with
  | zero =>
    cases hx
    rfl
  | succ i =>
    rw [getElem?_cons_succ, getElem?_drop, Nat.add_comm] at hx
    have hlt := (List.getElem?_eq_some_iff.mp hx).1
    have hbefore := getElem?_eq_getElem (l := placed pos gaps slots) (i := i) (by omega)
    have hafter := getElem?_eq_getElem (l := placed pos gaps slots) (i := i + 1) (by omega)
    obtain ⟨hgap, hstart⟩ := gap_of_placed ht hbefore hafter hx
    rw [if_neg (Nat.succ_ne_zero i), Nat.add_sub_cancel, getElem?_map, getElem?_map,
      hbefore, hafter]
    simp only [Option.map_some]
    rw [show (slotSpan _).start = _ from hstart]
    exact hgap.cut

theorem map_arrange_slots (order : Permutation) (slots : List (Nat × Layout)) :
    (order.arrange slots).map (fun slot => (slot.2.reorder order).text) =
      texts (order.arrange (reorders order (slots.map Prod.snd))) := by
  rw [← order.arrange_map, texts_eq_map, reorders_eq_map, ← order.arrange_map, map_map, map_map]
  rfl

/-- The value of a list whose slots are arranged, if each slot renders to its reordered text. -/
theorem Fits.value_eq (h : Fits order.size ending gaps slots tail) (ho : order.Valid)
    (hslots : ∀ l ∈ slots, l.Regular order.size ending) (hsome : slots ≠ [])
    (ht : t.HasAt pos (interleave gaps (texts slots)))
    (hhead : ∀ gap ∈ gaps.head?, inner ⟨pos, pos + gap.byteSize⟩ = .ok gap)
    (hinner : ∀ slot ∈ placed pos gaps slots,
      inner (slotSpan slot) = .ok (slot.2.reorder order).text)
    (htail : inner ⟨pos + (interleave gaps (texts slots)).byteSize,
      pos + listSize gaps slots tail⟩ = .ok tail) :
    value t inner (arranged order (listRefill pos gaps slots tail)) =
      .ok (interleave gaps (texts (order.arrange (reorders order slots))) ++ tail) := by
  have hfill : ∀ slot ∈ order.arrange (placed pos gaps slots),
      fillText inner (slotFill slot) = .ok (slot.2.reorder order).text := by
    intro slot hslot
    have hslot := (ho.perm_arrange _).mem_iff.mp hslot
    rw [slotFill]
    split
    · rename_i hnil
      rw [((hslots slot.2 (mem_of_mem_placed hslot)).text_reorder_eq_nil_iff ho).mpr hnil]
      rfl
    · exact hinner slot hslot
  have hlen : (placed pos gaps slots).length = slots.length := by
    rw [← length_map Prod.snd, map_snd_placed pos h.paired]
  have hmiddle : contents t ((placed pos gaps slots).map slotSpan) inner 0
      (order.arrange ((placed pos gaps slots).map slotFill)) = .ok (interleave ([] :: gaps.drop 1)
          ((order.arrange (placed pos gaps slots)).map fun slot => (slot.2.reorder order).text)) := by
    rw [order.arrange_map]
    refine contents_eq_interleave (fun i x => h.separator ht) hfill ?_
    rw [ho.length_arrange, hlen, length_cons, length_drop, h.paired]
    omega
  have htexts : (order.arrange (placed pos gaps slots)).map (fun slot => (slot.2.reorder order).text) =
      texts (order.arrange (reorders order slots)) := by
    rw [map_arrange_slots, map_snd_placed pos h.paired]
  have hsomeTexts : texts (order.arrange (reorders order slots)) ≠ [] := by
    rw [← htexts, ne_eq, map_eq_nil_iff, ← length_eq_zero_iff, ho.length_arrange, hlen,
      length_eq_zero_iff]
    exact hsome
  obtain ⟨l, rest, rfl⟩ := exists_cons_of_ne_nil hsome
  obtain ⟨gap, more, rfl⟩ : ∃ gap more, gaps = gap :: more :=
    exists_cons_of_length_eq_add_one h.paired
  obtain ⟨last, hlast⟩ : ∃ last, (placed pos (gap :: more) (l :: rest)).getLast? = some last :=
    ⟨_, getLast?_eq_some_getLast (cons_ne_nil _ _)⟩
  have hbefore : inner ⟨pos, (slotSpan (pos + gap.byteSize, l)).start⟩ = .ok gap := hhead gap rfl
  have hafter : inner ⟨(slotSpan last).stop, pos + listSize (gap :: more) (l :: rest) tail⟩ = .ok tail := by
    rw [stop_of_getLast?_placed h.paired hlast]
    exact htail
  rw [htexts] at hmiddle
  rw [value]
  simp only [arranged, listRefill, getLast?_map, hlast, Option.map_some, hmiddle]
  rw [placed, map_cons, head?_cons]
  simp only [hbefore]
  simp only [bind, Except.bind, pure, Except.pure, drop_one, tail_cons,
    append_interleave gap more hsomeTexts, hafter]
  rfl

/-! ## Regions of lists -/

theorem Fits.gaps_pos (h : Fits n ending gaps slots tail) (hn : 2 ≤ n) :
    ∃ gap ∈ gaps.head?, gap.byteSize < byteSize gaps.flatten := by
  have hlen := h.paired
  have hwide := h.wide
  match gaps with
  | [] => simp at hlen; omega
  | [gap] => simp at hlen; omega
  | gap :: next :: more =>
    refine ⟨gap, rfl, ?_⟩
    have hnext : next ≠ [] := h.parted next (by simp)
    have hpos : next.byteSize ≠ 0 := fun hzero => hnext (byteSize_eq_zero hzero)
    rw [flatten_cons, flatten_cons, byteSize_append, byteSize_append]
    omega

/-- A list is wider than its first gap and than any of its slots. -/
theorem Fits.size_lt (h : Fits n ending gaps slots tail) (hn : 2 ≤ n) :
    (∀ gap ∈ gaps.head?, gap.byteSize < (interleave gaps (texts slots)).byteSize) ∧
      ∀ l ∈ slots, l.text.byteSize < (interleave gaps (texts slots)).byteSize := by
  obtain ⟨gap, hgap, hlt⟩ := h.gaps_pos hn
  have hslots : ∀ l ∈ slots, l.text.byteSize < (interleave gaps (texts slots)).byteSize := by
    intro l hl
    have hle := byteSize_le_of_mem_slots h.paired hl
    omega
  refine ⟨?_, hslots⟩
  intro gap' hgap'
  cases hgap.symm.trans hgap'
  have hwide := h.wide
  obtain ⟨l, hl⟩ := exists_mem_of_length_pos (l := slots) (by omega)
  have hle := byteSize_le_of_mem_slots h.paired hl
  omega

theorem byteSize_text_list (gaps : List Text) (slots : List Layout) (tail : Text) (rest : Layout) :
    (list gaps slots tail rest).text.byteSize = listSize gaps slots tail + rest.text.byteSize := by
  rw [text, byteSize_append, listSize]

theorem listSize_eq (gaps : List Text) (slots : List Layout) (tail : Text) :
    listSize gaps slots tail = (interleave gaps (texts slots)).byteSize + tail.byteSize := by
  rw [listSize, byteSize_append]

/-- The regions of lists lie in the layout and are not empty. -/
theorem Regular.region_bounds {l : Layout} (h : l.Regular n ending) (hn : 2 ≤ n)
    (hr : r ∈ l.lists pos) :
    pos ≤ r.region.start ∧ r.region.start < r.region.stop ∧
      r.region.stop ≤ pos + l.text.byteSize := by
  induction h generalizing pos with
  | nil => simp [lists] at hr
  | plain _ _ ih =>
    rw [lists] at hr
    have ih := ih hr
    rw [text, byteSize_append]
    omega
  | @list gaps slots tail rest hfits _ _ _ ihslots ihrest =>
    obtain ⟨gap, hgap, -⟩ := hfits.gaps_pos hn
    have hlt := (hfits.size_lt hn).1 gap hgap
    rw [byteSize_text_list, listSize_eq]
    rw [lists, listsIn_eq_flatMap, listSize_eq] at hr
    rcases mem_cons.mp hr with rfl | hr
    · simp only [listRefill, listSize_eq]
      omega
    rcases mem_append.mp hr with hr | hr
    · obtain ⟨slot, hslot, hr⟩ := mem_flatMap.mp hr
      have hbounds := bounds_of_mem_placed hslot
      have ih := ihslots slot.2 (mem_of_mem_placed hslot) hr
      simp only [slotSpan] at hbounds
      omega
    · have ih := ihrest hr
      omega

/-! ## Renderings -/

section

variable {rest : Layout} {r : Refill} (hfits : Fits order.size ending gaps slots tail)
  (hslots : ∀ l ∈ slots, l.Regular order.size ending) (hrest : rest.Regular order.size ending)
  (hn : 2 ≤ order.size)

include hslots hrest hn

/-- A refill of a list is that of the list itself, of a list in one of its slots, or of one behind
it. -/
theorem cases_of_mem_refills (hr : r ∈ (list gaps slots tail rest).refills order pos) :
    r = arranged order (listRefill pos gaps slots tail) ∨
      (∃ slot ∈ placed pos gaps slots, r ∈ slot.2.refills order slot.1 ∧
        slot.1 ≤ r.region.start ∧ r.region.start < r.region.stop ∧
          r.region.stop ≤ (slotSpan slot).stop) ∨
      (r ∈ rest.refills order (pos + listSize gaps slots tail) ∧
        pos + listSize gaps slots tail ≤ r.region.start ∧ r.region.start < r.region.stop) := by
  obtain ⟨old, hold, rfl⟩ := mem_map.mp hr
  rw [lists, listsIn_eq_flatMap] at hold
  rcases mem_cons.mp hold with rfl | hold
  · exact .inl rfl
  · rcases mem_append.mp hold with hold | hold
    · obtain ⟨slot, hslot, hold⟩ := mem_flatMap.mp hold
      have hbounds := (hslots slot.2 (mem_of_mem_placed hslot)).region_bounds hn hold
      exact .inr (.inl ⟨slot, hslot, mem_map_of_mem hold, hbounds.1, hbounds.2⟩)
    · have hbounds := hrest.region_bounds hn hold
      exact .inr (.inr ⟨mem_map_of_mem hold, hbounds.1, hbounds.2.1⟩)

include hfits

/-- A refill inside the span of a slot is one of the slot. -/
theorem mem_refills_of_slot {slot : Nat × Layout} (hslot : slot ∈ placed pos gaps slots)
    (hr : r ∈ (list gaps slots tail rest).refills order pos)
    (hin : (slotSpan slot).contains r.region = true) : r ∈ slot.2.refills order slot.1 := by
  rw [contains_iff] at hin
  have hbounds := bounds_of_mem_placed hslot
  have hsize := listSize_eq gaps slots tail
  rcases cases_of_mem_refills hslots hrest hn hr with rfl | ⟨slot', hslot', hmem, hlies⟩ | ⟨-, hlies⟩
  · have hlt := (hfits.size_lt hn).2 slot.2 (mem_of_mem_placed hslot)
    simp only [arranged, listRefill, slotSpan] at hin hbounds
    omega
  · -- Two slots share no part of the text, so a region that is not empty tells its slot.
    by_cases hsame : slot' = slot
    · exact hsame ▸ hmem
    · have hside := placed_apart hslot' hslot hsame
      simp only [slotSpan] at hside hin hlies
      omega
  · simp only [slotSpan] at hin hbounds
    omega

variable {refills : List Refill} {k : Nat}
  (hinside : Inside refills stack ⟨pos, pos + listSize gaps slots tail + rest.text.byteSize⟩ ((list gaps slots tail rest).refills order pos))
  (hk : refills[k]? = some (arranged order (listRefill pos gaps slots tail))) (hnew : k ∉ stack)

include hinside

/-- The refills behind a list. -/
theorem Fits.inside_rest :
    Inside refills stack
      ⟨pos + listSize gaps slots tail, pos + listSize gaps slots tail + rest.text.byteSize⟩
      (rest.refills order (pos + listSize gaps slots tail)) := by
  obtain ⟨gap, hgap, -⟩ := hfits.gaps_pos hn
  have hpos := (hfits.size_lt hn).1 gap hgap
  have hsize := listSize_eq gaps slots tail
  refine hinside.narrow ?_ ?_ ?_
  · simp only [contains_iff]
    omega
  · refine forall_mem_map.mpr fun old hold => ?_
    rw [Layout.refills, lists]
    exact mem_map_of_mem (mem_cons_of_mem _ (mem_append_right _ hold))
  · intro r hr hin
    simp only [contains_iff] at hin
    rcases cases_of_mem_refills hslots hrest hn hr with rfl | ⟨slot, hslot, -, hlies⟩ | ⟨hmem, -⟩
    · simp only [arranged, listRefill] at hin
      omega
    · have hbounds := bounds_of_mem_placed hslot
      omega
    · exact hmem

include hk hnew

/-- The refills in a slot, while those of its list are being made. -/
theorem Fits.inside_slot {slot : Nat × Layout} (hslot : slot ∈ placed pos gaps slots) :
    Inside refills (k :: stack) (slotSpan slot) (slot.2.refills order slot.1) := by
  have hbounds := bounds_of_mem_placed hslot
  have hlt := (hfits.size_lt hn).2 slot.2 (mem_of_mem_placed hslot)
  have hsize := listSize_eq gaps slots tail
  refine (hinside.narrow ?_ ?_ ?_).push hk hnew ?_
  · simp only [contains_iff, slotSpan] at hbounds ⊢
    omega
  · refine forall_mem_map.mpr fun old hold => ?_
    apply mem_map_of_mem
    rw [lists, listsIn_eq_flatMap]
    exact mem_cons_of_mem _ (mem_append_left _ (mem_flatMap.mpr ⟨slot, hslot, hold⟩))
  · intro r hr hin
    exact mem_refills_of_slot hfits hslots hrest hn hslot hr hin
  · simp only [contains_iff, arranged, listRefill, slotSpan] at hbounds ⊢
    omega

omit hfits in
/-- No refill stands in a gap or a tail of a list. -/
theorem Fits.inside_gap {a b : Nat} (ha : pos ≤ a) (hb : b ≤ pos + listSize gaps slots tail)
    (hproper : b < a + listSize gaps slots tail)
    (hapart : ∀ slot ∈ placed pos gaps slots, b ≤ slot.1 ∨ (slotSpan slot).stop ≤ a) :
    Inside refills (k :: stack) ⟨a, b⟩ [] := by
  refine (hinside.narrow ?_ (by simp) ?_).push hk hnew ?_
  · simp only [contains_iff]
    omega
  · intro r hr hin
    exfalso
    simp only [contains_iff] at hin
    rcases cases_of_mem_refills hslots hrest hn hr with rfl | ⟨slot, hslot, -, hlies⟩ | ⟨-, hlies⟩
    · simp only [arranged, listRefill] at hin
      omega
    · have hside := hapart slot hslot
      omega
    · omega
  · simp only [contains_iff, arranged, listRefill]
    omega

/-- A list renders to its arranged slots where its slots render to their reordered texts. -/
theorem Fits.render_value (ho : order.Valid)
    (ht : t.HasAt pos (interleave gaps (texts slots) ++ tail))
    (hrender : ∀ slot ∈ placed pos gaps slots,
      Inside refills (k :: stack) (slotSpan slot) (slot.2.refills order slot.1) →
        render t refills (k :: stack) (slotSpan slot) = .ok (slot.2.reorder order).text) :
    value t (render t refills (k :: stack)) (arranged order (listRefill pos gaps slots tail)) =
      .ok (interleave gaps (texts (order.arrange (reorders order slots))) ++ tail) := by
  have hsize := listSize_eq gaps slots tail
  obtain ⟨gap, hgap, -⟩ := hfits.gaps_pos hn
  have hpos := (hfits.size_lt hn).1 gap hgap
  have hwide := hfits.wide
  have hsome : slots ≠ [] := ne_nil_of_length_pos (by omega)
  refine hfits.value_eq ho hslots hsome ht.left ?_ ?_ ?_
  · intro gap' hgap'
    cases hgap.symm.trans hgap'
    obtain ⟨hgapAt, hbehind⟩ := head_gap ht.left hgap hsome
    rw [(Fits.inside_gap hslots hrest hn hinside hk hnew (Nat.le_refl pos) (by omega) (by omega)
      ?_).render_eq_cut]
    · exact hgapAt.cut
    · intro slot hslot
      exact .inl (hbehind slot hslot)
  · intro slot hslot
    exact hrender slot hslot (hfits.inside_slot hslots hrest hn hinside hk hnew hslot)
  · rw [(Fits.inside_gap hslots hrest hn hinside hk hnew (Nat.le_add_right _ _) (Nat.le_refl _)
      (by omega) ?_).render_eq_cut]
    · rw [hsize, ← Nat.add_assoc]
      exact ht.right.cut
    · intro slot hslot
      exact .inr (bounds_of_mem_placed hslot).2

end

variable {l : Layout}

/-- The refills that reorder a layout render its text to that of the reordered layout, whatever
refills stand around it. -/
theorem Regular.render_eq (h : l.Regular order.size ending) (ho : order.Valid) (hn : 2 ≤ order.size)
    (hordered : ∀ r ∈ refills, r.region.start ≤ r.region.stop)
    (hsorted : refills.zipIdx.Pairwise fun p q => p.1.Before q.1) (ht : t.HasAt pos l.text)
    (hinside : Inside refills stack ⟨pos, pos + l.text.byteSize⟩ (l.refills order pos)) :
    render t refills stack ⟨pos, pos + l.text.byteSize⟩ = .ok (l.reorder order).text := by
  induction h generalizing pos stack with
  | nil =>
    rw [hinside.render_eq_cut]
    exact ht.cut
  | @plain x rest _ hrest ih =>
    rw [text] at ht hinside ⊢
    rw [byteSize_append, ← Nat.add_assoc] at hinside ⊢
    have hown : ∀ r ∈ rest.refills order (pos + x.byteSize), pos + x.byteSize ≤ r.region.start := by
      exact forall_mem_map.mpr fun old hold => (hrest.region_bounds hn hold).1
    refine hinside.render_plain hordered ht.left hown (ih ht.right ?_)
    refine hinside.narrow ?_ (fun r hr => hr) fun r hr _ => hr
    rw [contains_iff]
    exact ⟨Nat.le_add_right _ _, Nat.le_refl _⟩
  | @list gaps slots tail rest hfits _ hslots hrest ihslots ihrest =>
    rw [text] at ht
    rw [byteSize_text_list, ← Nat.add_assoc] at hinside ⊢
    have hrestAt : t.HasAt (pos + listSize gaps slots tail) rest.text := ht.right
    have hsize := listSize_eq gaps slots tail
    obtain ⟨hheadLt, hslotLt⟩ := hfits.size_lt hn
    obtain ⟨gap, hgap, -⟩ := hfits.gaps_pos hn
    have hpos := hheadLt gap hgap
    have hcases : ∀ r ∈ (Layout.list gaps slots tail rest).refills order pos, _ :=
      fun r hr => cases_of_mem_refills hslots hrest hn hr
    have hself : arranged order (listRefill pos gaps slots tail) ∈
        (Layout.list gaps slots tail rest).refills order pos := by
      rw [Layout.refills, lists]
      exact mem_cons_self
    refine hinside.render_first hordered hsorted (b := pos + listSize gaps slots tail) (by omega)
      (Nat.le_add_right _ _) hrestAt.le hself rfl ?_ ?_ ?_ (ihrest hrestAt ?_)
    · -- No other list has the same region.
      intro r hr hregion
      rcases hcases r hr with heq | ⟨slot, hslot, -, hlies⟩ | ⟨-, hlies⟩
      · exact heq
      · have hlt := hslotLt slot.2 (mem_of_mem_placed hslot)
        simp only [hregion, slotSpan] at hlies
        omega
      · simp only [hregion] at hlies
        omega
    · intro r hr
      rcases hcases r hr with rfl | ⟨slot, hslot, -, hlies⟩ | ⟨-, hlies⟩
      · exact .inl (Nat.le_refl _)
      · have hbounds := bounds_of_mem_placed hslot
        omega
      · exact .inr hlies.1
    · intro k hk hnew
      refine hfits.render_value hslots hrest hn hinside hk hnew ho ht.left ?_
      intro slot hslot
      exact ihslots slot.2 (mem_of_mem_placed hslot) (hasAt_of_mem_placed ht.left.left hslot)
    · exact hfits.inside_rest hslots hrest hn hinside

/-! ## Whole texts -/

theorem closedBy_interleave : ∀ {gaps texts : List Text},
    (∀ gap ∈ gaps, ClosedBy ending gap) → (∀ x ∈ texts, ClosedBy ending x) →
      ClosedBy ending (interleave gaps texts)
  | [], _, _, _ => by simp [interleave, ClosedBy, breaks]
  | _ :: _, [], _, _ => by simp [interleave, ClosedBy, breaks]
  | gap :: gaps, x :: texts, hgaps, htexts => by
    have ih := closedBy_interleave (forall_mem_cons.mp hgaps).2 (forall_mem_cons.mp htexts).2
    rw [interleave]
    exact ((hgaps gap mem_cons_self).append (htexts x mem_cons_self)).append ih

theorem Regular.closedBy (h : l.Regular n ending) : ClosedBy ending l.text := by
  induction h with
  | nil => simp [text, ClosedBy, breaks]
  | plain ht _ ih => exact ht.append ih
  | @list gaps slots tail rest hfits _ _ _ ihslots ihrest =>
    rw [text, texts_eq_map]
    refine ((closedBy_interleave hfits.gapsClosed ?_).append hfits.tailClosed).append ihrest
    exact forall_mem_map.mpr ihslots

theorem closedTo_of_mem_placed (hstart : ClosedTo ending t pos)
    (ht : t.HasAt pos (interleave gaps (texts slots)))
    (hgaps : ∀ gap ∈ gaps, ClosedBy ending gap)
    (hslots : ∀ l ∈ slots, ClosedBy ending l.text) {slot : Nat × Layout}
    (h : slot ∈ placed pos gaps slots) : ClosedTo ending t slot.1 := by
  fun_induction placed pos gaps slots with
  | case1 pos gap gaps l slots ih =>
    rw [texts, interleave] at ht
    have hgap := hstart.add ht.left.left (hgaps gap mem_cons_self)
    rcases mem_cons.mp h with rfl | h
    · exact hgap
    · have hright := ht.right
      rw [byteSize_append, ← Nat.add_assoc] at hright
      exact ih (hgap.add ht.left.right (hslots l mem_cons_self)) hright (forall_mem_cons.mp hgaps).2
        (forall_mem_cons.mp hslots).2 h
  | case2 => simp at h

/-- The refills of a layout begin and end at cuts. -/
theorem Regular.sound (h : l.Regular n ending) (hstart : ClosedTo ending t pos)
    (ht : t.HasAt pos l.text) (hr : r ∈ l.lists pos) : r.Sound t := by
  induction h generalizing pos with
  | nil => simp [lists] at hr
  | plain hclosed _ ih => exact ih (hstart.add ht.left hclosed) ht.right hr
  | @list gaps slots tail rest hfits _ hslots hrest ihslots ihrest =>
    rw [text] at ht
    have hclosed : ∀ l ∈ slots, ClosedBy ending l.text := fun l hl => (hslots l hl).closedBy
    have hlist : ClosedBy ending (interleave gaps (texts slots) ++ tail) := by
      refine (closedBy_interleave hfits.gapsClosed ?_).append hfits.tailClosed
      intro x hx
      rw [texts_eq_map] at hx
      obtain ⟨l, hl, rfl⟩ := mem_map.mp hx
      exact hclosed l hl
    have hend : ClosedTo ending t (pos + listSize gaps slots tail) := hstart.add ht.left hlist
    have hslot : ∀ slot ∈ placed pos gaps slots, ClosedTo ending t slot.1 := fun slot hslot =>
      closedTo_of_mem_placed hstart ht.left.left hfits.gapsClosed hclosed hslot
    have hslotAt : ∀ slot ∈ placed pos gaps slots, t.HasAt slot.1 slot.2.text := fun slot hslot =>
      hasAt_of_mem_placed ht.left.left hslot
    rw [lists, listsIn_eq_flatMap] at hr
    rcases mem_cons.mp hr with rfl | hr
    · refine ⟨Nat.le_add_right _ _, hstart.isCut, hend.isCut, ?_, ?_⟩
      · refine forall_mem_map.mpr fun slot hmem => ?_
        exact ⟨(hslot slot hmem).isCut, ((hslot slot hmem).add (hslotAt slot hmem)
          (hclosed slot.2 (mem_of_mem_placed hmem))).isCut⟩
      · refine forall_mem_map.mpr fun slot hmem => ?_
        rw [slotFill]
        split
        · trivial
        · exact mem_map_of_mem hmem
    · rcases mem_append.mp hr with hr | hr
      · obtain ⟨slot, hmem, hr⟩ := mem_flatMap.mp hr
        exact ihslots slot.2 (mem_of_mem_placed hmem) (hslot slot hmem) (hslotAt slot hmem) hr
      · exact ihrest hend ht.right hr

/-- The lists at the end of a text end on lines that count. -/
theorem Regular.lineOf_le (h : l.Regular n ending) (hn : 2 ≤ n) (ht : t.HasAt pos l.text)
    (hall : t.byteSize = pos + l.text.byteSize) (hsound : ∀ r ∈ l.lists pos, r.Sound t)
    (hr : r ∈ l.lists pos) : t.lineOf r.region.stop ≤ t.lines.length := by
  induction h generalizing pos with
  | nil => simp [lists] at hr
  | plain _ _ ih =>
    rw [text, byteSize_append, ← Nat.add_assoc] at hall
    exact ih ht.right hall hsound hr
  | @list gaps slots tail rest hfits htail hslots hrest ihslots ihrest =>
    have hlist : (listRefill pos gaps slots tail).Sound t := hsound _ (by rw [lists]; simp)
    rw [text] at ht
    rw [byteSize_text_list, ← Nat.add_assoc] at hall
    rw [lists, listsIn_eq_flatMap] at hr hsound
    rcases mem_cons.mp hr with rfl | hr
    · obtain ⟨gap, hgap, -⟩ := hfits.gaps_pos hn
      have hlt := (hfits.size_lt hn).1 gap hgap
      have hsize := listSize_eq gaps slots tail
      refine ht.left.lineOf_le hlist.stopCut ?_ ?_
      · intro hnil
        rw [listSize, hnil, byteSize_nil] at hsize
        omega
      · intro hend
        have hrestNil : rest.text = [] := byteSize_eq_zero (by rw [listSize] at hall; omega)
        exact hfits.endsWithNewline (htail hrestNil)
    · rcases mem_append.mp hr with hr | hr
      · obtain ⟨slot, hmem, hr⟩ := mem_flatMap.mp hr
        have hbounds := (hslots slot.2 (mem_of_mem_placed hmem)).region_bounds hn hr
        have hcut := (hlist.slotCut (slotSpan slot) (mem_map_of_mem hmem)).2
        refine Nat.le_trans (lineOf_mono t hbounds.2.2)
          ((hasAt_of_mem_placed ht.left.left hmem).lineOf_le hcut ?_ ?_)
        · intro hnil
          rw [hnil, byteSize_nil] at hbounds
          omega
        · intro _
          exact hfits.slotsEnd slot.2 (mem_of_mem_placed hmem)
      · exact ihrest ht.right hall
          (fun r hr => hsound r (mem_cons_of_mem _ (mem_append_right _ hr))) hr

theorem sound_arranged (ho : order.Valid) (h : r.Sound t) : (arranged order r).Sound t := by
  refine ⟨h.ordered, h.startCut, h.stopCut, h.slotCut, ?_⟩
  intro fill hfill
  exact h.fillsOwn fill ((ho.perm_arrange r.fills).mem_iff.mp hfill)

/-- The refills that reorder a layout are sound in its text, end on its lines, and make of it the text
of the reordered layout. -/
theorem Regular.render_text (h : l.Regular order.size ending) (ho : order.Valid)
    (hn : 2 ≤ order.size) (hrefills : ∀ r, r ∈ refills ↔ r ∈ l.refills order 0) :
    (∀ r ∈ refills, r.Sound l.text ∧ l.text.lineOf r.region.stop ≤ l.text.lines.length) ∧
      render l.text (sorted refills) [] ⟨0, l.text.byteSize⟩ = .ok (l.reorder order).text := by
  have hsound : ∀ r ∈ l.lists 0, r.Sound l.text := fun r hr =>
    h.sound (closedTo_zero ending l.text) (hasAt_zero l.text) hr
  have hfit : ∀ r ∈ refills,
      r.Sound l.text ∧ l.text.lineOf r.region.stop ≤ l.text.lines.length := by
    intro r hr
    obtain ⟨old, hold, rfl⟩ := mem_map.mp ((hrefills r).mp hr)
    have hline := h.lineOf_le hn (hasAt_zero l.text) (Nat.zero_add _).symm hsound hold
    exact ⟨sound_arranged ho (hsound old hold), hline⟩
  have hsorted := sorted_zipIdx_pairwise refills
  have hordered : ∀ r ∈ sorted refills, r.region.start ≤ r.region.stop :=
    fun r hr => (hfit r (mem_sorted_iff.mp hr)).1.ordered
  have hinside : Inside (sorted refills) [] ⟨0, 0 + l.text.byteSize⟩ (l.refills order 0) := by
    refine ⟨?_, ?_, by simp, .nil⟩
    · intro r hr
      exact mem_sorted_iff.mpr ((hrefills r).mpr hr)
    · intro r hr _
      exact (hrefills r).mp (mem_sorted_iff.mp hr)
  have hrender := h.render_eq ho hn hordered hsorted (hasAt_zero l.text) hinside
  rw [Nat.zero_add] at hrender
  exact ⟨hfit, hrender⟩

end

end

end Layout

end VbaRefactor
