import VbaRefactor.Proofs.Edit.Weave
import VbaRefactor.Proofs.Edit.Splice

/-!
# Groups of lines

Refills whose regions share lines are rendered together. The groups of lines are blocks of the refills
that a rendering of the whole text picks, cut where a region starts below all lines so far. A rendering
of the lines of a block picks the refills of this block, so the rendering of the whole text is that of
the blocks with the text between them.
-/

namespace VbaRefactor

open List Text

variable {pos : Nat} {p : Refill × Nat} {whole : Span} {ending text : Text}

namespace Refill

/-- The lines on which a region starts and ends. -/
def regionLines (text : Text) (r : Refill) : LineRange :=
  ⟨text.lineOf r.region.start, text.lineOf r.region.stop⟩

/-- A group of lines with the refills in it. -/
structure Block where
  range : LineRange
  members : List (Refill × Nat)

/-- Adds a refill to the first block, or as a new one if they share no line. -/
def addTo (text : Text) (blocks : List Block) (p : Refill × Nat) : List Block :=
  match blocks with
  | last :: before =>
    if last.range.overlaps (regionLines text p.1) then
      ⟨⟨last.range.first, max last.range.last (regionLines text p.1).last⟩, last.members ++ [p]⟩ ::
        before
    else ⟨regionLines text p.1, [p]⟩ :: last :: before
  | [] => [⟨regionLines text p.1, [p]⟩]

/-- The blocks of refills in order. -/
def blocks (text : Text) (refills : List (Refill × Nat)) : List Block :=
  (refills.foldl (addTo text) []).reverse

theorem range_addTo (text : Text) (blocks : List Block) (p : Refill × Nat) :
    (addTo text blocks p).map Block.range = match blocks.map Block.range with
      | last :: before =>
        if last.overlaps (regionLines text p.1) then
          ⟨last.first, max last.last (regionLines text p.1).last⟩ :: before
        else regionLines text p.1 :: last :: before
      | [] => [regionLines text p.1] := by
  cases blocks with
  | nil => rfl
  | cons last before =>
    simp only [addTo, map_cons]
    split <;> rfl

variable {refills : List (Refill × Nat)}

/-- The groups of lines are the ranges of the blocks of what is picked. -/
theorem lineGroups_eq_blocks (text : Text) {span : Span}
    (hall : ∀ p ∈ refills, span.contains p.1.region = true) (covered? : Option Nat)
    (blocks : List Block) :
    lineGroups text covered? (blocks.map Block.range) (refills.map Prod.fst) =
      ((picks span (covered?.getD 0) refills).foldl (addTo text) blocks).reverse.map Block.range := by
  induction refills generalizing covered? blocks with
  | nil => simp [lineGroups, picks]
  | cons p rest ih =>
    have ih := ih (forall_mem_cons.mp hall).2
    have hcovered : covered?.any (p.1.region.start < ·) = false ↔
        covered?.getD 0 ≤ p.1.region.start := by
      cases covered? <;> simp
    rw [map_cons, lineGroups.eq_def, picks]
    simp only [hall p mem_cons_self, Bool.and_true]
    by_cases hpick : covered?.getD 0 ≤ p.1.region.start
    · rw [hcovered.mpr hpick, if_neg (by simp), if_pos (by simpa using hpick), foldl_cons]
      have hnext := ih (some p.1.region.stop) (addTo text blocks p)
      rw [range_addTo] at hnext
      exact hnext
    · have hany : covered?.any (p.1.region.start < ·) = true := by
        rw [← Bool.not_eq_false, hcovered]
        exact hpick
      rw [hany, if_pos rfl, if_neg (by simpa using hpick)]
      exact ih covered? blocks

theorem flatMap_members_addTo (text : Text) (blocks : List Block) (p : Refill × Nat) :
    (addTo text blocks p).reverse.flatMap Block.members =
      blocks.reverse.flatMap Block.members ++ [p] := by
  cases blocks with
  | nil => rfl
  | cons last before =>
    rw [addTo]
    split <;> simp

theorem flatMap_members_foldl (text : Text) (refills : List (Refill × Nat)) (blocks : List Block) :
    (refills.foldl (addTo text) blocks).reverse.flatMap Block.members =
      blocks.reverse.flatMap Block.members ++ refills := by
  induction refills generalizing blocks with
  | nil => simp
  | cons p rest ih => rw [foldl_cons, ih, flatMap_members_addTo, append_assoc]; rfl

/-- The blocks hold all refills in their order. -/
theorem flatMap_members_blocks (text : Text) (refills : List (Refill × Nat)) :
    (blocks text refills).flatMap Block.members = refills :=
  flatMap_members_foldl text refills []

/-! ## Blocks are apart -/

/-- The block takes up lines of the text, its refills lie on them, and one of them ends on the last. -/
structure Block.Fits (text : Text) (b : Block) : Prop where
  bounded : 0 < b.range.first ∧ b.range.first ≤ b.range.last ∧ b.range.last ≤ (Text.rows text).length
  inside : ∀ p ∈ b.members, b.range.first ≤ text.lineOf p.1.region.start ∧
    text.lineOf p.1.region.stop ≤ b.range.last
  ended : ∃ p ∈ b.members, text.lineOf p.1.region.stop = b.range.last

/-- Blocks, the last one first, that share no line and start at or before the line of `pos`. -/
structure Stacked (text : Text) (pos : Nat) (blocks : List Block) : Prop where
  fits : ∀ b ∈ blocks, b.Fits text
  reached : ∀ b ∈ blocks, b.range.first ≤ text.lineOf pos
  apart : blocks.Pairwise fun later earlier => earlier.range.last < later.range.first

section

variable {blocks : List Block}

theorem regionLines_bounds (hp : p.1.Sound text) :
    0 < (regionLines text p.1).first ∧ (regionLines text p.1).first ≤ (regionLines text p.1).last ∧
      (regionLines text p.1).last ≤ (rows text).length := by
  have hstart := hp.startCut.on_line
  have hstop := hp.stopCut.on_line
  have hmono := lineOf_mono text hp.ordered
  rw [length_rows]
  simp only [regionLines]
  omega

theorem fits_single (hp : p.1.Sound text) : Block.Fits text ⟨regionLines text p.1, [p]⟩ := by
  refine ⟨regionLines_bounds hp, ?_, p, mem_singleton_self p, rfl⟩
  exact forall_mem_singleton.mpr ⟨Nat.le_refl _, Nat.le_refl _⟩

/-- A refill that starts behind all so far keeps the blocks apart. -/
theorem Stacked.addTo (h : Stacked text pos blocks) (hp : p.1.Sound text)
    (hpos : pos ≤ p.1.region.start) : Stacked text p.1.region.stop (addTo text blocks p) := by
  have hlines := regionLines_bounds hp
  have hstart : text.lineOf pos ≤ (regionLines text p.1).first := lineOf_mono text hpos
  have hreached : ∀ b ∈ blocks, b.range.first ≤ text.lineOf p.1.region.stop := by
    intro b hb
    have hle := h.reached b hb
    show b.range.first ≤ (regionLines text p.1).last
    omega
  cases blocks with
  | nil =>
    refine ⟨?_, ?_, pairwise_singleton _ _⟩
    · exact forall_mem_singleton.mpr (fits_single hp)
    · exact forall_mem_singleton.mpr hlines.2.1
  | cons last before =>
    obtain ⟨hbefore, hapart⟩ := pairwise_cons.mp h.apart
    have hlast := h.reached last mem_cons_self
    have hfits := h.fits last mem_cons_self
    have hbounds := hfits.bounded
    rw [Refill.addTo]
    split
    · refine ⟨?_, ?_, pairwise_cons.mpr ⟨hbefore, hapart⟩⟩
      · intro b hb
        rcases mem_cons.mp hb with rfl | hb
        · refine ⟨by simp only; omega, ?_, ?_⟩
          · intro q hq
            rcases mem_append.mp hq with hq | hq
            · have hin := hfits.inside q hq
              simp only
              omega
            · obtain rfl := mem_singleton.mp hq
              simp only [regionLines] at hstart ⊢
              omega
          · obtain ⟨q, hq, hend⟩ := hfits.ended
            rcases Nat.le_total last.range.last (regionLines text p.1).last with hle | hle
            · exact ⟨p, by simp, (Nat.max_eq_right hle).symm⟩
            · exact ⟨q, mem_append_left _ hq, hend.trans (Nat.max_eq_left hle).symm⟩
        · exact h.fits b (mem_cons_of_mem _ hb)
      · intro b hb
        rcases mem_cons.mp hb with rfl | hb
        · exact hreached last mem_cons_self
        · exact hreached b (mem_cons_of_mem _ hb)
    · rename_i hover
      rw [LineRange.overlaps_iff] at hover
      refine ⟨?_, ?_, pairwise_cons.mpr ⟨?_, h.apart⟩⟩
      · intro b hb
        rcases mem_cons.mp hb with rfl | hb
        · exact fits_single hp
        · exact h.fits b hb
      · intro b hb
        rcases mem_cons.mp hb with rfl | hb
        · exact hlines.2.1
        · exact hreached b hb
      · intro b hb
        show b.range.last < (regionLines text p.1).first
        rcases mem_cons.mp hb with rfl | hb
        · omega
        · have hlt := hbefore b hb
          omega

theorem Stacked.foldl_picks {span : Span} {refills : List (Refill × Nat)}
    (hsound : ∀ p ∈ refills, p.1.Sound text) (h : Stacked text pos blocks) :
    ∃ pos', Stacked text pos' ((picks span pos refills).foldl (Refill.addTo text) blocks) := by
  induction refills generalizing pos blocks with
  | nil => exact ⟨pos, h⟩
  | cons p rest ih =>
    have ih {pos : Nat} {blocks : List Block} (h : Stacked text pos blocks) :=
      ih (forall_mem_cons.mp hsound).2 h
    rw [picks]
    split
    · rename_i hpick
      simp only [Bool.and_eq_true, decide_eq_true_eq] at hpick
      exact ih (h.addTo (hsound p mem_cons_self) hpick.1)
    · exact ih h

end

/-- The blocks of what a rendering picks are apart, in order. -/
theorem blocks_apart (hsound : ∀ p ∈ refills, p.1.Sound text) (span : Span) (pos : Nat) :
    (∀ b ∈ blocks text (picks span pos refills), b.Fits text) ∧
      (blocks text (picks span pos refills)).Pairwise fun b c => b.range.last < c.range.first := by
  have hnil : Stacked text pos [] := ⟨by simp, by simp, List.Pairwise.nil⟩
  obtain ⟨pos', h⟩ : ∃ pos', Stacked text pos' ((picks span pos refills).foldl (addTo text) []) :=
    hnil.foldl_picks hsound
  refine ⟨?_, ?_⟩
  · intro b hb
    exact h.fits b (mem_reverse.mp hb)
  · rw [blocks, pairwise_reverse]
    exact h.apart

/-! ## What a rendering of a block picks -/

theorem contains_iff (s t : Span) : s.contains t = true ↔ s.start ≤ t.start ∧ t.stop ≤ s.stop := by
  simp [Span.contains]

/-- A rendering of a part picks those of the refills that a rendering of the whole picks which lie in
it, if no other of them reaches into it. -/
theorem picks_eq_filter {part : Span} (hwhole : ∀ p ∈ refills, whole.contains p.1.region = true)
    (hordered : ∀ p ∈ refills, p.1.region.start ≤ p.1.region.stop)
    (hsorted : refills.Pairwise fun p q => p.1.region.start ≤ q.1.region.start) (pos pos' : Nat)
    (hclear : ∀ p ∈ picks whole pos refills, part.contains p.1.region = true ∨
      p.1.region.stop < part.start ∨ part.stop < p.1.region.start)
    (hagree : ∀ p ∈ refills, part.contains p.1.region = true →
      (pos' ≤ p.1.region.start ↔ pos ≤ p.1.region.start)) :
    picks part pos' refills = (picks whole pos refills).filter (part.contains ·.1.region) := by
  induction refills generalizing pos pos' with
  | nil => rfl
  | cons p rest ih =>
    obtain ⟨hfirst, hsorted⟩ := pairwise_cons.mp hsorted
    have hagreeRest := fun q hq => hagree q (mem_cons_of_mem p hq)
    have ih := ih (forall_mem_cons.mp hwhole).2 (forall_mem_cons.mp hordered).2 hsorted
    have hpick : (decide (pos ≤ p.1.region.start) && whole.contains p.1.region) =
        decide (pos ≤ p.1.region.start) := by
      rw [hwhole p mem_cons_self, Bool.and_true]
    rw [picks, hpick] at hclear
    rw [picks, picks, hpick]
    by_cases hpart : part.contains p.1.region = true
    · have hp := hagree p mem_cons_self hpart
      by_cases hpos : pos ≤ p.1.region.start
      · rw [if_pos (by simpa using hpos)] at hclear
        rw [if_pos (by simpa [hpart] using hp.mpr hpos), if_pos (by simpa using hpos),
          filter_cons_of_pos (by simpa using hpart),
          ih _ _ (forall_mem_cons.mp hclear).2 fun _ _ _ => Iff.rfl]
      · rw [if_neg (by simpa using hpos)] at hclear
        rw [if_neg (by simpa [hpart] using mt hp.mp hpos), if_neg (by simpa using hpos)]
        exact ih _ _ hclear hagreeRest
    · rw [if_neg (by simp [hpart])]
      by_cases hpos : pos ≤ p.1.region.start
      · rw [if_pos (by simpa using hpos)] at hclear
        rw [if_pos (by simpa using hpos), filter_cons_of_neg (by simpa using hpart)]
        apply ih _ _ (forall_mem_cons.mp hclear).2
        -- The refill that the whole picks lies before the part, or those to come lie behind it.
        intro q hq hqpart
        have hold := hagreeRest q hq hqpart
        have hqordered := hordered q (mem_cons_of_mem _ hq)
        have hpordered := hordered p mem_cons_self
        have hle := hfirst q hq
        rw [contains_iff] at hqpart
        rcases hclear p mem_cons_self with hin | hbefore | hbehind
        · exact absurd hin hpart
        · constructor <;> intro _ <;> omega
        · omega
      · rw [if_neg (by simpa using hpos)] at hclear
        rw [if_neg (by simpa using hpos)]
        exact ih _ _ hclear hagreeRest

def Block.span (text : Text) (b : Block) : Span := text.spanOfLines b.range.first b.range.last

section

variable {b c : Block}

theorem Block.Fits.contains (ht : ClosedBy ending text) (hb : b.Fits text)
    (hp : p ∈ b.members) (hsound : p.1.Sound text) :
    (b.span text).contains p.1.region = true := by
  have hbounds := hb.bounded
  have hin := hb.inside p hp
  have hstart := hsound.startCut.on_line
  have hstop := hsound.stopCut.on_line
  have hmono := lineOf_mono text hsound.ordered
  have hlow := ht.lineStart_mono (show b.range.first - 1 ≤ text.lineOf p.1.region.start - 1 by omega)
    (by omega)
  have hhigh := ht.lineEnd_mono (show text.lineOf p.1.region.stop - 1 ≤ b.range.last - 1 by omega)
    (by omega)
  rw [Nat.sub_add_cancel (by omega), Nat.sub_add_cancel (by omega)] at hlow hhigh
  rw [contains_iff]
  simp only [Block.span, spanOfLines]
  omega

/-- The lines of a block end before those of a later one start. -/
theorem Block.Fits.stop_lt (ht : ClosedBy ending text) (he : IsTerminator ending)
    (hb : b.Fits text) (hc : c.Fits text) (hlt : b.range.last < c.range.first) :
    (b.span text).stop < (c.span text).start := by
  have hbounds := hb.bounded
  have hbounds' := hc.bounded
  have hnext := ht.lineStart_succ (show b.range.last - 1 + 1 < (rows text).length by omega)
  have hmono := ht.lineStart_mono (show b.range.last - 1 + 1 ≤ c.range.first - 1 by omega)
    (by omega)
  rw [Nat.sub_add_cancel (show 1 ≤ c.range.first by omega)] at hmono
  rw [Nat.sub_add_cancel (show 1 ≤ b.range.last by omega)] at hnext hmono
  have hsize : 0 < byteSize ending := by rcases he with rfl | rfl <;> decide
  simp only [Block.span, spanOfLines]
  omega

/-- A rendering of the lines of a block picks the refills of the block. -/
theorem picks_block (ht : ClosedBy ending text) (he : IsTerminator ending)
    {refills : List (Refill × Nat)} (hsound : ∀ p ∈ refills, p.1.Sound text)
    (hwhole : ∀ p ∈ refills, whole.contains p.1.region = true)
    (hsorted : refills.Pairwise fun p q => p.1.region.start ≤ q.1.region.start)
    (hb : b ∈ blocks text (picks whole 0 refills)) :
    picks (b.span text) (b.span text).start refills = b.members := by
  obtain ⟨hfits, hapart⟩ := blocks_apart hsound whole 0
  have hmembers := flatMap_members_blocks text (picks whole 0 refills)
  obtain ⟨before, after, hblocks⟩ := append_of_mem hb
  rw [hblocks] at hfits hapart hmembers
  have hbfits := hfits b (by simp)
  obtain ⟨-, hafter, hbefore⟩ := pairwise_append.mp hapart
  have hmember : ∀ c ∈ before ++ b :: after, ∀ p ∈ c.members, p.1.Sound text := by
    intro c hc p hp
    have hpicked : p ∈ picks whole 0 refills := by
      rw [← hmembers]
      exact mem_flatMap.mpr ⟨c, hc, hp⟩
    exact hsound p (mem_of_mem_picks hpicked)
  have hcontains : ∀ c ∈ before ++ b :: after, ∀ p ∈ c.members,
      (c.span text).contains p.1.region = true :=
    fun c hc p hp => (hfits c hc).contains ht hp (hmember c hc p hp)
  -- Refills of earlier blocks end before the block, those of later ones start behind it.
  have hearlier : ∀ c ∈ before, ∀ p ∈ c.members, p.1.region.stop < (b.span text).start := by
    intro c hc p hp
    have hmem : c ∈ before ++ b :: after := mem_append_left _ hc
    have hlt := (hfits c hmem).stop_lt ht he hbfits (hbefore c hc b mem_cons_self)
    have hin := (contains_iff _ _).mp (hcontains c hmem p hp)
    omega
  have hlater : ∀ c ∈ after, ∀ p ∈ c.members, (b.span text).stop < p.1.region.start := by
    intro c hc p hp
    have hmem : c ∈ before ++ b :: after := by simp [hc]
    have hlt := hbfits.stop_lt ht he (hfits c hmem) ((pairwise_cons.mp hafter).1 c hc)
    have hin := (contains_iff _ _).mp (hcontains c hmem p hp)
    omega
  have hordered : ∀ p ∈ refills, p.1.region.start ≤ p.1.region.stop := fun p hp => (hsound p hp).ordered
  rw [picks_eq_filter hwhole hordered hsorted 0]
  · rw [← hmembers, flatMap_append, flatMap_cons, filter_append, filter_append]
    have hnone : (before.flatMap Block.members).filter ((b.span text).contains ·.1.region) = [] := by
      rw [filter_eq_nil_iff]
      intro p hp
      obtain ⟨c, hc, hp⟩ := mem_flatMap.mp hp
      have hlt := hearlier c hc p hp
      have hle := (hmember c (mem_append_left _ hc) p hp).ordered
      rw [contains_iff]
      omega
    have hnone' : (after.flatMap Block.members).filter ((b.span text).contains ·.1.region) = [] := by
      rw [filter_eq_nil_iff]
      intro p hp
      obtain ⟨c, hc, hp⟩ := mem_flatMap.mp hp
      have hlt := hlater c hc p hp
      have hle := (hmember c (by simp [hc]) p hp).ordered
      rw [contains_iff]
      omega
    have hall : b.members.filter ((b.span text).contains ·.1.region) = b.members := by
      rw [filter_eq_self]
      exact hcontains b (by simp)
    rw [hnone, hnone', hall]
    simp
  · intro p hp
    rw [← hmembers] at hp
    obtain ⟨c, hc, hpc⟩ := mem_flatMap.mp hp
    rcases mem_append.mp hc with hc | hc
    · exact .inr (.inl (hearlier c hc p hpc))
    · rcases mem_cons.mp hc with rfl | hc
      · exact .inl (hcontains _ (by simp) p hpc)
      · exact .inr (.inr (hlater c hc p hpc))
  · intro p _ hin
    have hstart := ((contains_iff _ _).mp hin).1
    exact ⟨fun _ => Nat.zero_le _, fun _ => hstart⟩

end

/-! ## The whole text from its blocks -/

/-- The text from `pos` on with other texts in place of spans. -/
def patched (text : Text) (pos : Nat) : List (Span × Text) → Text
  | [] => text.slice ⟨pos, text.byteSize⟩
  | (span, out) :: rest => text.slice ⟨pos, span.start⟩ ++ (out ++ patched text span.stop rest)

section

theorem Block.Fits.isCut_span {b : Block} (ht : ClosedBy ending text)
    (he : IsTerminator ending) (hb : b.Fits text) :
    text.IsCut (b.span text).start ∧ text.IsCut (b.span text).stop := by
  have hbounds := hb.bounded
  have hstart := ht.isCut_lineStart he (show b.range.first - 1 < (rows text).length by omega)
  have hstop := ht.isCut_lineEnd he (show b.range.last - 1 < (rows text).length by omega)
  rw [Nat.sub_add_cancel (by omega)] at hstart hstop
  exact ⟨hstart, hstop⟩

/-- Values assembled block by block add up to the whole. -/
theorem assemble_blocks (ht : ClosedBy ending text) (he : IsTerminator ending)
    {value : Nat → Refill → Except RefillFault Text} {done : List (Block × Text)}
    (hfits : ∀ d ∈ done, d.1.Fits text)
    (hapart : (done.map Prod.fst).Pairwise fun b c => b.range.last < c.range.first)
    (hsound : ∀ d ∈ done, ∀ p ∈ d.1.members, p.1.Sound text)
    (hdone : ∀ d ∈ done, assemble text value (d.1.span text).stop (d.1.span text).start d.1.members =
      .ok d.2) (hpos : text.IsBoundary pos) (hle : ∀ d ∈ done, pos ≤ (d.1.span text).start) :
    assemble text value text.byteSize pos (done.flatMap (·.1.members)) =
      .ok (patched text pos (done.map fun d => (d.1.span text, d.2))) := by
  induction done generalizing pos with
  | nil => exact cut_ok hpos.le (Nat.le_refl _)
  | cons d rest ih =>
    have hd := hdone d mem_cons_self
    have hdfits := hfits d mem_cons_self
    obtain ⟨hstart, hstop⟩ := hdfits.isCut_span ht he
    obtain ⟨hfirst, hapart⟩ := pairwise_cons.mp hapart
    have hafter : ∀ d' ∈ rest, (d.1.span text).stop ≤ (d'.1.span text).start := by
      intro d' hd'
      exact Nat.le_of_lt (hdfits.stop_lt ht he (hfits d' (mem_cons_of_mem _ hd'))
        (hfirst d'.1 (mem_map_of_mem hd')))
    have hrest := ih (fun d' hd' => hfits d' (mem_cons_of_mem _ hd')) hapart
      (fun d' hd' => hsound d' (mem_cons_of_mem _ hd'))
      (fun d' hd' => hdone d' (mem_cons_of_mem _ hd')) hstop.isBoundary hafter
    have hmemberSound : ∀ p ∈ d.1.members, p.1.Sound text := hsound d mem_cons_self
    have hrestSound : ∀ p ∈ rest.flatMap (·.1.members), p.1.Sound text := by
      intro p hp
      obtain ⟨d', hd', hp⟩ := mem_flatMap.mp hp
      exact hsound d' (mem_cons_of_mem _ hd') p hp
    have hend := isBoundary_byteSize text
    have hhere := assemble_append (fun p hp => (hrestSound p hp).startCut.isBoundary)
      (fun p hp => (hmemberSound p hp).stopCut.isBoundary) hstart.isBoundary hstop.isBoundary
      hstop.isBoundary hend (Nat.le_refl _) hd hrest
    have hposle := hle d mem_cons_self
    have hempty : assemble text value pos pos [] = .ok (text.slice ⟨pos, pos⟩) :=
      cut_ok (Nat.le_refl _) hpos.le
    have hstarts : ∀ p ∈ d.1.members ++ rest.flatMap (·.1.members),
        text.IsBoundary p.1.region.start := by
      intro p hp
      rcases mem_append.mp hp with hp | hp
      · exact (hmemberSound p hp).startCut.isBoundary
      · exact (hrestSound p hp).startCut.isBoundary
    have hall := assemble_append hstarts (by simp) hpos hpos hstart.isBoundary hend hposle hempty hhere
    rw [flatMap_cons]
    rw [nil_append] at hall
    rw [hall, map_cons, patched, slice_self, slice_self]
    rfl

end

end Refill

end VbaRefactor
