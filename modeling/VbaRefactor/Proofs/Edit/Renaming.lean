import VbaRefactor.Proofs.Edit.Parts
import VbaRefactor.Proofs.Edit.Replacing

/-!
# Words that are replaced, line by line

Refills that replace words by others are changes of the lines on which the words stand. Each line with
such words is a part of its own, and its edits make the changes of all its words.
-/

namespace VbaRefactor

open List Text

namespace Refill

/-- The text that a refill puts in the place of its region. -/
def literal (r : Refill) : Text :=
  match r.fills with
  | [.literal new] => new
  | _ => []

theorem literal_replacing (span : Span) (new : Text) : (replacing span new).literal = new := rfl

/-! ## Lines with words -/

section

variable {text : Text} {refills : List (Refill × Nat)} {stop pos : Nat}

/-- Words on one line each make blocks of one line each. -/
theorem blocks_single
    (h : ∀ p ∈ refills, text.lineOf p.1.region.start = text.lineOf p.1.region.stop) :
    ∀ b ∈ blocks text refills, b.range.first = b.range.last := by
  have hfold (blocks : List Block) (hblocks : ∀ b ∈ blocks, b.range.first = b.range.last) :
      ∀ b ∈ refills.foldl (addTo text) blocks, b.range.first = b.range.last := by
    induction refills generalizing blocks with
    | nil => exact hblocks
    | cons p refills ih =>
      obtain ⟨hp, hrest⟩ := forall_mem_cons.mp h
      refine ih hrest _ ?_
      cases blocks with
      | nil => exact forall_mem_singleton.mpr hp
      | cons last before =>
        obtain ⟨hlast, hbefore⟩ := forall_mem_cons.mp hblocks
        rw [addTo]
        split
        · rename_i hoverlaps
          rw [LineRange.overlaps_iff, regionLines] at hoverlaps
          refine forall_mem_cons.mpr ⟨?_, hbefore⟩
          simp only [regionLines] at hoverlaps ⊢
          omega
        · exact forall_mem_cons.mpr ⟨hp, hblocks⟩
  intro b hb
  exact hfold [] (forall_mem_nil _) b (mem_reverse.mp hb)

/-- What is assembled is the text with the values in place of the regions. -/
theorem assemble_eq_patchedTo {value : Nat → Refill → Except RefillFault Text}
    {members : List (Refill × Nat)} (hvalue : ∀ p ∈ members, value p.2 p.1 = .ok p.1.literal)
    {out : Text} (h : assemble text value stop pos members = .ok out) :
    out = patchedTo text stop pos (members.map fun p => (p.1.region, p.1.literal)) := by
  induction members generalizing pos out with
  | nil =>
    rw [assemble, cut] at h
    split at h
    · cases h
      rfl
    · cases h
  | cons p members ih =>
    obtain ⟨hp, hrest⟩ := forall_mem_cons.mp hvalue
    rw [assemble] at h
    obtain ⟨before, hbefore, h⟩ := bind_eq_ok_iff.mp h
    obtain ⟨here, hhere, h⟩ := bind_eq_ok_iff.mp h
    obtain ⟨after, hafter, h⟩ := bind_eq_ok_iff.mp h
    cases h
    rw [hp] at hhere
    cases hhere
    rw [cut] at hbefore
    split at hbefore
    · cases hbefore
      rw [ih hrest hafter, map_cons, patchedTo, append_assoc]
    · cases hbefore

/-- The words that a rendering picks stand in order. -/
theorem chain_picks {span : Span} {pos : Nat} (h : ∀ p ∈ refills, p.1.Sound text)
    (hpos : text.IsBoundary pos) (hstop : text.IsBoundary span.stop) (hle : pos ≤ span.stop) :
    Chain text span.stop pos ((picks span pos refills).map fun p => (p.1.region, p.1.literal)) := by
  induction refills generalizing pos with
  | nil => exact ⟨hpos, hstop, hle⟩
  | cons p refills ih =>
    obtain ⟨hp, hrest⟩ := forall_mem_cons.mp h
    rw [picks]
    split
    · rename_i hpick
      simp only [Bool.and_eq_true, decide_eq_true_eq, contains_iff] at hpick
      exact ⟨hpos, hpick.1, hp.startCut.isBoundary, hp.ordered,
        ih hrest hp.stopCut.isBoundary hpick.2.2⟩
    · exact ih hrest hpos hle

theorem closedBy_patchedTo {ending : Text} (ht : ClosedBy ending text)
    {changes : List (Span × Text)} (hchain : Chain text stop pos changes) (hpos : text.IsCut pos)
    (hstop : text.IsCut stop)
    (hchanges : ∀ c ∈ changes, text.IsCut c.1.start ∧ text.IsCut c.1.stop ∧ ClosedBy ending c.2) :
    ClosedBy ending (patchedTo text stop pos changes) := by
  induction changes generalizing pos with
  | nil => exact ht.slice hpos hstop hchain.2.2
  | cons c changes ih =>
    obtain ⟨⟨hstart, hend, hout⟩, hrest⟩ := forall_mem_cons.mp hchanges
    exact (ht.slice hpos hstart hchain.2.1).append (hout.append (ih hchain.2.2.2.2 hend hrest))

end

/-! ## A part for each line -/

section

variable {α : Type} {view : α → Span × Text} {text : Text} {refills : List Refill}

/-- The lines of a block with the changes of its refills. -/
def blockPart (text : Text) (change : Refill → α) (d : Block × Text) : EditPart α :=
  ⟨d.1.range, d.1.members.map fun p => change p.1, groupEdits text d.1.range d.2⟩

theorem editsOf_blockPart (change : Refill → α) (done : List (Block × Text)) :
    editsOf (done.map (blockPart text change)) =
      patchEdits text (done.map fun d => (d.1.range, d.2)) := by
  rw [editsOf, flatMap_map, patchEdits, flatMap_map]
  rfl

section

variable {change : Refill → α} (ht : ClosedBy text.lineEnding text)
  (hsound : ∀ r ∈ refills, r.Sound text) (hreplaces : ∀ r ∈ refills, r.Replaces text)
  (hplain : ∀ r ∈ refills, Plain r.literal)

include ht hsound hreplaces hplain

/-- A block of which the refills are put in place is a part that makes their changes. -/
theorem makes_blockPart (hview : ∀ r ∈ refills, view (change r) = (r.region, r.literal))
    {d : Block × Text} (hd : d.1 ∈ blocks text (topPicks text refills))
    (hrender : render text (sorted refills) [] (d.1.span text) = .ok d.2) :
    (blockPart text change d).Makes view text := by
  have he := isTerminator_lineEnding text
  have hfits := (blocks_apart (sound_of_mem_zipIdx hsound) ⟨0, text.byteSize⟩ 0).1 d.1 hd
  obtain ⟨hfirst, hordered, hlast⟩ := hfits.bounded
  obtain ⟨hstart, hstop⟩ := hfits.isCut_span ht he
  have hle := ht.lineStart_mono (show d.1.range.first - 1 ≤ d.1.range.last - 1 by omega) (by omega)
  have hend := lineStart_le_lineEnd text (show d.1.range.last - 1 + 1 ≤ _ by omega)
  rw [Nat.sub_add_cancel (by omega)] at hle hend
  rw [Nat.sub_add_cancel (by omega)] at hle
  have hmember : ∀ p ∈ d.1.members, p ∈ (sorted refills).zipIdx :=
    fun p hp => mem_of_mem_picks (mem_topPicks_of_mem_block hd hp)
  have hmem : ∀ p ∈ d.1.members, p.1 ∈ refills :=
    fun p hp => mem_sorted_iff.mp (mem_of_mem_zipIdx (hmember p hp))
  have hchanges : (blockPart text change d).changes.map view =
      d.1.members.map fun p => (p.1.region, p.1.literal) := by
    rw [blockPart, map_map]
    exact map_congr_left fun p hp => hview p.1 (hmem p hp)
  have hpicks := picks_topBlock ht he hsound hd
  have hchain : Chain text (d.1.span text).stop (d.1.span text).start
      (d.1.members.map fun p => (p.1.region, p.1.literal)) := by
    rw [← hpicks]
    exact chain_picks (sound_of_mem_zipIdx hsound) hstart.isBoundary hstop.isBoundary
      (Nat.le_trans hle hend)
  have hvalue : ∀ p ∈ d.1.members, valueAt text (sorted refills) [] p.2 p.1 = .ok p.1.literal := by
    intro p hp
    obtain ⟨new, hnew, hvalue⟩ := valueAt_replacing
      (fun r hr => hreplaces r (mem_sorted_iff.mp hr)) (hmember p hp)
    rw [hvalue, hnew, literal_replacing]
  have hout : (blockPart text change d).out view text = d.2 := by
    rw [render_top, hpicks] at hrender
    rw [EditPart.out, hchanges]
    exact (assemble_eq_patchedTo hvalue hrender).symm
  have hclosed : ClosedBy text.lineEnding ((blockPart text change d).out view text) := by
    rw [EditPart.out, hchanges]
    refine closedBy_patchedTo ht hchain hstart hstop ?_
    refine forall_mem_map.mpr fun p hp => ?_
    have hr := hsound p.1 (hmem p hp)
    exact ⟨hr.startCut, hr.stopCut, closedBy_of_plain (hplain p.1 (hmem p hp))⟩
  refine ⟨hfirst, hordered, hlast, by rw [hchanges]; exact hchain, hclosed, ?_, ?_⟩
  · intro e hedit line hline
    exact (within_groupEdits hordered e hedit).silent hline
  · intro m hm
    rw [hout] at hclosed ⊢
    exact placesFrom_groupEdits ht he hm hfirst hordered hlast hclosed.crClosed

/-- The edits that put words in place of others are those of parts, one for each line. -/
theorem exists_wordParts
    (hline : ∀ r ∈ refills, text.lineOf r.region.start = text.lineOf r.region.stop)
    (hview : ∀ r ∈ refills, view (change r) = (r.region, r.literal)) {edits : List Edit}
    (h : Refill.edits text refills = .ok edits) :
    ∃ parts, Made view text parts ∧ editsOf parts = edits ∧
      (∀ e ∈ edits, e.range?.isSome = true) ∧ (∀ c ∈ changesOf parts, ∃ r ∈ refills, c = change r) ∧
      ∀ part ∈ parts, ∃ r ∈ refills, part.range = .single (text.lineOf r.region.start) := by
  rw [Refill.edits, lineGroups_sorted hsound] at h
  obtain ⟨done, hblocks, hedits, hrendered⟩ := groupsEdits_ok h
  have hmem : ∀ d ∈ done, d.1 ∈ blocks text (topPicks text refills) :=
    fun d hd => hblocks ▸ mem_map_of_mem hd
  obtain ⟨hfits, hapart⟩ := blocks_apart (sound_of_mem_zipIdx hsound) ⟨0, text.byteSize⟩ 0
  rw [show blocks text (picks _ _ _) = _ from hblocks.symm, pairwise_map] at hapart
  have hmember {d : Block × Text} (hd : d ∈ done) {p : Refill × Nat} (hp : p ∈ d.1.members) :
      p.1 ∈ refills :=
    mem_sorted_iff.mp (mem_of_mem_zipIdx (mem_of_mem_picks (mem_topPicks_of_mem_block (hmem d hd) hp)))
  have heditsOf : editsOf (done.map (blockPart text change)) = edits := by
    rw [editsOf_blockPart, hedits]
  refine ⟨done.map (blockPart text change), ⟨?_, pairwise_map.mpr hapart⟩, heditsOf, ?_, ?_, ?_⟩
  · refine forall_mem_map.mpr fun d hd => ?_
    exact makes_blockPart ht hsound hreplaces hplain hview (hmem d hd) (hrendered d hd)
  · rw [← heditsOf]
    intro e he
    obtain ⟨part, hpart, he⟩ := mem_flatMap.mp he
    obtain ⟨d, hd, rfl⟩ := mem_map.mp hpart
    obtain ⟨range, hrange, -⟩ := within_groupEdits (hfits d.1 (hmem d hd)).bounded.2.1 e he
    rw [hrange]
    rfl
  · intro c hc
    obtain ⟨part, hpart, hc⟩ := mem_flatMap.mp hc
    obtain ⟨d, hd, rfl⟩ := mem_map.mp hpart
    obtain ⟨p, hp, rfl⟩ := mem_map.mp hc
    exact ⟨p.1, hmember hd hp, rfl⟩
  · refine forall_mem_map.mpr fun d hd => ?_
    have hfit := hfits d.1 (hmem d hd)
    obtain ⟨p, hp, hstop⟩ := hfit.ended
    have hsingle : d.1.range.first = d.1.range.last := by
      refine blocks_single ?_ d.1 (hmem d hd)
      intro q hq
      exact hline q.1 (mem_sorted_iff.mp (mem_of_mem_zipIdx (mem_of_mem_picks hq)))
    have hstart := hline p.1 (hmember hd hp)
    refine ⟨p.1, hmember hd hp, ?_⟩
    rw [hstart, hstop]
    exact congrArg (LineRange.mk · d.1.range.last) hsingle

end

end

end Refill

end VbaRefactor
