import VbaRefactor.Proofs.Edit.Substitution

/-!
# Refills that can be queued

A buffer takes edits of ranges that stand one behind the other. The line edits of refills do, so all
of them are queued where the refills can be rendered and their regions end on lines of the module.
-/

namespace VbaRefactor

open List Refill EditBuffer

variable {count line pos : Nat} {text : Text}

/-- Both edits take lines, the first one only lines before those of the second. -/
def Edit.Precedes (e f : Edit) : Prop :=
  ∃ r s, e.range? = some r ∧ f.range? = some s ∧ r.last < s.first

theorem Edit.Within.precedes {a b c d : Nat} {e f : Edit} (he : e.Within a b) (hf : f.Within c d)
    (h : b < c) : e.Precedes f := by
  obtain ⟨r, hr, -, -, hlast⟩ := he
  obtain ⟨s, hs, hfirst, -, -⟩ := hf
  exact ⟨r, s, hr, hs, by omega⟩

namespace Refill

section

variable {groups : List (LineRange × Text)} {out : Text} {refills : List (Refill × Nat)}
  {value : Nat → Refill → Except RefillFault Text}

theorem pairwise_lineEdits {first offset : Nat} {lines : List Text} :
    (lineEdits text first (lines.zipIdx offset)).Pairwise Edit.Precedes := by
  induction lines generalizing offset with
  | nil => simp [lineEdits]
  | cons line rest ih =>
    rw [zipIdx_cons, lineEdits_cons]
    refine pairwise_append.mpr ⟨?_, ih, ?_⟩
    · split
      · exact .nil
      · exact pairwise_singleton _ _
    · intro e he f hf
      split at he
      · cases he
      · obtain rfl := mem_singleton.mp he
        have hhere : (Edit.replace (.single (first + offset)) line).Within (first + offset)
            (first + offset) := ⟨_, rfl, Nat.le_refl _, Nat.le_refl _, Nat.le_refl _⟩
        exact hhere.precedes (within_lineEdits f hf) (by omega)

theorem pairwise_groupEdits {g : LineRange} (hg : g.first ≤ g.last) :
    (groupEdits text g out).Pairwise Edit.Precedes := by
  rcases groupEdits_cases hg with ⟨-, hedits⟩ | ⟨-, hedits⟩ | ⟨line, -, hlt, hedits⟩ | hedits
  · rw [hedits]
    exact .nil
  · rw [hedits]
    exact pairwise_lineEdits
  · rw [hedits]
    refine pairwise_cons.mpr ⟨?_, pairwise_singleton _ _⟩
    exact forall_mem_singleton.mpr ⟨_, _, rfl, rfl, Nat.lt_succ_self _⟩
  · rw [hedits]
    exact pairwise_singleton _ _

/-- The edits of groups stand one behind the other. -/
theorem pairwise_patchEdits (hlaid : Laid count line groups) :
    (patchEdits text groups).Pairwise Edit.Precedes := by
  induction groups generalizing line with
  | nil => exact .nil
  | cons g rest ih =>
    obtain ⟨-, hordered, hrest⟩ := hlaid
    refine pairwise_append.mpr ⟨pairwise_groupEdits hordered, ih hrest, ?_⟩
    intro e he f hf
    exact (within_groupEdits hordered e he).precedes (within_patchEdits hrest f hf)
      (Nat.lt_succ_self _)

theorem Laid.of_last_le {count' : Nat} (h : Laid count line groups) (hline : line ≤ count')
    (hlast : ∀ g ∈ groups, g.1.last ≤ count') : Laid count' line groups := by
  induction groups generalizing line with
  | nil => exact hline
  | cons g rest ih =>
    obtain ⟨hfirst, hordered, hrest⟩ := h
    exact ⟨hfirst, hordered, ih hrest (hlast g mem_cons_self) (forall_mem_cons.mp hlast).2⟩

/-! ## A whole rendering renders all groups -/

theorem value_of_assemble {stop : Nat} (h : assemble text value stop pos refills = .ok out) :
    ∀ p ∈ refills, ∃ here, value p.2 p.1 = .ok here := by
  induction refills generalizing pos out with
  | nil => simp
  | cons q rest ih =>
    rw [assemble] at h
    obtain ⟨before, -, h⟩ := bind_eq_ok_iff.mp h
    obtain ⟨here, hhere, h⟩ := bind_eq_ok_iff.mp h
    obtain ⟨after, hafter, -⟩ := bind_eq_ok_iff.mp h
    exact forall_mem_cons.mpr ⟨⟨here, hhere⟩, ih hafter⟩

theorem assemble_picks {span : Span} (hordered : ∀ p ∈ refills, p.1.region.start ≤ p.1.region.stop)
    (hstop : span.stop ≤ text.byteSize) (hpos : pos ≤ span.stop)
    (hvalue : ∀ p ∈ picks span pos refills, ∃ here, value p.2 p.1 = .ok here) :
    ∃ out, assemble text value span.stop pos (picks span pos refills) = .ok out := by
  induction refills generalizing pos with
  | nil => exact ⟨_, cut_ok hpos hstop⟩
  | cons p rest ih =>
    have hp := hordered p mem_cons_self
    have ih {pos : Nat} (hpos : pos ≤ span.stop) := ih (forall_mem_cons.mp hordered).2 hpos
    rw [picks] at hvalue ⊢
    split
    · rename_i hpick
      rw [if_pos hpick] at hvalue
      simp only [Bool.and_eq_true, decide_eq_true_eq, contains_iff] at hpick
      obtain ⟨here, hhere⟩ := hvalue p mem_cons_self
      obtain ⟨after, hafter⟩ := ih hpick.2.2 (forall_mem_cons.mp hvalue).2
      rw [assemble, cut_ok hpick.1 (by omega), hhere, hafter]
      exact ⟨_, rfl⟩
    · rename_i hpick
      rw [if_neg hpick] at hvalue
      exact ih hpos hvalue

theorem groupsEdits_of_render {refills : List Refill} {ranges : List LineRange}
    (h : ∀ r ∈ ranges, ∃ out, render text refills [] (text.spanOfLines r.first r.last) = .ok out) :
    ∃ edits, groupsEdits text refills ranges = .ok edits := by
  induction ranges with
  | nil => exact ⟨[], rfl⟩
  | cons r rest ih =>
    obtain ⟨out, hout⟩ := h r mem_cons_self
    obtain ⟨more, hmore⟩ := ih (forall_mem_cons.mp h).2
    rw [groupsEdits, hout, hmore]
    exact ⟨_, rfl⟩

/-- Where the whole text can be rendered, the line edits can be made. -/
theorem edits_of_render {ending out : Text} {refills : List Refill}
    (ht : Text.ClosedBy ending text) (he : Text.IsTerminator ending)
    (hsound : ∀ r ∈ refills, r.Sound text)
    (hrender : render text (sorted refills) [] ⟨0, text.byteSize⟩ = .ok out) :
    ∃ edits, Refill.edits text refills = .ok edits := by
  rw [render_top] at hrender
  have hvalue := value_of_assemble hrender
  rw [Refill.edits, lineGroups_sorted hsound]
  apply groupsEdits_of_render
  refine forall_mem_map.mpr fun b hb => ?_
  have hfits := (blocks_apart (sound_of_mem_zipIdx hsound) ⟨0, text.byteSize⟩ 0).1 b hb
  obtain ⟨hstart, hstop⟩ := hfits.isCut_span ht he
  show ∃ out, render text (sorted refills) [] (b.span text) = .ok out
  rw [render_top]
  refine assemble_picks (fun p hp => (sound_of_mem_zipIdx hsound p hp).ordered) hstop.isBoundary.le ?_ ?_
  · obtain ⟨p, hp, -⟩ := hfits.ended
    have hpsound := sound_of_mem_zipIdx hsound p (mem_of_mem_picks (mem_topPicks_of_mem_block hb hp))
    have hin := (contains_iff _ _).mp (hfits.contains ht hp hpsound)
    have hordered := hpsound.ordered
    omega
  · intro p hp
    rw [picks_topBlock ht he hsound hb] at hp
    exact hvalue p (mem_topPicks_of_mem_block hb hp)

end

end Refill

/-! ## Edits one behind the other are queued -/

theorem EditBuffer.judgeAgainst_of_precedes {new : Edit} {r : LineRange} (hr : new.range? = some r)
    (hordered : r.first ≤ r.last) {pending : List Edit} (h : ∀ e ∈ pending, e.Precedes new) :
    judgeAgainst new r pending = .queued := by
  induction pending with
  | nil => rfl
  | cons e rest ih =>
    obtain ⟨s, r', hs, hr', hlt⟩ := h e mem_cons_self
    cases hr.symm.trans hr'
    have ih := ih (forall_mem_cons.mp h).2
    have hne : e ≠ new := by
      rintro rfl
      cases hs.symm.trans hr
      omega
    have hapart : ¬ s.overlaps r = true := by
      rw [LineRange.overlaps_iff]
      omega
    cases e with
    | insert line text => cases hs
    | replace taken text =>
      cases hs
      simp only [judgeAgainst, if_neg hne, if_neg hapart, ih]
    | delete taken =>
      cases hs
      simp only [judgeAgainst, if_neg hne, if_neg hapart, ih]

namespace EditQueue

variable {q : EditQueue} {m : ModuleName}

theorem queueAll_of_precedes {b : EditBuffer} {edits : List Edit} (hq : q.bufferOf? m = some b)
    (hpending : ∀ e ∈ b.edits, ∀ f ∈ edits, e.Precedes f)
    (hpairwise : edits.Pairwise Edit.Precedes)
    (hwithin : ∀ e ∈ edits, e.Within 1 b.module.lines.length) : (q.queueAll m edits).2 = none := by
  induction edits generalizing q b with
  | nil => rfl
  | cons e rest ih =>
    obtain ⟨hahead, hpairwise⟩ := pairwise_cons.mp hpairwise
    obtain ⟨r, hr, hfirst, hordered, hlast⟩ := hwithin e mem_cons_self
    have hqueued : b.judge e = .queued := by
      rw [judge_of_range b hr, judgeRange, if_neg]
      · exact judgeAgainst_of_precedes hr hordered fun f hf => hpending f hf e mem_cons_self
      · simp only [Bool.or_eq_true, decide_eq_true_eq]
        omega
    have htake : b.take e = { b with edits := b.edits ++ [e] } := by
      rw [EditBuffer.take, hqueued]
    have hnext : (q.queue m e).1.bufferOf? m = some { b with edits := b.edits ++ [e] } := by
      rw [bufferOf?_queue, if_pos (ModuleName.Same.refl m), hq, Option.map_some, htake]
    have hnone : (q.queue m e).2 = none :=
      (queue_snd_eq_none_iff q m e).mpr ⟨b, hq, by rw [accepts, hqueued]⟩
    have hrest := ih hnext (b := { b with edits := b.edits ++ [e] }) ?_ hpairwise
      (forall_mem_cons.mp hwithin).2
    · rw [queueAll]
      cases hqueue : q.queue m e with
      | mk next error =>
        rw [hqueue] at hnone hrest
        cases hnone
        exact hrest
    · intro f hf g hg
      rcases mem_append.mp hf with hf | hf
      · exact hpending f hf g (mem_cons_of_mem _ hg)
      · obtain rfl := mem_singleton.mp hf
        exact hahead g hg

/-- Sound refills that can be rendered and end on lines of the module are queued without an error. -/
theorem refill_eq_none {out : Text} {refills : List Refill}
    (hq : q.bufferOf? m = some ⟨.ofText text, []⟩) (hbreaks : text.Unmixed)
    (hsound : ∀ r ∈ refills, r.Sound text)
    (hlines : ∀ r ∈ refills, text.lineOf r.region.stop ≤ text.lines.length)
    (hrender : render text (sorted refills) [] ⟨0, text.byteSize⟩ = .ok out) :
    (q.refill m text refills).2 = none := by
  have ht : Text.ClosedBy text.lineEnding text := (Text.unmixed_iff text).mp hbreaks
  have he := Text.isTerminator_lineEnding text
  obtain ⟨edits, hedits⟩ := Refill.edits_of_render ht he hsound hrender
  obtain ⟨groups, hlaid, -, hended, rfl, -⟩ := edits_ok ht he hsound hedits
  have hlast : ∀ g ∈ groups, g.1.last ≤ text.lines.length := by
    intro g hg
    obtain ⟨r, hr, hend⟩ := hended g hg
    rw [← hend]
    exact hlines r hr
  rw [refill, hedits]
  refine queueAll_of_precedes hq (by simp) (pairwise_patchEdits hlaid) ?_
  exact within_patchEdits (hlaid.of_last_le (Nat.zero_le _) hlast)

end EditQueue

end VbaRefactor
