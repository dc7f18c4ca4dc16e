import Mathlib
import VbaRefactor.Proofs.Edit.Commit
import VbaRefactor.Proofs.Edit.Patch

/-!
# Refills by line edits

The line edits of refills have the effect of putting what the refills make in place of their regions:
if all of them can be queued, a commit gives the rendering of the whole text with its breaks in the
terminator of the module.
-/

namespace VbaRefactor

open List Text ModuleMap Refill ModuleLines EditBuffer

variable {edits : List Edit} {refills : List Refill}

namespace Refill

/-- The groups of blocks that are apart, with any texts, are laid out. -/
theorem laid_of_apart {text : Text} {done : List (Block × Text)} {line : Nat}
    (hfits : ∀ d ∈ done, d.1.Fits text)
    (hapart : (done.map Prod.fst).Pairwise fun b c => b.range.last < c.range.first)
    (hline : ∀ d ∈ done, line < d.1.range.first) (hle : line ≤ (rows text).length) :
    Laid (rows text).length line (done.map fun d => (d.1.range, d.2)) := by
  induction done generalizing line with
  | nil => exact hle
  | cons d rest ih =>
    obtain ⟨hfirst, hapart⟩ := pairwise_cons.mp hapart
    have hbounds := (hfits d mem_cons_self).bounded
    refine ⟨hline d mem_cons_self, hbounds.2.1, ?_⟩
    exact ih (fun d' hd' => hfits d' (mem_cons_of_mem _ hd')) hapart
      (fun d' hd' => hfirst d'.1 (mem_map_of_mem hd')) hbounds.2.2

/-- The edits of groups are those of what is rendered for each. -/
theorem groupsEdits_ok {text : Text} {blocks : List Block}
    (h : groupsEdits text refills (blocks.map Block.range) = .ok edits) :
    ∃ done : List (Block × Text), done.map Prod.fst = blocks ∧
      edits = patchEdits text (done.map fun d => (d.1.range, d.2)) ∧
      ∀ d ∈ done, render text refills [] (d.1.span text) = .ok d.2 := by
  induction blocks generalizing edits with
  | nil =>
    cases h
    exact ⟨[], rfl, rfl, by simp⟩
  | cons b rest ih =>
    rw [map_cons, groupsEdits] at h
    obtain ⟨out, hout, h⟩ := bind_eq_ok_iff.mp h
    obtain ⟨more, hmore, h⟩ := bind_eq_ok_iff.mp h
    cases h
    obtain ⟨done, hblocks, hedits, hrendered⟩ := ih hmore
    refine ⟨(b, out) :: done, by rw [map_cons, hblocks], by rw [hedits]; rfl, ?_⟩
    exact forall_mem_cons.mpr ⟨hout, hrendered⟩

/-- The refills that a rendering of the whole text picks. -/
def topPicks (text : Text) (refills : List Refill) : List (Refill × Nat) :=
  picks ⟨0, text.byteSize⟩ 0 (sorted refills).zipIdx

section

variable {ending text : Text} {b : Block}

section

variable (hsound : ∀ r ∈ refills, r.Sound text)

include hsound

theorem sound_of_mem_zipIdx : ∀ p ∈ (sorted refills).zipIdx, p.1.Sound text :=
  fun p hp => hsound p.1 (mem_sorted_iff.mp (mem_of_mem_zipIdx hp))

theorem whole_contains :
    ∀ p ∈ (sorted refills).zipIdx, (Span.mk 0 text.byteSize).contains p.1.region = true := by
  intro p hp
  rw [contains_iff]
  exact ⟨Nat.zero_le _, (sound_of_mem_zipIdx hsound p hp).stopCut.isBoundary.le⟩

theorem lineGroups_sorted :
    lineGroups text none [] (sorted refills) =
      (blocks text (topPicks text refills)).map Block.range := by
  have hgroups := lineGroups_eq_blocks text (whole_contains hsound) none []
  rw [zipIdx_map_fst] at hgroups
  exact hgroups

end

theorem render_top (text : Text) (refills : List Refill) (span : Span) :
    render text (sorted refills) [] span = assemble text (valueAt text (sorted refills) [])
      span.stop span.start (picks span span.start (sorted refills).zipIdx) :=
  render_eq_assemble text _ fun _ _ _ => not_mem_nil

theorem picks_topBlock (ht : ClosedBy ending text) (he : IsTerminator ending)
    (hsound : ∀ r ∈ refills, r.Sound text) (hb : b ∈ blocks text (topPicks text refills)) :
    picks (b.span text) (b.span text).start (sorted refills).zipIdx = b.members := by
  refine picks_block ht he (sound_of_mem_zipIdx hsound) (whole_contains hsound) ?_ hb
  refine (sorted_zipIdx_pairwise refills).imp ?_
  intro p q hbefore
  rcases hbefore with hlt | ⟨heq, -⟩
  · exact Nat.le_of_lt hlt
  · exact Nat.le_of_eq heq

theorem mem_topPicks_of_mem_block (hb : b ∈ blocks text (topPicks text refills)) {p : Refill × Nat}
    (hp : p ∈ b.members) : p ∈ topPicks text refills := by
  rw [← flatMap_members_blocks text (topPicks text refills)]
  exact mem_flatMap.mpr ⟨b, hb, hp⟩

/-- The edits of refills come from groups of lines with their renderings, and putting these in place
of the lines is the rendering of the whole text. -/
theorem edits_ok (ht : ClosedBy ending text) (he : IsTerminator ending)
    (hsound : ∀ r ∈ refills, r.Sound text) (h : Refill.edits text refills = .ok edits) :
    ∃ groups, Laid (rows text).length 0 groups ∧ (∀ g ∈ groups, g.2.CrClosed) ∧
      (∀ g ∈ groups, ∃ r ∈ refills, text.lineOf r.region.stop = g.1.last) ∧
      edits = patchEdits text groups ∧
      render text (sorted refills) [] ⟨0, text.byteSize⟩ =
        .ok (patched text 0 (groupSpans text groups)) := by
  rw [Refill.edits, lineGroups_sorted hsound] at h
  obtain ⟨done, hblocks, hedits, hrendered⟩ := groupsEdits_ok h
  have hmem : ∀ d ∈ done, d.1 ∈ blocks text (topPicks text refills) :=
    fun d hd => hblocks ▸ mem_map_of_mem hd
  obtain ⟨hfits, hapart⟩ := blocks_apart (sound_of_mem_zipIdx hsound) ⟨0, text.byteSize⟩ 0
  rw [show blocks text (picks _ _ _) = _ from hblocks.symm] at hapart
  have hdoneFits : ∀ d ∈ done, d.1.Fits text := fun d hd => hfits d.1 (hmem d hd)
  have hpicked : done.flatMap (·.1.members) = topPicks text refills := by
    rw [← flatMap_members_blocks text (topPicks text refills), ← hblocks, flatMap_map]
  have hmembers : ∀ d ∈ done, ∀ p ∈ d.1.members, p.1.Sound text := by
    intro d hd p hp
    exact sound_of_mem_zipIdx hsound p (mem_of_mem_picks (mem_topPicks_of_mem_block (hmem d hd) hp))
  have hassembled : ∀ d ∈ done, assemble text (valueAt text (sorted refills) []) (d.1.span text).stop
      (d.1.span text).start d.1.members = .ok d.2 := by
    intro d hd
    rw [← hrendered d hd, render_top, picks_topBlock ht he hsound (hmem d hd)]
  refine ⟨done.map fun d => (d.1.range, d.2), ?_, ?_, ?_, hedits, ?_⟩
  · exact laid_of_apart hdoneFits hapart (fun d hd => (hdoneFits d hd).bounded.1) (Nat.zero_le _)
  · refine forall_mem_map.mpr fun d hd => ?_
    obtain ⟨hstart, hstop⟩ := (hdoneFits d hd).isCut_span ht he
    exact readsClosed_render ht (fun r hr => hsound r (mem_sorted_iff.mp hr)) [] _ _ _ hstart hstop
      (hrendered d hd)
  · refine forall_mem_map.mpr fun d hd => ?_
    obtain ⟨p, hp, hend⟩ := (hdoneFits d hd).ended
    have hpick := mem_of_mem_picks (mem_topPicks_of_mem_block (hmem d hd) hp)
    exact ⟨p.1, mem_sorted_iff.mp (mem_of_mem_zipIdx hpick), hend⟩
  · rw [render_top, show picks _ _ _ = _ from hpicked.symm,
      assemble_blocks ht he hdoneFits hapart hmembers hassembled
        (isBoundary_zero text) fun _ _ => Nat.zero_le _, groupSpans, map_map]
    rfl

end

end Refill

/-! ## Queueing all edits of a module -/

theorem EditBuffer.within_of_accepts {b : EditBuffer} {e : Edit} {r : LineRange}
    (hr : e.range? = some r) (h : b.accepts e = true) : e.Within 1 b.module.lines.length := by
  rw [accepts, judge_of_range b hr, judgeRange] at h
  by_cases hout : (decide (r.first = 0) || decide (r.last < r.first) ||
      decide (b.module.lines.length < r.last)) = true
  · rw [if_pos hout] at h
    cases h
  · simp only [Bool.or_eq_true, decide_eq_true_eq, not_or] at hout
    exact ⟨r, hr, by omega⟩

namespace EditQueue

variable {q : EditQueue} {m : ModuleName} {P : EditQueue → Prop} {text : Text}

theorem queueAll_cons (q : EditQueue) (m : ModuleName) (e : Edit) (rest : List Edit)
    (h : (q.queueAll m (e :: rest)).2 = none) :
    (q.queue m e).2 = none ∧ q.queueAll m (e :: rest) = (q.queue m e).1.queueAll m rest := by
  rw [queueAll] at h ⊢
  cases hqueue : q.queue m e with
  | mk next error =>
    rw [hqueue] at h
    cases error with
    | none => exact ⟨rfl, rfl⟩
    | some error => cases h

/-- Edits that are all queued without an error are all taken. -/
theorem queueAll_ok (h : (q.queueAll m edits).2 = none) (earlier : List Edit) :
    (q.queueAll m edits).1 = q.run (edits.map (.queue m)) ∧
      q.taken m earlier (edits.map (.queue m)) = earlier ++ edits := by
  induction edits generalizing q earlier with
  | nil => exact ⟨rfl, (append_nil earlier).symm⟩
  | cons e rest ih =>
    obtain ⟨hqueue, hall⟩ := queueAll_cons q m e rest h
    rw [hall] at h ⊢
    obtain ⟨hrun, htaken⟩ := ih h (earlier ++ [e])
    refine ⟨hrun, ?_⟩
    rw [map_cons, taken, if_pos ⟨ModuleName.Same.refl m, hqueue⟩, htaken, append_assoc]
    rfl

theorem within_of_queueAll {b : EditBuffer} (hq : q.bufferOf? m = some b)
    (hranges : ∀ e ∈ edits, e.range?.isSome = true) (h : (q.queueAll m edits).2 = none) :
    ∀ e ∈ edits, e.Within 1 b.module.lines.length := by
  induction edits generalizing q b with
  | nil => simp
  | cons e rest ih =>
    obtain ⟨hqueue, hall⟩ := queueAll_cons q m e rest h
    rw [hall] at h
    obtain ⟨r, hr⟩ := Option.isSome_iff_exists.mp (hranges e mem_cons_self)
    have hnext : (q.queue m e).1.bufferOf? m = some (b.take e) := by
      rw [bufferOf?_queue, if_pos (ModuleName.Same.refl m), hq]
      rfl
    have hrest := ih hnext (forall_mem_cons.mp hranges).2 h
    rw [take_module] at hrest
    intro f hf
    rcases mem_cons.mp hf with rfl | hf
    · obtain ⟨b', hb', haccepts⟩ := (queue_snd_eq_none_iff q m f).mp hqueue
      rw [hq] at hb'
      cases hb'
      exact within_of_accepts hr haccepts
    · exact hrest f hf

/-- What each of the edits keeps is kept by queueing all of them. -/
theorem queueAll_induction (hstep : ∀ q e, P q → P (q.queue m e).1) (h : P q) (edits : List Edit) :
    P (q.queueAll m edits).1 := by
  induction edits generalizing q with
  | nil => exact h
  | cons e rest ih =>
    have hnext := hstep q e h
    rw [queueAll]
    cases hqueue : q.queue m e with
    | mk next error =>
      rw [hqueue] at hnext
      cases error with
      | none => exact ih hnext
      | some error => exact hnext

theorem refill_induction (hstep : ∀ q e, P q → P (q.queue m e).1) (h : P q) (text : Text)
    (refills : List Refill) : P (q.refill m text refills).1 := by
  rw [refill]
  cases edits text refills with
  | error fault => exact h
  | ok edits => exact queueAll_induction hstep h edits

theorem sorted_refill (h : Sorted q.buffers) (m : ModuleName) (text : Text)
    (refills : List Refill) : Sorted (q.refill m text refills).1.buffers :=
  refill_induction (P := fun q => Sorted q.buffers)
    (fun _ e hq => sorted_step hq (.queue m e)) h text refills

/-- Refills of a module leave the buffers of others as they are. -/
theorem bufferOf?_refill_other {n : ModuleName} (hne : ¬ m.Same n) (text : Text)
    (refills : List Refill) : (q.refill m text refills).1.bufferOf? n = q.bufferOf? n := by
  refine refill_induction (P := fun q' => q'.bufferOf? n = q.bufferOf? n) ?_ rfl text refills
  intro q' e hq'
  rw [bufferOf?_queue, if_neg hne, hq']

/-- No module but this one has a buffer. -/
def Only (m : ModuleName) (q : EditQueue) : Prop := q.buffers = [] ∨ ∃ b, q.buffers = [(m, b)]

theorem Only.queue (h : q.Only m) (e : Edit) : (q.queue m e).1.Only m := by
  rw [queue_fst]
  cases q.bufferOf? m with
  | none => exact h
  | some b =>
    right
    rcases h with h | ⟨old, h⟩
    · exact ⟨b.take e, by simp [h, ModuleMap.insert]⟩
    · have hsame : ModuleName.order m m = .eq := (ModuleName.order_eq_iff m m).mpr (.refl m)
      exact ⟨b.take e, by simp [h, ModuleMap.insert, hsame]⟩

theorem Only.refill (h : q.Only m) (text : Text) (refills : List Refill) :
    (q.refill m text refills).1.Only m :=
  refill_induction (fun _ e hq => hq.queue e) h text refills

theorem Only.changes_eq (h : q.Only m) :
    q.changes = ((get? q.changes m).map (m, ·)).toList := by
  rcases h with h | ⟨b, h⟩
  · simp [changes, h, get?_nil]
  · have hchanges : q.changes = (b.changed?.map (m, ·)).toList := by
      simp only [changes, h, changed?, filterMap_cons, filterMap_nil]
      split <;> simp_all
    rw [hchanges]
    cases b.changed? with
    | none => rfl
    | some new => simp [get?_cons, ModuleName.Same.refl]

/-! ## Line edits against substitution -/

theorem joined_edited (h : ∀ e ∈ edits, e.Reaches text.lines.length) :
    (ofText text).joined ((ofText text).edited edits) = text.lineEnding.intercalate
        ((ModuleLines.mk (Text.rows text) text.lineEnding false).edited edits) := by
  have hrows : (ModuleLines.mk (Text.rows text) text.lineEnding false).lines =
      (ofText text).lines ++ if text.endsWithNewline then [[]] else [] :=
    map_headLine_eq text
  rw [ModuleLines.edited_append hrows h]
  exact joinLines_eq _ _ _

/-- The edits of groups, applied to the module, are the new texts in place of the lines. -/
theorem joined_patchEdits {groups : List (LineRange × Text)} (hbreaks : text.Unmixed)
    (hlaid : Laid (rows text).length 0 groups) (hout : ∀ g ∈ groups, g.2.CrClosed)
    (hwithin : ∀ e ∈ patchEdits text groups, e.Within 1 text.lines.length)
    (hclosed : CrClosed (patched text 0 (groupSpans text groups))) :
    (ofText text).joined ((ofText text).edited (patchEdits text groups)) =
      withEnding text.lineEnding (patched text 0 (groupSpans text groups)) := by
  have ht : ClosedBy text.lineEnding text := (unmixed_iff text).mp hbreaks
  have he := isTerminator_lineEnding text
  have hplaces : (ModuleLines.mk (Text.rows text) text.lineEnding false).placesFrom
      ([] ++ patchEdits text groups) (0 + 1) ((rows text).length + 1 - 0) =
        patchRows (rows text) 0 groups :=
    Refill.placesFrom_patchEdits ht he rfl hlaid hout (by simp)
  have hlines : splitLines (patched text 0 (groupSpans text groups)) =
      patchRows (rows text) 0 groups :=
    splitLines_patched ht he hlaid hout (by rw [length_rows]; omega)
  rw [joined_edited fun e he => .inl (hwithin e he), hclosed.withEnding_eq, hlines, ← hplaces]
  rfl

/-- The buffer of a module without edits, after the line edits of refills are all queued. -/
theorem bufferOf?_refill (hq : q.bufferOf? m = some ⟨.ofText text, []⟩) (hbreaks : text.Unmixed)
    (hsound : ∀ r ∈ refills, r.Sound text) (hok : (q.refill m text refills).2 = none) :
    ∃ rendered b, render text (sorted refills) [] ⟨0, text.byteSize⟩ = .ok rendered ∧
      (q.refill m text refills).1.bufferOf? m = some b ∧
      b.changed? = if withEnding text.lineEnding rendered = text then none
        else some (withEnding text.lineEnding rendered) := by
  have ht : ClosedBy text.lineEnding text := (unmixed_iff text).mp hbreaks
  have he := isTerminator_lineEnding text
  rw [refill] at hok ⊢
  cases hedits : edits text refills with
  | error fault =>
    rw [hedits] at hok
    cases hok
  | ok edits =>
    simp only [hedits] at hok ⊢
    obtain ⟨groups, hlaid, hout, -, rfl, hrender⟩ := Refill.edits_ok ht he hsound hedits
    have hclosed := readsClosed_render ht (fun r hr => hsound r (mem_sorted_iff.mp hr)) [] _ _ _
      (isCut_zero text) (isCut_byteSize text) hrender
    have hranges : ∀ e ∈ patchEdits text groups, e.range?.isSome = true := by
      intro e hmem
      obtain ⟨r, hr, -⟩ := within_patchEdits hlaid e hmem
      simp [hr]
    have hwithin := within_of_queueAll hq hranges hok
    obtain ⟨hrun, htaken⟩ := queueAll_ok hok []
    have hkeeps := keeps_taken hq (.cleared ⟨.ofText text, []⟩)
      ((patchEdits text groups).map (.queue m))
    refine ⟨_, _, hrender, by rw [hrun, bufferOf?_run, hq]; rfl, ?_⟩
    rw [changed?_eq hkeeps.settled, hkeeps.effect.edited_eq,
      foldl_follow_module, htaken, nil_append,
      joined_patchEdits hbreaks hlaid hout hwithin hclosed,
      (text_ofText_eq_self_iff text).mpr ht]

/-- The line edits of refills against substitution in the whole text: if all edits can be queued, the
commit gives the rendering with the terminator of the module, and nothing where that is the text. -/
theorem commit_refill {host : ModuleMap ModuleLines} {m : ModuleName} {text : Text}
    {refills : List Refill} (hm : host.get? m = some (.ofText text)) (hbreaks : text.Unmixed)
    (hsound : ∀ r ∈ refills, r.Sound text)
    (hok : ((start host).refill m text refills).2 = none) :
    ∃ rendered, Refill.render text (Refill.sorted refills) [] ⟨0, text.byteSize⟩ = .ok rendered ∧
      ((start host).refill m text refills).1.commit.1 =
        if Text.withEnding text.lineEnding rendered = text then []
        else [(m, Text.withEnding text.lineEnding rendered)] := by
  have hbuffer : (start host).bufferOf? m = some ⟨.ofText text, []⟩ := by
    simp [bufferOf?, start, hm]
  obtain ⟨rendered, b, hrender, hb, hchanged⟩ := bufferOf?_refill hbuffer hbreaks hsound hok
  refine ⟨rendered, hrender, ?_⟩
  have honly : ((start host).refill m text refills).1.Only m := Only.refill (.inl rfl) text refills
  have hsorted := sorted_refill (q := start host) ModuleMap.sorted_nil m text refills
  show changes _ = _
  rw [honly.changes_eq, get?_changes hsorted, hb, Option.bind_some, hchanged]
  split <;> rfl

/-- A call in a slot of another, the list of which goes over two lines and is joined. -/
theorem commit_refill_nested :
    let m : ModuleName := ⟨['P'], ['M']⟩
    let text : Text := "F B(1,2), _\r\n3".toList
    let refills : List Refill :=
      [⟨⟨4, 7⟩, [⟨4, 5⟩, ⟨6, 7⟩], [.source ⟨6, 7⟩, .source ⟨4, 5⟩], false⟩,
        ⟨⟨2, 14⟩, [⟨2, 8⟩, ⟨13, 14⟩], [.source ⟨13, 14⟩, .source ⟨2, 8⟩], true⟩]
    let host : ModuleMap ModuleLines := [(m, .ofText text)]
    host.get? m = some (.ofText text) ∧ text.Unmixed ∧ (∀ r ∈ refills, r.Sound text) ∧
      ((start host).refill m text refills).2 = none ∧
      ∃ rendered, Refill.render text (Refill.sorted refills) [] ⟨0, text.byteSize⟩ = .ok rendered ∧
        ((start host).refill m text refills).1.commit.1 =
          if Text.withEnding text.lineEnding rendered = text then []
          else [(m, Text.withEnding text.lineEnding rendered)] := by
  refine ⟨rfl, by decide, by decide, ?_, commit_refill rfl (by decide) (by decide) ?_⟩
  · cbv
  · cbv

end EditQueue

end VbaRefactor
