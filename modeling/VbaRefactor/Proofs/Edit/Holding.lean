import VbaRefactor.Outcome
import VbaRefactor.Proofs.Edit.Substitution

/-!
# What a queue holds for a module

A queue takes edits for a module list by list, those of refills among them. In the end it holds all of
them, and the commit gives the module the text that they make of its lines.
-/

namespace VbaRefactor

open List ModuleMap Refill

variable {e : Edit} {c : ModuleContent} {renames : ModuleMap (List Refill)} {m : ModuleName}

theorem EditBuffer.reaches_of_accepts {b : EditBuffer} (h : b.accepts e = true) :
    e.Reaches b.module.lines.length := by
  cases e with
  | insert line text =>
    refine .inr ⟨line, text, rfl, ?_⟩
    rw [accepts, judge, judgeInsert] at h
    by_cases hout : (decide (line = 0) || decide (b.module.lines.length + 1 < line)) = true
    · rw [if_pos hout] at h
      cases h
    · simp only [Bool.or_eq_true, decide_eq_true_eq, not_or] at hout
      omega
  | replace range text => exact .inl (within_of_accepts rfl h)
  | delete range => exact .inl (within_of_accepts rfl h)

theorem Project.bufferOf?_editQueue {p : Project} (hc : p.modules.get? m = some c) :
    p.editQueue.bufferOf? m = some ⟨.ofText c.source.text, []⟩ := by
  have hget : get? p.editQueue.host m =
      (p.modules.get? m).map fun c => ModuleLines.ofText c.source.text :=
    get?_map (fun c : ModuleContent => ModuleLines.ofText c.source.text) p.modules m
  rw [EditQueue.bufferOf?, hget, hc]
  rfl

theorem Refill.edits_nil (text : Text) : edits text [] = .ok [] := by
  simp [edits, sorted, lineGroups, groupsEdits]

namespace EditQueue

/-- The queue has taken these edits for a module with this text. -/
structure Holds (q : EditQueue) (m : ModuleName) (text : Text) (edits : List Edit) : Prop where
  kept : ∃ b, q.bufferOf? m = some b ∧ b.module = .ofText text ∧ b.Keeps edits
  reaches : ∀ e ∈ edits, e.Reaches text.lines.length

variable {q q' : EditQueue} {n : ModuleName} {text : Text} {edits new : List Edit} {p : Project}

namespace Holds

section

variable (h : q.Holds m text edits)

include h

theorem congr (hsame : m.Same n) : q.Holds n text edits := by
  obtain ⟨b, hb, hkeeps⟩ := h.kept
  exact ⟨⟨b, (bufferOf?_congr q hsame).symm.trans hb, hkeeps⟩, h.reaches⟩

theorem queue (hok : (q.queue m e).2 = none) : (q.queue m e).1.Holds m text (edits ++ [e]) := by
  obtain ⟨b, hb, hmodule, hkeeps⟩ := h.kept
  obtain ⟨b', hb', haccepts⟩ := (queue_snd_eq_none_iff q m e).mp hok
  cases hb.symm.trans hb'
  refine ⟨⟨b.take e, ?_, by rw [EditBuffer.take_module, hmodule], hkeeps.accept haccepts⟩, ?_⟩
  · rw [bufferOf?_queue, if_pos (.refl m), hb]
    rfl
  · refine forall_mem_append.mpr ⟨h.reaches, forall_mem_singleton.mpr ?_⟩
    have hreaches := EditBuffer.reaches_of_accepts haccepts
    rwa [hmodule] at hreaches

theorem queueAll (hok : (q.queueAll m new).2 = none) :
    (q.queueAll m new).1.Holds m text (edits ++ new) := by
  induction new generalizing q edits with
  | nil =>
    rw [append_nil]
    exact h
  | cons e new ih =>
    obtain ⟨hqueue, hall⟩ := queueAll_cons q m e new hok
    rw [hall] at hok ⊢
    have hrest := ih (h.queue hqueue) hok
    rwa [append_assoc] at hrest

theorem refill_other (hne : ¬ n.Same m) (text' : Text) (refills : List Refill) :
    (q.refill n text' refills).1.Holds m text edits := by
  obtain ⟨b, hb, hkeeps⟩ := h.kept
  exact ⟨⟨b, (bufferOf?_refill_other hne _ _).trans hb, hkeeps⟩, h.reaches⟩

theorem refill {refills : List Refill} (hok : (q.refill m text refills).2 = none) :
    ∃ new, Refill.edits text refills = .ok new ∧
      (q.refill m text refills).1.Holds m text (edits ++ new) := by
  rw [EditQueue.refill] at hok ⊢
  cases hedits : Refill.edits text refills with
  | error fault =>
    rw [hedits] at hok
    cases hok
  | ok new =>
    rw [hedits] at hok
    exact ⟨new, rfl, h.queueAll hok⟩

end

/-- The refills of a project add to what the queue holds for a module the edits of its refills. -/
theorem refillAll {p : Project} (hnames : ∀ n d, p.modules.get? n = some d → d.source.id.Same n)
    (hm : p.modules.get? m = some c) (honce : renames.Pairwise fun a b => ¬ a.1.Same b.1)
    (h : q.Holds m c.source.text edits) (hok : p.refill q renames = .ok q') :
    ∃ new, Refill.edits c.source.text ((renames.get? m).getD []) = .ok new ∧
      q'.Holds m c.source.text (edits ++ new) := by
  induction renames generalizing q edits with
  | nil =>
    cases hok
    exact ⟨[], Refill.edits_nil _, by rwa [append_nil]⟩
  | cons entry rest ih =>
    obtain ⟨n, refills⟩ := entry
    obtain ⟨hother, honce⟩ := pairwise_cons.mp honce
    rw [Project.refill, Project.moduleOf] at hok
    cases hn : p.modules.get? n with
    | none =>
      rw [hn] at hok
      cases hok
    | some d =>
      simp only [hn] at hok
      cases hqueue : q.refill d.source.id d.source.text refills with
      | mk next error =>
        rw [hqueue] at hok
        cases error with
        | some error => cases hok
        | none =>
          have hid := hnames n d hn
          rw [get?_cons]
          by_cases hsame : n.Same m
          · -- The refills of this module; none of the others is for it.
            cases (hn.symm.trans (get?_congr _ hsame)).trans hm
            rw [if_pos hsame]
            obtain ⟨new, hedits, hnext⟩ := (h.congr (hid.trans hsame).symm).refill (by rw [hqueue])
            rw [hqueue] at hnext
            obtain ⟨more, hmore, hall⟩ := ih honce (hnext.congr (hid.trans hsame)) hok
            rw [get?_eq_none fun e he hname => hother e he (hsame.trans hname.symm),
              Option.getD_none, edits_nil] at hmore
            cases hmore
            exact ⟨new, hedits, by rwa [append_nil] at hall⟩
          · rw [if_neg hsame]
            have hnext := h.refill_other (fun hname => hsame (hid.symm.trans hname)) d.source.text
              refills
            rw [hqueue] at hnext
            exact ih honce hnext hok

/-- The commit gives the text that the edits make of the lines, where it is another one. -/
theorem get?_commit (h : q.Holds m text edits) (hsorted : Sorted q.buffers)
    (ht : Text.ClosedBy text.lineEnding text) :
    let lines := ModuleLines.ofText text
    get? q.commit.1 m = if lines.joined (lines.edited edits) = text then none
      else some (lines.joined (lines.edited edits)) := by
  obtain ⟨b, hb, hmodule, hkeeps⟩ := h.kept
  show get? q.changes m = _
  rw [get?_changes hsorted, hb, Option.bind_some, EditBuffer.changed?_eq hkeeps.settled,
    hkeeps.effect.edited_eq, hmodule, (Text.text_ofText_eq_self_iff text).mpr ht]

end Holds

theorem holds_editQueue (hm : p.modules.get? m = some c) : p.editQueue.Holds m c.source.text [] :=
  ⟨⟨_, Project.bufferOf?_editQueue hm, rfl, .cleared ⟨_, []⟩⟩, forall_mem_nil _⟩

/-! ## Other modules -/

theorem Holds.queueAll_other (h : q.Holds m text edits) (hne : ¬ n.Same m) :
    (q.queueAll n new).1.Holds m text edits := by
  refine queueAll_induction (P := fun q => q.Holds m text edits) ?_ h new
  intro q e hq
  obtain ⟨b, hb, hkeeps⟩ := hq.kept
  exact ⟨⟨b, by rw [bufferOf?_queue, if_neg hne, hb], hkeeps⟩, hq.reaches⟩

theorem sorted_queueAll (h : Sorted q.buffers) (m : ModuleName) (edits : List Edit) :
    Sorted (q.queueAll m edits).1.buffers :=
  queueAll_induction (P := fun q => Sorted q.buffers)
    (fun _ e hq => sorted_step hq (.queue m e)) h edits

theorem sorted_refillAll (h : Sorted q.buffers) (hok : p.refill q renames = .ok q') :
    Sorted q'.buffers := by
  induction renames generalizing q with
  | nil =>
    cases hok
    exact h
  | cons entry rest ih =>
    rw [Project.refill] at hok
    split at hok
    · cases hok
    · rename_i d _
      have hnext := sorted_refill h d.source.id d.source.text entry.2
      split at hok
      · rename_i hqueue
        rw [hqueue] at hnext
        exact ih hnext hok
      · cases hok

end EditQueue

end VbaRefactor
