import VbaRefactor.Proofs.Edit.Acceptance
import VbaRefactor.Proofs.Edit.Holding
import VbaRefactor.Proofs.Edit.Rearrange

/-!
# Reordering the texts of a project

Where the lists of all modules are laid out, the refills that arrange them are queued without an
error, and the commit gives every module the text of its reordered layout.
-/

namespace VbaRefactor

open List ModuleMap EditQueue

open Layout

variable {q : EditQueue} {order : Permutation}

section

theorem EditQueue.refill_layout {m : ModuleName} {l : Layout} {refills : List Refill}
    (hq : q.bufferOf? m = some ⟨.ofText l.text, []⟩) (hl : l.Regular order.size l.text.lineEnding)
    (ho : order.Valid) (hn : 2 ≤ order.size) (hrefills : ∀ r, r ∈ refills ↔ r ∈ l.refills order 0) :
    (q.refill m l.text refills).2 = none ∧ ∃ b, (q.refill m l.text refills).1.bufferOf? m = some b ∧
        b.changed? = if (l.reorder order).text = l.text then none
          else some (l.reorder order).text := by
  have hbreaks : l.text.Unmixed := (Text.unmixed_iff l.text).mpr hl.closedBy
  obtain ⟨hfit, hrender⟩ := hl.render_text ho hn hrefills
  have hnone := refill_eq_none hq hbreaks (fun r hr => (hfit r hr).1) (fun r hr => (hfit r hr).2) hrender
  obtain ⟨rendered, b, hrendered, hb, hchanged⟩ :=
    bufferOf?_refill hq hbreaks (fun r hr => (hfit r hr).1) hnone
  cases hrender.symm.trans hrendered
  have hending : Text.withEnding l.text.lineEnding (l.reorder order).text = (l.reorder order).text :=
    (hl.reordered ho).1.closedBy.withEnding_eq (Text.isTerminator_lineEnding l.text)
  rw [hending] at hchanged
  exact ⟨hnone, b, hb, hchanged⟩

/-- What the buffer of a module says about it. -/
def EditQueue.changed? (q : EditQueue) (m : ModuleName) : Option Text :=
  (q.bufferOf? m).bind EditBuffer.changed?

end

namespace Project

variable {p : Project} {layouts : ModuleName → Layout}

/-- The text of every module is that of its layout, the lists of which an order of `n` places can
reorder. -/
def LaidOut (p : Project) (n : Nat) (layouts : ModuleName → Layout) : Prop :=
  ∀ m c, p.modules.get? m = some c → c.source.id.Same m ∧
    c.source.text = (layouts c.source.id).text ∧
    (layouts c.source.id).Regular n c.source.text.lineEnding

/-- The refills of each module are those that reorder its layout. -/
def Arranges (p : Project) (order : Permutation) (layouts : ModuleName → Layout)
    (refills : ModuleMap (List Refill)) : Prop :=
  ∀ entry ∈ refills, ∃ c, p.modules.get? entry.1 = some c ∧
    ∀ r, r ∈ entry.2 ↔ r ∈ (layouts c.source.id).refills order 0

section

variable {refills : ModuleMap (List Refill)} (hlaid : p.LaidOut order.size layouts)
  (ho : order.Valid) (hn : 2 ≤ order.size)

include hlaid ho hn

/-- Refills that arrange the modules one after another are all queued, each for its own module. -/
theorem refill_arranges (hrefills : p.Arranges order layouts refills)
    (honce : refills.Pairwise fun a b => ¬ a.1.Same b.1) (hsorted : Sorted q.buffers)
    (hfresh : ∀ entry ∈ refills, ∀ c, p.modules.get? entry.1 = some c →
      q.bufferOf? entry.1 = some ⟨.ofText c.source.text, []⟩) :
    ∃ q', p.refill q refills = .ok q' ∧ Sorted q'.buffers ∧
      (∀ m, (∀ entry ∈ refills, ¬ entry.1.Same m) → q'.bufferOf? m = q.bufferOf? m) ∧
      ∀ entry ∈ refills, ∀ c, p.modules.get? entry.1 = some c → q'.changed? entry.1 =
        if ((layouts c.source.id).reorder order).text = c.source.text then none
        else some ((layouts c.source.id).reorder order).text := by
  induction refills generalizing q with
  | nil => exact ⟨q, rfl, hsorted, fun _ _ => rfl, by simp⟩
  | cons entry rest ih =>
    obtain ⟨m, refills⟩ := entry
    obtain ⟨hother, honce⟩ := pairwise_cons.mp honce
    obtain ⟨c, hc, hown⟩ := hrefills (m, refills) mem_cons_self
    obtain ⟨hid, htext, hregular⟩ := hlaid m c hc
    have hbuffer : q.bufferOf? c.source.id = some ⟨.ofText (layouts c.source.id).text, []⟩ := by
      rw [bufferOf?_congr q hid, hfresh (m, refills) mem_cons_self c hc, htext]
    rw [htext] at hregular
    obtain ⟨hnone, b, hb, hchanged⟩ := refill_layout hbuffer hregular ho hn hown
    rw [← htext] at hnone hb hchanged
    have hkept {n : ModuleName} (hne : ¬ m.Same n) :
        (q.refill c.source.id c.source.text refills).1.bufferOf? n = q.bufferOf? n :=
      bufferOf?_refill_other (fun h => hne (hid.symm.trans h)) _ _
    have hnext : ∀ e ∈ rest, ∀ d, p.modules.get? e.1 = some d →
        (q.refill c.source.id c.source.text refills).1.bufferOf? e.1 =
          some ⟨.ofText d.source.text, []⟩ := by
      intro e he d hd
      rw [hkept (hother e he), hfresh e (mem_cons_of_mem _ he) d hd]
    obtain ⟨q', hq', hsorted', hsame, hall⟩ := ih (forall_mem_cons.mp hrefills).2 honce
      (sorted_refill hsorted c.source.id c.source.text refills) hnext
    refine ⟨q', ?_, hsorted', ?_, ?_⟩
    · rw [refill, moduleOf, hc]
      simp only
      cases hqueue : q.refill c.source.id c.source.text refills with
      | mk next error =>
        rw [hqueue] at hnone hq'
        cases hnone
        exact hq'
    · intro n hn
      rw [hsame n (forall_mem_cons.mp hn).2, hkept (hn (m, refills) mem_cons_self)]
    · intro e he d hd
      rcases mem_cons.mp he with rfl | he
      · cases hc.symm.trans hd
        rw [changed?, hsame m fun e he hsame => hother e he hsame.symm,
          ← bufferOf?_congr _ hid, hb, Option.bind_some, hchanged]
      · exact hall e he d hd

/-- The commit gives every module the text of its reordered layout, where that is another text. -/
theorem commit_arranges (hsorted : Sorted refills) (hrefills : p.Arranges order layouts refills)
    (hnone : ∀ m c, p.modules.get? m = some c → refills.get? m = none →
      (layouts c.source.id).lists 0 = []) :
    ∃ q, p.refill p.editQueue refills = .ok q ∧ ∀ m c, p.modules.get? m = some c →
      get? q.commit.1 m = if ((layouts c.source.id).reorder order).text = c.source.text then none
        else some ((layouts c.source.id).reorder order).text := by
  have honce : refills.Pairwise fun a b => ¬ a.1.Same b.1 := by
    refine hsorted.imp ?_
    intro a b hlt hsame
    rw [(ModuleName.order_eq_iff a.1 b.1).mpr hsame] at hlt
    cases hlt
  obtain ⟨q, hq, hbuffers, hsame, hall⟩ := refill_arranges hlaid ho hn hrefills honce
    (q := p.editQueue) sorted_nil fun entry _ c hc => bufferOf?_editQueue hc
  refine ⟨q, hq, ?_⟩
  intro m c hc
  show get? q.changes m = _
  rw [get?_changes hbuffers]
  by_cases hentry : ∃ entry ∈ refills, entry.1.Same m
  · obtain ⟨entry, hmem, hname⟩ := hentry
    rw [← get?_congr _ hname] at hc
    rw [← bufferOf?_congr _ hname]
    exact hall entry hmem c hc
  · have hout : ∀ entry ∈ refills, ¬ entry.1.Same m := fun entry hmem hname =>
      hentry ⟨entry, hmem, hname⟩
    have hlists := hnone m c hc (get?_eq_none hout)
    rw [hsame m hout, bufferOf?_editQueue hc, Option.bind_some, reorder_eq_self order _ hlists,
      if_pos (hlaid m c hc).2.1.symm]
    rfl

end

end Project

end VbaRefactor
