import VbaRefactor.Proofs.Edit.Holding
import VbaRefactor.Proofs.Encapsulate.Renames
import VbaRefactor.Proofs.Readings

/-!
# What an encapsulation queues for a module

Every module gets the edits that rename uses in it, the module of the fields its own edits before
these. The new text of a module is what these edits make of its lines.
-/

namespace VbaRefactor

open List ModuleMap Project

theorem ModuleMap.apart_of_sorted {α : Type} {table : ModuleMap α} (h : Sorted table) :
    table.Pairwise fun a b => ¬ a.1.Same b.1 := by
  refine List.Pairwise.imp ?_ h
  intro a b hlt hsame
  rw [(ModuleName.order_eq_iff _ _).mpr hsame] at hlt
  cases hlt

namespace Encapsulate

section

variable {p : Project} {m : ModuleName} {inRecord : Bool} {renames table : ModuleMap (List Refill)}

theorem sorted_planRenames {uses : List (PropertyPlan × Reference)} (hrenames : Sorted renames)
    (h : planRenames p m inRecord renames uses = .ok table) : Sorted table := by
  induction uses generalizing renames with
  | nil =>
    cases h
    exact hrenames
  | cons use uses ih =>
    rcases planRenames_cons h with ⟨-, hrest⟩ | ⟨-, hrest⟩
    · exact ih (sorted_insert _ _ hrenames) hrest
    · exact ih hrenames hrest

end

/-- The edits of a module, own ones before those that rename uses, make its new text. -/
structure EditsOf (source : Source) (own words : List Edit) (refills : List Refill) (changes : Changes) :
    Prop where
  rendered : Refill.edits source.text refills = .ok words
  keeps : ∃ b : EditBuffer, b.Keeps (own ++ words)
  reaches : ∀ e ∈ own ++ words, e.Reaches source.text.lines.length
  text : (changes.get? source.id).getD source.text =
    (ModuleLines.ofText source.text).joined ((ModuleLines.ofText source.text).edited (own ++ words))

section

variable {p : Project} {requests : List FieldRequest} {state? : Option RecordState}
  {indent? : Option Nat} {outcome : Outcome} {planning : Planning p requests state?}
  {renames : ModuleMap (List Refill)}

theorem Planning.get?_module (planning : Planning p requests state?) :
    p.modules.get? planning.first.module = some planning.module := by
  have hlocated := planning.located
  rw [moduleOf] at hlocated
  split at hlocated
  · rename_i found hfound
    cases hlocated
    exact hfound
  · cases hlocated

theorem Planning.Carries.exists_editsOf (h : planning.Carries indent? renames outcome)
    (hids : ∀ n d, p.modules.get? n = some d → d.source.id.Same n) {c : ModuleContent}
    (hc : p.modules.get? c.source.id = some c)
    (ht : Text.ClosedBy c.source.text.lineEnding c.source.text) :
    ∃ own words, EditsOf c.source own words ((renames.get? c.source.id).getD []) outcome.changes ∧
      if c.source.id.Same planning.module.source.id then
        c = planning.module ∧ moduleEdits p planning.module planning.plans state? indent? = .ok own
      else own = [] := by
  obtain ⟨edits, q, q', hedits, hqueue, hrefill, rfl⟩ := h.queued
  have hfound := planning.get?_module
  have honce := apart_of_sorted (sorted_planRenames sorted_nil h.planned)
  have hsorted : Sorted q'.buffers := by
    have hq := EditQueue.sorted_queueAll (q := p.editQueue) sorted_nil
      planning.module.source.id edits
    rw [hqueue] at hq
    exact EditQueue.sorted_refillAll hq hrefill
  have hstart := EditQueue.holds_editQueue hc
  have hend {own : List Edit} (hown : q.Holds c.source.id c.source.text own) :
      ∃ words, EditsOf c.source own words ((renames.get? c.source.id).getD []) q'.commit.1 := by
    obtain ⟨words, hwords, hholds⟩ := hown.refillAll hids hc honce hrefill
    obtain ⟨b, -, -, hkeeps⟩ := hholds.kept
    refine ⟨words, hwords, ⟨b, hkeeps⟩, hholds.reaches, ?_⟩
    rw [hholds.get?_commit hsorted ht]
    split
    · rename_i hsame
      exact hsame.symm
    · rfl
  by_cases hsame : c.source.id.Same planning.module.source.id
  · have hmodule : c = planning.module := by
      have hid := hids _ _ hfound
      rw [← get?_congr _ (hsame.trans hid), hc] at hfound
      exact Option.some.inj hfound
    have hown := (hstart.congr hsame).queueAll (congrArg Prod.snd hqueue)
    rw [hqueue] at hown
    obtain ⟨words, hwords⟩ := hend (hown.congr hsame.symm)
    exact ⟨edits, words, hwords, by rw [if_pos hsame]; exact ⟨hmodule, hedits⟩⟩
  · have hother : ¬ planning.module.source.id.Same c.source.id := fun hname => hsame hname.symm
    have hown : (p.editQueue.queueAll planning.module.source.id edits).1.Holds _ _ _ :=
      hstart.queueAll_other hother
    rw [hqueue] at hown
    obtain ⟨words, hwords⟩ := hend hown
    exact ⟨[], words, hwords, by rw [if_neg hsame]⟩

/-- The new text of a module that is alone and has no uses of the fields. -/
theorem update_of_unused {source : Source} {m : ModuleContent} {plans : List PropertyPlan}
    {own : List Edit} (hread : read [source] = .ok p) (hbreaks : source.text.Unmixed)
    (hrun : p.encapsulate requests state? indent? = .ok outcome)
    (hplanned : planned? p requests state? = some (m, plans)) (huses : usesOf p plans = [])
    (hown : moduleEdits p m plans state? indent? = .ok own) :
    Plan.update outcome.changes [source] = [{ source with
      text := (ModuleLines.ofText source.text).joined ((ModuleLines.ofText source.text).edited own) }] := by
  obtain ⟨found, hfound, rfl⟩ := exists_outlines_of_read hread
  obtain ⟨hsources, -, -⟩ := outlines_readFrom hfound
  obtain ⟨o, rfl, rfl⟩ := map_eq_singleton_iff.mp hsources
  have hnames : ([o].map Outline.source).Pairwise fun a b => ¬ a.id.Same b.id :=
    pairwise_singleton _ _
  rcases exists_carries hrun with ⟨rfl, -⟩ | ⟨planning, renames, hcarries⟩
  · cases hplanned
  cases planning.planned?_eq.symm.trans hplanned
  have hnone := hcarries.planned
  rw [huses] at hnone
  cases hnone
  obtain ⟨own', words, hedits, hmodule⟩ := hcarries.exists_editsOf
    (same_of_get?_modules hnames) (c := ⟨o.source, o.items⟩)
    (get?_modules_of_mem hnames mem_cons_self) ((Text.unmixed_iff _).mp hbreaks)
  obtain ⟨o', ho', hsame, -⟩ := (get?_modules_ofOutlines hnames _ _).mp planning.get?_module
  cases mem_singleton.mp ho'
  rw [hsame, if_pos (.refl _), ← hsame, hown] at hmodule
  cases hmodule.2
  have hwords := hedits.rendered
  rw [get?_nil, Option.getD_none, Refill.edits_nil] at hwords
  cases hwords
  rw [Plan.update_eq_map, map_singleton, hedits.text, append_nil]

end

end Encapsulate

end VbaRefactor
