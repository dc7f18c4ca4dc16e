import VbaRefactor.Proofs.Declarations
import VbaRefactor.Proofs.Encapsulate.Insertion
import VbaRefactor.Proofs.Encapsulate.Renames
import VbaRefactor.Proofs.Encapsulate.Statements
import VbaRefactor.Proofs.Readings

/-!
# The statements of requested fields

Every planned field is declared by exactly one field statement of its module, so the statements that
are edited give up the planned fields and no others, each of them once.
-/

namespace VbaRefactor

open List Outline Item

variable {inRecord : Bool} {base id : DeclarationId} {f : FieldStatement}
  {found : List FieldStatement} {plans : List PropertyPlan} {texts : List Text} {m : ModuleContent}
  {o : Outline} {plan : PropertyPlan} {source : Source}

namespace Outline

variable {o' : Outline} {block block' : Construct} {s : Statement}

/-! ## The numbers of fields -/

/-- The numbers of all variables of field statements. -/
def fieldIds (o : Outline) : List DeclarationId :=
  (o.items.filterMap Item.fields?).flatMap fun f => f.fields.map (·.declaration)

theorem fieldIds_sublist_step (h : o.step block s = .ok (o', block'))
    (hids : o.fieldIds.Sublist (o.members.map Prod.fst)) :
    o'.fieldIds.Sublist (o'.members.map Prod.fst) := by
  rcases fields_step h with hsame | ⟨access, i, rfl, hkind, hlt, rfl⟩
  · rw [fieldIds, hsame]
    exact hids.trans ((members_prefix_step h).sublist.map _)
  · rw [fieldIds, fields_addFields hlt, members_addFields, flatMap_append, map_append]
    refine hids.append ?_
    simp only [flatMap_singleton, fieldStatement, map_map]
    exact List.Sublist.refl _

section

variable (h : read base source = .ok o)

include h

theorem nodup_members : (o.members.map Prod.fst).Nodup := by
  rw [members, map_map]
  exact (nodup_ids h).sublist (filter_sublist.map _)

/-- Every variable of a field statement has a number of its own. -/
theorem nodup_fieldIds : o.fieldIds.Nodup := by
  obtain ⟨_, -, hids⟩ := keeps_of_read
    (P := fun _ o _ => o.fieldIds.Sublist (o.members.map Prod.fst))
    (fun hids hstep => fieldIds_sublist_step hstep hids) (nil_sublist _) h
  exact (nodup_members h).sublist hids

/-- A number is that of a variable of one field statement only. -/
theorem eq_of_mem_fields {g : FieldStatement} (hf : f ∈ o.items.filterMap fields?)
    (hg : g ∈ o.items.filterMap fields?) {d e : DeclaredField} (hd : d ∈ f.fields)
    (he : e ∈ g.fields) (hid : d.declaration = e.declaration) : f = g := by
  obtain ⟨-, hdisjoint⟩ := nodup_flatMap.mp (nodup_fieldIds h)
  refine @eq_of_pairwise_not _ (fun f g => ∃ d ∈ FieldStatement.fields f,
    ∃ e ∈ FieldStatement.fields g, d.declaration = e.declaration) ?_ _ ?_ f g hf hg ⟨d, hd, e, he, hid⟩
  · rintro f g ⟨d, hd, e, he, hid⟩
    exact ⟨e, he, d, hd, hid.symm⟩
  · refine hdisjoint.imp ?_
    rintro f g hapart ⟨d, hd, e, he, hid⟩
    exact hapart (mem_map_of_mem hd) (by rw [hid]; exact mem_map_of_mem he)

/-- What is declared at the level of the module is known by its number. -/
theorem eq_of_mem_members {a b : Span × Profile} (ha : (id, a) ∈ o.members)
    (hb : (id, b) ∈ o.members) : a = b := by
  have hinj := inj_on_of_nodup_map (nodup_members h) ha hb rfl
  exact (Prod.mk.inj hinj).2

theorem fields_ordered :
    (o.items.filterMap fields?).Pairwise fun a b => a.extent.span.start < b.extent.span.start := by
  obtain ⟨hgiven, hordered⟩ := laid_of_read h
  refine List.Pairwise.filterMap _ ?_ (List.Pairwise.and_mem.mp hordered)
  rintro a b ⟨ha, -, hle⟩ f hf g hg
  have hwidth := hgiven a ha
  cases a <;> cases hf
  cases b <;> cases hg
  exact Nat.lt_of_lt_of_le hwidth hle

end

end Outline

namespace Encapsulate

variable {s : FieldStatement}

/-! ## The statements that are edited -/

/-- The plan for a declared field. -/
def planOf? (plans : List PropertyPlan) (id : DeclarationId) : Option PropertyPlan :=
  plans.find? (·.field.id = id)

/-- The plans for the fields of a statement. -/
def plansIn (plans : List PropertyPlan) (s : FieldStatement) : List PropertyPlan :=
  s.fields.filterMap (planOf? plans ·.declaration)

/-- The statements that declare planned fields. -/
def touched (m : ModuleContent) (plans : List PropertyPlan) : List FieldStatement :=
  (m.items.filterMap Item.fields?).filter fun s => !(plansIn plans s).isEmpty

section

theorem flatMap_filter_isEmpty {α β : Type} (f : α → List β) (l : List α) :
    (l.filter fun a => !(f a).isEmpty).flatMap f = l.flatMap f := by
  induction l with
  | nil => rfl
  | cons a l ih => cases h : f a <;> simp [h, ih]

theorem planOf?_eq_some (h : planOf? plans id = some plan) : plan ∈ plans ∧ plan.field.id = id :=
  ⟨mem_of_find?_eq_some h, by simpa using find?_some h⟩

section

variable (hplans : (plans.map (·.field.id)).Nodup)

include hplans

theorem planOf?_of_mem (h : plan ∈ plans) : planOf? plans plan.field.id = some plan := by
  cases hfind : planOf? plans plan.field.id with
  | none => exact absurd (find?_eq_none.mp hfind plan h) (by simp)
  | some other =>
    obtain ⟨hmem, hid⟩ := planOf?_eq_some hfind
    rw [inj_on_of_nodup_map hplans hmem h hid]

theorem mem_plansIn :
    plan ∈ plansIn plans s ↔ plan ∈ plans ∧ ∃ d ∈ s.fields, d.declaration = plan.field.id := by
  rw [plansIn, mem_filterMap]
  constructor
  · rintro ⟨d, hd, hplan⟩
    obtain ⟨hmem, hid⟩ := planOf?_eq_some hplan
    exact ⟨hmem, d, hd, hid.symm⟩
  · rintro ⟨hmem, d, hd, hid⟩
    exact ⟨d, hd, by rw [hid]; exact planOf?_of_mem hplans hmem⟩

theorem mem_touched :
    s ∈ touched m plans ↔ s ∈ m.items.filterMap fields? ∧
      ∃ plan ∈ plans, ∃ d ∈ s.fields, d.declaration = plan.field.id := by
  rw [touched, mem_filter, Bool.not_eq_true', isEmpty_eq_false_iff_exists_mem]
  simp only [mem_plansIn hplans]

end

end

/-! ## Finding them -/

section

variable {statements : List FieldStatement} {members : List Text} {all : List FieldStatement}

/-- The statements stand one after another. -/
def Ordered (statements : List FieldStatement) : Prop :=
  statements.Pairwise fun a b => a.extent.span.start < b.extent.span.start

theorem Ordered.injective (h : Ordered all) {t : FieldStatement} (hs : s ∈ all) (ht : t ∈ all)
    (hstart : s.extent.span.start = t.extent.span.start) : s = t := by
  refine inj_on_of_nodup_map (f := fun s : FieldStatement => s.extent.span.start) ?_ hs ht hstart
  rw [List.Nodup, pairwise_map]
  exact h.imp Nat.ne_of_lt

theorem Ordered.nodup (h : Ordered statements) : statements.Nodup := by
  refine List.Pairwise.imp ?_ h
  rintro s t hlt rfl
  exact Nat.lt_irrefl _ hlt

theorem insertStatement_ok (hall : Ordered all) (hs : s ∈ all) (hsub : statements ⊆ all)
    (h : Ordered statements) :
    Ordered (insertStatement s statements) ∧
      ∀ t, t ∈ insertStatement s statements ↔ t = s ∨ t ∈ statements := by
  induction statements with
  | nil => exact ⟨pairwise_singleton _ _, by simp [insertStatement]⟩
  | cons first rest ih =>
    obtain ⟨hfirst, hrest⟩ := pairwise_cons.mp h
    obtain ⟨hmem, hsub⟩ := cons_subset.mp hsub
    rw [insertStatement]
    split
    · rename_i hlt
      refine ⟨pairwise_cons.mpr ⟨?_, h⟩, by simp⟩
      exact forall_mem_cons.mpr ⟨hlt, fun t ht => Nat.lt_trans hlt (hfirst t ht)⟩
    · rename_i hge
      split
      · rename_i heq
        cases hall.injective hs hmem heq
        exact ⟨h, by simp⟩
      · obtain ⟨hordered, hiff⟩ := ih hsub hrest
        refine ⟨pairwise_cons.mpr ⟨?_, hordered⟩, ?_⟩
        · intro t ht
          rcases (hiff t).mp ht with rfl | ht
          · omega
          · exact hfirst t ht
        · intro t
          rw [mem_cons, hiff, mem_cons]
          exact or_left_comm

theorem findStatements_cons
    (h : findStatements m inRecord statements members (plan :: plans) = .ok (found, texts)) :
    ∃ s, findFields? m.items plan.field.id = some s ∧ ∃ more,
      (if inRecord then ∃ d, s.fields.find? (·.declaration = plan.field.id) = some d ∧
        more = [recordMember m.source.text plan d] else more = []) ∧
      findStatements m inRecord (insertStatement s statements) (members ++ more) plans =
        .ok (found, texts) := by
  rw [findStatements] at h
  split at h
  · cases h
  rename_i s hs
  refine ⟨s, hs, ?_⟩
  simp only at h
  split at h
  · rename_i hrecord
    split at h
    · cases h
    · rename_i d hd
      exact ⟨_, by simp [hrecord, hd], h⟩
  · rename_i hrecord
    exact ⟨[], by simp [hrecord], by simpa using h⟩

theorem mem_of_findFields? {items : List Item} (h : findFields? items id = some s) :
    s ∈ items.filterMap fields? ∧ ∃ d ∈ s.fields, d.declaration = id :=
  ⟨mem_of_find?_eq_some h, by simpa using find?_some h⟩

/-- The statements that were found are those of the plans. -/
theorem findStatements_ok (hall : Ordered (m.items.filterMap fields?))
    (hsub : statements ⊆ m.items.filterMap fields?) (hstatements : Ordered statements)
    (h : findStatements m inRecord statements members plans = .ok (found, texts)) :
    Ordered found ∧ (∀ s, s ∈ found ↔ s ∈ statements ∨
        ∃ plan ∈ plans, findFields? m.items plan.field.id = some s) ∧
      ∀ plan ∈ plans, ∃ s, findFields? m.items plan.field.id = some s := by
  induction plans generalizing statements members with
  | nil =>
    cases h
    exact ⟨hstatements, by simp, forall_mem_nil _⟩
  | cons plan plans ih =>
    obtain ⟨s, hs, more, -, hrest⟩ := findStatements_cons h
    obtain ⟨hmem, -⟩ := mem_of_findFields? hs
    obtain ⟨hinserted, hiff⟩ := insertStatement_ok hall hmem hsub hstatements
    have hsub' : insertStatement s statements ⊆ m.items.filterMap fields? := by
      intro t ht
      rcases (hiff t).mp ht with rfl | ht
      · exact hmem
      · exact hsub ht
    obtain ⟨hordered, hfound, hplans⟩ := ih hsub' hinserted hrest
    refine ⟨hordered, ?_, forall_mem_cons.mpr ⟨⟨s, hs⟩, hplans⟩⟩
    intro t
    rw [hfound, hiff]
    simp only [mem_cons, exists_eq_or_imp, hs, Option.some.injEq]
    rw [or_assoc, or_left_comm, eq_comm]

end

section

variable (hread : read base m.source = .ok o) (hitems : m.items = o.items)
  (hplans : (plans.map (·.field.id)).Nodup)
  (h : findStatements m inRecord [] [] plans = .ok (found, texts))

include hread hitems hplans h

theorem found_eq_touched : found = touched m plans := by
  have hall : Ordered (m.items.filterMap fields?) := by
    rw [hitems]
    exact fields_ordered hread
  obtain ⟨hordered, hfound, hsome⟩ := findStatements_ok hall (nil_subset _) .nil h
  have htouched : Ordered (touched m plans) := hall.sublist filter_sublist
  refine List.Perm.eq_of_pairwise (fun a b _ _ hab hba => absurd hba (Nat.lt_asymm hab)) hordered
    htouched ((perm_ext_iff_of_nodup hordered.nodup htouched.nodup).mpr ?_)
  intro s
  rw [hfound, mem_touched hplans]
  constructor
  · rintro (hnone | ⟨plan, hplan, hs⟩)
    · cases hnone
    · obtain ⟨hmem, hd⟩ := mem_of_findFields? hs
      exact ⟨hmem, plan, hplan, hd⟩
  · rintro ⟨hmem, plan, hplan, d, hd, hid⟩
    obtain ⟨s', hs'⟩ := hsome plan hplan
    obtain ⟨hmem', d', hd', hid'⟩ := mem_of_findFields? hs'
    rw [hitems] at hmem hmem'
    refine .inr ⟨plan, hplan, ?_⟩
    rw [hs', eq_of_mem_fields hread hmem' hmem hd' hd (hid'.trans hid.symm)]

/-- The statements that are edited have each planned field once. -/
theorem plansIn_touched_perm : ((touched m plans).flatMap (plansIn plans)).Perm plans := by
  have hall : Ordered (m.items.filterMap fields?) := by
    rw [hitems]
    exact fields_ordered hread
  obtain ⟨-, -, hsome⟩ := findStatements_ok hall (nil_subset _) .nil h
  have hflat : (touched m plans).flatMap (plansIn plans) = o.fieldIds.filterMap (planOf? plans) := by
    rw [touched, flatMap_filter_isEmpty, fieldIds, hitems, filterMap_flatMap]
    simp only [filterMap_map]
    rfl
  have hnodup : (o.fieldIds.filterMap (planOf? plans)).Nodup := by
    refine (nodup_fieldIds hread).filterMap ?_
    intro id id' plan hid hid'
    rw [← (planOf?_eq_some hid).2, (planOf?_eq_some hid').2]
  rw [hflat, perm_ext_iff_of_nodup hnodup hplans.of_map]
  intro plan
  rw [mem_filterMap]
  constructor
  · rintro ⟨id, -, hid⟩
    exact (planOf?_eq_some hid).1
  · intro hplan
    obtain ⟨s, hs⟩ := hsome plan hplan
    obtain ⟨hmem, d, hd, hid⟩ := mem_of_findFields? hs
    rw [hitems] at hmem
    refine ⟨plan.field.id, mem_flatMap.mpr ⟨s, hmem, ?_⟩, planOf?_of_mem hplans hplan⟩
    rw [← hid]
    exact mem_map_of_mem hd

end

/-! ## What the statements give up -/

/-- What the private field behind a property declares. -/
def backingProfile (plan : PropertyPlan) : Profile :=
  { plan.field.profile with name := plan.backing, access := .private }

section

variable (F : FieldsAt source o f)

theorem backingOf?_eq (plans : List PropertyPlan) (id : DeclarationId) :
    backingOf? plans id = (planOf? plans id).map PropertyPlan.backing := rfl

theorem plansIn_eq : plansIn plans f = F.entries.filterMap (planOf? plans ·.2) := by
  rw [plansIn, F.fields_eq, filterMap_map]
  rfl

variable (hplans : ∀ e ∈ F.entries, ∀ plan ∈ plans, plan.field.id = e.2 → Describes plan e.1)

include hplans

theorem map_profile_movedEntries :
    (movedEntries (backingOf? plans) F.entries).map (·.1.profile) =
      (plansIn plans f).map (·.field.profile) := by
  rw [plansIn_eq F, movedEntries, map_filterMap, ← filterMap_eq_map,
    ← filterMap_eq_filter, filterMap_filterMap]
  refine filterMap_congr ?_
  intro e he
  simp only [Option.guard, backingOf?_eq, Option.isSome_map]
  cases hplan : planOf? plans e.2 with
  | none => rfl
  | some plan =>
    obtain ⟨hmem, hid⟩ := planOf?_eq_some hplan
    simp [(hplans e he plan hmem hid).2]

theorem movedProfiles_eq :
    Lexer.movedProfiles (backingOf? plans) F.entries = (plansIn plans f).map backingProfile := by
  rw [plansIn_eq F, Lexer.movedProfiles, map_filterMap]
  refine filterMap_congr ?_
  intro e he
  rw [backingOf?_eq, Option.map_map]
  cases hplan : planOf? plans e.2 with
  | none => rfl
  | some plan =>
    obtain ⟨hmem, hid⟩ := planOf?_eq_some hplan
    simp [backingProfile, (hplans e he plan hmem hid).2]

end

/-! ## The edits of the statements -/

open Lexer
open Refill (EditPart)

/-- The names of a plan can be written as they are, the storage is a field, and the encapsulated one is not
written in brackets or with a type character. -/
@[mk_iff]
structure PropertyPlan.Named (text : Text) (plan : PropertyPlan) : Prop where
  writable : plan.Writable
  backing : isWritable plan.backing = true
  unreserved : plan.backing.fold ∉ ModuleStatement.reserved
  plain : isPlainName (text.slice plan.field.selection.span) = true

instance (text : Text) (plan : PropertyPlan) : Decidable (plan.Named text) :=
  decidable_of_iff _ (PropertyPlan.named_iff text plan).symm

/-- The field statement can be taken apart: its strings and brackets are closed, no lone `#` stands on
its line before its end, and what stays first in it is read as a variable behind the keywords. -/
@[mk_iff]
structure Splittable (text : Text) (plans : List PropertyPlan) (s : FieldStatement) : Prop where
  settled : ∀ t ∈ tokenize text, s.extent.span.start ≤ t.start → t.stop ≤ s.extent.span.stop →
    (Piece.token t.kind t.text).isSettled = true
  hash : ∀ t ∈ lineBefore text s.extent.span.start, (Piece.token t.kind t.text).isHash = false
  first : ∀ d ∈ (s.fields.filter fun d => (planOf? plans d.declaration).isNone).head?,
    firstWord (text.slice d.span) ∉ ModuleStatement.reserved

instance (text : Text) (plans : List PropertyPlan) (s : FieldStatement) :
    Decidable (Splittable text plans s) :=
  decidable_of_iff _ (splittable_iff text plans s).symm

/-- The part is the edit of a field statement and gives up its planned fields. -/
structure IsPart (text : Text) (plans : List PropertyPlan) (s : FieldStatement)
    (part : EditPart Patch) : Prop where
  range : part.range = ⟨s.extent.lineStart, s.extent.lineEnd⟩
  makes : part.Makes Patch.change text
  fits : ∀ c ∈ part.changes, c.Fits (pieces .initial text)
  edits : part.edits = (statementEdit? text s (remainingLines text s plans false)).toList
  removed : part.changes.flatMap Patch.removed = (plansIn plans s).map (·.field.profile)
  added : part.changes.flatMap Patch.added = (plansIn plans s).map backingProfile
  whole : ∀ front rest, pieces .initial text = front ++ rest →
    (∀ p ∈ front.getLast?, p.isNewline = true) →
      part.range.last < text.lineOf (flat front).byteSize ∨
        text.lineOf (flat front).byteSize ≤ part.range.first

section

/-- The pieces of a statement are settled if its tokens are. -/
theorem isSettled_own (F : FieldsAt source o s)
    (h : ∀ t ∈ tokenize source.text, s.extent.span.start ≤ t.start → t.stop ≤ s.extent.span.stop →
      (Piece.token t.kind t.text).isSettled = true) : ∀ p ∈ F.own, p.isSettled = true := by
  intro p hp
  cases p with
  | blank c => rfl
  | token kind word =>
    obtain ⟨front, back, hown⟩ := append_of_mem hp
    have hps : pieces .initial source.text =
        (F.lead ++ F.gap ++ front) ++ .token kind word :: (back ++ F.rest) := by
      rw [F.pieces, hown]
      simp
    have hspan := F.span_eq
    rw [hown, flat_append front, flat_cons, Text.byteSize_append, Text.byteSize_append] at hspan
    refine h _ (mem_tokenize hps) ?_ ?_
    · rw [hspan, flat_append (F.lead ++ F.gap), Text.byteSize_append]
      exact Nat.le_add_right _ _
    · rw [hspan]
      show (flat (F.lead ++ F.gap ++ front)).byteSize + word.byteSize ≤
        (flat (F.lead ++ F.gap)).byteSize + ((flat front).byteSize + (word.byteSize + _))
      rw [flat_append (F.lead ++ F.gap), Text.byteSize_append]
      omega

/-- What is declared at the level of the module is what its number says. -/
theorem describes_of_mem (hread : read base source = .ok o) (F : FieldsAt source o s)
    (hfields : ∀ plan ∈ plans,
      (plan.field.id, plan.field.selection.span, plan.field.profile) ∈ o.members) :
    ∀ e ∈ F.entries, ∀ plan ∈ plans, plan.field.id = e.2 → Describes plan e.1 := by
  intro e he plan hplan hid
  have hentry := F.members e he
  rw [← hid] at hentry
  exact Prod.mk.inj (eq_of_mem_members hread (hfields plan hplan) hentry)

/-- The edit of a field statement is a part that gives up its planned fields. -/
theorem exists_isPart (hread : read base source = .ok o)
    (ht : Text.ClosedBy source.text.lineEnding source.text)
    (hs : s ∈ o.items.filterMap fields?) (hsome : plansIn plans s ≠ [])
    (hfields : ∀ plan ∈ plans,
      (plan.field.id, plan.field.selection.span, plan.field.profile) ∈ o.members)
    (hnamed : ∀ plan ∈ plans, plan.Named source.text) (hsplit : Splittable source.text plans s) :
    ∃ part, IsPart source.text plans s part := by
  obtain ⟨F⟩ := nonempty_fieldsAt hread hs
  have hdescribes := describes_of_mem hread F hfields
  have hne : F.entries ≠ [] := by
    intro hnil
    rw [plansIn_eq F, hnil] at hsome
    exact hsome rfl
  have hsettled := isSettled_own F hsplit.settled
  have hpieces : pieces .initial source.text = F.lead ++ F.gap ++ (F.own ++ F.rest) := by
    rw [F.pieces, append_assoc (F.lead ++ F.gap)]
  have hhash : hashAfterAll (F.lead ++ F.gap) = false := by
    refine hashAfterAll_eq_false ?_
    rw [← lineBefore_eq hpieces]
    have hash := hsplit.hash
    rwa [F.span_eq] at hash
  have hfirst : ∀ e ∈ (keptEntries (backingOf? plans) F.entries).head?,
      firstWord (source.text.slice e.1.span) ∉ ModuleStatement.reserved := by
    have hfirst := hsplit.first
    rw [F.fields_eq, filter_map, head?_map] at hfirst
    intro e he
    refine hfirst ⟨e.2, e.1.span, e.1.bounds?⟩ (Option.mem_map_of_mem _ ?_)
    rw [keptEntries] at he
    simpa [backingOf?_eq, Function.comp_def] using he
  have hmoved : ∀ e ∈ F.entries, ∀ name ∈ backingOf? plans e.2, isPlainName name = true ∧
      name.Plain ∧ name.fold ∉ ModuleStatement.reserved ∧
        isPlainName (source.text.slice e.1.selection) = true := by
    intro e he name hname
    rw [backingOf?_eq] at hname
    obtain ⟨plan, hplan, rfl⟩ := Option.map_eq_some_iff.mp hname
    obtain ⟨hmem, hid⟩ := planOf?_eq_some hplan
    obtain ⟨-, hbacking, hreserved, hplain⟩ := hnamed plan hmem
    obtain ⟨hname, hrow, -⟩ := isWritable_iff.mp hbacking
    rw [(hdescribes e he plan hmem hid).1] at hplain
    exact ⟨hname, hrow, hreserved, hplain⟩
  obtain ⟨patch, hfits, hmakes, hlines, hremoved, hadded⟩ :=
    F.exists_patch ht hne hdescribes hsettled hhash hmoved hfirst
  refine ⟨_, rfl, hmakes, ?_, by rw [hlines]; rfl, ?_, ?_, ?_⟩
  · exact forall_mem_singleton.mpr hfits
  · rw [← map_profile_movedEntries F hdescribes, ← hremoved]
    exact flatMap_singleton _ _
  · rw [← movedProfiles_eq F hdescribes, ← hadded]
    exact flatMap_singleton _ _
  · intro front rest hps hfront
    have hcut := F.cut
    have houtside := outside_of_run ht.crClosed hps hfront hpieces F.located.run
      (by have := hcut.stop; rwa [F.span_eq] at this)
    show s.extent.lineEnd < _ ∨ _ ≤ s.extent.lineStart
    rw [hcut.lines.1, hcut.lines.2, F.span_eq]
    exact houtside

end

end Encapsulate

end VbaRefactor
