import VbaRefactor.Encapsulate
import VbaRefactor.Proofs.Edit.Parts
import VbaRefactor.Proofs.Syntax.Regrouping

/-!
# The edits of field statements

The lines of a field statement are replaced as a whole. What stands before and after the statement on
them is kept, so the edit makes one change: the texts of the new statements, on lines of their own,
take the place of the statement.
-/

namespace VbaRefactor

open List Text Statement Lexer Edit

variable {f : FieldStatement} {plans : List PropertyPlan} {texts : List Text} {o : Outline}
  {source : Source} {ending text : Text}

namespace Text

/-- Texts on lines of their own, the first behind and the last before what stands on their lines. -/
def glued (before : Text) (texts : List Text) (after : Text) : List Text :=
  match texts with
  | [] => []
  | first :: rest =>
    let lines := (before ++ first) :: rest
    lines.dropLast ++ lines.getLast?.toList.map (· ++ after)

section

variable {before after : Text}

theorem intercalate_glued (ending before after : Text) (hne : texts ≠ []) :
    ending.intercalate (glued before texts after) = before ++ (ending.intercalate texts ++ after) := by
  obtain ⟨first, rest, rfl⟩ := exists_cons_of_ne_nil hne
  have hlast (init : List Text) (last : Text) :
      ending.intercalate (init ++ [last ++ after]) = ending.intercalate (init ++ [last]) ++ after := by
    rw [← closed_append_intercalate ending init (cons_ne_nil _ _),
      ← closed_append_intercalate ending init (cons_ne_nil _ _), intercalate_singleton,
      intercalate_singleton, append_assoc]
  have hfirst : ending.intercalate ((before ++ first) :: rest) =
      before ++ ending.intercalate (first :: rest) := by
    rw [intercalate_cons, intercalate_cons, append_assoc]
  rw [← append_assoc, ← hfirst, glued]
  generalize hlines : (before ++ first) :: rest = lines
  obtain ⟨init, last, rfl⟩ : ∃ init last, lines = init ++ [last] :=
    ⟨_, _, (dropLast_concat_getLast (by rw [← hlines]; exact cons_ne_nil _ _)).symm⟩
  simp [hlast]

theorem glued_ne_nil (before after : Text) (hne : texts ≠ []) : glued before texts after ≠ [] := by
  obtain ⟨first, rest, rfl⟩ := exists_cons_of_ne_nil hne
  simp [glued, getLast?_cons]

/-- Texts with terminators between them have the lines of all of them. -/
theorem splitLines_intercalate_of_crClosed (he : IsTerminator ending) (hne : texts ≠ [])
    (h : ∀ t ∈ texts, CrClosed t) :
    splitLines (ending.intercalate texts) = texts.flatMap splitLines := by
  induction texts with
  | nil => exact absurd rfl hne
  | cons t texts ih =>
    obtain ⟨ht, hrest⟩ := forall_mem_cons.mp h
    cases texts with
    | nil => simp
    | cons next texts =>
      rw [intercalate_cons_cons, append_assoc, splitLines_append_ending he ht,
        ih (cons_ne_nil _ _) hrest]
      rfl

theorem flatMap_splitLines_of_oneLine (h : ∀ t ∈ texts, OneLine t) : texts.flatMap splitLines = texts := by
  induction texts with
  | nil => rfl
  | cons t texts ih =>
    obtain ⟨ht, hrest⟩ := forall_mem_cons.mp h
    rw [flatMap_cons, ht.splitLines, ih hrest]
    rfl

theorem closedBy_concat (h : ∀ t ∈ texts, ClosedBy ending t) : ClosedBy ending (concat texts) := by
  induction texts with
  | nil => exact forall_mem_nil _
  | cons t texts ih =>
    obtain ⟨ht, hrest⟩ := forall_mem_cons.mp h
    exact ht.append (ih hrest)

theorem closedBy_intercalate {sep : Text} (hsep : ClosedBy ending sep)
    (h : ∀ t ∈ texts, ClosedBy ending t) : ClosedBy ending (sep.intercalate texts) := by
  induction texts with
  | nil => exact forall_mem_nil _
  | cons t texts ih =>
    obtain ⟨ht, hrest⟩ := forall_mem_cons.mp h
    cases texts with
    | nil => simpa using ht
    | cons next texts =>
      rw [intercalate_cons_cons]
      exact (ht.append hsep).append (ih hrest)

theorem closedBy_of_mem_glued (h : ∀ t ∈ texts, ClosedBy ending t) (hbefore : ClosedBy ending before)
    (hafter : ClosedBy ending after) : ∀ t ∈ glued before texts after, ClosedBy ending t := by
  cases texts with
  | nil => exact forall_mem_nil _
  | cons first rest =>
    obtain ⟨hfirst, hrest⟩ := forall_mem_cons.mp h
    have hlines : ∀ t ∈ (before ++ first) :: rest, ClosedBy ending t :=
      forall_mem_cons.mpr ⟨hbefore.append hfirst, hrest⟩
    refine forall_mem_append.mpr ⟨fun t ht => hlines t ((dropLast_sublist _).subset ht), ?_⟩
    refine forall_mem_map.mpr fun last hlast => ?_
    exact (hlines last (mem_of_getLast? (Option.mem_toList.mp hlast))).append hafter

end

end Text

/-! ## Statements in the place of others -/

namespace Encapsulate

open Refill (EditPart Chain patchedTo)

variable {α : Type} {view : α → Span × Text}

/-- What stands before a statement on its first line. -/
def textBefore (text : Text) (s : FieldStatement) : Text :=
  text.slice ⟨text.lineStart s.extent.lineStart,
    max s.extent.span.start (text.lineStart s.extent.lineStart)⟩

/-- What stands after a statement on its last line. -/
def textAfter (text : Text) (s : FieldStatement) : Text :=
  text.slice ⟨min s.extent.span.stop (text.lineEnd s.extent.lineEnd), text.lineEnd s.extent.lineEnd⟩

/-- The statement is a part of the text that begins and ends between characters. -/
structure Cut (text : Text) (s : FieldStatement) : Prop where
  start : text.IsCut s.extent.span.start
  stop : text.IsCut s.extent.span.stop
  ordered : s.extent.span.start ≤ s.extent.span.stop
  lines : s.extent.lineStart = text.lineOf s.extent.span.start ∧
    s.extent.lineEnd = text.lineOf s.extent.span.stop

theorem textBefore_eq (h : Cut text f) :
    textBefore text f = text.slice ⟨text.lineStart f.extent.lineStart, f.extent.span.start⟩ := by
  have hle := h.start.on_line.1
  rw [← h.lines.1] at hle
  rw [textBefore, Nat.max_eq_left hle]

theorem textAfter_eq (h : Cut text f) :
    textAfter text f = text.slice ⟨f.extent.span.stop, text.lineEnd f.extent.lineEnd⟩ := by
  have hle := h.stop.on_line.2.1
  rw [← h.lines.2] at hle
  rw [textAfter, Nat.min_eq_left hle]

/-- The edit of a field statement. -/
def statementPart (text : Text) (s : FieldStatement) (texts : List Text) (change : α) : EditPart α where
  range := ⟨s.extent.lineStart, s.extent.lineEnd⟩
  changes := [change]
  edits := (statementEdit? text s (Text.glued (textBefore text s) texts (textAfter text s))).toList

theorem map_lineText {first last : Nat} (hfirst : 0 < first) (hlast : last ≤ (rows text).length) :
    (List.range' first (last + 1 - first)).map text.lineText =
      ((rows text).drop (first - 1)).take (last + 1 - first) := by
  apply ext_getElem?
  intro i
  rw [getElem?_map, getElem?_take, getElem?_drop]
  by_cases hi : i < last + 1 - first
  · have hrow := getElem?_eq_getElem (l := rows text) (i := first - 1 + i) (by omega)
    rw [getElem?_range' hi, if_pos hi, hrow, Option.map_some, Nat.one_mul,
      show first + i = first - 1 + i + 1 by omega, lineText_eq_row hrow]
  · rw [getElem?_eq_none (by rw [length_range']; omega), if_neg hi]
    rfl

theorem statementEdit?_cases {lines : List Text} (hne : lines ≠ []) :
    (lines = (List.range' f.extent.lineStart (f.extent.lineEnd + 1 - f.extent.lineStart)).map
        text.lineText ∧ statementEdit? text f lines = none) ∨
      statementEdit? text f lines =
        some (.replace ⟨f.extent.lineStart, f.extent.lineEnd⟩ (['\n'].intercalate lines)) := by
  rw [statementEdit?, if_neg (by simpa using hne)]
  split
  · exact .inr rfl
  · rename_i hsame
    exact .inl ⟨not_not.mp hsame, rfl⟩

/-- The edit of a field statement puts the texts in its place. -/
theorem makes_statementPart (ht : ClosedBy text.lineEnding text) (hf : Cut text f)
    (hne : texts ≠ []) (htexts : ∀ t ∈ texts, ClosedBy text.lineEnding t) {change : α}
    (hchange : view change = (f.extent.span, text.lineEnding.intercalate texts)) :
    (statementPart text f texts change).Makes view text := by
  have he := isTerminator_lineEnding text
  obtain ⟨hstart, -, hfirst, -⟩ := hf.start.on_line
  obtain ⟨-, hstop, hlastPos, hlast⟩ := hf.stop.on_line
  have hordered := lineOf_mono text hf.ordered
  rw [← hf.lines.1] at hstart hfirst hordered
  rw [← hf.lines.2] at hstop hlastPos hlast hordered
  rw [← length_rows] at hlast
  have hcutStart := ht.isCut_lineStart he (show f.extent.lineStart - 1 < _ by omega)
  have hcutEnd := ht.isCut_lineEnd he (show f.extent.lineEnd - 1 < _ by omega)
  rw [Nat.sub_add_cancel hfirst] at hcutStart
  rw [Nat.sub_add_cancel hlastPos] at hcutEnd
  have hbefore := textBefore_eq hf
  have hafter := textAfter_eq hf
  have hout : (statementPart text f texts change).out view text =
      text.lineEnding.intercalate (glued (textBefore text f) texts (textAfter text f)) := by
    rw [intercalate_glued _ _ _ hne, hbefore, hafter, EditPart.out, statementPart, map_singleton,
      hchange]
    rfl
  have hglued : ∀ t ∈ glued (textBefore text f) texts (textAfter text f),
      ClosedBy text.lineEnding t := by
    refine closedBy_of_mem_glued htexts ?_ ?_
    · rw [hbefore]
      exact ht.slice hcutStart hf.start hstart
    · rw [hafter]
      exact ht.slice hf.stop hcutEnd hstop
  refine ⟨hfirst, hordered, hlast, ?_, ?_, ?_, ?_⟩
  · rw [statementPart, map_singleton, hchange]
    exact ⟨hcutStart.isBoundary, hstart, hf.start.isBoundary, hf.ordered, hf.stop.isBoundary,
      hcutEnd.isBoundary, hstop⟩
  · rw [hout]
    exact closedBy_intercalate (closedBy_ending he) hglued
  · intro e hedit line hline
    have hcases : _ ∨ statementEdit? text f _ = _ :=
      statementEdit?_cases (glued_ne_nil (textBefore text f) (textAfter text f) hne)
    rcases hcases with ⟨-, hedits⟩ | hedits
    · rw [statementPart, hedits] at hedit
      cases hedit
    · rw [statementPart, hedits] at hedit
      obtain rfl := mem_singleton.mp hedit
      exact Within.silent ⟨_, rfl, Nat.le_refl _, hordered, Nat.le_refl _⟩ hline
  · intro m hm
    have hsplit {sep : Text} (hsep : IsTerminator sep) :=
      splitLines_intercalate_of_crClosed hsep
        (glued_ne_nil (textBefore text f) (textAfter text f) hne)
        fun t ht => (hglued t ht).crClosed
    rw [hout, hsplit he]
    have hcases : _ ∨ statementEdit? text f _ = _ :=
      statementEdit?_cases (glued_ne_nil (textBefore text f) (textAfter text f) hne)
    rcases hcases with ⟨hlines, hedits⟩ | hedits
    · rw [map_lineText hfirst hlast] at hlines
      have hone : ∀ t ∈ glued (textBefore text f) texts (textAfter text f), OneLine t := by
        rw [hlines]
        intro t hrow
        exact (ht.plain_of_mem_rows (mem_of_mem_drop (mem_of_mem_take hrow))).oneLine
      have hplaces : m.placesFrom [] (f.extent.lineStart - 1 + 1)
          (f.extent.lineEnd - f.extent.lineStart + 1) = _ :=
        m.placesFrom_of_silent fun _ _ _ => forall_mem_nil _
      rw [Nat.sub_add_cancel hfirst, hm] at hplaces
      rw [flatMap_splitLines_of_oneLine hone, hlines, statementPart, hedits,
        show f.extent.lineEnd + 1 - f.extent.lineStart = f.extent.lineEnd - f.extent.lineStart + 1 by omega]
      exact hplaces
    · rw [← hsplit (.inl rfl), statementPart, hedits]
      exact Refill.placesFrom_singleton m rfl hordered

/-! ## The new texts of a field statement -/

end Encapsulate

theorem Outline.FieldsAt.fields_eq (F : FieldsAt source o f) :
    f.fields = F.entries.map fun e => ⟨e.2, e.1.span, e.1.bounds?⟩ := by
  rw [congrArg FieldStatement.fields F.eq]
  rfl

namespace Encapsulate

/-- The name of the private field that a declared field becomes. -/
def backingOf? (plans : List PropertyPlan) (id : DeclarationId) : Option Text :=
  (plans.find? (·.field.id = id)).map PropertyPlan.backing

section

/-- A plan is about a field that a statement declares. -/
def Describes (plan : PropertyPlan) (d : Declarator) : Prop :=
  plan.field.selection.span = d.selection ∧ plan.field.profile = d.profile

theorem remainingLines_eq (F : Outline.FieldsAt source o f)
    (hplans : ∀ e ∈ F.entries, ∀ plan ∈ plans, plan.field.id = e.2 → Describes plan e.1)
    (hne : regroupedTexts (backingOf? plans) F.entries source.text f.keywords ≠ []) :
    remainingLines source.text f plans false = glued (textBefore source.text f)
        (regroupedTexts (backingOf? plans) F.entries source.text f.keywords)
        (textAfter source.text f) := by
  have hfields := F.fields_eq
  have hnone (id : DeclarationId) :
      (plans.find? (·.field.id = id)).isNone = (backingOf? plans id).isNone := by
    rw [backingOf?, Option.isNone_map]
  have hkept : (f.fields.filter fun d => (plans.find? (·.field.id = d.declaration)).isNone).map
      (fun d => source.text.slice d.span) =
        (keptEntries (backingOf? plans) F.entries).map fun e => source.text.slice e.1.span := by
    rw [hfields, filter_map, map_map, keptEntries]
    simp only [Function.comp_def, hnone]
  have hmoved : (f.fields.filterMap fun d => (plans.find? (·.field.id = d.declaration)).map fun plan =>
      backingField source.text plan d) =
        F.entries.filterMap fun e => (backingOf? plans e.2).map (movedText source.text e.1) := by
    rw [hfields, filterMap_map]
    refine filterMap_congr ?_
    intro e hentry
    show (plans.find? (·.field.id = e.2)).map _ = _
    rw [backingOf?, Option.map_map]
    cases hfind : plans.find? (·.field.id = e.2) with
    | none => rfl
    | some plan =>
      have hid : plan.field.id = e.2 := by simpa using find?_some hfind
      obtain ⟨hselection, hprofile⟩ := hplans e hentry plan (mem_of_find?_eq_some hfind) hid
      have hevents : plan.field.isWithEvents = e.1.profile.isWithEvents :=
        congrArg Profile.isWithEvents hprofile
      simp only [Option.map_some, Function.comp_apply, backingField, movedText, afterName,
        hselection, hevents]
  have htexts : (if ((f.fields.filter fun d =>
        (plans.find? (·.field.id = d.declaration)).isNone).map fun d =>
          source.text.slice d.span).isEmpty then []
      else [Text.concat [source.text.slice f.keywords, " ", (", " : Text).intercalate
        ((f.fields.filter fun d => (plans.find? (·.field.id = d.declaration)).isNone).map fun d =>
          source.text.slice d.span)]]) ++
      (f.fields.filterMap fun d => (plans.find? (·.field.id = d.declaration)).map fun plan =>
        backingField source.text plan d) =
      regroupedTexts (backingOf? plans) F.entries source.text f.keywords := by
    rw [hkept, hmoved, regroupedTexts, keptTexts, isEmpty_map, isEmpty_map, map_map]
    rfl
  rw [remainingLines]
  simp only [Bool.false_eq_true, if_false]
  rw [htexts]
  obtain ⟨first, rest, hfirst⟩ := exists_cons_of_ne_nil hne
  rw [hfirst]
  rfl

end

end Encapsulate

/-! ## Where the variables stand -/

theorem Statement.StandsIn.cut_cover {s : Statement} (h : s.StandsIn text) {span : Span}
    (hspan : s.cover? = some span) :
    text.IsCut span.start ∧ text.IsCut span.stop ∧ span.start ≤ span.stop ∧
      ∀ t ∈ s, span.start ≤ t.start ∧ t.stop ≤ span.stop := by
  have hne : s ≠ [] := by
    rintro rfl
    cases hspan
  obtain ⟨first, hfirst, last, hlast, hcover, hall⟩ := cover?_eq h hne
  rw [hspan] at hcover
  cases hcover
  have hlt := h.lt hlast
  have hle := (hall last hlast).1
  exact ⟨h.isCut_start hfirst, h.isCut_stop hlast, by show first.start ≤ last.stop; omega, hall⟩

namespace Outline.FieldsAt

variable (F : FieldsAt source o f)

theorem standsIn : F.statement.StandsIn source.text := standsIn_of_mem_ofTokens F.mem

include F in
theorem cut : Encapsulate.Cut source.text f := by
  obtain ⟨hstart, hstop, hle, -⟩ := F.standsIn.cut_cover F.partAt.cover
  rw [← F.span_eq] at hstart hstop hle
  exact ⟨hstart, hstop, hle, by rw [congrArg FieldStatement.extent F.eq]; exact ⟨rfl, rfl⟩⟩

include F in
theorem cut_keywords : source.text.IsCut f.keywords.start ∧ source.text.IsCut f.keywords.stop ∧
    f.keywords.start ≤ f.keywords.stop := by
  obtain ⟨hstart, hstop, hle, -⟩ :=
    (F.standsIn.sublist (take_sublist _ _)).cut_cover F.cover_keywords
  exact ⟨hstart, hstop, hle⟩

theorem cut_of_mem_entries {e : Declarator × DeclarationId} (he : e ∈ F.entries) :
    source.text.IsCut e.1.span.start ∧ source.text.IsCut e.1.span.stop ∧
      e.1.span.start ≤ e.1.span.stop ∧ source.text.IsCut e.1.selection.stop ∧
      e.1.selection.stop ≤ e.1.span.stop := by
  have hd := fst_mem_of_mem_zipIdx he
  rw [declarators, if_pos F.lt] at hd
  obtain ⟨part, hpart, hd⟩ := mem_filterMap.mp hd
  obtain ⟨front, back, hparts⟩ := append_of_mem hpart
  obtain ⟨before, after, hdrop, -⟩ := exists_of_splitAtCommas hparts
  have hsub : part.Sublist F.statement := by
    refine List.Sublist.trans ?_ (drop_sublist (F.statement.variablesAt F.index) _)
    rw [hdrop]
    exact (sublist_append_right before part).trans (sublist_append_left _ after)
  have hstands := F.standsIn.sublist hsub
  obtain ⟨name, rest, bounds?, type?, hname, -, -, hspan, hselection, -⟩ := exists_of_declarator? hd
  obtain ⟨hstart, hstop, hle, hall⟩ := hstands.cut_cover hspan
  have hmem : name ∈ part := (fromName_sublist part).subset (by rw [hname]; simp)
  rw [hselection]
  exact ⟨hstart, hstop, hle, hstands.isCut_stop hmem, (hall name hmem).2⟩

/-- The new statements keep to the line breaks of the text. -/
theorem closedBy_regroupedTexts {name? : DeclarationId → Option Text}
    (ht : ClosedBy ending source.text)
    (hnames : ∀ e ∈ F.entries, ∀ name ∈ name? e.2, name.Plain) :
    ∀ t ∈ regroupedTexts name? F.entries source.text f.keywords, ClosedBy ending t := by
  refine forall_mem_append.mpr ⟨?_, ?_⟩
  · rw [keptTexts]
    split
    · exact forall_mem_nil _
    obtain ⟨hstart, hstop, hle⟩ := F.cut_keywords
    refine forall_mem_singleton.mpr (closedBy_concat ?_)
    simp only [forall_mem_cons]
    refine ⟨ht.slice hstart hstop hle, closedBy_of_plain (by decide), ?_, forall_mem_nil _⟩
    refine closedBy_intercalate (closedBy_of_plain (by decide)) ?_
    refine forall_mem_map.mpr fun d hd => ?_
    obtain ⟨e, he, rfl⟩ := mem_map.mp hd
    obtain ⟨hstart, hstop, hle, -, -⟩ := F.cut_of_mem_entries (mem_of_mem_filter he)
    exact ht.slice hstart hstop hle
  · intro t htext
    obtain ⟨e, he, hname⟩ := mem_filterMap.mp htext
    obtain ⟨name, hmem, rfl⟩ := Option.map_eq_some_iff.mp hname
    obtain ⟨-, hstop, -, hselection, hle⟩ := F.cut_of_mem_entries he
    refine closedBy_concat ?_
    simp only [forall_mem_cons]
    refine ⟨closedBy_of_plain (by decide), ?_, closedBy_of_plain (hnames e he name hmem),
      ht.slice hselection hstop hle, forall_mem_nil _⟩
    split <;> exact closedBy_of_plain (by decide)

theorem regroupedTexts_ne_nil (name? : DeclarationId → Option Text) (hne : F.entries ≠ []) :
    regroupedTexts name? F.entries source.text f.keywords ≠ [] := by
  obtain ⟨e, he⟩ := exists_mem_of_ne_nil _ hne
  rw [regroupedTexts, Ne, append_eq_nil_iff, not_and_or]
  cases hname : name? e.2 with
  | none =>
    left
    have hkept : e ∈ keptEntries name? F.entries := mem_filter.mpr ⟨he, by simp [hname]⟩
    rw [keptTexts, if_neg]
    · exact cons_ne_nil _ _
    · rw [isEmpty_map, List.isEmpty_iff]
      exact ne_nil_of_mem hkept
  | some name =>
    right
    have hmoved : (name? e.2).map (movedText source.text e.1) = some (movedText source.text e.1 name) := by
      rw [hname]
      rfl
    exact ne_nil_of_mem (mem_filterMap.mpr ⟨e, he, hmoved⟩)

open Encapsulate Lexer in
/-- The edit of a field statement that gives up fields is a change that fits its place. -/
theorem exists_patch (ht : ClosedBy source.text.lineEnding source.text) (hne : F.entries ≠ [])
    (hplans : ∀ e ∈ F.entries, ∀ plan ∈ plans, plan.field.id = e.2 → Describes plan e.1)
    (hsettled : ∀ p ∈ F.own, p.isSettled = true) (hhash : hashAfterAll (F.lead ++ F.gap) = false)
    (hmoved : ∀ e ∈ F.entries, ∀ name ∈ backingOf? plans e.2, isPlainName name = true ∧ name.Plain ∧
      name.fold ∉ ModuleStatement.reserved ∧ isPlainName (source.text.slice e.1.selection) = true)
    (hfirst : ∀ e ∈ (keptEntries (backingOf? plans) F.entries).head?,
      firstWord (source.text.slice e.1.span) ∉ ModuleStatement.reserved) :
    ∃ patch : Patch, patch.Fits (Lexer.pieces .initial source.text) ∧ (statementPart source.text f
        (regroupedTexts (backingOf? plans) F.entries source.text f.keywords) patch).Makes
          Patch.change source.text ∧
      remainingLines source.text f plans false = glued (textBefore source.text f)
          (regroupedTexts (backingOf? plans) F.entries source.text f.keywords)
          (textAfter source.text f) ∧
      patch.removed = (movedEntries (backingOf? plans) F.entries).map (·.1.profile) ∧
      patch.added = movedProfiles (backingOf? plans) F.entries := by
  have he := isTerminator_lineEnding source.text
  have htexts := F.regroupedTexts_ne_nil (backingOf? plans) hne
  obtain ⟨statements, hstatements⟩ := F.exists_regroups hsettled (fun e hentry name hname => by
      obtain ⟨hplain, -, hreserved, hold⟩ := hmoved e hentry name hname
      exact ⟨hplain, hreserved, hold⟩) hfirst
  have hsome : statements ≠ [] := by
    rintro rfl
    exact htexts hstatements.texts.symm
  have hflat : flat (linePieces source.text.lineEnding statements) =
      source.text.lineEnding.intercalate
        (regroupedTexts (backingOf? plans) F.entries source.text f.keywords) := by
    rw [← hstatements.texts, flat_linePieces]
  have hpieces : Lexer.pieces .initial source.text = F.lead ++ F.gap ++ (F.own ++ F.rest) := by
    rw [F.pieces, append_assoc (F.lead ++ F.gap)]
  have hfits := Patch.Fits.fields hpieces
    (F.fieldsChange he hstatements hsome ht.crClosed hhash hsettled)
  rw [← F.span_eq, hflat] at hfits
  refine ⟨_, hfits, makes_statementPart ht F.cut htexts ?_ rfl, remainingLines_eq F hplans htexts,
    rfl, rfl⟩
  exact F.closedBy_regroupedTexts ht fun e hentry name hname => (hmoved e hentry name hname).2.1

end Outline.FieldsAt

end VbaRefactor
