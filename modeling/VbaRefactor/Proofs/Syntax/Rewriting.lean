import VbaRefactor.Proofs.Edit.Parts
import VbaRefactor.Proofs.Syntax.Preceding
import VbaRefactor.Proofs.Syntax.Weaving

/-!
# What edited modules declare

Changes that fit their places among the pieces of a text, made by edits of its lines, leave a text that
can be read. What it declares differs from what the text declared by what the changes remove and add.
-/

namespace VbaRefactor

open List Text

namespace Lexer

open Refill (EditPart Made changesOf editsOf)

/-- An edit inserts lines at module level that declare something, before a line or behind all lines. -/
inductive Inserts (text : Text) (found : List Profile) : Edit → Prop
  | before {front new rest : List Piece} {added : Text} (hps : pieces .initial text = front ++ rest)
      (hchange : BlockChange front new rest found)
      (hrows : ∀ row ∈ added.splitLines, row.Plain)
      (hnew : flat new = Text.closed text.lineEnding added.splitLines) :
      Inserts text found (.insert (text.lineOf (flat front).byteSize) added)
  | behind {new : List Piece} {added : Text}
      (hchange : EndingChange (pieces .initial text) new found)
      (hholds : ∀ p ∈ (pieces .initial text).getLast?, p.HoldsBreak)
      (hnew : flat new = Text.opened text.lineEnding added.splitLines) :
      Inserts text found (.insert ((Text.rows text).length + 1) added)

/-! ## Lines that begin behind line ends -/

section

variable {text : Text} {front rest : List Piece} (hclosed : text.CrClosed)
  (hps : pieces .initial text = front ++ rest) (hfront : ∀ p ∈ front.getLast?, p.isNewline = true)

include hclosed hps hfront

/-- Behind a line end stands a line feed. -/
theorem getLast?_flat_newline : ∀ c ∈ (flat front).getLast?, c = '\n' := by
  intro c hc
  rcases eq_nil_or_concat front with rfl | ⟨init, p, rfl⟩
  · cases hc
  rw [concat_eq_append] at hps hfront hc
  have hp : p.isNewline = true := hfront p (by simp)
  have hlex := lexes_pieces .initial text
  have hflat : flat (pieces .initial text) = text := pieces_text _ _
  have hholds := holdsBreak_of_lexes hlex (by rw [hflat]; exact hclosed)
    (show pieces .initial text = init ++ p :: rest by rw [hps]; simp)
  rcases hholds with hholds | ⟨-, hnot⟩
  · match p, hp with
    | .token .newline word, _ =>
      have hword : word.getLast? = some '\n' := hholds
      rw [flat_append, flat_cons, flat_nil, append_nil, Piece.text, getLast?_append, hword] at hc
      cases hc
      rfl
  · rw [hp] at hnot
    cases hnot

theorem isCut_newline : text.IsCut (flat front).byteSize := by
  refine ⟨flat front, flat rest, ?_, rfl, ?_⟩
  · rw [← flat_append, ← hps]
    exact (pieces_text _ _).symm
  · rintro ⟨hcr, -⟩
    cases getLast?_flat_newline hclosed hps hfront _ hcr

/-- A line begins behind a line end. -/
theorem lineStart_newline :
    text.lineStart (text.lineOf (flat front).byteSize) = (flat front).byteSize := by
  have htext : text = flat front ++ ([] ++ flat rest) := by
    rw [nil_append, ← flat_append, ← hps]
    exact (pieces_text _ _).symm
  exact lineStart_lineOf htext (forall_mem_nil _) (getLast?_flat_newline hclosed hps hfront)

/-- No line begins inside pieces without a line end. -/
theorem outside_of_run {lead own behind : List Piece}
    (hown : pieces .initial text = lead ++ (own ++ behind)) (hrun : ∀ p ∈ own, p.isSeparator = false)
    (hcut : text.IsCut ((flat lead).byteSize + (flat own).byteSize)) :
    text.lineOf ((flat lead).byteSize + (flat own).byteSize) < text.lineOf (flat front).byteSize ∨
      text.lineOf (flat front).byteSize ≤ text.lineOf (flat lead).byteSize := by
  rcases Nat.lt_or_ge ((flat lead).byteSize + (flat own).byteSize) (flat front).byteSize with hlt | hge
  · left
    have hstart := lineStart_newline hclosed hps hfront
    have hle := lineOf_mono text (Nat.le_of_lt hlt)
    refine Nat.lt_of_le_of_ne hle fun heq => ?_
    have hbefore := hcut.on_line.1
    rw [heq, hstart] at hbefore
    omega
  · right
    rcases append_eq_append_iff.mp (hps.symm.trans hown) with ⟨mid, rfl, -⟩ | ⟨mid, rfl, hmid⟩
    · rw [flat_append, byteSize_append]
      exact lineOf_mono text (Nat.le_add_right _ _)
    -- The last of these pieces is a line end, so there are none of them.
    have hlex := lexes_pieces .initial text
    rw [hps, append_assoc] at hlex
    rw [flat_append, byteSize_append] at hge
    obtain ⟨more, hown', -⟩ := exists_between (lexes_append.mp hlex).2 hmid.symm (by omega)
    rcases eq_nil_or_concat mid with rfl | ⟨init, p, rfl⟩
    · exact Nat.le_of_eq (by rw [append_nil])
    · have hp := isSeparator_of_isNewline (hfront p (by simp))
      rw [hrun p (by rw [hown']; simp)] at hp
      cases hp

end

/-! ## The edited text -/

/-- Changes on lines of their own, made by edits of these lines, and lines that are inserted besides. -/
structure Rewrites (text : Text) (parts : List (EditPart Patch)) (insert? : Option Edit)
    (found : List Profile) : Prop where
  makes : ∀ part ∈ parts, part.Makes Patch.change text
  apart : parts.Pairwise fun a b => a.range.last < b.range.first ∨ b.range.last < a.range.first
  fits : ∀ c ∈ changesOf parts, c.Fits (pieces .initial text)
  ranged : ∀ e ∈ editsOf parts, e.range?.isSome = true
  /-- No line begins inside the lines of a change. -/
  whole : ∀ front rest, pieces .initial text = front ++ rest →
    (∀ p ∈ front.getLast?, p.isNewline = true) → ∀ part ∈ parts,
      part.range.last < text.lineOf (flat front).byteSize ∨
        text.lineOf (flat front).byteSize ≤ part.range.first
  inserted : insert? = none ∧ found = [] ∨ ∃ e, insert? = some e ∧ Inserts text found e

section

variable {base : DeclarationId} {source : Source} {o : Outline} {parts : List (EditPart Patch)}
  {edits : List Edit} {found : List Profile} (hread : Outline.read base source = .ok o)
  (ht : ClosedBy source.text.lineEnding source.text)
  (hreaches : ∀ e ∈ edits, e.Reaches source.text.lines.length)

include hread ht hreaches

/-- The text that edits make of a module, read again. -/
theorem exists_read_of_made (hmade : Made Patch.change source.text parts)
    (hfits : ∀ c ∈ changesOf parts, c.Fits (pieces .initial source.text)) (added? : Option Text)
    {cells : List Cell}
    (hsame : SameEffect edits
      (editsOf parts ++ (added?.map (Edit.insert ((rows source.text).length + 1))).toList))
    (hcells : Weave (pieces .initial source.text) [] cells [] found)
    (hholds : cells = [] ∨ ∀ p ∈ (pieces .initial source.text).getLast?, p.HoldsBreak)
    (hflat : flat (newPieces cells) =
      opened source.text.lineEnding (added?.toList.flatMap splitLines))
    (base' : DeclarationId) :
    let lines := ModuleLines.ofText source.text
    ∃ o', Outline.read base' { source with text := lines.joined (lines.edited edits) } = .ok o' ∧
      (o'.profiles ++ (changesOf parts).flatMap Patch.removed).Perm
        (o.profiles ++ ((changesOf parts).flatMap Patch.added ++ found)) := by
  have htext : flat (pieces .initial source.text) = source.text := pieces_text _ _
  have hjoined := hmade.joined_edited ht hreaches hsame
  obtain ⟨hchain, -⟩ := hmade.patched_outs ht (isBoundary_zero _) fun _ _ => Nat.zero_le _
  obtain ⟨hpos, hpairs⟩ := hchain.pairwise
  obtain ⟨cs, hweave, hout⟩ := exists_weave (lexes_pieces .initial source.text)
    (by rw [htext]; exact ht.crClosed) (nil_append _).symm hfits (pairwise_map.mp hpairs)
    (fun c hc => Nat.zero_le _) hcells hholds
  rw [append_nil] at hweave
  refine Outline.exists_read_of_weave hread hweave ?_
  rw [hout, htext, hflat]
  exact hjoined

/-- What the module declares after all changes differs by what they remove and add. -/
theorem Rewrites.exists_read {insert? : Option Edit} (h : Rewrites source.text parts insert? found)
    {b : EditBuffer} (hkeeps : b.Keeps edits)
    (hinserts : edits.filter (·.range?.isNone) = insert?.toList)
    (hranges : ∀ e, e.range?.isSome = true → (e ∈ edits ↔ e ∈ editsOf parts))
    (base' : DeclarationId) :
    let lines := ModuleLines.ofText source.text
    ∃ o', Outline.read base' { source with text := lines.joined (lines.edited edits) } = .ok o' ∧
      (o'.profiles ++ (changesOf parts).flatMap Patch.removed).Perm
        (o.profiles ++ ((changesOf parts).flatMap Patch.added ++ found)) := by
  intro lines
  obtain ⟨sorted, hperm, hmade⟩ := Refill.exists_made h.makes h.apart
  have hchanges : (changesOf sorted).Perm (changesOf parts) := hperm.flatMap_right _
  have hedits : (editsOf sorted).Perm (editsOf parts) := hperm.flatMap_right _
  have hremoved := hchanges.flatMap_right Patch.removed
  have hadded := hchanges.flatMap_right Patch.added
  have hfits : ∀ c ∈ changesOf sorted, c.Fits (pieces .initial source.text) :=
    fun c hc => h.fits c (hchanges.mem_iff.mp hc)
  have hranged : ∀ e ∈ editsOf sorted, e.range?.isSome = true :=
    fun e he => h.ranged e (hedits.mem_iff.mp he)
  have hnone := Edit.filter_isNone_eq_nil hranged
  -- Edits of ranges may come in the order of the lines.
  have hsame {other : List Edit} (hfilter : other.filter (·.range?.isNone) = insert?.toList)
      (hmem : ∀ e, e.range?.isSome = true → (e ∈ other ↔ e ∈ editsOf sorted)) :
      SameEffect edits other :=
    hkeeps.sameEffect (hinserts.trans hfilter.symm) fun e he =>
      (hranges e he).trans (hedits.mem_iff.symm.trans (hmem e he).symm)
  rcases h.inserted with ⟨rfl, rfl⟩ | ⟨e, rfl, hinserted⟩
  · obtain ⟨o', ho', hprofiles⟩ := exists_read_of_made hread ht hreaches hmade hfits
      none (hsame (by simpa using hnone) (by simp)) .nil (.inl rfl) rfl base'
    refine ⟨o', ho', (hremoved.symm.append_left _).trans (hprofiles.trans ?_)⟩
    exact (hadded.append_right _).append_left _
  · cases hinserted with
    | @before front new rest added hps hchange hrows hnew =>
      have hstart := lineStart_newline ht.crClosed hps hchange.prev
      obtain ⟨-, -, hpos, hle⟩ := (isCut_newline ht.crClosed hps hchange.prev).on_line
      rw [← length_rows] at hle
      let patch : Patch := ⟨⟨(flat front).byteSize, (flat front).byteSize⟩, flat new, [], found⟩
      have hpatch : Patch.change patch = (⟨source.text.lineStart (source.text.lineOf (flat front).byteSize),
          source.text.lineStart (source.text.lineOf (flat front).byteSize)⟩,
            closed source.text.lineEnding added.splitLines) := by
        rw [hstart, ← hnew]
        rfl
      obtain ⟨before, after, parts', rfl, hmade', -, hchanges', hedits'⟩ :=
        hmade.exists_insert ht hpos hle
          (fun part hpart => h.whole front rest hps hchange.prev part (hperm.mem_iff.mp hpart)) hrows
          hpatch
      have hparts : changesOf (before ++ after) = changesOf before ++ changesOf after :=
        flatMap_append
      have hparts' : editsOf (before ++ after) = editsOf before ++ editsOf after := flatMap_append
      rw [hparts] at hfits hremoved hadded
      rw [hparts'] at hnone hsame
      have hfits' : ∀ c ∈ changesOf parts', c.Fits (pieces .initial source.text) := by
        rw [forall_mem_append] at hfits
        rw [hchanges', forall_mem_append, forall_mem_cons]
        exact ⟨hfits.1, .block hps hchange, hfits.2⟩
      have heffect : SameEffect edits (editsOf parts' ++ []) := by
        rw [append_nil, hedits']
        refine hsame ?_ ?_
        · rw [filter_append, append_eq_nil_iff] at hnone
          rw [filter_append, hnone.1, filter_cons_of_pos rfl, hnone.2]
          rfl
        · intro e he
          rw [mem_append, mem_append, mem_cons]
          refine or_congr_right (or_iff_right ?_)
          rintro rfl
          cases he
      obtain ⟨o', ho', hprofiles⟩ := exists_read_of_made hread ht hreaches hmade' hfits'
        none heffect .nil (.inl rfl) rfl base'
      rw [hchanges', flatMap_append, flatMap_append, flatMap_cons, flatMap_cons,
        append_nil] at hprofiles
      rw [flatMap_append] at hremoved hadded
      refine ⟨o', ho', (hremoved.symm.append_left _).trans (hprofiles.trans (.append_left _ ?_))⟩
      refine .trans ?_ (hadded.append_right _)
      rw [append_assoc]
      exact perm_append_comm.append_left _
    | @behind new added hchange hholds hnew =>
      obtain ⟨o', ho', hprofiles⟩ := exists_read_of_made hread ht hreaches hmade hfits
        (some added) (hsame (by simp [hnone]; rfl) (by
          intro e he
          rw [mem_append]
          refine or_iff_left ?_
          rintro hmem
          cases mem_singleton.mp hmem
          cases he)) (.ending hchange) (.inr hholds) (by simpa [newPieces, Cell.new] using hnew) base'
      refine ⟨o', ho', (hremoved.symm.append_left _).trans (hprofiles.trans ?_)⟩
      exact (hadded.append_right _).append_left _

end

end Lexer

end VbaRefactor
