import VbaRefactor.Proofs.Edit.Renaming
import VbaRefactor.Proofs.Syntax.Rewriting
import VbaRefactor.Proofs.Syntax.Written

/-!
# Words of members that are renamed

A word in the body of a member can become another word where neither of them ends a member. Refills
that rename such words leave all that the module declares.
-/

namespace VbaRefactor

open List Text

variable {base : DeclarationId} {o : Outline} {source : Source} {word : Text}

namespace Lexer

open Refill (EditPart Made changesOf editsOf)

/-- The words that begin and close the end of a member. -/
def memberWords : List Text :=
  ["end".toList, "sub".toList, "function".toList, "property".toList]

/-- A plain word stands here in the text that neither it nor the new word keeps from being read in the
same way. -/
structure Replaceable (text : Text) (span : Span) (new : Text) : Prop where
  plain : isPlainName (text.slice span) = true
  inner : (text.slice span).fold ∉ memberWords ∧ new.fold ∉ memberWords
  prev : ∀ t ∈ tokenize text, t.stop = span.start → (Piece.token t.kind t.text).admitsWord = true

theorem replaceable_iff (text : Text) (span : Span) (new : Text) :
    Replaceable text span new ↔ isPlainName (text.slice span) = true ∧
      ((text.slice span).fold ∉ memberWords ∧ new.fold ∉ memberWords) ∧
      ∀ t ∈ tokenize text, t.stop = span.start → (Piece.token t.kind t.text).admitsWord = true :=
  ⟨fun ⟨hplain, hinner, hprev⟩ => ⟨hplain, hinner, hprev⟩,
    fun ⟨hplain, hinner, hprev⟩ => ⟨hplain, hinner, hprev⟩⟩

instance (text : Text) (span : Span) (new : Text) : Decidable (Replaceable text span new) :=
  decidable_of_iff _ (replaceable_iff text span new).symm

theorem isInner_of_not_mem {closing : Text} (hclosing : (Level.member closing).Standard)
    (h : word.fold ∉ memberWords) : IsInner closing word := by
  refine ⟨fun hend => h (by rw [hend]; decide), ?_⟩
  rintro rfl
  exact h (mem_cons_of_mem _ hclosing)

/-- A word that is read as code is a name. -/
theorem kind_of_isPlainName {ctx : Context} {rest : Text} {kind : TokenKind}
    (h : Cuts ctx rest (.token kind word)) (hword : isPlainName word = true)
    (hkind : kind.isSignificant = true) : kind = .identifier := by
  cases word with
  | nil => cases h
  | cons c tail =>
    rw [isPlainName, Bool.and_eq_true] at hword
    have hrecognize := h.2
    rw [recognize_nameStart (by simp [isNameStart, hword.1])] at hrecognize
    split at hrecognize
    · rw [← (Prod.mk.inj hrecognize).1] at hkind
      cases hkind
    · exact (Prod.mk.inj hrecognize).1.symm

theorem admitsWord_getLast? {text : Text} {lead rest : List Piece}
    (hps : pieces .initial text = lead ++ rest)
    (h : ∀ t ∈ tokenize text, t.stop = (flat lead).byteSize →
      (Piece.token t.kind t.text).admitsWord = true) :
    ∀ p ∈ lead.getLast?, p.admitsWord = true := by
  intro p hp
  obtain ⟨init, rfl⟩ := getLast?_eq_some_iff.mp hp
  cases p with
  | blank c => rfl
  | token kind word =>
    rw [append_assoc] at hps
    refine h _ (mem_tokenize hps) ?_
    rw [flat_append, byteSize_append, flat_cons, flat_nil, append_nil]
    rfl

section

variable {body : MemberStatement} {t : Token} {new : Text}
  (hread : Outline.read base source = .ok o) (hbody : body ∈ o.bodies) (ht : t ∈ body.tokens)
  (h : Replaceable source.text t.span new)

include hread hbody ht h

/-- The word among the pieces of the text, inside a member. -/
theorem Replaceable.exists_piece : ∃ lead rest closing found q,
    pieces .initial source.text = lead ++ .token .identifier t.text :: rest ∧
      source.text = flat lead ++ (t.text ++ flat rest) ∧
      t.span = ⟨(flat lead).byteSize, (flat lead).byteSize + t.text.byteSize⟩ ∧
      source.text.slice t.span = t.text ∧ (Level.member closing).Standard ∧
      advance .code [] lead = some (found, .member closing, q) := by
  obtain ⟨lead, rest, closing, found, q, hps, hkind, hstart, hstandard, hadvance⟩ :=
    Outline.exists_piece_of_mem_bodies hread hbody ht
  have hflat : flat (pieces .initial source.text) = source.text := pieces_text _ _
  rw [hps, flat_append] at hflat
  have hspan : t.span = ⟨(flat lead).byteSize, (flat lead).byteSize + t.text.byteSize⟩ := by
    rw [hstart]
    rfl
  have hslice : source.text.slice t.span = t.text := by
    rw [hspan]
    exact HasAt.slice_eq ⟨_, _, hflat.symm, rfl⟩
  have hlex := lexes_pieces .initial source.text
  rw [hps, lexes_append] at hlex
  rw [kind_of_isPlainName hlex.2.1 (hslice ▸ h.plain) hkind] at hps
  exact ⟨lead, rest, closing, found, q, hps, hflat.symm, hspan, hslice, hstandard, hadvance⟩

/-- To rename the word is a change that fits its place. -/
theorem Replaceable.fits (hnew : isWritable new = true) :
    Patch.Fits (pieces .initial source.text) ⟨t.span, new, [], []⟩ := by
  obtain ⟨lead, rest, closing, found, q, hps, -, hspan, hslice, hstandard, hadvance⟩ :=
    h.exists_piece hread hbody ht
  obtain ⟨hplain, ⟨hold, hnewInner⟩, hprev⟩ := h
  obtain ⟨hnewPlain, -, hrem⟩ := isWritable_iff.mp hnew
  rw [hslice] at hplain hold
  rw [hspan] at hprev ⊢
  refine .word hps ⟨admitsWord_getLast? hps hprev, ⟨hplain, hnewPlain⟩, hrem, closing,
    isInner_of_not_mem hstandard hold, isInner_of_not_mem hstandard hnewInner, ?_⟩
  intro found' level q' hfound
  cases hadvance.symm.trans hfound
  rfl

/-- The word begins and ends between characters of one line. -/
theorem Replaceable.isCut (htext : ClosedBy source.text.lineEnding source.text) :
    source.text.IsCut t.span.start ∧ source.text.IsCut t.span.stop ∧
      source.text.lineOf t.span.start = source.text.lineOf t.span.stop := by
  obtain ⟨lead, rest, -, -, -, -, hflat, hspan, hslice, -, -⟩ := h.exists_piece hread hbody ht
  have hplain := h.plain
  rw [hslice] at hplain
  have hall := all_eq_true.mp (all_of_isPlainName hplain)
  have hone : OneLine t.text := by
    refine ⟨fun hmem => ?_, fun hmem => ?_⟩ <;> cases hall _ hmem
  have hne : t.text ≠ [] := by
    rintro hnil
    rw [hnil] at hplain
    cases hplain
  have hmeet := hone.meet_append hne (flat lead) (flat rest)
  have hstart : source.text.IsCut t.span.start := by
    rw [hspan]
    exact ⟨_, _, hflat, rfl, hmeet⟩
  have hstop : source.text.IsCut t.span.stop := by
    rw [hspan]
    refine ⟨flat lead ++ t.text, flat rest, by rw [hflat, append_assoc], ?_, (hone.meet hmeet).2⟩
    exact byteSize_append _ _
  refine ⟨hstart, hstop, ?_⟩
  have hclosed := htext.slice hstart hstop (Nat.le_add_right _ _)
  rw [show (⟨t.span.start, t.span.stop⟩ : Span) = t.span from rfl, hslice] at hclosed
  rw [hspan]
  exact (lineOf_plain hflat (hclosed.plain_of_oneLine hone) hmeet).symm

end

/-! ## Refills of words -/

/-- The refill puts a word in the place of another one in a member. -/
def RenamesWord (source : Source) (o : Outline) (r : Refill) : Prop :=
  ∃ body ∈ o.bodies, ∃ t ∈ body.tokens, ∃ new, isWritable new = true ∧
    Replaceable source.text t.span new ∧ r = .replacing t.span new

/-- The change that a refill of a word makes. -/
def wordPatch (r : Refill) : Patch := ⟨r.region, r.literal, [], []⟩

/-- Words are renamed line by line, and nothing is declared otherwise. -/
theorem exists_renameParts {refills : List Refill} {edits : List Edit}
    (hread : Outline.read base source = .ok o)
    (ht : ClosedBy source.text.lineEnding source.text)
    (hwords : ∀ r ∈ refills, RenamesWord source o r)
    (hedits : Refill.edits source.text refills = .ok edits) :
    ∃ parts, Made Patch.change source.text parts ∧ editsOf parts = edits ∧
      (∀ e ∈ edits, e.range?.isSome = true) ∧
      (∀ c ∈ changesOf parts, c.Fits (pieces .initial source.text) ∧ c.removed = [] ∧ c.added = []) ∧
      ∀ part ∈ parts, ∃ r ∈ refills, part.range = .single (source.text.lineOf r.region.start) := by
  have hword : ∀ r ∈ refills, r.Sound source.text ∧ r.Replaces source.text ∧ Plain r.literal ∧
      source.text.lineOf r.region.start = source.text.lineOf r.region.stop ∧
      (wordPatch r).Fits (pieces .initial source.text) := by
    intro r hr
    obtain ⟨body, hbody, t, htoken, new, hnew, hreplaceable, rfl⟩ := hwords r hr
    obtain ⟨hstart, hstop, hline⟩ := hreplaceable.isCut hread hbody htoken ht
    obtain ⟨_, _, _, _, _, -, -, -, hslice, -, -⟩ := hreplaceable.exists_piece hread hbody htoken
    have hpos : 0 < t.text.byteSize := by
      have hplain := hreplaceable.plain
      rw [hslice] at hplain
      refine Nat.pos_of_ne_zero fun hzero => ?_
      rw [byteSize_eq_zero hzero] at hplain
      cases hplain
    have hlt : t.span.start < t.span.stop := Nat.lt_add_of_pos_right hpos
    have hplain := (isWritable_iff.mp hnew).2.1
    exact ⟨⟨Nat.le_of_lt hlt, hstart, hstop, forall_mem_singleton.mpr ⟨hstart, hstop⟩,
        forall_mem_singleton.mpr hplain⟩,
      ⟨⟨new, rfl⟩, hlt, hstart.isBoundary, hstop.isBoundary⟩, hplain, hline,
      hreplaceable.fits hread hbody htoken hnew⟩
  have hview : ∀ r ∈ refills, Patch.change (wordPatch r) = (r.region, r.literal) := fun _ _ => rfl
  obtain ⟨parts, hmade, heditsOf, hranged, hchanges, hranges⟩ := Refill.exists_wordParts ht
    (fun r hr => (hword r hr).1) (fun r hr => (hword r hr).2.1) (fun r hr => (hword r hr).2.2.1)
    (fun r hr => (hword r hr).2.2.2.1) hview hedits
  refine ⟨parts, hmade, heditsOf, hranged, ?_, hranges⟩
  intro c hc
  obtain ⟨r, hr, rfl⟩ := hchanges c hc
  exact ⟨(hword r hr).2.2.2.2, rfl, rfl⟩

end Lexer

end VbaRefactor
