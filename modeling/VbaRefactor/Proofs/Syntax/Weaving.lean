import VbaRefactor.Proofs.Edit.Groups
import VbaRefactor.Proofs.Syntax.Rereading

/-!
# Changes of spans

A list of changes of a text, in order, that each fit their place among the pieces of the text can be
made together: the patched text is read as its pieces with the changes woven in.
-/

namespace VbaRefactor

open List Text

namespace Lexer

/-- A change of a text, with what it removes and adds at module level. -/
structure Patch where
  span : Span
  out : Text
  removed : List Profile
  added : List Profile
deriving DecidableEq, Repr

/-- The change fits its place among the pieces of a text. -/
inductive Patch.Fits (ps : List Piece) : Patch → Prop
  | word {lead rest : List Piece} {old new : Text}
      (hps : ps = lead ++ .token .identifier old :: rest) (h : WordChange lead old new) :
      Fits ps ⟨⟨(flat lead).byteSize, (flat lead).byteSize + old.byteSize⟩, new, [], []⟩
  | fields {lead old new rest : List Piece} {removed added : List Profile}
      (hps : ps = lead ++ (old ++ rest)) (h : FieldsChange lead old new rest removed added) :
      Fits ps ⟨⟨(flat lead).byteSize, (flat lead).byteSize + (flat old).byteSize⟩, flat new, removed,
        added⟩
  | block {lead new rest : List Piece} {found : List Profile} (hps : ps = lead ++ rest)
      (h : BlockChange lead new rest found) :
      Fits ps ⟨⟨(flat lead).byteSize, (flat lead).byteSize⟩, flat new, [], found⟩

/-- What is replaced and what by. -/
def Patch.change (c : Patch) : Span × Text := (c.span, c.out)

/-! ## Line breaks of the pieces -/

variable {ctx : Context} {front rest : Text} {p : Piece}

theorem head?_of_crClosed (h : CrClosed (front ++ '\r' :: rest)) : rest.head? = some '\n' := by
  generalize htext : front ++ '\r' :: rest = text at h
  induction h generalizing front with
  | nil => simp at htext
  | crlf _ ih =>
    match front, htext with
    | [], htext =>
      cases htext
      rfl
    | [x], htext => cases htext
    | x :: y :: front, htext =>
      cases htext
      exact ih rfl
  | cons hc _ ih =>
    match front, htext with
    | [], htext =>
      cases htext
      exact absurd rfl hc
    | x :: front, htext =>
      cases htext
      exact ih rfl

/-- Where every carriage return stands before a line feed, a line end holds its line feed, and so does
a continuation that something follows. -/
theorem Cuts.holdsBreak (h : Cuts ctx rest p) (hclosed : CrClosed (front ++ (p.text ++ rest))) :
    p.HoldsBreak ∨ rest = [] ∧ p.isNewline = false := by
  match p, h with
  | .blank c, _ => exact .inl trivial
  | .token .newline text, h =>
    left
    rcases cuts_newline_iff.mp h with rfl | rfl | ⟨rfl, hne⟩
    · rfl
    · rfl
    · exact absurd (head?_of_crClosed hclosed) hne
  | .token .continuation text, h =>
    obtain ⟨-, blanks, line, rfl, -, hline⟩ := cuts_continuation_iff.mp h
    rcases hline with (rfl | rfl | ⟨rfl, hne⟩) | ⟨rfl, rfl⟩
    · exact .inl (getLast?_concat (l := '_' :: blanks))
    · exact .inl (by rw [Piece.HoldsBreak, getLast?_cons, getLast?_append]; rfl)
    · have hcr : CrClosed ((front ++ '_' :: blanks) ++ '\r' :: rest) := by
        simpa [Piece.text] using hclosed
      exact absurd (head?_of_crClosed hcr) hne
    · exact .inr ⟨rfl, rfl⟩
  | .token .identifier _, _ | .token .number _, _ | .token .stringLiteral _, _
  | .token .dateLiteral _, _ | .token .punct _, _ | .token .colon _, _ | .token .comment _, _ =>
    exact .inl trivial

/-! ## Prefixes of the pieces -/

theorem byteSize_pos_of_cuts {rest : Text} (h : Cuts ctx rest p) : 0 < p.text.byteSize := by
  have hne : p.text ≠ [] := by
    match p, h with
    | .blank c, _ => exact cons_ne_nil _ _
    | .token kind (c :: tail), _ => exact cons_ne_nil _ _
  exact Nat.pos_of_ne_zero fun hzero => hne (byteSize_eq_zero hzero)

/-- Of two first parts of the pieces of a text the shorter one is the first part of the other. -/
theorem exists_between {lead before rest after : List Piece} {text : Text}
    (hlex : Lexes ctx (before ++ after) text) (heq : before ++ after = lead ++ rest)
    (hle : (flat before).byteSize ≤ (flat lead).byteSize) :
    ∃ mid, lead = before ++ mid ∧ after = mid ++ rest := by
  rcases append_eq_append_iff.mp heq with ⟨mid, hlead, hafter⟩ | ⟨mid, hbefore, hrest⟩
  · exact ⟨mid, hlead, hafter⟩
  · cases mid with
    | nil => exact ⟨[], by simpa using hbefore.symm, by simpa using hrest.symm⟩
    | cons p mid =>
      rw [hbefore, append_assoc, lexes_append] at hlex
      have hpos := byteSize_pos_of_cuts hlex.2.1
      rw [hbefore, flat_append, flat_cons, byteSize_append, byteSize_append] at hle
      omega

/-! ## All changes together -/

section

variable {before mid after : List Piece} {cs : List Cell} {removed added : List Profile}

/-- Pieces before changes are kept. -/
theorem Weave.keep_all (hbreak : ∀ front p back, mid = front ++ p :: back →
      p.HoldsBreak ∨ back = [] ∧ cs = []) (h : Weave (before ++ mid) after cs removed added) :
    Weave before (mid ++ after) (mid.map .keep ++ cs) removed added := by
  induction mid generalizing before with
  | nil => simpa using h
  | cons p mid ih =>
    refine .keep ?_ (ih ?_ (by simpa using h))
    · rcases hbreak [] p mid rfl with hholds | ⟨rfl, rfl⟩
      · exact .inl hholds
      · exact .inr rfl
    · intro front p' back hmid
      exact hbreak (p :: front) p' back (by rw [hmid]; rfl)

theorem newPieces_keep (mid : List Piece) (cs : List Cell) :
    newPieces (mid.map .keep ++ cs) = mid ++ newPieces cs := by
  induction mid with
  | nil => rfl
  | cons p mid ih =>
    rw [map_cons, cons_append, newPieces_cons, ih]
    rfl

end

/-- A piece with others behind it holds its line feed, and so does the last one if it is a line end. -/
theorem holdsBreak_of_lexes {ps lead rest : List Piece} (hlex : Lexes .initial ps [])
    (hclosed : CrClosed (flat ps)) (hps : ps = lead ++ p :: rest) :
    p.HoldsBreak ∨ rest = [] ∧ p.isNewline = false := by
  rw [hps, lexes_append] at hlex
  obtain ⟨hcuts, hrest⟩ := lexes_cons_nil.mp hlex.2
  rw [hps, flat_append, flat_cons] at hclosed
  rcases hcuts.holdsBreak hclosed with hholds | ⟨hnil, hnewline⟩
  · exact .inl hholds
  · cases rest with
    | nil => exact .inr ⟨rfl, hnewline⟩
    | cons p' rest =>
      have hpos := byteSize_pos_of_cuts hrest.1
      rw [flat_cons, append_eq_nil_iff] at hnil
      rw [hnil.1] at hpos
      cases hpos

section

variable {ps before after : List Piece} {removed added : List Profile}

section

variable (hlex : Lexes .initial ps []) (hclosed : CrClosed (flat ps))
  (hps : ps = before ++ after)

include hlex hclosed hps

/-- One more change before others that are made together. -/
theorem exists_weave_cons {c : Patch} (hfits : c.Fits ps)
    (hpos : (flat before).byteSize ≤ c.span.start) {out : Text}
    (hrest : ∀ front back, ps = front ++ back → (flat front).byteSize = c.span.stop →
      ∃ cs, Weave front back cs removed added ∧ flat (newPieces cs) = out) :
    ∃ cs, Weave before after cs (c.removed ++ removed) (c.added ++ added) ∧ flat (newPieces cs) =
        slice (flat ps) ⟨(flat before).byteSize, c.span.start⟩ ++ (c.out ++ out) := by
  -- The pieces up to the change are kept.
  have hkeep {lead rest : List Piece} {cs : List Cell} {removed added : List Profile}
      (hlead : ps = lead ++ rest) (hle : (flat before).byteSize ≤ (flat lead).byteSize)
      (hlast : rest ≠ [] ∨ ∀ p ∈ lead.getLast?, p.isNewline = true)
      (hweave : Weave lead rest cs removed added) :
      ∃ cs', Weave before after cs' removed added ∧ flat (newPieces cs') =
        slice (flat ps) ⟨(flat before).byteSize, (flat lead).byteSize⟩ ++ flat (newPieces cs) := by
    obtain ⟨mid, rfl, rfl⟩ := exists_between (by rw [← hps]; exact hlex) (hps.symm.trans hlead) hle
    refine ⟨mid.map .keep ++ cs, hweave.keep_all ?_, ?_⟩
    · rintro front p back rfl
      have hparts : ps = before ++ front ++ p :: (back ++ rest) := by simp [hlead]
      rcases holdsBreak_of_lexes hlex hclosed hparts with hholds | ⟨hnil, hnewline⟩
      · exact .inl hholds
      · obtain ⟨rfl, rfl⟩ := append_eq_nil_iff.mp hnil
        rcases hlast with hsome | hlast
        · exact absurd rfl hsome
        · rw [hlast p (by simp)] at hnewline
          cases hnewline
    · have hat : (flat ps).HasAt (flat before).byteSize (flat mid) :=
        ⟨flat before, flat rest, by simp [hlead], rfl⟩
      rw [newPieces_keep, flat_append, flat_append before, byteSize_append, hat.slice_eq]
  cases hfits with
  | @word lead rest old new hlead h =>
    obtain ⟨cs, hweave, hout⟩ := hrest (lead ++ [.token .identifier old]) rest (by simp [hlead])
      (by simp [byteSize_append, Piece.text])
    obtain ⟨cs', hweave', hout'⟩ := hkeep hlead hpos (.inl (cons_ne_nil _ _)) (.word h hweave)
    refine ⟨cs', hweave', hout'.trans ?_⟩
    rw [newPieces_cons, flat_append, hout]
    simp [Cell.new, Piece.text]
  | @fields lead old new rest removed' added' hlead h =>
    obtain ⟨cs, hweave, hout⟩ := hrest (lead ++ old) rest (by simp [hlead])
      (by simp [byteSize_append])
    obtain ⟨p, hp, -⟩ := h.first
    have hsome : old ++ rest ≠ [] := by
      rintro hnil
      rw [(append_eq_nil_iff.mp hnil).1] at hp
      cases hp
    obtain ⟨cs', hweave', hout'⟩ := hkeep hlead hpos (.inl hsome) (.fields h hweave)
    refine ⟨cs', hweave', hout'.trans ?_⟩
    rw [newPieces_cons, flat_append, hout]
    rfl
  | @block lead new rest found hlead h =>
    obtain ⟨cs, hweave, hout⟩ := hrest lead rest hlead rfl
    obtain ⟨cs', hweave', hout'⟩ := hkeep hlead hpos (.inr h.prev) (.block h hweave)
    refine ⟨cs', hweave', hout'.trans ?_⟩
    rw [newPieces_cons, flat_append, hout]
    rfl

/-- Changes in order that fit their places can be made together, and with them what is added behind
all pieces. -/
theorem exists_weave {patches : List Patch} {cells : List Cell} (hfits : ∀ c ∈ patches, c.Fits ps)
    (hordered : patches.Pairwise fun a b => a.span.stop ≤ b.span.start)
    (hpos : ∀ c ∈ patches, (flat before).byteSize ≤ c.span.start)
    (hcells : Weave ps [] cells removed added)
    (hholds : cells = [] ∨ ∀ p ∈ ps.getLast?, p.HoldsBreak) :
    ∃ cs, Weave before after cs (patches.flatMap Patch.removed ++ removed)
        (patches.flatMap Patch.added ++ added) ∧
      flat (newPieces cs) =
        Refill.patched (flat ps) (flat before).byteSize (patches.map Patch.change) ++
          flat (newPieces cells) := by
  induction patches generalizing before after with
  | nil =>
    have hslice : slice (flat ps) ⟨(flat before).byteSize, (flat ps).byteSize⟩ = flat after := by
      rw [hps, flat_append, byteSize_append]
      have hat : HasAt (flat before ++ flat after) (flat before).byteSize (flat after) :=
        ⟨flat before, [], by simp, rfl⟩
      exact hat.slice_eq
    rw [hps] at hcells
    have hweave : Weave before (after ++ []) (after.map .keep ++ cells) removed added := by
      refine hcells.keep_all ?_
      rintro front p back rfl
      have hparts : ps = before ++ front ++ p :: back := by simp [hps]
      rcases holdsBreak_of_lexes hlex hclosed hparts with hbreak | ⟨rfl, -⟩
      · exact .inl hbreak
      · rcases hholds with hnone | hholds
        · exact .inr ⟨rfl, hnone⟩
        · exact .inl (hholds p (by simp [hparts]))
    rw [append_nil] at hweave
    refine ⟨after.map .keep ++ cells, hweave, ?_⟩
    rw [newPieces_keep, flat_append]
    exact congrArg (· ++ _) hslice.symm
  | cons c patches ih =>
    obtain ⟨hc, hfits⟩ := forall_mem_cons.mp hfits
    obtain ⟨hnext, hordered⟩ := pairwise_cons.mp hordered
    obtain ⟨hcpos, hpos⟩ := forall_mem_cons.mp hpos
    rw [flatMap_cons, flatMap_cons, append_assoc, append_assoc, map_cons,
      Refill.patched, Patch.change, append_assoc, append_assoc]
    refine exists_weave_cons hlex hclosed hps hc hcpos ?_
    intro front back hps' hsize
    rw [← hsize]
    refine ih hps' hfits hordered ?_
    intro c' hc'
    rw [hsize]
    exact hnext c' hc'

end

end

end Lexer

end VbaRefactor
