import VbaRefactor.Proofs.Syntax.Rereading

/-!
# Where statements stand among the pieces

A statement of a text takes up a run of its pieces. What stands before that run has been read as the
statements before it, and no token of another statement follows on the run before a separator.
-/

namespace VbaRefactor

open List Statement

namespace Lexer

variable {found : List Profile} {pos : Nat} {ps : List Piece} {s : Statement}

/-- Pieces with a token of a statement begin and end with one, but for others around them. -/
theorem exists_trim (h : ∃ p ∈ ps, p.isSignificant = true) :
    ∃ gap own rest, ps = gap ++ own ++ rest ∧ (∀ p ∈ gap, p.isSignificant = false) ∧
      (∀ p ∈ rest, p.isSignificant = false) ∧ (∃ p ∈ own.head?, p.isSignificant = true) ∧
      ∃ p ∈ own.getLast?, p.isSignificant = true := by
  obtain ⟨first, hfirst⟩ : ∃ first, ps.find? Piece.isSignificant = some first := by
    rw [← Option.isSome_iff_exists, find?_isSome]
    exact h
  obtain ⟨hsignificant, gap, tail, rfl, hgap⟩ := find?_eq_some_iff_append.mp hfirst
  obtain ⟨last, hlast⟩ : ∃ last, (first :: tail).reverse.find? Piece.isSignificant = some last := by
    rw [← Option.isSome_iff_exists, find?_isSome]
    exact ⟨first, by simp, hsignificant⟩
  obtain ⟨hsignificant', rest, own, htail, hrest⟩ := find?_eq_some_iff_append.mp hlast
  have htail : first :: tail = own.reverse ++ [last] ++ rest.reverse := by
    rw [← reverse_reverse (first :: tail), htail]
    simp
  refine ⟨gap, own.reverse ++ [last], rest.reverse, ?_, ?_, ?_, ⟨first, ?_, hsignificant⟩,
    last, by simp, hsignificant'⟩
  · rw [htail, append_assoc, append_assoc, append_assoc]
  · intro p hp
    simpa using hgap p hp
  · intro p hp
    simpa using hrest p (mem_reverse.mp hp)
  · have hhead := congrArg List.head? htail
    rw [head?_append] at hhead
    cases hown : (own.reverse ++ [last]).head? with
    | none => simp at hown
    | some p =>
      rw [hown] at hhead
      exact hhead.symm

/-- A token stands among the pieces where it says. -/
theorem exists_of_mem_place {t : Token} (h : t ∈ place pos ps) :
    ∃ front back, ps = front ++ .token t.kind t.text :: back ∧
      t.start = pos + (flat front).byteSize := by
  induction ps generalizing pos with
  | nil => cases h
  | cons p ps ih =>
    have hbehind {size : Nat} (hsize : size = p.text.byteSize) (h : t ∈ place (pos + size) ps) :
        ∃ front back, p :: ps = front ++ .token t.kind t.text :: back ∧
          t.start = pos + (flat front).byteSize := by
      obtain ⟨front, back, rfl, hstart⟩ := ih h
      refine ⟨p :: front, back, rfl, ?_⟩
      rw [hstart, hsize, flat_cons, Text.byteSize_append, Nat.add_assoc]
    cases p with
    | blank c => exact hbehind rfl h
    | token kind text =>
      rcases mem_cons.mp h with rfl | h
      · exact ⟨[], ps, rfl, rfl⟩
      · exact hbehind rfl h

/-- The pieces of a statement, with those before it and those behind it. -/
structure Located (pos : Nat) (before : List Statement) (s : Statement)
    (lead gap own rest : List Piece) : Prop where
  statements : Statement.ofTokens (place pos lead) = before
  closed : ∀ p ∈ lead.getLast?, p.isSeparator = true
  blank : ∀ p ∈ gap, p.isSignificant = false ∧ p.isSeparator = false
  tokens : Statement.significant (place (pos + (flat (lead ++ gap)).byteSize) own) = s
  run : ∀ p ∈ own, p.isSeparator = false
  first : ∃ p ∈ own.head?, p.isSignificant = true
  last : ∃ p ∈ own.getLast?, p.isSignificant = true
  ends : EndsRun rest

theorem endsRun_append {ps rest : List Piece} (h : ∀ p ∈ ps, p.isSignificant = false)
    (hrest : EndsRun rest) : EndsRun (ps ++ rest) := by
  induction ps with
  | nil => exact hrest
  | cons p ps ih =>
    obtain ⟨hp, hps⟩ := forall_mem_cons.mp h
    exact .inr ⟨hp, ih hps⟩

theorem exists_significant (h : significant (place pos ps) ≠ []) :
    ∃ p ∈ ps, p.isSignificant = true := by
  by_contra hnone
  apply h
  apply significant_place_eq_nil
  intro p hp
  cases hsignificant : p.isSignificant with
  | false => rfl
  | true => exact absurd ⟨p, hp, hsignificant⟩ hnone

/-- The first statement of pieces that begin with a run. -/
theorem Located.of_run {run : List Piece} (hrun : ∀ p ∈ run, p.isSeparator = false)
    (hsome : significant (place pos run) ≠ []) (rest : List Piece) (hrest : EndsRun rest) :
    ∃ gap own rest', run ++ rest = [] ++ gap ++ own ++ rest' ∧
      Located pos [] (significant (place pos run)) [] gap own rest' := by
  obtain ⟨gap, own, behind, rfl, hgap, hbehind, hfirst, hlast⟩ :=
    exists_trim (exists_significant hsome)
  refine ⟨gap, own, behind ++ rest, by simp, rfl, nofun, ?_, ?_, ?_, hfirst, hlast, ?_⟩
  · intro p hp
    exact ⟨hgap p hp, hrun p (by simp [hp])⟩
  · rw [nil_append, place_append, place_append]
    simp only [significant, filter_append]
    have hnone {pos : Nat} {ps : List Piece} (h : ∀ p ∈ ps, p.isSignificant = false) :
        (place pos ps).filter (·.kind.isSignificant) = [] := significant_place_eq_nil h
    rw [hnone hgap, hnone hbehind, nil_append, append_nil]
  · intro p hp
    exact hrun p (by simp [hp])
  · exact endsRun_append hbehind hrest

section

variable {pos : Nat} {run : List Piece} (hrun : ∀ p ∈ run, p.isSeparator = false)

include hrun

theorem ofTokens_run :
    ofTokens (place pos run) = [significant (place pos run)].filter (!·.isEmpty) := by
  have hempty : runs [] = [] :: [] := rfl
  have hruns := runs_append (ne_separator_of_mem_place hrun pos) hempty
  rw [append_nil, append_nil] at hruns
  rw [ofTokens, hruns]

theorem ofTokens_separator {p : Piece} (hp : p.isSeparator = true) (ps : List Piece) :
    ofTokens (place pos (run ++ p :: ps)) = ofTokens (place pos run) ++
        ofTokens (place (pos + (flat run).byteSize + p.text.byteSize) ps) := by
  obtain ⟨kind, sep, rfl, hkind⟩ : ∃ kind sep, p = .token kind sep ∧
      (kind = .newline ∨ kind = .colon) := by
    match p, hp with
    | .token .newline sep, _ => exact ⟨_, _, rfl, .inl rfl⟩
    | .token .colon sep, _ => exact ⟨_, _, rfl, .inr rfl⟩
  have hruns := runs_append (ne_separator_of_mem_place hrun pos)
    (runs_separator (t := ⟨kind, pos + (flat run).byteSize, sep⟩) hkind
      (place (pos + (flat run).byteSize + sep.byteSize) ps))
  rw [append_nil] at hruns
  rw [ofTokens_run hrun, place_append, place, ofTokens, hruns, ofTokens, ← filter_append]
  rfl

end

/-- Every statement of pieces is located among them. -/
theorem exists_located {run ps : List Piece} {before after : List Statement}
    (hrun : ∀ p ∈ run, p.isSeparator = false)
    (h : ofTokens (place pos (run ++ ps)) = before ++ s :: after) :
    ∃ lead gap own rest, run ++ ps = lead ++ gap ++ own ++ rest ∧
      Located pos before s lead gap own rest := by
  induction ps generalizing pos run before with
  | nil =>
    rw [append_nil, ofTokens_run hrun] at h
    by_cases hnone : significant (place pos run) = []
    · simp [hnone] at h
    have hsome : [significant (place pos run)] = before ++ s :: after := by
      simpa [hnone] using h
    obtain ⟨rfl, hs⟩ : before = [] ∧ significant (place pos run) = s := by
      cases before with
      | nil => exact ⟨rfl, (List.cons.inj hsome).1⟩
      | cons b before => simp at hsome
    rw [← hs]
    exact ⟨[], Located.of_run hrun hnone [] trivial⟩
  | cons p ps ih =>
    cases hp : p.isSeparator with
    | false =>
      have happend : run ++ p :: ps = (run ++ [p]) ++ ps := by simp
      rw [happend] at h ⊢
      exact ih (forall_mem_append.mpr ⟨hrun, forall_mem_singleton.mpr hp⟩) h
    | true =>
      -- A statement behind the separator is located there.
      have hbehind (before' : List Statement)
          (hbefore : before = ofTokens (place pos run) ++ before')
          (hrest : ofTokens (place (pos + (flat run).byteSize + p.text.byteSize) ([] ++ ps)) =
            before' ++ s :: after) :
          ∃ lead gap own rest, run ++ p :: ps = lead ++ gap ++ own ++ rest ∧
            Located pos before s lead gap own rest := by
        obtain ⟨lead, gap, own, rest, hps, hlocated⟩ := ih (forall_mem_nil _) hrest
        refine ⟨run ++ p :: lead, gap, own, rest, ?_, ?_, ?_, hlocated.blank, ?_, hlocated.run,
          hlocated.first, hlocated.last, hlocated.ends⟩
        · rw [nil_append] at hps
          simp [hps]
        · rw [ofTokens_separator hrun hp, hlocated.statements, hbefore]
        · intro p' hp'
          cases hlead : lead.getLast? with
          | none =>
            rw [getLast?_eq_none_iff.mp hlead, getLast?_append] at hp'
            cases hp'
            exact hp
          | some last =>
            rw [getLast?_append, getLast?_cons, hlead] at hp'
            cases hp'
            exact hlocated.closed _ hlead
        · have hpos : pos + (flat (run ++ p :: lead ++ gap)).byteSize =
              pos + (flat run).byteSize + p.text.byteSize + (flat (lead ++ gap)).byteSize := by
            simp only [flat_append, flat_cons, Text.byteSize_append]
            omega
          rw [← hlocated.tokens, hpos]
      rw [ofTokens_separator hrun hp, ofTokens_run hrun] at h
      by_cases hnone : significant (place pos run) = []
      · exact hbehind before (by simp [ofTokens_run hrun, hnone]) (by simpa [hnone] using h)
      have hsome : significant (place pos run) ::
          ofTokens (place (pos + (flat run).byteSize + p.text.byteSize) ps) =
            before ++ s :: after := by
        simpa [hnone] using h
      cases before with
      | nil =>
        rw [← (List.cons.inj hsome).1]
        exact ⟨[], Located.of_run hrun hnone (p :: ps) (.inl hp)⟩
      | cons b before =>
        obtain ⟨rfl, hrest⟩ := List.cons.inj hsome
        exact hbehind before (by simp [ofTokens_run hrun, hnone]) hrest

/-- After a separator nothing of the next statement has been read. -/
theorem advance_of_scan {level last : Level} (hclosed : ∀ p ∈ ps.getLast?, p.isSeparator = true)
    (h : scan level [] ps = some (found, last)) : advance level [] ps = some (found, last, []) := by
  rcases eq_nil_or_concat ps with rfl | ⟨init, p, rfl⟩
  · rw [scan_nil] at h
    cases h
    rfl
  · have hp : p.isSeparator = true := hclosed p (by simp)
    rw [concat_eq_append] at h ⊢
    obtain ⟨found₁, next, q, found₂, hinit, hlast, rfl⟩ := scan_append_eq_some.mp h
    obtain ⟨found₃, next', found₄, hrun, hnil, rfl⟩ := (scan_separator_eq_some hp).mp hlast
    rw [scan_nil] at hnil
    cases hnil
    refine advance_append_eq_some hinit ?_
    simp [advance, hp, hrun]

/-- Before a statement the statements before it have been read. -/
theorem Located.advance {text : Text} {before : List Statement} {lead gap own rest : List Piece}
    {level : Level} (h : Located 0 before s lead gap own rest)
    (hflat : text = flat (lead ++ gap ++ own ++ rest))
    (hbefore : declareAll text .code before = some (found, level)) :
    advance .code [] (lead ++ gap) = some (found, level, gap) := by
  have hat : text.HasAt 0 (flat ([] ++ lead)) :=
    ⟨[], flat (gap ++ own ++ rest), by simp [hflat], rfl⟩
  have hscan : scan .code [] lead = _ := scan_eq_declareAll hat (forall_mem_nil _)
  rw [nil_append, h.statements, hbefore] at hscan
  have hrun := advance_run (fun p hp => (h.blank p hp).2) level []
  rw [nil_append] at hrun
  have happend := advance_append_eq_some (advance_of_scan h.closed hscan) hrun
  rwa [append_nil] at happend

end Lexer

end VbaRefactor
