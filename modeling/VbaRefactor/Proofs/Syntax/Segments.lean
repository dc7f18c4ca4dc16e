import VbaRefactor.Proofs.Syntax.Traces

/-!
# Pieces in other places

Pieces of a statement can be taken out of it and put together anew. A `Segment` is read as the same
pieces wherever it stands inside a statement, as long as what follows it ends words and numbers, and
so segments can be joined.
-/

namespace VbaRefactor

open List

variable {ctx : Context} {next : Level} {rest rest' : Text}

namespace Lexer

/-- The piece does not look further ahead than to the end of a word, and holds its line feed. -/
def Piece.isSettled : Piece → Bool
  | .blank _ => true
  | .token .newline _ => false
  | .token .continuation text => text.getLast? == some '\n'
  | .token kind text => isClosed kind text && text != ['#'] && text != ['_']

variable {ending : Text} {ps : List Piece}

/-- Settled pieces are read alike before any text that ends words and numbers. -/
theorem lexes_of_stops (h : Lexes ctx ps rest) (hsettled : ∀ p ∈ ps, p.isSettled = true)
    (hrest : Stops rest) (hrest' : Stops rest') : Lexes ctx ps rest' := by
  induction ps generalizing ctx with
  | nil => trivial
  | cons p ps ih =>
    obtain ⟨hcuts, hlex⟩ := h
    obtain ⟨hp, hps⟩ := forall_mem_cons.mp hsettled
    refine ⟨?_, ih hlex hps⟩
    match p, hcuts, hp with
    | .blank c, hcuts, _ => exact hcuts
    | .token .continuation text, hcuts, hp =>
      exact hcuts.of_lf (.inr rfl) (beq_iff_eq.mp hp) _
    | .token .identifier (c :: tail), hcuts, hp | .token .number (c :: tail), hcuts, hp
    | .token .stringLiteral (c :: tail), hcuts, hp | .token .dateLiteral (c :: tail), hcuts, hp
    | .token .punct (c :: tail), hcuts, hp | .token .colon (c :: tail), hcuts, hp
    | .token .comment (c :: tail), hcuts, hp =>
      simp only [Piece.isSettled, Bool.and_eq_true, bne_iff_ne] at hp
      exact hcuts.of_near nofun nofun (.of_stops hrest hrest' hp.1.1 hp.1.2 hp.2)

/-! ## Segments -/

/-- The pieces end with a token of a statement. -/
def EndsInToken (ps : List Piece) : Prop :=
  ∃ kind text, ps.getLast? = some (.token kind text) ∧ kind.isSignificant = true

/-- The pieces are a part of a statement that is read as it is wherever it stands in one. -/
structure Segment (ps : List Piece) : Prop where
  lexes : ∀ ctx rest, ctx.fresh = false → Stops rest → Lexes ctx ps rest
  last : EndsInToken ps
  run : ∀ p ∈ ps, p.isSeparator = false

/-- The pieces are read as they are wherever a statement can begin. -/
structure Opening (ps : List Piece) : Prop where
  lexes : ∀ ctx rest, Stops rest → Lexes ctx ps rest
  last : EndsInToken ps
  begins : BeginsWord (flat ps)

theorem EndsInToken.append (h : EndsInToken ps) (before : List Piece) :
    EndsInToken (before ++ ps) := by
  obtain ⟨kind, text, hlast, hkind⟩ := h
  exact ⟨kind, text, by rw [getLast?_append, hlast]; rfl, hkind⟩

/-- A blank between words. -/
def gapPieces : List Piece := [.blank ' ']

def commaPieces : List Piece := [.token .punct [','], .blank ' ']

theorem flat_intercalate (sep : List Piece) (segments : List (List Piece)) :
    flat (sep.intercalate segments) = (flat sep).intercalate (segments.map flat) := by
  induction segments with
  | nil => rfl
  | cons ps segments ih =>
    cases segments with
    | nil => simp
    | cons qs segments =>
      rw [intercalate_cons_cons, flat_append, flat_append, ih]
      exact intercalate_cons_cons.symm

/-- What joins segments. -/
structure Joint (sep : List Piece) : Prop where
  stops : ∀ rest, Stops (flat sep ++ rest)
  lexes : ∀ ctx rest, Lexes ctx sep rest
  fresh : ∀ ctx : Context, ctx.fresh = false → (ctx.afterAll sep).fresh = false
  run : ∀ p ∈ sep, p.isSeparator = false

theorem joint_gapPieces : Joint gapPieces := by
  refine ⟨?_, fun _ _ => ⟨rfl, trivial⟩, fun _ h => h, by decide⟩
  rintro rest c ⟨⟩
  decide

theorem joint_commaPieces : Joint commaPieces := by
  refine ⟨?_, fun _ _ => ⟨⟨rfl, rfl⟩, rfl, trivial⟩, fun _ _ => rfl, by decide⟩
  rintro rest c ⟨⟩
  decide

section

variable {ps sep qs : List Piece}

/-- A segment can follow on pieces that are read before a text that ends words. -/
theorem lexes_joint (hps : ∀ rest, Stops rest → Lexes ctx ps rest) (hlast : EndsInToken ps)
    (hsep : Joint sep) (hqs : Segment qs) (hrest : Stops rest) : Lexes ctx (ps ++ sep ++ qs) rest := by
  obtain ⟨kind, text, hlast, hkind⟩ := hlast
  have hstops : Stops (flat sep ++ (flat qs ++ rest)) := hsep.stops _
  have hlex := hps _ hstops
  have hfresh := hsep.fresh _ (afterAll_of_isSignificant hlast hkind hlex).1
  rw [append_assoc, lexes_append, flat_append, append_assoc, lexes_append]
  exact ⟨hlex, hsep.lexes _ _, hqs.lexes _ _ hfresh hrest⟩

theorem Segment.joint (hps : Segment ps) (hsep : Joint sep) (hqs : Segment qs) :
    Segment (ps ++ sep ++ qs) := by
  refine ⟨?_, hqs.last.append _, ?_⟩
  · intro ctx rest hfresh hrest
    exact lexes_joint (fun rest => hps.lexes ctx rest hfresh) hps.last hsep hqs hrest
  · rw [forall_mem_append, forall_mem_append]
    exact ⟨⟨hps.run, hsep.run⟩, hqs.run⟩

theorem Opening.joint (hps : Opening ps) (hsep : Joint sep) (hqs : Segment qs) :
    Opening (ps ++ sep ++ qs) := by
  refine ⟨?_, hqs.last.append _, ?_⟩
  · intro ctx rest hrest
    exact lexes_joint (hps.lexes ctx) hps.last hsep hqs hrest
  · rw [append_assoc, flat_append]
    exact hps.begins.append _

/-- Segments with commas between them are a segment. -/
theorem segment_intercalate {segments : List (List Piece)} (hne : segments ≠ [])
    (h : ∀ ps ∈ segments, Segment ps) : Segment (commaPieces.intercalate segments) := by
  induction segments with
  | nil => exact absurd rfl hne
  | cons ps segments ih =>
    obtain ⟨hps, hrest⟩ := forall_mem_cons.mp h
    cases segments with
    | nil => simpa using hps
    | cons qs segments =>
      rw [intercalate_cons_cons]
      exact hps.joint joint_commaPieces (ih (cons_ne_nil _ _) hrest)

end

/-! ## Statements on lines of their own -/

theorem lexes_ending (h : Text.IsTerminator ending) (ctx : Context) (rest : Text) :
    Cuts ctx rest (.token .newline ending) := by
  rcases h with rfl | rfl <;> exact ⟨rfl, rfl⟩

theorem stops_ending (h : Text.IsTerminator ending) (rest : Text) : Stops (ending ++ rest) := by
  rcases h with rfl | rfl <;> (rintro c ⟨⟩; decide)

/-- The pieces of statements that stand on lines of their own. -/
def linePieces (ending : Text) (statements : List (List Piece)) : List Piece :=
  [Piece.token .newline ending].intercalate statements

theorem flat_linePieces (ending : Text) (statements : List (List Piece)) :
    flat (linePieces ending statements) = ending.intercalate (statements.map flat) := by
  rw [linePieces, flat_intercalate]
  simp [Piece.text]

theorem opening_linePieces (he : Text.IsTerminator ending) {statements : List (List Piece)}
    (hne : statements ≠ []) (h : ∀ ps ∈ statements, Opening ps) :
    Opening (linePieces ending statements) := by
  induction statements with
  | nil => exact absurd rfl hne
  | cons ps statements ih =>
    obtain ⟨hps, hrest⟩ := forall_mem_cons.mp h
    cases statements with
    | nil => simpa [linePieces] using hps
    | cons qs statements =>
      have hqs := ih (cons_ne_nil _ _) hrest
      rw [linePieces, intercalate_cons_cons, append_assoc]
      refine ⟨?_, (hqs.last.append _).append _, ?_⟩
      · intro ctx rest hstops
        rw [lexes_append]
        refine ⟨hps.lexes _ _ ?_, lexes_ending he _ _, hqs.lexes _ _ hstops⟩
        simp only [flat_append, flat_cons, Piece.text, flat_nil, append_nil, append_assoc]
        exact stops_ending he _
      · rw [flat_append]
        exact hps.begins.append _

/-- What statements declare one after another, and in what the next one stands. -/
def linesDeclare (level : Level) : List (List Piece) → Option (List Profile × Level)
  | [] => some ([], level)
  | ps :: lines =>
    (runDeclares level ps).bind fun (found, next) =>
      (linesDeclare next lines).map fun (more, last) => (found ++ more, last)

section

variable {lines : List (List Piece)} {level : Level}

theorem linesDeclare_cons {ps : List Piece} {found : List Profile}
    (h : runDeclares level ps = some (found, next)) (lines : List (List Piece)) :
    linesDeclare level (ps :: lines) =
      (linesDeclare next lines).map fun (more, last) => (found ++ more, last) := by
  rw [linesDeclare, h, Option.bind_some]

theorem linesDeclare_append {before after : List (List Piece)} {last : Level}
    {found more : List Profile} (h : linesDeclare level before = some (found, next))
    (h' : linesDeclare next after = some (more, last)) :
    linesDeclare level (before ++ after) = some (found ++ more, last) := by
  induction before generalizing level found with
  | nil =>
    cases h
    exact h'
  | cons ps before ih =>
    rw [linesDeclare] at h
    obtain ⟨⟨first, middle⟩, hfirst, h⟩ := Option.bind_eq_some_iff.mp h
    obtain ⟨⟨rest, last'⟩, hrest, heq⟩ := Option.map_eq_some_iff.mp h
    cases heq
    rw [cons_append, linesDeclare_cons hfirst, ih hrest, append_assoc]
    rfl

theorem linesDeclare_of_forall₂ {found : List (List Profile)}
    (h : List.Forall₂ (fun ps found => runDeclares level ps = some (found, level)) lines found) :
    linesDeclare level lines = some (found.flatten, level) := by
  induction h with
  | nil => rfl
  | cons hps hrest ih =>
    rw [linesDeclare_cons hps, ih]
    rfl

/-- What statements on lines of their own declare. -/
theorem scan_linePieces {ending : Text} (hne : lines ≠ [])
    (hrun : ∀ ps ∈ lines, ∀ p ∈ ps, p.isSeparator = false) :
    scan level [] (linePieces ending lines) = linesDeclare level lines := by
  induction lines generalizing level with
  | nil => exact absurd rfl hne
  | cons ps lines ih =>
    obtain ⟨hrun, hruns⟩ := forall_mem_cons.mp hrun
    have hscan := scan_run hrun level []
    cases lines with
    | nil =>
      have hlast := hscan []
      rw [append_nil, scan_nil, nil_append] at hlast
      rw [linePieces, intercalate_singleton, hlast]
      cases hps : runDeclares level ps <;> simp [linesDeclare, hps]
    | cons qs lines =>
      rw [linePieces, intercalate_cons_cons, append_assoc, hscan, nil_append,
        singleton_append, scan_separator rfl, linesDeclare]
      congr 1
      funext (found, next)
      exact congrArg (Option.map _) (ih (cons_ne_nil _ _) hruns)

end

/-! ## Where segments come from -/

section

variable {ctx' : Context} {text name new : Text} {ps : List Piece} {c : Char}

theorem afterPiece_identifier (h : Cuts ctx rest (.token .identifier text)) (ctx' : Context) :
    ctx'.afterPiece (.token .identifier text) = ⟨false, false, true⟩ := by
  match text, h with
  | c :: tail, _ => rfl

/-- Pieces of a statement that begin with a name are a segment. -/
theorem segment_of_lexes (h : Lexes ctx (.token .identifier text :: ps) rest) (hrest : Stops rest)
    (hsettled : ∀ p ∈ .token .identifier text :: ps, p.isSettled = true)
    (hlast : EndsInToken (.token .identifier text :: ps))
    (hrun : ∀ p ∈ .token .identifier text :: ps, p.isSeparator = false) :
    Segment (.token .identifier text :: ps) := by
  refine ⟨?_, hlast, hrun⟩
  intro ctx' rest' hfresh hrest'
  obtain ⟨hcuts, hlex⟩ := lexes_of_stops h hsettled hrest hrest'
  refine ⟨hcuts.of_identifier hfresh, ?_⟩
  rw [afterPiece_identifier hcuts] at hlex ⊢
  exact hlex

theorem nameTail_of_stops (h : Stops rest) : nameTail rest = 0 := nameTail_append_of_stops h []

/-- Another word can take the place of the first one of a segment. -/
theorem segment_renamed (hname : isPlainName name = true) (hnew : isPlainName new = true)
    (h : Lexes ctx (.token .identifier name :: ps) rest) (hrest : Stops rest)
    (hsettled : ∀ p ∈ ps, p.isSettled = true) (hrun : ∀ p ∈ ps, p.isSeparator = false)
    (hlast : EndsInToken (.token .identifier new :: ps)) :
    Segment (.token .identifier new :: ps) := by
  refine ⟨?_, hlast, forall_mem_cons.mpr ⟨rfl, hrun⟩⟩
  intro ctx' rest' hfresh hrest'
  obtain ⟨hcuts, hlex⟩ := h
  have htail := nameTail_of_cuts hname hcuts
  rw [nameTail_append_of_stops hrest] at htail
  have hcuts' : Cuts ctx' (flat ps ++ rest') (.token .identifier new) :=
    cuts_name hnew (by simp [hfresh]) (by rw [nameTail_append_of_stops hrest', htail])
  refine ⟨hcuts', ?_⟩
  rw [afterPiece_identifier hcuts] at hlex
  rw [afterPiece_identifier hcuts']
  exact lexes_of_stops hlex hsettled hrest hrest'

theorem endsInToken_word (name : Text) : EndsInToken [.token .identifier name] :=
  ⟨.identifier, name, rfl, rfl⟩

theorem opening_word (hname : isPlainName name = true) (hrem : name.fold ≠ ['r', 'e', 'm']) :
    Opening [.token .identifier name] := by
  refine ⟨?_, endsInToken_word name, ?_⟩
  · intro ctx rest hrest
    exact ⟨cuts_name hname (fun _ => hrem) (nameTail_of_stops hrest), trivial⟩
  · simpa [Piece.text] using beginsWord_of_isPlainName hname

theorem segment_word (hname : isPlainName name = true) : Segment [.token .identifier name] := by
  refine ⟨?_, endsInToken_word name, forall_mem_cons.mpr ⟨rfl, forall_mem_nil _⟩⟩
  intro ctx rest hfresh hrest
  exact ⟨cuts_name hname (by simp [hfresh]) (nameTail_of_stops hrest), trivial⟩

/-! ## Keywords -/

/-- The piece is a plain word, a blank or a continuation that holds its line feed. -/
def Piece.isWordy : Piece → Bool
  | .blank _ => true
  | .token .identifier text => isPlainName text
  | .token .continuation text => text.getLast? == some '\n'
  | _ => false

theorem nameTail_cons_pos (h : isNameChar c = true) (rest : Text) : nameTail (c :: rest) ≠ 0 := by
  simp [nameTail, h]

theorem nameTail_cons_space (h : isSpace c = true) (rest : Text) : nameTail (c :: rest) = 0 := by
  simp only [isSpace, Bool.or_eq_true, beq_iff_eq] at h
  rcases h with rfl | rfl <;> rfl

/-- After a word that ends, another one can only follow behind a blank. -/
theorem nameTail_wordy (h : Lexes ctx ps rest) (hps : ∀ p ∈ ps, p.isWordy = true)
    (htail : nameTail (flat ps ++ rest) = 0) (hrest : nameTail rest' = 0) :
    nameTail (flat ps ++ rest') = 0 := by
  cases ps with
  | nil => exact hrest
  | cons p ps =>
    have hp := hps p mem_cons_self
    match p, h.1, hp with
    | .blank c, hcuts, _ => exact nameTail_cons_space hcuts _
    | .token .identifier (c :: tail), _, hp =>
      have hc : isLetter c = true := (Bool.and_eq_true_iff.mp hp).1
      exact absurd htail (nameTail_cons_pos (isNameChar_of_isLetter hc) _)
    | .token .continuation (c :: tail), hcuts, _ =>
      rw [eq_of_recognize_continuation hcuts.2] at htail
      exact absurd htail (nameTail_cons_pos rfl _)

/-- Words of a statement are read alike before any text that ends words. -/
theorem lexes_wordy (h : Lexes ctx ps rest) (hfresh : ctx.fresh = false)
    (hps : ∀ p ∈ ps, p.isWordy = true) (hrest : nameTail rest' = 0) : Lexes ctx ps rest' := by
  induction ps generalizing ctx with
  | nil => trivial
  | cons p ps ih =>
    obtain ⟨hcuts, hlex⟩ := h
    obtain ⟨hp, hbehind⟩ := forall_mem_cons.mp hps
    match p, hcuts, hp with
    | .blank c, hcuts, _ => exact ⟨hcuts, ih hlex hfresh hbehind⟩
    | .token .identifier text, hcuts, hp =>
      have htail := nameTail_wordy hlex hbehind (nameTail_of_cuts hp hcuts) hrest
      refine ⟨cuts_name hp (by simp [hfresh]) htail, ih hlex ?_ hbehind⟩
      rw [afterPiece_identifier hcuts]
    | .token .continuation (c :: tail), hcuts, hp =>
      exact ⟨hcuts.of_lf (.inr rfl) (beq_iff_eq.mp hp) _, ih hlex hfresh hbehind⟩

/-- The keywords of a statement can open another one. -/
theorem opening_wordy (hname : isPlainName name = true) (hrem : name.fold ≠ ['r', 'e', 'm'])
    (h : Lexes ctx (.token .identifier name :: ps) rest) (hps : ∀ p ∈ ps, p.isWordy = true)
    (hlast : EndsInToken (.token .identifier name :: ps)) :
    Opening (.token .identifier name :: ps) := by
  obtain ⟨hcuts, hlex⟩ := h
  rw [afterPiece_identifier hcuts] at hlex
  refine ⟨?_, hlast, ?_⟩
  · intro ctx' rest' hrest'
    have hrest := nameTail_of_stops hrest'
    have hcuts' : Cuts ctx' (flat ps ++ rest') (.token .identifier name) :=
      cuts_name hname (fun _ => hrem) (nameTail_wordy hlex hps (nameTail_of_cuts hname hcuts) hrest)
    refine ⟨hcuts', ?_⟩
    rw [afterPiece_identifier hcuts']
    exact lexes_wordy hlex rfl hps hrest
  · exact (beginsWord_of_isPlainName hname).append _

theorem isLetter_of_toLower (h : isLetter c.toLower = true) : isLetter c = true := by
  unfold Char.toLower at h
  split at h
  · rename_i hupper
    simp only [isLetter, Bool.or_eq_true, Bool.and_eq_true, decide_eq_true_eq]
    exact .inr hupper
  · exact h

/-- A word of letters in any case is a plain name. -/
theorem isPlainName_of_fold {word : Text} (hne : word ≠ []) (hword : word.all isLetter = true)
    (h : text.fold = word) : isPlainName text = true := by
  subst h
  have hall : ∀ c ∈ text, isLetter c = true := by
    intro c hc
    exact isLetter_of_toLower (all_eq_true.mp hword _ (mem_map_of_mem hc))
  cases text with
  | nil => exact absurd rfl hne
  | cons c tail =>
    rw [isPlainName, hall c mem_cons_self, Bool.true_and, all_eq_true]
    exact fun d hd => isNameChar_of_isLetter (hall d (mem_cons_of_mem _ hd))

end

end Lexer

end VbaRefactor
