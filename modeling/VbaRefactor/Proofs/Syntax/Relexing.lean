import VbaRefactor.Proofs.Syntax.Lexing

/-!
# Reading a changed text

A text is changed in parts: a word becomes another word, the pieces of a statement those of other
statements, and whole lines are added. Where the changes keep to `Ready`, the changed text is read as
the pieces that were kept and those that were put in.
-/

namespace VbaRefactor

open List

namespace Lexer

/-- A part of a text that is kept or changed. -/
inductive Cell where
  | keep (p : Piece)
  /-- A word in the place of another one. -/
  | word (old new : Text)
  /-- Statements in the place of one that declares fields. -/
  | fields (old new : List Piece)
  /-- Lines that are added. -/
  | block (new : List Piece)
deriving DecidableEq, Repr

/-- The pieces before the change. -/
def Cell.old : Cell → List Piece
  | .keep p => [p]
  | .word old _ => [.token .identifier old]
  | .fields old _ => old
  | .block _ => []

/-- The pieces after the change. -/
def Cell.new : Cell → List Piece
  | .keep p => [p]
  | .word _ new => [.token .identifier new]
  | .fields _ new => new
  | .block new => new

/-- The pieces before the changes. -/
def oldPieces (cs : List Cell) : List Piece := cs.flatMap Cell.old

/-- The pieces after the changes. -/
def newPieces (cs : List Cell) : List Piece := cs.flatMap Cell.new

@[simp]
theorem oldPieces_nil : oldPieces [] = [] := rfl

@[simp]
theorem oldPieces_cons (cell : Cell) (cs : List Cell) :
    oldPieces (cell :: cs) = cell.old ++ oldPieces cs := rfl

@[simp]
theorem newPieces_nil : newPieces [] = [] := rfl

@[simp]
theorem newPieces_cons (cell : Cell) (cs : List Cell) :
    newPieces (cell :: cs) = cell.new ++ newPieces cs := rfl

namespace Piece

/-- A word can stand directly behind the piece. -/
def admitsWord : Piece → Bool
  | .blank _ => true
  | .token kind text => kind != .number && text.getLast?.all fun z => !isNameChar z && z != '&'

/-- The piece is a `#` that opens no date. -/
def isHash (p : Piece) : Bool := p == .token .punct ['#']

/-- The piece is a line end. -/
def isNewline : Piece → Bool
  | .token .newline _ => true
  | _ => false

/-- A line end or a continuation holds its line feed. -/
def HoldsBreak : Piece → Prop
  | .token .newline text | .token .continuation text => text.getLast? = some '\n'
  | _ => True

end Piece

/-- Whether a lone `#` stands on the line before what follows the piece. -/
def hashAfter (hash : Bool) (p : Piece) : Bool := !p.isNewline && (hash || p.isHash)

/-- No token of a statement follows before the next separator. -/
def Separated : List Cell → Prop
  | [] => True
  | .keep (.blank _) :: cs => Separated cs
  | .keep (.token kind _) :: _ => kind.isSignificant = false
  | .block _ :: cs => cs = []
  | _ => False

/-- The text begins with a letter. -/
def BeginsWord (text : Text) : Prop := ∃ a r, text = a :: r ∧ isLetter a = true

/-- The changes leave what stands around them as it is. `prev?` is the piece before them, and `hash`
says whether a lone `#` stands on their line before them. -/
inductive Ready : Option Piece → Bool → List Cell → Prop
  | nil {prev? : Option Piece} {hash : Bool} : Ready prev? hash []
  | keep {prev? : Option Piece} {hash : Bool} {p : Piece} {cs : List Cell}
      (hbreak : p.HoldsBreak ∨ cs = []) (hrest : Ready (some p) (hashAfter hash p) cs) :
      Ready prev? hash (.keep p :: cs)
  | word {prev? : Option Piece} {hash : Bool} {old new : Text} {cs : List Cell}
      (hprev : ∀ p ∈ prev?, p.admitsWord = true) (hold : isPlainName old = true)
      (hnew : isPlainName new = true) (hrem : new.fold ≠ ['r', 'e', 'm'])
      (hrest : Ready (some (.token .identifier old)) hash cs) :
      Ready prev? hash (.word old new :: cs)
  /-- A lone `#` before the statement could become the start of a date. -/
  | fields {prev? : Option Piece} {old new : List Piece} {cs : List Cell}
      (hprev : ∀ p ∈ prev?, p.admitsWord = true) (hold : BeginsWord (flat old))
      (hlast : ∃ kind text, old.getLast? = some (.token kind text) ∧ kind.isSignificant = true)
      (hnew : BeginsWord (flat new)) (hlexes : ∀ ctx rest, Stops rest → Lexes ctx new rest)
      (hnewLast : ∃ kind text, new.getLast? = some (.token kind text) ∧ kind.isSignificant = true)
      (hseparated : Separated cs) (hrest : Ready old.getLast? false cs) :
      Ready prev? false (.fields old new :: cs)
  /-- Lines before a line. -/
  | block {prev? : Option Piece} {new : List Piece} {cs : List Cell}
      (hprev : ∀ p ∈ prev?, p.isNewline = true)
      (hlexes : ∀ ctx rest, ctx.fresh = true → Lexes ctx new rest)
      (hnewLast : ∃ text, new.getLast? = some (.token .newline text))
      (hnext : ∀ text rest, cs ≠ .keep (.token .continuation text) :: rest)
      (hrest : Ready prev? false cs) : Ready prev? false (.block new :: cs)
  /-- Lines after the last one. -/
  | ending {prev? : Option Piece} {hash : Bool} {new : List Piece} (hends : LineEnds (flat new))
      (hlexes : ∀ ctx, Lexes ctx new []) : Ready prev? hash [.block new]

section

variable {prev? : Option Piece} {hash : Bool} {cs : List Cell} {ctx : Context} {c : Char}
  {name : Text}

theorem lineEnds_of_isNewline {p : Piece} {rest : Text} (h : Cuts ctx rest p)
    (hp : p.isNewline = true) (more : Text) : LineEnds (p.text ++ more) := by
  match p, hp, h with
  | .token .newline (c :: tail), _, h =>
    rintro x ⟨⟩
    rcases eq_of_recognize_newline h.2 with rfl | rfl <;> rfl

theorem ne_of_isNameChar (h : isNameChar c = true) (x : Char)
    (hx : isNameChar x = false := by decide) : c ≠ x := by
  rintro rfl
  rw [h] at hx
  cases hx

theorem closesDate_append_name (h : name.all isNameChar = true) (rest : Text) :
    closesDate (name ++ rest) = closesDate rest := by
  induction name with
  | nil => rfl
  | cons c name ih =>
    obtain ⟨hc, hname⟩ := Bool.and_eq_true_iff.mp h
    rw [cons_append, closesDate, ih hname, if_neg (by simpa using ne_of_isNameChar hc '#'), if_neg]
    simp [isEol, ne_of_isNameChar hc '"', ne_of_isNameChar hc '\n', ne_of_isNameChar hc '\r']

theorem all_of_isPlainName (h : isPlainName name = true) : name.all isNameChar = true := by
  cases name with
  | nil => rfl
  | cons c tail =>
    obtain ⟨hc, htail⟩ := Bool.and_eq_true_iff.mp h
    rw [all_cons, isNameChar_of_isLetter hc, htail]
    rfl

/-- A lone `#` before the changes closes as a date after them if it does before them. -/
theorem Ready.closesDate (h : Ready prev? hash cs) (hhash : hash = true)
    (hlex : Lexes ctx (oldPieces cs) []) :
    closesDate (flat (oldPieces cs)) = closesDate (flat (newPieces cs)) := by
  induction h generalizing ctx with
  | nil => rfl
  | @keep prev? hash p cs hbreak hrest ih =>
    subst hhash
    obtain ⟨hcuts, hlex⟩ := hlex
    simp only [oldPieces_cons, newPieces_cons, Cell.old, Cell.new, singleton_append, flat_cons]
    cases hnewline : p.isNewline with
    | true =>
      rw [closesDate_of_lineEnds (lineEnds_of_isNewline hcuts hnewline _),
        closesDate_of_lineEnds (lineEnds_of_isNewline hcuts hnewline _)]
    | false =>
      have hafter : hashAfter true p = true := by simp [hashAfter, hnewline]
      exact closesDate_append_congr (ih hafter hlex) _
  | word hprev hold hnew hrem hrest ih =>
    simp only [oldPieces_cons, newPieces_cons, Cell.old, Cell.new, singleton_append, flat_cons,
      Piece.text, closesDate_append_name (all_of_isPlainName hold),
      closesDate_append_name (all_of_isPlainName hnew)]
    exact ih hhash hlex.2
  | fields => cases hhash
  | block => cases hhash
  | ending hends =>
    simp only [oldPieces_cons, newPieces_cons, Cell.old, Cell.new, oldPieces_nil, newPieces_nil,
      append_nil, closesDate_of_lineEnds hends]
    rfl

theorem admitsWord_append {p : Piece} {rest : Text} (h : Cuts ctx rest p) (hp : p.admitsWord = true)
    (front : Text) : Near.AdmitsWord (front ++ p.text) := by
  intro z hz
  match p, h, hp with
  | .blank c, h, _ =>
    have hspace : isSpace c = true := h
    rw [Piece.text, getLast?_concat] at hz
    cases hz
    simp only [isSpace, Bool.or_eq_true, beq_iff_eq] at hspace
    rcases hspace with rfl | rfl <;> exact ⟨rfl, by decide⟩
  | .token kind (c :: tail), _, hp =>
    have hlast : (c :: tail).getLast? = some z := by
      rw [Piece.text, getLast?_append, getLast?_cons] at hz
      rw [getLast?_cons]
      exact hz
    have hall := (Bool.and_eq_true_iff.mp hp).2
    rw [hlast, Option.all_some] at hall
    simpa using hall

theorem BeginsWord.append {text : Text} (h : BeginsWord text) (rest : Text) :
    BeginsWord (text ++ rest) := by
  obtain ⟨a, r, rfl, ha⟩ := h
  exact ⟨a, r ++ rest, rfl, ha⟩

theorem BeginsWord.both {text text' : Text} (h : BeginsWord text) (h' : BeginsWord text') :
    BothLetters text text' := by
  obtain ⟨a, r, rfl, ha⟩ := h
  obtain ⟨b, r', rfl, hb⟩ := h'
  exact ⟨a, b, r, r', rfl, rfl, ha, hb⟩

theorem beginsWord_of_isPlainName (h : isPlainName name = true) : BeginsWord name := by
  cases name with
  | nil => cases h
  | cons c tail => exact ⟨c, tail, rfl, (Bool.and_eq_true_iff.mp h).1⟩

/-- Behind a token that is kept the changed text says the same as the old one. -/
theorem Ready.near {kind : TokenKind} {tail front : Text} {p : Piece} (h : Ready prev? hash cs)
    (hprev : prev? = some p) (hp : p.isNewline = false) (hadmits : p.admitsWord = true →
      Near.AdmitsWord (c :: (tail ++ front)) ∧ (kind = .number → front ≠ []))
    (hhash : kind = .punct → c = '#' → tail = [] → hash = true) (hlex : Lexes ctx (oldPieces cs) []) :
    Near kind c tail (front ++ flat (oldPieces cs)) (front ++ flat (newPieces cs)) := by
  induction h generalizing ctx front p with
  | nil => exact .refl _
  | @keep prev? hash q cs hbreak hrest ih =>
    obtain ⟨hcuts, hlex⟩ := hlex
    simp only [oldPieces_cons, newPieces_cons, Cell.old, Cell.new, singleton_append, flat_cons]
    cases hnewline : q.isNewline with
    | true =>
      exact .of_lineEnds (lineEnds_of_isNewline hcuts hnewline _)
        (lineEnds_of_isNewline hcuts hnewline _)
    | false =>
      rw [← append_assoc, ← append_assoc]
      refine ih rfl hnewline ?_ ?_ hlex
      · intro hq
        have hlast := admitsWord_append hcuts hq (c :: (tail ++ front))
        refine ⟨by simpa using hlast, fun _ hnil => ?_⟩
        obtain ⟨-, hnil⟩ := append_eq_nil_iff.mp hnil
        cases q with
        | blank x => cases hnil
        | token kind text =>
          cases text with
          | nil => exact hcuts
          | cons x more => cases hnil
      · intro hkind hc htail
        simp [hashAfter, hnewline, hhash hkind hc htail]
  | word hfollows hold hnew hrem hrest ih =>
    obtain ⟨hlast, hnumber⟩ := hadmits (hfollows p hprev)
    have hlex : Lexes _ (oldPieces _) [] := hlex.2
    refine .of_letters ?_ hlast hnumber fun hkind hc htail => ?_
    · exact ((beginsWord_of_isPlainName hold).append _).both
        ((beginsWord_of_isPlainName hnew).append _)
    · simp only [oldPieces_cons, newPieces_cons, Cell.old, Cell.new, singleton_append, flat_cons,
        Piece.text, closesDate_append_name (all_of_isPlainName hold),
        closesDate_append_name (all_of_isPlainName hnew)]
      exact hrest.closesDate (hhash hkind hc htail) hlex
  | fields hfollows hold hlast hnew hlexes hnewLast hseparated hrest ih =>
    obtain ⟨hend, hnumber⟩ := hadmits (hfollows p hprev)
    simp only [oldPieces_cons, newPieces_cons, Cell.old, Cell.new, flat_append]
    refine .of_letters ((hold.append _).both (hnew.append _)) hend hnumber fun hkind hc htail => ?_
    cases hhash hkind hc htail
  | block hnewline =>
    rw [hnewline p hprev] at hp
    cases hp
  | @ending prev? hash new hends =>
    have hnear : Near kind c tail (front ++ []) (front ++ flat new) :=
      .of_lineEnds (by simp [LineEnds]) hends
    simpa [Cell.old, Cell.new] using hnear

end

variable {ctx ctx' : Context} {cs : List Cell} {rest : Text} {ps : List Piece} {hash : Bool}
  {kind : TokenKind} {p : Piece} {prev? : Option Piece} {text : Text}

/-! ## The changed text is read as its pieces -/

/-- The context is one in which the reader is after the piece, or at the start of a text. -/
def Follows (ctx : Context) : Option Piece → Prop
  | none => ctx = .initial
  | some p => ∃ (before : Context) (rest : Text), Cuts before rest p ∧ ctx = before.afterPiece p

theorem Follows.fresh (h : Follows ctx prev?) (hprev : ∀ p ∈ prev?, p.isNewline = true) :
    ctx.fresh = true ∧ ctx.afterValue = false := by
  match prev?, h, hprev with
  | none, h, _ =>
    have hinitial : ctx = .initial := h
    rw [hinitial]
    exact ⟨rfl, rfl⟩
  | some p, ⟨before, rest, hcuts, hbefore⟩, hprev =>
    match p, hprev p rfl, hcuts with
    | .token .newline (c :: tail), _, _ =>
      rw [hbefore]
      exact ⟨rfl, rfl⟩

/-- The contexts differ at most in what the next token does not look at. -/
structure Loose (ctx ctx' : Context) (cs : List Cell) : Prop where
  fresh : ctx'.fresh = ctx.fresh
  value : ctx'.afterValue = ctx.afterValue ∨ Separated cs
  blank : ctx'.afterBlank = ctx.afterBlank ∨ ctx'.afterBlank = false ∧
    ∀ text rest, cs ≠ .keep (.token .continuation text) :: rest

theorem Loose.refl (ctx : Context) (cs : List Cell) : Loose ctx ctx cs := ⟨rfl, .inl rfl, .inl rfl⟩

theorem Loose.afterPiece (h : Loose ctx ctx' (.keep p :: cs)) (hcuts : Cuts ctx rest p) :
    Loose (ctx.afterPiece p) (ctx'.afterPiece p) cs := by
  match p, hcuts with
  | .blank c, _ => exact ⟨h.fresh, h.value, .inl rfl⟩
  | .token kind (c :: tail), _ =>
    have hafter : ctx'.after kind c = ctx.after kind c := by simp only [Context.after, h.fresh]
    rw [Context.afterPiece, Context.afterPiece, hafter]
    exact .refl _ _

theorem follows_of_getLast? (h : ps.getLast? = some p) (hlex : Lexes ctx ps rest) :
    Follows (ctx.afterAll ps) (some p) := by
  obtain ⟨front, rfl⟩ := getLast?_eq_some_iff.mp h
  refine ⟨ctx.afterAll front, _, (lexes_append.mp hlex).2.1, ?_⟩
  rw [Context.afterAll_append]
  rfl

/-- After a token of a statement no new statement begins and no blank stands before what follows. -/
theorem afterAll_of_isSignificant (h : ps.getLast? = some (.token kind text))
    (hkind : kind.isSignificant = true) (hlex : Lexes ctx ps rest) :
    (ctx.afterAll ps).fresh = false ∧ (ctx.afterAll ps).afterBlank = false := by
  obtain ⟨front, rfl⟩ := getLast?_eq_some_iff.mp h
  have hcuts := (lexes_append.mp hlex).2.1
  rw [Context.afterAll_append, Context.afterAll_cons, Context.afterAll_nil]
  match text, hcuts with
  | c :: tail, _ => cases kind <;> first | exact ⟨rfl, rfl⟩ | cases hkind

/-- After a line end a new statement begins. -/
theorem afterAll_of_newline (h : ps.getLast? = some (.token .newline text))
    (hlex : Lexes ctx ps rest) :
    (ctx.afterAll ps).fresh = true ∧ (ctx.afterAll ps).afterValue = false ∧
      (ctx.afterAll ps).afterBlank = false := by
  obtain ⟨front, rfl⟩ := getLast?_eq_some_iff.mp h
  have hcuts := (lexes_append.mp hlex).2.1
  rw [Context.afterAll_append, Context.afterAll_cons, Context.afterAll_nil]
  match text, hcuts with
  | c :: tail, _ => exact ⟨rfl, rfl, rfl⟩

/-- Behind a token of a statement a piece that is none ends words and numbers. -/
theorem stops_of_cuts (h : Cuts ctx rest p)
    (hp : ∀ kind text, p = .token kind text → kind.isSignificant = false)
    (hfresh : ctx.fresh = false) (hblank : ctx.afterBlank = false) (more : Text) :
    Stops (p.text ++ more) := by
  match p, hp, h with
  | .blank c, _, hspace =>
    have hspace : isSpace c = true := hspace
    rintro x ⟨⟩
    simp only [isSpace, Bool.or_eq_true, beq_iff_eq] at hspace
    rcases hspace with rfl | rfl <;> decide
  | .token kind (c :: tail), hp, ⟨_, hrecognize⟩ =>
    rintro x ⟨⟩
    rcases recognize_insignificant hrecognize (hp _ _ rfl) with
      ⟨-, rfl | rfl⟩ | ⟨-, -, hafter⟩ | ⟨-, rfl | hafter⟩ | ⟨-, rfl⟩
    · decide
    · decide
    · rw [hblank] at hafter
      cases hafter
    · decide
    · rw [hfresh] at hafter
      cases hafter
    · decide

/-- What comes before the next statement ends a word or a number. -/
theorem Ready.stops (h : Ready prev? hash cs) (hprev : ∃ p, prev? = some p ∧ p.isNewline = false)
    (hseparated : Separated cs) (hlex : Lexes ctx (oldPieces cs) []) (hfresh : ctx.fresh = false)
    (hblank : ctx.afterBlank = false) : Stops (flat (newPieces cs)) := by
  cases h with
  | nil => nofun
  | @keep _ _ p cs hbreak hrest =>
    have hp : ∀ kind text, p = .token kind text → kind.isSignificant = false := by
      rintro kind text rfl
      exact hseparated
    exact stops_of_cuts hlex.1 hp hfresh hblank _
  | word => cases hseparated
  | fields => cases hseparated
  | block hnewline =>
    obtain ⟨p, hp, hfalse⟩ := hprev
    rw [hnewline p hp] at hfalse
    cases hfalse
  | ending hends =>
    simp only [newPieces_cons, Cell.new, newPieces_nil, append_nil]
    exact hends.stops

theorem isNewline_of_isSignificant (h : kind.isSignificant = true) :
    (Piece.token kind text).isNewline = false := by
  cases kind <;> first | rfl | cases h

theorem Ready.near_of_cuts {c : Char} {tail : Text}
    (h : Ready (some (.token kind (c :: tail))) hash cs) (hnewline : kind ≠ .newline)
    (hhash : kind = .punct → c = '#' → tail = [] → hash = true)
    (hcuts : Cuts ctx rest (.token kind (c :: tail))) (hlex : Lexes ctx' (oldPieces cs) []) :
    Near kind c tail (flat (oldPieces cs)) (flat (newPieces cs)) := by
  have hkind : (Piece.token kind (c :: tail)).isNewline = false := by
    cases kind <;> first | rfl | exact absurd rfl hnewline
  change Near kind c tail ([] ++ flat (oldPieces cs)) ([] ++ flat (newPieces cs))
  refine h.near rfl hkind (fun hadmits => ?_) hhash hlex
  have hlast := admitsWord_append hcuts hadmits []
  refine ⟨by simpa [Piece.text] using hlast, ?_⟩
  rintro rfl
  cases hadmits

/-- A piece that is kept is cut off the changed text. -/
theorem Ready.cuts (h : Ready (some p) (hashAfter hash p) cs) (hbreak : p.HoldsBreak ∨ cs = [])
    (hcuts : Cuts ctx (flat (oldPieces cs)) p) (hlex : Lexes (ctx.afterPiece p) (oldPieces cs) [])
    (hloose : Loose ctx ctx' (.keep p :: cs)) : Cuts ctx' (flat (newPieces cs)) p := by
  match p, hcuts with
  | .blank c, hspace => exact hspace
  | .token kind (c :: tail), hcuts =>
    have hnew : Cuts ctx (flat (newPieces cs)) (.token kind (c :: tail)) := by
      by_cases hkind : kind = .newline ∨ kind = .continuation
      · rcases hbreak with hbreak | rfl
        · refine hcuts.of_lf hkind ?_ _
          rcases hkind with rfl | rfl <;> exact hbreak
        · exact hcuts
      · obtain ⟨hnewline, hcontinuation⟩ := not_or.mp hkind
        refine hcuts.of_near hnewline hcontinuation (h.near_of_cuts hnewline ?_ hcuts hlex)
        rintro rfl rfl rfl
        simp [hashAfter, Piece.isNewline, Piece.isHash]
    refine hnew.of_context hloose.fresh hloose.value ?_
    refine hloose.blank.imp id fun hblank => ⟨hblank.1, ?_⟩
    rintro rfl
    exact hblank.2 _ _ rfl

/-- A word that is put in is cut off the changed text. -/
theorem Ready.cuts_word {old new : Text} (h : Ready (some (.token .identifier old)) hash cs)
    (hold : isPlainName old = true) (hnew : isPlainName new = true)
    (hrem : new.fold ≠ ['r', 'e', 'm'])
    (hcuts : Cuts ctx (flat (oldPieces cs)) (.token .identifier old))
    (hlex : Lexes (ctx.afterPiece (.token .identifier old)) (oldPieces cs) []) :
    Cuts ctx' (flat (newPieces cs)) (.token .identifier new) := by
  refine cuts_name hnew (fun _ => hrem) ?_
  have hzero := nameTail_of_cuts hold hcuts
  cases old with
  | nil => cases hold
  | cons c tail =>
    obtain ⟨hc, htail⟩ := Bool.and_eq_true_iff.mp hold
    have hstart : isNameStart c = true := by simp [isNameStart, hc]
    have hnear := (h.near_of_cuts (by simp) (by simp) hcuts hlex).name hstart
    rw [nameTail_append_of_all htail, nameTail_append_of_all htail, hzero] at hnear
    have := hnear rfl
    omega

theorem lexes_cons_nil :
    Lexes ctx (p :: ps) [] ↔ Cuts ctx (flat ps) p ∧ Lexes (ctx.afterPiece p) ps [] := by
  rw [Lexes, append_nil]

theorem lexes_append_nil {qs : List Piece} :
    Lexes ctx (ps ++ qs) [] ↔ Lexes ctx ps (flat qs) ∧ Lexes (ctx.afterAll ps) qs [] := by
  rw [lexes_append, append_nil]

/-- The changed text is read as the pieces that were kept and those that were put in. -/
theorem Ready.lexes (h : Ready prev? hash cs) (hlex : Lexes ctx (oldPieces cs) [])
    (hctx : Follows ctx prev?) (hloose : Loose ctx ctx' cs) : Lexes ctx' (newPieces cs) [] := by
  induction h generalizing ctx ctx' with
  | nil => trivial
  | @keep prev? hash p cs hbreak hrest ih =>
    rw [oldPieces_cons, Cell.old, singleton_append, lexes_cons_nil] at hlex
    rw [newPieces_cons, Cell.new, singleton_append, lexes_cons_nil]
    exact ⟨hrest.cuts hbreak hlex.1 hlex.2 hloose, ih hlex.2 ⟨ctx, _, hlex.1, rfl⟩ (hloose.afterPiece hlex.1)⟩
  | @word prev? hash old new cs hprev hold hnew hrem hrest ih =>
    rw [oldPieces_cons, Cell.old, singleton_append, lexes_cons_nil] at hlex
    rw [newPieces_cons, Cell.new, singleton_append, lexes_cons_nil]
    have hnewCuts : Cuts ctx' (flat (newPieces cs)) (.token .identifier new) :=
      hrest.cuts_word hold hnew hrem hlex.1 hlex.2
    refine ⟨hnewCuts, ih hlex.2 ⟨ctx, _, hlex.1, rfl⟩ ?_⟩
    match old, new, hlex.1, hnewCuts with
    | c :: tail, c' :: tail', _, _ => exact .refl _ _
  | @fields prev? old new cs hprev hold hlast hnew hlexes hnewLast hseparated hrest ih =>
    rw [oldPieces_cons, Cell.old, lexes_append_nil] at hlex
    rw [newPieces_cons, Cell.new, lexes_append_nil]
    obtain ⟨hlexOld, hlex⟩ := hlex
    obtain ⟨kind, text, hlast, hkind⟩ := hlast
    obtain ⟨kind', text', hnewLast, hkind'⟩ := hnewLast
    obtain ⟨hfresh, hblank⟩ := afterAll_of_isSignificant hlast hkind hlexOld
    have hstops := hrest.stops ⟨_, hlast, isNewline_of_isSignificant hkind⟩ hseparated hlex hfresh hblank
    have hlexNew := hlexes ctx' _ hstops
    obtain ⟨hfresh', hblank'⟩ := afterAll_of_isSignificant hnewLast hkind' hlexNew
    refine ⟨hlexNew, ih hlex ?_ ⟨?_, .inr hseparated, .inl ?_⟩⟩
    · rw [hlast]
      exact follows_of_getLast? hlast hlexOld
    · rw [hfresh, hfresh']
    · rw [hblank, hblank']
  | @block prev? new cs hnewline hlexes hnewLast hnext hrest ih =>
    obtain ⟨text, hnewLast⟩ := hnewLast
    rw [oldPieces_cons, Cell.old, nil_append] at hlex
    rw [newPieces_cons, Cell.new, lexes_append_nil]
    obtain ⟨hfresh, hvalue⟩ := hctx.fresh hnewline
    have hlexNew := hlexes ctx' (flat (newPieces cs)) (by rw [hloose.fresh, hfresh])
    obtain ⟨hfresh', hvalue', hblank'⟩ := afterAll_of_newline hnewLast hlexNew
    refine ⟨hlexNew, ih hlex hctx ⟨?_, .inl ?_, .inr ⟨hblank', hnext⟩⟩⟩
    · rw [hfresh, hfresh']
    · rw [hvalue, hvalue']
  | ending hends hlexes =>
    rw [newPieces_cons, Cell.new, lexes_append_nil]
    exact ⟨hlexes ctx', trivial⟩

end Lexer

end VbaRefactor
