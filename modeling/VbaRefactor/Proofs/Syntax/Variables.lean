import VbaRefactor.Proofs.Syntax.Declarators

/-!
# Variables among the pieces

The variables of a field statement stand among the pieces of its text. Put together anew, behind the
same keywords or in a statement of its own, a variable declares what it declared before.
-/

namespace VbaRefactor

open List Text Statement ModuleStatement Token

variable {access : Access} {withEvents : Bool} {segments : List (List Piece)}
  {gap lead own : List Piece} {statements : List Statement} {n : Nat} {p : Piece}
  {after before part s : Statement} {name : Text} {t : Token}

/-! ## Parts among the pieces -/

namespace Lexer

section

variable {pos : Nat} {ps : List Piece}

theorem significant_place_token {kind : TokenKind} (h : kind.isSignificant = true) (pos : Nat)
    (text : Text) (ps : List Piece) :
    significant (place pos (.token kind text :: ps)) =
      ⟨kind, pos, text⟩ :: significant (place (pos + text.byteSize) ps) :=
  filter_cons_of_pos (p := fun t : Token => t.kind.isSignificant) h

theorem significant_place_skip (h : p.isSignificant = false) (pos : Nat) (ps : List Piece) :
    significant (place pos (p :: ps)) = significant (place (pos + p.text.byteSize) ps) := by
  cases p with
  | blank c => rfl
  | token kind text =>
    rw [place, significant, filter_cons_of_neg (by simpa [Piece.isSignificant] using h)]
    rfl

theorem significant_place_append (pos : Nat) (ps qs : List Piece) :
    significant (place pos (ps ++ qs)) = significant (place pos ps) ++
        significant (place (pos + (flat ps).byteSize) qs) := by
  rw [place_append, significant, filter_append]
  rfl

/-- The pieces can be parted where their tokens can. -/
theorem exists_split (h : significant (place pos ps) = before ++ after) :
    ∃ front back, ps = front ++ back ∧ significant (place pos front) = before ∧
      significant (place (pos + (flat front).byteSize) back) = after := by
  induction ps generalizing pos before with
  | nil =>
    obtain ⟨rfl, rfl⟩ := append_eq_nil_iff.mp h.symm
    exact ⟨[], [], rfl, rfl, rfl⟩
  | cons p ps ih =>
    cases before with
    | nil => exact ⟨[], p :: ps, rfl, rfl, h⟩
    | cons t before =>
      have hsize (front : List Piece) :
          pos + (flat (p :: front)).byteSize = pos + p.text.byteSize + (flat front).byteSize := by
        rw [flat_cons, byteSize_append, Nat.add_assoc]
      cases hp : p.isSignificant with
      | false =>
        rw [significant_place_skip hp] at h
        obtain ⟨front, back, rfl, hfront, hback⟩ := ih h
        refine ⟨p :: front, back, rfl, (significant_place_skip hp _ _).trans hfront, ?_⟩
        rw [hsize]
        exact hback
      | true =>
        cases p with
        | blank c => cases hp
        | token kind text =>
          rw [significant_place_token hp] at h
          obtain ⟨htoken, hrest⟩ := List.cons.inj h
          subst htoken
          obtain ⟨front, back, rfl, hfront, hback⟩ := ih hrest
          refine ⟨.token kind text :: front, back, rfl, ?_, ?_⟩
          · rw [significant_place_token hp, hfront]
          · rw [hsize]
            exact hback

/-- The pieces from the first to the last token of a part of a statement. -/
theorem exists_part (h : significant (place pos ps) = before ++ part ++ after) (hpart : part ≠ []) :
    ∃ front own back, ps = front ++ own ++ back ∧
      significant (place (pos + (flat front).byteSize) own) = part ∧
      significant (place (pos + (flat (front ++ own)).byteSize) back) = after ∧
      (∃ p ∈ own.head?, p.isSignificant = true) ∧ ∃ p ∈ own.getLast?, p.isSignificant = true := by
  rw [append_assoc] at h
  obtain ⟨front, rest, rfl, -, hrest⟩ := exists_split h
  obtain ⟨middle, back, rfl, hmiddle, hback⟩ := exists_split hrest
  obtain ⟨gap, own, behind, rfl, hgap, hbehind, hfirst, hlast⟩ :=
    exists_trim (exists_significant (by rw [hmiddle]; exact hpart))
  refine ⟨front ++ gap, own, behind ++ back, by simp, ?_, ?_, hfirst, hlast⟩
  · rw [← hmiddle, significant_place_append, significant_place_append, significant_place_eq_nil hgap,
      significant_place_eq_nil hbehind, nil_append, append_nil, flat_append,
      byteSize_append, Nat.add_assoc]
  · rw [← hback, significant_place_append, significant_place_eq_nil hbehind, nil_append]
    congr 2
    simp only [flat_append, byteSize_append]
    omega

/-- The tokens cover what pieces take up that begin and end with tokens. -/
theorem cover?_place (hfirst : ∃ p ∈ ps.head?, p.isSignificant = true)
    (hlast : ∃ p ∈ ps.getLast?, p.isSignificant = true) :
    cover? (significant (place pos ps)) = some ⟨pos, pos + (flat ps).byteSize⟩ := by
  obtain ⟨p, hp, hsignificant⟩ := hfirst
  obtain ⟨q, hq, hsignificant'⟩ := hlast
  match p, q, hsignificant, hsignificant' with
  | .token kind text, .token kind' text', hsignificant, hsignificant' =>
    obtain ⟨back, hback⟩ := head?_eq_some_iff.mp hp
    obtain ⟨front, hfront⟩ := getLast?_eq_some_iff.mp hq
    have hhead : (significant (place pos ps)).head? = some ⟨kind, pos, text⟩ := by
      rw [hback, significant_place_token hsignificant]
      rfl
    have hend : (significant (place pos ps)).getLast? =
        some ⟨kind', pos + (flat front).byteSize, text'⟩ := by
      rw [hfront, significant_place_append, significant_place_token hsignificant', getLast?_append]
      rfl
    have hsize : (flat ps).byteSize = text.byteSize + (flat back).byteSize := by
      rw [hback, flat_cons, byteSize_append]
      rfl
    have hsize' : (flat ps).byteSize = (flat front).byteSize + text'.byteSize := by
      rw [hfront, flat_append, byteSize_append]
      simp [Piece.text]
    rw [cover?, hhead, hend]
    simp only [Span.cover, Token.span, Token.stop]
    congr 2
    · omega
    · omega

end

/-- The pieces of a part of a statement, from its first to its last token. -/
structure PartAt (text : Text) (part : Statement) (pos : Nat) (ps : List Piece) : Prop where
  hasAt : text.HasAt pos (flat ps)
  tokens : part = (ownStatement ps).shift pos
  cover : part.cover? = some ⟨pos, pos + (flat ps).byteSize⟩
  first : ∃ p ∈ ps.head?, p.isSignificant = true
  last : EndsInToken ps

variable {pos : Nat} {ps : List Piece} {text : Text}

theorem endsInToken_of_getLast? (h : ∃ p ∈ ps.getLast?, p.isSignificant = true) :
    EndsInToken ps := by
  obtain ⟨p, hp, hsignificant⟩ := h
  match p, hsignificant with
  | .token kind text, hsignificant => exact ⟨kind, text, hp, hsignificant⟩

/-- Behind a token of a statement a comma or what is no token of a statement ends words. -/
theorem stops_of_head {ctx : Context} (h : Lexes ctx ps []) (hfresh : ctx.fresh = false)
    (hblank : ctx.afterBlank = false)
    (hps : ∀ p ∈ ps.head?, p.isSignificant = true → p = .token .punct [',']) : Stops (flat ps) := by
  cases ps with
  | nil => nofun
  | cons p ps =>
    cases hp : p.isSignificant with
    | false =>
      refine stops_of_cuts h.1 ?_ hfresh hblank _
      rintro kind text rfl
      exact hp
    | true =>
      rw [hps p rfl hp]
      rintro c ⟨⟩
      decide

theorem eq_comma (h : t.isPunct "," = true) : t.kind = .punct ∧ t.text = [','] := by
  simpa [Token.isPunct] using h

/-- A part of a statement among the pieces of its text. -/
theorem Located.exists_partAt {rest : List Piece} (h : Located 0 statements s lead gap own rest)
    (htext : text = flat (lead ++ gap ++ own ++ rest))
    (hlex : Lexes .initial (lead ++ gap ++ own ++ rest) []) (hs : s = before ++ part ++ after)
    (hpart : part ≠ []) :
    ∃ pos ps ctx behind, PartAt text part pos ps ∧ ps ⊆ own ∧ Lexes ctx ps behind ∧
      ((∀ t ∈ after.head?, t.isPunct "," = true) → Stops behind) := by
  have htokens := h.tokens
  rw [hs, Nat.zero_add] at htokens
  obtain ⟨front, ps, back, hown, hps, hback, hfirst, hlast⟩ := exists_part htokens hpart
  have hpieces : lead ++ gap ++ own ++ rest = (lead ++ gap ++ front) ++ (ps ++ (back ++ rest)) := by
    simp [hown]
  have hpos : (flat (lead ++ gap)).byteSize + (flat front).byteSize =
      (flat (lead ++ gap ++ front)).byteSize := by
    rw [flat_append (lead ++ gap) front, byteSize_append]
  rw [hpieces, lexes_append_nil, lexes_append_nil] at hlex
  obtain ⟨-, hlexPart, hlexBack⟩ := hlex
  have hend := endsInToken_of_getLast? hlast
  refine ⟨(flat (lead ++ gap ++ front)).byteSize, ps, _, flat (back ++ rest),
    ⟨⟨flat (lead ++ gap ++ front), flat (back ++ rest), ?_, rfl⟩, ?_, ?_, hfirst, hend⟩, ?_, hlexPart,
    ?_⟩
  · rw [htext, hpieces, flat_append, flat_append ps, append_assoc]
  · rw [← hps, hpos, significant_place]
  · rw [← hps, hpos, cover?_place hfirst hlast]
  · intro p hp
    simp [hown, hp]
  intro hcomma
  obtain ⟨kind, text, hgetLast, hkind⟩ := hend
  obtain ⟨hfresh, hblank⟩ := afterAll_of_isSignificant hgetLast hkind hlexPart
  refine stops_of_head hlexBack hfresh hblank ?_
  intro p hp hsignificant
  cases back with
  | nil =>
    have hends := h.ends
    cases rest with
    | nil => cases hp
    | cons p' rest =>
      cases hp
      rcases hends with hsep | ⟨hinsignificant, -⟩
      · rw [isSignificant_of_isSeparator hsep] at hsignificant
        cases hsignificant
      · rw [hinsignificant] at hsignificant
        cases hsignificant
  | cons p' back =>
    cases hp
    match p, hsignificant with
    | .token kind text, hsignificant =>
      rw [significant_place_token hsignificant] at hback
      obtain ⟨hkind, htext⟩ := eq_comma (hcomma _ (by rw [← hback]; rfl))
      cases hkind
      cases htext
      rfl

/-! ## What variables declare -/

/-- What the pieces of a variable declare. -/
def variableProfile? (access : Access) (withEvents : Bool) (ps : List Piece) : Option Profile :=
  (Statement.declarator? (flat ps) access withEvents (ownStatement ps)).map Declarator.profile

/-- The pieces of a variable declare the same in every text. -/
theorem map_profile_declarator? (h : text.HasAt pos (flat ps)) (access : Access) (withEvents : Bool) :
    (declarator? text access withEvents (significant (place pos ps))).map
      Declarator.profile = variableProfile? access withEvents ps := by
  rw [significant_place, declarator?_shift h (heldBy_ownStatement ps), Option.map_map]
  rfl

/-- No comma of the pieces parts them. -/
def IsWhole (ps : List Piece) : Prop :=
  Statement.splitAtCommas 0 (ownStatement ps) = [ownStatement ps]

/-- Every parenthesis of the pieces is closed. -/
def IsBalanced (ps : List Piece) : Prop := Statement.depthOf 0 (ownStatement ps) = 0

section

variable {ps : List Piece}

theorem IsWhole.place (h : IsWhole ps) (pos : Nat) :
    splitAtCommas 0 (significant (place pos ps)) = [significant (Lexer.place pos ps)] := by
  rw [significant_place, splitAtCommas_shift, h]
  rfl

theorem IsBalanced.place (h : IsBalanced ps) (pos : Nat) :
    Statement.depthOf 0 (Statement.significant (place pos ps)) = 0 := by
  rw [significant_place, Statement.depthOf, Statement.shift, foldl_map]
  exact h

end

/-- Variables with commas between them declare what they declare one by one. -/
theorem profiles_intercalate (hwhole : ∀ ps ∈ segments, IsWhole ps)
    (hbalanced : segments.Pairwise fun ps _ => IsBalanced ps)
    (hat : text.HasAt pos (flat (commaPieces.intercalate segments))) (access : Access)
    (withEvents : Bool) :
    ((splitAtCommas 0 (significant (place pos (commaPieces.intercalate segments)))).filterMap
      (declarator? text access withEvents)).map Declarator.profile =
      segments.filterMap (variableProfile? access withEvents) := by
  induction segments generalizing pos with
  | nil => rfl
  | cons ps segments ih =>
    obtain ⟨hps, hrest⟩ := forall_mem_cons.mp hwhole
    obtain ⟨hclosed, hpairs⟩ := pairwise_cons.mp hbalanced
    cases segments with
    | nil =>
      rw [intercalate_singleton] at hat ⊢
      rw [hps.place, filterMap_cons, filterMap_cons, ← map_profile_declarator? hat]
      cases declarator? text access withEvents (significant (place pos ps)) <;> rfl
    | cons qs segments =>
      rw [intercalate_cons_cons] at hat ⊢
      rw [flat_append] at hat
      have hfirst : text.HasAt pos (flat ps) := by
        rw [flat_append] at hat
        exact hat.left.left
      rw [significant_place_append, significant_place_append, commaPieces,
        significant_place_token rfl, append_assoc, cons_append,
        splitAtCommas_append rfl (hps.place pos) ((hclosed qs mem_cons_self).place pos),
        filterMap_cons, filterMap_cons, ← map_profile_declarator? hfirst]
      have hrest := ih hrest hpairs hat.right
      cases declarator? text access withEvents (significant (place pos ps)) with
      | none => exact hrest
      | some d => exact congrArg (d.profile :: ·) hrest

/-! ## The variables that stay -/

section

variable {i pos : Nat} {keywords : List Piece}

theorem exists_intercalate (ps : List Piece) (segments : List (List Piece)) :
    ∃ rest, commaPieces.intercalate (ps :: segments) = ps ++ rest := by
  cases segments with
  | nil => exact ⟨[], by simp⟩
  | cons qs segments =>
    exact ⟨_, (intercalate_cons_cons).trans (append_assoc ps _ _)⟩

theorem ownStatement_append (ps qs : List Piece) :
    ownStatement (ps ++ qs) = ownStatement ps ++ significant (place (flat ps).byteSize qs) := by
  rw [ownStatement, significant_place_append, Nat.zero_add]
  rfl

/-- What a run of pieces declares that is a field statement. -/
theorem runDeclares_fields {q : List Piece} (h : ofStatement (ownStatement q) = .fields access i)
    (hlt : (ownStatement q).variablesAt i < (ownStatement q).length) :
    runDeclares .code q =
      some (((splitAtCommas 0 ((ownStatement q).drop ((ownStatement q).variablesAt i))).filterMap
        (declarator? (flat q) access ((ownStatement q).isWord i "withevents"))).map
          Declarator.profile, .code) := by
  have hsome : (ownStatement q).isEmpty = false := by
    cases hnil : ownStatement q with
    | nil =>
      rw [hnil] at h
      cases h
    | cons t s => rfl
  rw [runDeclares, declaresRun, hsome, declares, h]
  simp only [Bool.false_eq_true, if_false, declarators, if_pos hlt]

/-- Variables behind the keywords of a field statement. -/
theorem runDeclares_keywords (h : ofStatement s = .fields access i)
    (hkeywords : s.take (s.variablesAt i) = (ownStatement keywords).shift pos)
    (hlt : s.variablesAt i < s.length) (hne : segments ≠ [])
    (hwhole : ∀ ps ∈ segments, IsWhole ps) (hbalanced : segments.Pairwise fun ps _ => IsBalanced ps)
    (hfirst : ∀ ps ∈ segments.head?, ownStatement ps ≠ [] ∧
      ∀ word ∈ reserved, (ownStatement ps).isWord 0 word = false) :
    runDeclares .code (keywords ++ gapPieces ++ commaPieces.intercalate segments) =
      some (segments.filterMap (variableProfile? access (s.isWord i "withevents")), .code) := by
  obtain ⟨first, more, rfl⟩ := exists_cons_of_ne_nil hne
  obtain ⟨hsome, hreserved⟩ := hfirst first rfl
  obtain ⟨rest, hrest⟩ := exists_intercalate first more
  have hat : (flat (keywords ++ gapPieces ++ commaPieces.intercalate (first :: more))).HasAt
      (flat (keywords ++ gapPieces)).byteSize (flat (commaPieces.intercalate (first :: more))) :=
    ⟨_, [], by rw [flat_append, append_nil], rfl⟩
  have hvariables := profiles_intercalate hwhole hbalanced hat access (s.isWord i "withevents")
  -- The first token behind the keywords is the first one of the first variable.
  have hhead : ∃ t tokens, ownStatement first = t :: tokens ∧
      (significant (place (flat (keywords ++ gapPieces)).byteSize
        (commaPieces.intercalate (first :: more)))).head? =
        some (t.shift (flat (keywords ++ gapPieces)).byteSize) := by
    obtain ⟨t, tokens, htokens⟩ := exists_cons_of_ne_nil hsome
    refine ⟨t, tokens, htokens, ?_⟩
    rw [hrest, significant_place_append, significant_place, htokens]
    rfl
  obtain ⟨t, tokens, htokens, hhead⟩ := hhead
  have hgap : ∀ p ∈ gapPieces, p.isSignificant = false := by decide
  have hown : ownStatement (keywords ++ gapPieces ++ commaPieces.intercalate (first :: more)) =
      ownStatement keywords ++ significant (place (flat (keywords ++ gapPieces)).byteSize
        (commaPieces.intercalate (first :: more))) := by
    rw [ownStatement_append, ownStatement_append keywords, significant_place_eq_nil hgap,
      append_nil]
  generalize significant (place (flat (keywords ++ gapPieces)).byteSize
    (commaPieces.intercalate (first :: more))) = behind at hvariables hhead hown
  obtain ⟨more, rfl⟩ := head?_eq_some_iff.mp hhead
  obtain ⟨hkind, hwith, hend⟩ := ofStatement_joined h hlt hkeywords
    (show ∀ word ∈ reserved, isWord (t.shift _ :: more) 0 word = false by
      intro word hword
      have hfalse := hreserved word hword
      rw [htokens] at hfalse
      exact hfalse)
  rw [← hown] at hkind hwith hend
  rw [runDeclares_fields hkind (by rw [hend, hown]; simp), hend, hwith, ← hvariables, hown,
    drop_left]

end

/-! ## The variables that move -/

/-- A variable with `WithEvents` in front of it or not. -/
def eventPieces (withEvents : Bool) (ps : List Piece) : List Piece :=
  if withEvents then [.token .identifier "WithEvents"] ++ gapPieces ++ ps else ps

/-- The statement of a private field: its name with what follows it. -/
def privatePieces (withEvents : Bool) (name : Text) (post : List Piece) : List Piece :=
  [.token .identifier "Private"] ++ gapPieces ++ eventPieces withEvents (.token .identifier name :: post)

section

variable {old text : Text} {post : List Piece} {pos : Nat} {bounds? : Option Span}
  {type? : Option Text}

theorem segment_eventPieces {ps : List Piece} (h : Segment ps) : Segment (eventPieces withEvents ps) := by
  have hevents : Segment [.token .identifier "WithEvents"] := segment_word (by decide)
  rw [eventPieces]
  split
  · exact hevents.joint joint_gapPieces h
  · exact h

theorem opening_privatePieces (h : Segment (.token .identifier name :: post)) :
    Opening (privatePieces withEvents name post) := by
  have hprivate : Opening [.token .identifier "Private"] := opening_word (by decide) (by decide)
  exact hprivate.joint joint_gapPieces (segment_eventPieces h)

theorem run_privatePieces (h : Segment (.token .identifier name :: post)) :
    ∀ p ∈ privatePieces withEvents name post, p.isSeparator = false := by
  have hprivate : ∀ p ∈ [Piece.token .identifier "Private"] ++ gapPieces, p.isSeparator = false := by
    decide
  exact forall_mem_append.mpr ⟨hprivate, (segment_eventPieces h).run⟩

theorem flat_privatePieces :
    flat (privatePieces withEvents name post) =
      Text.concat ["Private ", if withEvents then "WithEvents " else "", name, flat post] := by
  cases withEvents <;>
    simp [privatePieces, eventPieces, gapPieces, Text.concat, Piece.text]

theorem ownStatement_privatePieces :
    ∃ n, ownStatement (privatePieces withEvents name post) =
        (⟨.identifier, 0, "Private"⟩ : Token) ::
          ((if withEvents then [(⟨.identifier, 8, "WithEvents"⟩ : Token)] else []) ++
            ⟨.identifier, n, name⟩ :: significant (place (n + name.byteSize) post)) ∧
      (flat (privatePieces withEvents name post)).HasAt (n + name.byteSize) (flat post) := by
  cases withEvents with
  | false =>
    refine ⟨8, rfl, ⟨"Private ".toList ++ name, [], ?_, ?_⟩⟩
    · simp [flat_privatePieces, Text.concat]
    · rw [byteSize_append]
      rfl
  | true =>
    refine ⟨19, rfl, ⟨"Private WithEvents ".toList ++ name, [], ?_, ?_⟩⟩
    · simp [flat_privatePieces, Text.concat]
    · rw [byteSize_append]
      rfl

theorem isWord_false_of_fold {word : Text} (h : name.fold ≠ word) :
    isWord ⟨.identifier, n, name⟩ word = false := beq_false_of_ne h

theorem name_of_isPlainName (h : isPlainName name = true) :
    Token.name ⟨.identifier, n, name⟩ = name := by
  match name, h with
  | c :: tail, h =>
    have hc : isLetter c = true := (Bool.and_eq_true_iff.mp h).1
    have hne : c ≠ '[' := by
      rintro rfl
      cases hc
    simp [Token.name, hne]

/-- A name in front of tokens that no comma parts. -/
theorem splitAtCommas_name {rest : Statement} (h : splitAtCommas 0 rest = [rest]) :
    splitAtCommas 0 (⟨.identifier, n, name⟩ :: rest) = [⟨.identifier, n, name⟩ :: rest] := by
  refine splitAtCommas_cons_eq_singleton.mpr ⟨?_, h⟩
  rintro ⟨-, ⟨⟩⟩

/-- A private field declares what a variable declares that has the same behind its name. -/
theorem runDeclares_privatePieces (hname : isPlainName name = true)
    (hreserved : name.fold ∉ reserved) (hwhole : IsWhole post)
    (hafter : afterName? (flat post) (ownStatement post) = some (bounds?, type?)) :
    runDeclares .code (privatePieces withEvents name post) = some ([{
      name, kind := .variable, access := .private, type?, isWithEvents := withEvents
      isArray := bounds?.isSome }], .code) := by
  obtain ⟨n, hown, hat⟩ := @ownStatement_privatePieces withEvents name post
  have hwords : ∀ word ∈ reserved, isWord ⟨.identifier, n, name⟩ word = false := by
    intro word hword
    refine isWord_false_of_fold ?_
    rintro rfl
    exact hreserved hword
  have hprivate : isWord ⟨.identifier, 0, "Private"⟩ "private" = true := by decide
  have hevents : isWord ⟨.identifier, 8, "WithEvents"⟩ "withevents" = true := by decide
  obtain ⟨hkind, hwith, hdrop⟩ := ofStatement_private hprivate hevents hwords withEvents
    (significant (place (n + name.byteSize) post))
  rw [← hown] at hkind hwith hdrop
  have hlt : (ownStatement (privatePieces withEvents name post)).variablesAt 1 <
      (ownStatement (privatePieces withEvents name post)).length := by
    by_contra hge
    rw [drop_eq_nil_of_le (Nat.le_of_not_lt hge)] at hdrop
    cases hdrop
  have hbehind := afterName?_shift hat (heldBy_ownStatement post)
  rw [← significant_place, hafter] at hbehind
  have hprofile := @profile_of_name .private _ ⟨.identifier, n, name⟩ _ withEvents _ _ rfl
    (hwords _ (mem_cons_of_mem _ mem_cons_self)) hbehind
  rw [Option.isSome_map, name_of_isPlainName hname] at hprofile
  obtain ⟨d, hd, hprofile⟩ := Option.map_eq_some_iff.mp hprofile
  rw [runDeclares_fields hkind hlt, hdrop, hwith, splitAtCommas_name (hwhole.place _),
    filterMap_cons_some hd, filterMap_nil, map_singleton, hprofile]

end

/-! ## Variables of a statement among the pieces -/

section

variable {text : Text} {m : Statement} {pos : Nat} {ps : List Piece}

theorem PartAt.token (h : PartAt text part pos ps) {rest : Statement} (hpart : part = t :: rest) :
    ∃ post, ps = .token t.kind t.text :: post ∧ t.start = pos ∧
      rest = significant (place (pos + t.text.byteSize) post) := by
  obtain ⟨p, hp, hsignificant⟩ := h.first
  match p, hsignificant with
  | .token kind word, hsignificant =>
    obtain ⟨post, rfl⟩ := head?_eq_some_iff.mp hp
    have htokens := h.tokens
    rw [← significant_place, significant_place_token hsignificant, hpart] at htokens
    obtain ⟨rfl, rfl⟩ := List.cons.inj htokens
    exact ⟨post, rfl, rfl, rfl⟩

/-- The pieces of the last tokens of a part are the last ones of its pieces. -/
theorem PartAt.exists_suffix (h : PartAt text (part ++ m) pos ps) (hm : m ≠ []) :
    ∃ front own, ps = front ++ own ∧ PartAt text m (pos + (flat front).byteSize) own := by
  have htokens := h.tokens
  rw [← significant_place, ← append_nil (part ++ m)] at htokens
  obtain ⟨front, own, back, hps, hown, hback, hfirst, hlast⟩ := exists_part htokens.symm hm
  have hnil : back = [] := by
    cases hgetLast : back.getLast? with
    | none => exact getLast?_eq_none_iff.mp hgetLast
    | some p =>
      obtain ⟨kind, word, hend, hkind⟩ := h.last
      rw [hps, getLast?_append, hgetLast] at hend
      cases hend
      obtain ⟨init, rfl⟩ := getLast?_eq_some_iff.mp hgetLast
      rw [significant_place_append, significant_place_token hkind] at hback
      simp at hback
  rw [hnil, append_nil] at hps
  have hat := h.hasAt
  rw [hps, flat_append] at hat
  refine ⟨front, own, hps, hat.right, ?_, ?_, hfirst, endsInToken_of_getLast? hlast⟩
  · rw [← significant_place, hown]
  · rw [← hown, cover?_place hfirst hlast]

end

theorem EndsInToken.renamed {post : List Piece} (h : EndsInToken (p :: post)) (name : Text) :
    EndsInToken (.token .identifier name :: post) := by
  cases post with
  | nil => exact endsInToken_word name
  | cons q post =>
    obtain ⟨kind, word, hlast, hkind⟩ := h
    exact ⟨kind, word, by rw [← hlast]; rfl, hkind⟩

/-- The pieces of a variable that stays. -/
structure Kept (text : Text) (access : Access) (withEvents : Bool) (part : Statement)
    (d : Declarator) (ps : List Piece) : Prop where
  segment : Segment ps
  first : ∃ word post, ps = .token .identifier word :: post
  flat_eq : flat ps = text.slice d.span
  tokens : ∃ pos, part = (ownStatement ps).shift pos
  profile : variableProfile? access withEvents ps = some d.profile

/-- The pieces behind the name of a variable that moves to a private field of another name. -/
structure Moved (text : Text) (name : Text) (d : Declarator) (post : List Piece) : Prop where
  segment : Segment (.token .identifier name :: post)
  flat_eq : flat post = text.slice ⟨d.selection.stop, d.span.stop⟩
  declares : runDeclares .code (privatePieces d.profile.isWithEvents name post) =
    some ([{ d.profile with name, access := .private }], .code)
  after : ∃ bounds?, afterName? (flat post) (ownStatement post) = some (bounds?, d.profile.type?) ∧
    bounds?.isSome = d.profile.isArray

section

variable {text : Text} {rest : List Piece} {front back : List Statement} {d : Declarator}
  (h : Located 0 statements s lead gap own rest) (htext : text = flat (lead ++ gap ++ own ++ rest))
  (hlex : Lexes .initial (lead ++ gap ++ own ++ rest) []) (hsettled : ∀ p ∈ own, p.isSettled = true)
  (hparts : splitAtCommas 0 (s.drop n) = front ++ part :: back)
  (hd : part.declarator? text access withEvents = some d)

include h htext hlex hparts in
theorem exists_variable (hpart : part ≠ []) :
    ∃ pos ps ctx behind, PartAt text part pos ps ∧ ps ⊆ own ∧ Lexes ctx ps behind ∧ Stops behind := by
  obtain ⟨before, after, hs, hcomma⟩ := exists_of_splitAtCommas hparts
  have hsplit : s = s.take n ++ before ++ part ++ after := by
    rw [append_assoc, append_assoc, ← append_assoc before, ← hs, take_append_drop]
  obtain ⟨pos, ps, ctx, behind, hat, hsub, hlexes, hstops⟩ := h.exists_partAt htext hlex hsplit hpart
  exact ⟨pos, ps, ctx, behind, hat, hsub, hlexes, hstops hcomma⟩

include h htext hlex hsettled hparts hd

theorem exists_kept : ∃ ps, Kept text access withEvents part d ps := by
  obtain ⟨name, behindName, bounds?, type?, hname, hkind, -, hspan, -, -⟩ :=
    exists_of_declarator? hd
  obtain ⟨t, tokens, hpart, hfirst⟩ := exists_first_of_fromName hname hkind
  obtain ⟨pos, ps, ctx, behind, hat, hsub, hlexes, hstops⟩ :=
    exists_variable h htext hlex hparts (by rw [hpart]; exact cons_ne_nil _ _)
  obtain ⟨post, hps, -, -⟩ := hat.token hpart
  rw [hfirst] at hps
  subst hps
  refine ⟨_, segment_of_lexes hlexes hstops (fun p hp => hsettled p (hsub hp)) hat.last
    (fun p hp => h.run p (hsub hp)), ⟨_, _, rfl⟩, ?_, ⟨pos, hat.tokens⟩, ?_⟩
  · rw [hat.cover] at hspan
    rw [← Option.some.inj hspan, hat.hasAt.slice_eq]
  · rw [← map_profile_declarator? hat.hasAt, significant_place, ← hat.tokens, hd]
    rfl

theorem exists_moved (hname : isPlainName name = true) (hreserved : name.fold ∉ reserved)
    (hold : isPlainName (text.slice d.selection) = true) : ∃ post, Moved text name d post := by
  obtain ⟨token, behindName, bounds?, type?, hfrom, hkind, hafter, hspan, hselection, hprofile⟩ :=
    exists_of_declarator? hd
  obtain ⟨t, tokens, hpart, -⟩ := exists_first_of_fromName hfrom hkind
  obtain ⟨pos, ps, ctx, behind, hat, hsub, hlexes, hstops⟩ :=
    exists_variable h htext hlex hparts (by rw [hpart]; exact cons_ne_nil _ _)
  obtain ⟨x, hx⟩ := exists_append_fromName part
  have hcover := hat.cover
  rw [hspan] at hcover
  rw [hx, hfrom] at hat
  obtain ⟨front, own', rfl, hat'⟩ := hat.exists_suffix (cons_ne_nil _ _)
  obtain ⟨post, rfl, hstart, htokens⟩ := hat'.token rfl
  rw [lexes_append, hkind] at hlexes
  have hat := hat'.hasAt
  rw [flat_cons, Piece.text] at hat
  have hold : isPlainName token.text = true := by
    rwa [hselection, Token.span, Token.stop, hstart, hat.left.slice_eq] at hold
  have hpost : ∀ p ∈ post, p ∈ own := fun p hp => hsub (by simp [hp])
  rw [significant_place] at htokens
  rw [htokens, afterName?_shift hat.right (heldBy_ownStatement post)] at hafter
  obtain ⟨⟨bounds, type⟩, hbehind, heq⟩ := Option.map_eq_some_iff.mp hafter
  cases heq
  refine ⟨post, ?_, ?_, ?_, bounds, by rw [hbehind, hprofile], by rw [hprofile, Option.isSome_map]⟩
  · exact segment_renamed hold hname hlexes.2 hstops (fun p hp => hsettled p (hpost p hp))
      (fun p hp => h.run p (hpost p hp)) (hat'.last.renamed name)
  · have hstop : d.span.stop = pos + (flat front).byteSize + token.text.byteSize +
        (flat post).byteSize := by
      rw [Option.some.inj hcover]
      simp only [flat_append, flat_cons, byteSize_append, Piece.text]
      omega
    rw [hstop, hselection, Token.span, Token.stop, hstart]
    exact hat.right.slice_eq.symm
  · have hwhole : IsWhole post := by
      have hwhole := (parts_of_splitAtCommas (s.drop n)).1 part (by rw [hparts]; simp)
      have hbehind := whole_of_fromName hwhole
      rw [hfrom] at hbehind
      have hbehind := whole_of_cons hkind hbehind
      rw [htokens] at hbehind
      exact whole_of_shift hbehind
    rw [runDeclares_privatePieces hname hreserved hwhole hbehind, hprofile, Option.isSome_map]

end

end Lexer

end VbaRefactor
