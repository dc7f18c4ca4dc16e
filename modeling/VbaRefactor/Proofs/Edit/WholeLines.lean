import VbaRefactor.Proofs.Edit.Substitution
import VbaRefactor.Proofs.Project
import VbaRefactor.Proofs.Syntax.LineEnds
import VbaRefactor.Proofs.Syntax.Preceding
import VbaRefactor.Proofs.Syntax.Rereading

/-!
# Edits of whole lines

Lines that end where a statement ends are read by themselves. Where an edit puts such lines in the place
of others, and a reader stands at the same level behind both of them, everything around them is read as
before.
-/

namespace VbaRefactor

open List Text

variable {ending : Text} {lines before old new after : List Text} {level last : Level}
  {found removed added : List Profile}

namespace Lexer

/-- The last of the lines ends a statement, and none of them can be taken for the end of a line before. -/
def Whole (ending : Text) (lines : List Text) : Prop :=
  (∀ p ∈ (pieces .initial (closed ending lines)).getLast?, p.isNewline = true) ∧
    ∀ line ∈ lines, line.head? ≠ some '_'

instance (ending : Text) (lines : List Text) : Decidable (Whole ending lines) :=
  inferInstanceAs (Decidable (_ ∧ _))

/-- What lines declare, and at what level the next one stands. -/
def declaredBy (ending : Text) (level : Level) (lines : List Text) : Option (List Profile × Level) :=
  scan level [] (pieces .initial (closed ending lines))

theorem declaredBy_nil (ending : Text) (level : Level) :
    declaredBy ending level [] = some ([], level) := by
  rw [declaredBy, closed, flatMap_nil, pieces, scan_nil]
  rfl

theorem whole_nil (ending : Text) : Whole ending [] := by
  rw [Whole, closed, flatMap_nil, pieces]
  exact ⟨fun p hp => absurd hp (Option.not_mem_none p), forall_mem_nil _⟩

section

variable (he : IsTerminator ending)

include he

theorem pieces_closed_append (hwhole : Whole ending before)
    (hbegins : ∀ line ∈ after, line.head? ≠ some '_') :
    pieces .initial (closed ending (before ++ after)) =
      pieces .initial (closed ending before) ++ pieces .initial (closed ending after) := by
  rw [closed_append]
  rcases eq_nil_or_concat before with rfl | ⟨init, line, rfl⟩
  · rw [closed, flatMap_nil, pieces]
    rfl
  have hlast : (closed ending (init ++ [line])).getLast? = some '\n' := by
    rw [closed_append, getLast?_append]
    rcases he with rfl | rfl <;> simp [closed]
  rw [concat_eq_append] at hwhole ⊢
  have hflat : flat (pieces .initial (closed ending (init ++ [line]))) = _ := pieces_text _ _
  rcases eq_nil_or_concat (pieces .initial (closed ending (init ++ [line]))) with hnil | ⟨front, p, hfront⟩
  · rw [← hflat, hnil] at hlast
    cases hlast
  rw [concat_eq_append] at hfront
  rw [Whole, hfront] at hwhole
  obtain ⟨text, rfl⟩ := exists_of_isNewline (hwhole.1 p (by simp))
  refine pieces_append hfront (forall_mem_nil _) ?_ (by simp [hlast])
  cases after with
  | nil => simp [closed]
  | cons line after =>
    have hhead := (forall_mem_cons.mp hbegins).1
    cases line with
    | nil => rcases he with rfl | rfl <;> simp [closed]
    | cons c line => exact hhead

theorem Whole.append (hwhole : Whole ending before) (hafter : Whole ending after) :
    Whole ending (before ++ after) := by
  rw [Whole, pieces_closed_append he hwhole hafter.2]
  refine ⟨fun p hp => ?_, forall_mem_append.mpr ⟨hwhole.2, hafter.2⟩⟩
  rw [getLast?_append] at hp
  rcases Option.or_eq_some_iff.mp hp with hp | ⟨-, hp⟩
  · exact hafter.1 p hp
  · exact hwhole.1 p hp

theorem Whole.right (hwhole : Whole ending before) (h : Whole ending (before ++ after)) :
    Whole ending after := by
  have hbegins := (forall_mem_append.mp h.2).2
  refine ⟨fun p hp => h.1 p ?_, hbegins⟩
  rw [pieces_closed_append he hwhole hbegins, getLast?_append, hp]
  rfl

theorem declaredBy_append (hwhole : Whole ending before) (hafter : Whole ending after) :
    declaredBy ending level (before ++ after) = some (found, last) ↔
      ∃ found₁ next found₂, declaredBy ending level before = some (found₁, next) ∧
        declaredBy ending next after = some (found₂, last) ∧ found = found₁ ++ found₂ := by
  have hclosed : ∀ p ∈ (pieces .initial (closed ending before)).getLast?, p.isSeparator = true :=
    fun p hp => isSeparator_of_isNewline (hwhole.1 p hp)
  rw [declaredBy, pieces_closed_append he hwhole hafter.2, scan_append_eq_some]
  constructor
  · rintro ⟨found₁, next, q, found₂, hadvance, hscan, rfl⟩
    cases eq_nil_of_advance hclosed hadvance
    exact ⟨found₁, next, found₂, scan_of_advance_nil hadvance, hscan, rfl⟩
  · rintro ⟨found₁, next, found₂, hbefore, hafter, rfl⟩
    exact ⟨found₁, next, [], found₂, advance_of_scan hclosed hbefore, hafter, rfl⟩

/-- Lines can take the place of others behind which the next ones stand at the same level. -/
theorem declaredBy_swap {here : Level} {sofar : List Profile} (hbefore : Whole ending before)
    (hold : Whole ending old) (hnew : Whole ending new) (hafter : Whole ending after)
    (hsofar : declaredBy ending level before = some (sofar, here))
    (hremoved : declaredBy ending here old = some (removed, here))
    (hadded : declaredBy ending here new = some (added, here))
    (h : declaredBy ending level (before ++ (old ++ after)) = some (found, last)) :
    ∃ found', declaredBy ending level (before ++ (new ++ after)) = some (found', last) ∧
      (found' ++ removed).Perm (found ++ added) := by
  obtain ⟨found₁, _, found₂, hfirst, hrest, rfl⟩ :=
    (declaredBy_append he hbefore (hold.append he hafter)).mp h
  cases hsofar.symm.trans hfirst
  obtain ⟨_, _, found₃, hsecond, hrest, rfl⟩ := (declaredBy_append he hold hafter).mp hrest
  cases hremoved.symm.trans hsecond
  refine ⟨sofar ++ (added ++ found₃), ?_, ?_⟩
  · refine (declaredBy_append he hbefore (hnew.append he hafter)).mpr ⟨sofar, here, _, hsofar, ?_, rfl⟩
    exact (declaredBy_append he hnew hafter).mpr ⟨added, here, found₃, hadded, hrest, rfl⟩
  · rw [append_assoc, append_assoc sofar, perm_append_left_iff]
    calc
      added ++ found₃ ++ removed ~ removed ++ (added ++ found₃) := perm_append_comm
      _ ~ removed ++ (found₃ ++ added) := perm_append_comm.append_left _
      _ = removed ++ found₃ ++ added := (append_assoc _ _ _).symm

end

end Lexer

/-! ## One edit -/

namespace Edit

/-- The number of lines before those that an edit takes, or before the place where it inserts. -/
def above : Edit → Nat
  | .insert line _ => line - 1
  | .delete range | .replace range _ => range.first - 1

/-- The number of lines up to the end of those that an edit takes. -/
def through : Edit → Nat
  | .insert line _ => line - 1
  | .delete range | .replace range _ => range.last

/-- The other edit leaves the lines of this one alone. -/
def ApartFrom (e other : Edit) : Prop :=
  other.through ≤ e.above ∧ (other.above < e.above ∨ e.above = e.through) ∨ e.through ≤ other.above

instance (e other : Edit) : Decidable (e.ApartFrom other) := inferInstanceAs (Decidable (_ ∨ _))

end Edit

namespace ModuleLines

open Edit Lexer

variable {m : ModuleLines} {e : Edit} {edits : List Edit} {k : Nat}

theorem above_le (h : e.Reaches m.lines.length) : e.above ≤ e.through ∧ e.through ≤ m.lines.length := by
  rcases h with ⟨r, hr, hfirst, hordered, hlast⟩ | ⟨line, text, rfl, hpos, hle⟩
  · cases e <;> cases hr <;> simp only [above, through] <;> omega
  · simp only [above, through]
    omega

theorem silent_of_outside (h : e.Reaches m.lines.length) {line : Nat}
    (hline : line ≤ e.above ∨ e.through < line ∧ e.above + 1 < line) : e.Silent line := by
  rcases h with ⟨r, hr, hfirst, hordered, hlast⟩ | ⟨before, text, rfl, hpos, -⟩
  · refine Within.silent ⟨r, hr, Nat.le_refl _, hordered, Nat.le_refl _⟩ ?_
    cases e <;> cases hr <;> simp only [above, through] at hline <;> omega
  · refine ⟨?_, rfl, rfl⟩
    simp only [above, through] at hline
    rw [insertedText?, if_neg (by omega)]

theorem silent_of_apartFrom {other : Edit} (h : other.Reaches m.lines.length) (hapart : e.ApartFrom other)
    {line : Nat} (hline : e.above < line) (hle : line ≤ e.through) : other.Silent line := by
  refine silent_of_outside h ?_
  rw [ApartFrom] at hapart
  omega

/-- The places before an edit are as without it. -/
theorem placesFrom_above (h : e.Reaches m.lines.length) (hk : k ≤ e.above) :
    m.placesFrom (e :: edits) 1 k = m.placesFrom edits 1 k := by
  refine placesFrom_congr fun line _ hlt => ?_
  exact m.placeLines_append_right (forall_mem_singleton.mpr (silent_of_outside h (by omega)))

/-- Behind the lines above an edit stand those that it brings in. -/
theorem placesFrom_cons (edits : List Edit) (h : e.Reaches m.lines.length)
    (hsilent : ∀ line, e.above < line → line ≤ e.through → ∀ other ∈ edits, other.Silent line)
    (hk : e.above < k) (hle : e.through ≤ k) :
    m.placesFrom (e :: edits) 1 k = m.placesFrom edits 1 e.above ++
        (e.output ++ m.placesFrom edits (e.through + 1) (k - e.through)) ∧
      m.placesFrom edits 1 k = m.placesFrom edits 1 e.above ++
        ((m.lines.take e.through).drop e.above ++
          m.placesFrom edits (e.through + 1) (k - e.through)) := by
  have hordered := (above_le h).1
  have hcount : k = e.above + ((e.through - e.above) + (k - e.through)) := by omega
  have hsplit (edits : List Edit) : m.placesFrom edits 1 k = m.placesFrom edits 1 e.above ++
      (m.placesFrom edits (e.above + 1) (e.through - e.above) ++
        m.placesFrom edits (e.through + 1) (k - e.through)) := by
    nth_rewrite 1 [hcount]
    rw [placesFrom_add, placesFrom_add, Nat.add_comm 1,
      show e.above + 1 + (e.through - e.above) = e.through + 1 by omega]
  have hinside : m.placesFrom edits (e.above + 1) (e.through - e.above) =
      (m.lines.take e.through).drop e.above := by
    rw [m.placesFrom_of_silent fun line hline hle => hsilent line hline (by omega), drop_take]
  refine ⟨?_, by rw [hsplit edits, hinside]⟩
  rcases h with ⟨r, hr, hfirst, hlines, hlast⟩ | ⟨line, text, rfl, hpos, hbound⟩
  · have hreaches : e.Reaches m.lines.length := .inl ⟨r, hr, hfirst, hlines, hlast⟩
    have habove : e.above = r.first - 1 := by cases e <;> cases hr <;> rfl
    have hthrough : e.through = r.last := by cases e <;> cases hr <;> rfl
    have hbehind : m.placesFrom (e :: edits) (e.through + 1) (k - e.through) =
        m.placesFrom edits (e.through + 1) (k - e.through) := by
      refine placesFrom_congr fun line hline _ => ?_
      exact m.placeLines_append_right (forall_mem_singleton.mpr (silent_of_outside hreaches (by omega)))
    have hown (line : Nat) (hline : e.above < line) (hle : line ≤ e.through) :
        m.placeLines ([e] ++ edits) line = m.placeLines [e] line :=
      m.placeLines_append_left (hsilent line hline hle)
    have htaken : m.placesFrom (e :: edits) (e.above + 1) (e.through - e.above) = e.output := by
      refine (placesFrom_congr fun line hline hlt => hown line (by omega) (by omega)).trans ?_
      rw [show e.through - e.above = r.last - r.first + 1 by omega,
        show e.above + 1 = r.first by omega]
      exact Refill.placesFrom_singleton m hr hlines
    rw [hsplit (e :: edits), htaken, hbehind, placesFrom_above hreaches (Nat.le_refl _)]
  · simp only [above, through] at hk hle hsplit ⊢
    have hbefore : m.placesFrom (.insert line text :: edits) 1 (line - 1) =
        m.placesFrom edits 1 (line - 1) :=
      placesFrom_above (.inr ⟨line, text, rfl, hpos, hbound⟩) (Nat.le_refl _)
    obtain ⟨count, hcount⟩ : ∃ count, k - (line - 1) = count + 1 := ⟨k - line, by omega⟩
    rw [hsplit, hbefore, Nat.sub_self, hcount, Nat.sub_add_cancel hpos, placesFrom_insert]
    rfl

end ModuleLines

/-! ## All edits -/

open Lexer

/-- An edit, with the level at which its lines stand, what these declare and what it declares instead. -/
structure LineChange where
  edit : Edit
  level : Level
  removed : List Profile := []
  added : List Profile := []

/-- The lines before a place end a statement, and the next one stands at this level. -/
def ModuleLines.StandsAt (m : ModuleLines) (k : Nat) (level : Level) : Prop :=
  Whole m.ending (m.lines.take k) ∧
    (declaredBy m.ending .code (m.lines.take k)).map Prod.snd = some level

instance (m : ModuleLines) (k : Nat) (level : Level) : Decidable (m.StandsAt k level) :=
  inferInstanceAs (Decidable (_ ∧ _))

/-- An edit takes whole statements and brings in others at the same level. -/
@[mk_iff]
structure LineChange.Fits (m : ModuleLines) (c : LineChange) : Prop where
  stands : m.StandsAt c.edit.above c.level
  wholeOld : Whole m.ending ((m.lines.take c.edit.through).drop c.edit.above)
  old : declaredBy m.ending c.level ((m.lines.take c.edit.through).drop c.edit.above) =
    some (c.removed, c.level)
  wholeNew : Whole m.ending c.edit.output
  new : declaredBy m.ending c.level c.edit.output = some (c.added, c.level)

instance (m : ModuleLines) (c : LineChange) : Decidable (c.Fits m) :=
  decidable_of_iff _ (LineChange.fits_iff m c).symm

namespace ModuleLines

theorem joined_of_trailing {m : ModuleLines} (h : m.trailing = true) (lines : List Text) :
    m.joined lines = closed m.ending lines := by
  rw [joined, joinLines_eq, h, if_pos rfl, ← closed_append_intercalate m.ending lines (cons_ne_nil _ _),
    intercalate_singleton, append_nil]

variable {m : ModuleLines} {changes : List LineChange} {k : Nat} (he : IsTerminator m.ending)
  (hreaches : ∀ c ∈ changes, c.edit.Reaches m.lines.length)
  (hfits : ∀ c ∈ changes, c.Fits m) (hapart : changes.Pairwise fun c d => c.edit.ApartFrom d.edit)

include he hreaches hfits hapart

/-- Where edits of whole lines are made, the lines before a place that none of them holds end a statement
as before, and the next one stands at the same level. -/
theorem StandsAt.placesFrom (hstands : m.StandsAt k level)
    (hfree : ∀ c ∈ changes, k ≤ c.edit.above ∨ c.edit.through ≤ k) :
    Whole m.ending (m.placesFrom (changes.map (·.edit)) 1 k) ∧
      ∃ found, declaredBy m.ending .code (m.placesFrom (changes.map (·.edit)) 1 k) =
          some (found, level) ∧
        (m.lines.length < k → ∀ all, declaredBy m.ending .code m.lines = some (all, level) →
          (found ++ changes.flatMap LineChange.removed).Perm
            (all ++ changes.flatMap LineChange.added)) := by
  induction changes generalizing k level with
  | nil =>
    have hplaces : m.placesFrom [] (0 + 1) k = _ := m.placesFrom_of_silent fun _ _ _ => forall_mem_nil _
    obtain ⟨hwhole, hlevel⟩ := hstands
    obtain ⟨⟨found, _⟩, hfound, rfl⟩ := Option.map_eq_some_iff.mp hlevel
    rw [map_nil, ← Nat.zero_add 1, hplaces, drop_zero]
    refine ⟨hwhole, found, hfound, ?_⟩
    intro hlt all hall
    rw [take_of_length_le (Nat.le_of_lt hlt), hall] at hfound
    cases hfound
    exact .refl _
  | cons c changes ih =>
    obtain ⟨hcreaches, hreaches⟩ := forall_mem_cons.mp hreaches
    obtain ⟨hc, hfits⟩ := forall_mem_cons.mp hfits
    obtain ⟨hcapart, hapart⟩ := pairwise_cons.mp hapart
    obtain ⟨hcfree, hfree⟩ := forall_mem_cons.mp hfree
    obtain ⟨hordered, hbound⟩ := above_le hcreaches
    obtain ⟨hwhole, found, hfound, hall⟩ := ih hreaches hfits hapart hstands hfree
    by_cases hk : k ≤ c.edit.above
    · rw [map_cons, placesFrom_above hcreaches hk]
      exact ⟨hwhole, found, hfound, by omega⟩
    obtain ⟨hnew, hold⟩ := placesFrom_cons (changes.map (·.edit)) hcreaches
      (fun line hline hle => forall_mem_map.mpr fun d hd =>
        silent_of_apartFrom (hreaches d hd) (hcapart d hd) hline hle)
      (Nat.lt_of_not_le hk) (by omega)
    obtain ⟨habove, sofar, hsofar, -⟩ := ih hreaches hfits hapart hc.stands fun d hd => by
      have hd := hcapart d hd
      rw [Edit.ApartFrom] at hd
      omega
    rw [hold] at hwhole hfound
    have hrest := hc.wholeOld.right he (habove.right he hwhole)
    obtain ⟨found', hfound', hperm⟩ := declaredBy_swap he habove hc.wholeOld hc.wholeNew hrest
      hsofar hc.old hc.new hfound
    rw [map_cons, hnew]
    refine ⟨?_, found', hfound', ?_⟩
    · exact habove.append he (hc.wholeNew.append he hrest)
    · intro hlt all hsome
      have hmore := hall hlt all hsome
      rw [flatMap_cons, flatMap_cons]
      calc
        found' ++ (c.removed ++ changes.flatMap LineChange.removed) ~
            (found ++ c.added) ++ changes.flatMap LineChange.removed := by
          rw [← append_assoc]
          exact hperm.append_right _
        _ ~ (found ++ changes.flatMap LineChange.removed) ++ c.added := by
          rw [append_assoc, append_assoc]
          exact perm_append_comm.append_left _
        _ ~ (all ++ changes.flatMap LineChange.added) ++ c.added := hmore.append_right _
        _ ~ all ++ (c.added ++ changes.flatMap LineChange.added) := by
          rw [append_assoc]
          exact perm_append_comm.append_left _

/-- A module with edits of whole lines is read as before, but for what its changed lines declare. -/
theorem exists_read_edited {source : Source} {base : DeclarationId} {o : Outline}
    (hm : m = .ofText source.text) (ht : ClosedBy source.text.lineEnding source.text)
    (htrailing : m.trailing = true) (hwhole : Whole m.ending m.lines)
    (hread : Outline.read base source = .ok o) (base' : DeclarationId) :
    Whole m.ending (m.edited (changes.map (·.edit))) ∧
    ∃ o', Outline.read base' { source with text := closed m.ending (m.edited (changes.map (·.edit))) } =
        .ok o' ∧
      (o'.profiles ++ changes.flatMap LineChange.removed).Perm
        (o.profiles ++ changes.flatMap LineChange.added) := by
  have htext : closed m.ending m.lines = source.text := by
    rw [← joined_of_trailing htrailing, hm, ofText, joined, joinLines_eq, ← map_headLine_eq]
    exact ht.eq_intercalate
  have hscan := Outline.profiles_read_eq_scan base source
  rw [hread] at hscan
  obtain ⟨⟨found, level⟩, hfiltered, rfl⟩ := Option.map_eq_some_iff.mp hscan.symm
  obtain ⟨hscan, hend⟩ := Option.filter_eq_some_iff.mp hfiltered
  have hall : declaredBy m.ending .code m.lines = some (o.profiles, level) := by
    rw [declaredBy, htext]
    exact hscan
  have hstands : m.StandsAt (m.lines.length + 1) level := by
    rw [StandsAt, take_of_length_le (Nat.le_succ _), hall]
    exact ⟨hwhole, rfl⟩
  obtain ⟨hedited, found', hfound', hperm⟩ := hstands.placesFrom he hreaches hfits hapart
    fun c hc => .inr (Nat.le_succ_of_le (above_le (hreaches c hc)).2)
  have hprofiles := Outline.profiles_read_eq_scan base'
    { source with text := closed m.ending (m.edited (changes.map (·.edit))) }
  rw [← declaredBy, edited, hfound', Option.filter_some, if_pos hend] at hprofiles
  obtain ⟨o', ho', rfl⟩ := Option.map_eq_some_iff.mp hprofiles
  exact ⟨hedited, o', eq_ok_of_mem_toOption ho', hperm (Nat.lt_succ_self _) _ hall⟩

end ModuleLines

end VbaRefactor
