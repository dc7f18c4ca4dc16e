import VbaRefactor.Scope
import VbaRefactor.Proofs.Syntax.Lists

/-!
# Arguments of mentions

Whatever a statement mentions with arguments, these are a list of the statement: between two
parentheses, or the rest of the statement or of a branch. So it is with references.
-/

namespace VbaRefactor

open List

variable {m : Mention} {name : Nat} {r : Reference} {s : Statement} {use : Use} {withs : WithStack}

def Use.arguments? : Use → Option ArgumentList
  | .call arguments? | .assignment arguments? _ | .raiseEvent arguments? => arguments?
  | .address | .read => none

namespace Statement

/-- The statement supplies this list of arguments. -/
inductive Supplies (s : Statement) : ArgumentList → Prop
  | inner {first close : Nat} : first + 1 < close → close < s.length →
    Supplies s (s.innerArguments (first + 1) close)
  | bare {start stop : Nat} : start < stop → stop ≤ s.length → Supplies s (s.bareArguments start stop)
  | none {list : ArgumentList} : list.arguments = [] → Supplies s list

section

variable {start stop : Nat} {list : ArgumentList}

theorem Supplies.markedIn {text : Text} (h : s.Supplies list) (hs : s.StandsIn text)
    (hsome : list.arguments ≠ []) : list.MarkedIn text := by
  cases h with
  | inner hlt hclose => exact markedIn_innerArguments hs hlt hclose
  | bare hlt hstop => exact markedIn_bareArguments hs hlt hstop
  | none hnone => exact absurd hnone hsome

theorem supplies_argumentsIn? {first : Nat} (h : s.argumentsIn? first stop = some list) :
    s.Supplies list := by
  obtain ⟨close, hclose, rfl⟩ := Option.map_eq_some_iff.mp h
  obtain ⟨hle, hlt⟩ := matching?_lt hclose
  rw [length_take] at hlt
  by_cases hinner : first + 1 < close
  · exact .inner hinner (by omega)
  · exact .none (if_neg hinner)

theorem isName_eq_isSome_word? (s : Statement) (i : Nat) : s.isName i = (s.word? i).isSome := by
  rw [isName, word?]
  cases s[i]? with
  | none => rfl
  | some t => by_cases hkind : t.kind = .identifier <;> simp [hkind]

theorem follow_spec (passed : List Nat) (hlt : name < stop) (hname : s.isName name = true) :
    name ≤ (s.follow stop passed name).2 ∧ (s.follow stop passed name).2 < stop ∧
      s.isName (s.follow stop passed name).2 = true := by
  fun_induction follow s stop passed name with
  | case1 passed name hnext ih =>
    obtain ⟨hle, hrest⟩ := ih hnext.1 hnext.2.2
    exact ⟨Nat.le_trans (Nat.le_add_right _ _) hle, hrest⟩
  | case2 => exact ⟨Nat.le_refl _, hlt, hname⟩

/-- How a chain is read: from a name, behind a point if there is one. -/
theorem chainFrom?_eq_some {q : Qualifier} (h : s.chainFrom? start stop = some (q, name)) :
    ∃ first, (if s.isPunct start "." = true then start + 1 else start) = first ∧ first < stop ∧
      s.isName first = true ∧ q.leadingDot = s.isPunct start "." ∧
      s.follow stop [] first = (q.names, name) := by
  simp only [chainFrom?] at h
  generalize (if s.isPunct start "." = true then start + 1 else start) = first at h ⊢
  split at h
  · rename_i hfirst
    cases h
    exact ⟨first, rfl, hfirst.1, hfirst.2, rfl, rfl⟩
  · cases h

/-- A chain ends with a name in the range in which it is read. -/
theorem chainFrom?_spec {chain : Qualifier × Nat} (h : s.chainFrom? start stop = some chain) :
    start ≤ chain.2 ∧ chain.2 < stop ∧ s.isName chain.2 = true := by
  obtain ⟨first, hfirst, hlt, hname, -, hfollow⟩ := chainFrom?_eq_some h
  have hle : start ≤ first := by
    rw [← hfirst]
    split <;> omega
  obtain ⟨hnext, hrest⟩ := follow_spec [] hlt hname
  rw [hfollow] at hnext hrest
  exact ⟨Nat.le_trans hle hnext, hrest⟩

/-! ## What a mention says -/

/-- The arguments that the name at an index can have: none at all, an empty list, the list in the
parentheses behind it, or all up to the end of a clause. -/
inductive Takes (s : Statement) (name : Nat) : Option ArgumentList → Prop
  | none : Takes s name none
  | empty : Takes s name (some (s.noArguments name))
  | inner {stop : Nat} : s.isPunct (name + 1) "(" = true →
    Takes s name (s.argumentsIn? (name + 1) stop)
  | bare {stop : Nat} : name + 1 < stop → stop ≤ s.length →
    Takes s name (some (s.bareArguments (name + 1) stop))

theorem callOrAssignment?_eq_some {bySet : Bool} (h : s.callOrAssignment? start stop bySet = some m) :
    s.chainFrom? start stop = some (m.qualifier, m.name) ∧
      (stop ≤ s.length → s.Takes m.name m.use.arguments?) := by
  rw [callOrAssignment?] at h
  split at h
  · cases h
  rename_i qualifier name hchain
  have hlt : name < stop := (chainFrom?_spec hchain).2.1
  simp only at h
  split at h
  · cases h
    exact ⟨hchain, fun _ => .empty⟩
  split at h
  · cases h
    exact ⟨hchain, fun _ => .empty⟩
  rename_i hafter
  have hnext : name + 1 < stop := Nat.lt_of_le_of_ne hlt hafter
  split at h
  · rename_i close hopen
    have hparen := (Option.ite_none_right_eq_some.mp hopen).1
    split at h
    · cases h
      exact ⟨hchain, fun _ => .inner hparen⟩
    · split at h
      · cases h
        exact ⟨hchain, fun _ => .inner hparen⟩
      · cases h
        exact ⟨hchain, fun hstop => .bare hnext hstop⟩
  · cases h
    exact ⟨hchain, fun hstop => .bare hnext hstop⟩

theorem calledName?_eq_some (h : s.calledName? start stop = some m) :
    s.chainFrom? start stop = some (m.qualifier, m.name) ∧ s.Takes m.name m.use.arguments? ∧
      (s.isPunct (m.name + 1) "(" = false → m.use = .call (some (s.noArguments m.name))) := by
  rw [calledName?] at h
  split at h
  · cases h
  rename_i hchain
  split at h
  · rename_i hparen
    obtain ⟨-, hparen⟩ := Bool.and_eq_true_iff.mp hparen
    cases h
    exact ⟨hchain, .inner hparen, fun hnot => absurd hparen (Bool.eq_false_iff.mp hnot)⟩
  · cases h
    exact ⟨hchain, .empty, fun _ => rfl⟩

theorem raisedName?_eq_some (h : s.raisedName? start stop = some m) :
    m.name = start ∧ s.isName m.name = true ∧ m.qualifier = .none ∧
      (∃ arguments?, m.use = .raiseEvent arguments?) ∧ s.Takes m.name m.use.arguments? := by
  rw [raisedName?] at h
  split at h
  · rename_i hname
    split at h
    · rename_i hparen
      cases h
      exact ⟨rfl, hname, rfl, ⟨_, rfl⟩, .inner hparen⟩
    · cases h
      exact ⟨rfl, hname, rfl, ⟨_, rfl⟩, .empty⟩
  · cases h

theorem operand?_eq_some {i : Nat} (h : s.operand? i = some m) :
    m.name = i ∧ s.isName i = true ∧ s.qualifierAt? i = some m.qualifier ∧
      (s.isPunct (i + 1) "(" = false → m.use = .address ∨ m.use = .read) ∧
      (s.isPunct (i + 1) "(" = true → m.use = .call (s.argumentsIn? (i + 1) s.length)) := by
  rw [operand?] at h
  split at h
  · cases h
  rename_i hword
  have hname : s.isName i = true := by rw [isName_eq_isSome_word?, hword, Option.isSome_some]
  split at h
  · cases h
  split at h
  · cases h
  rename_i hqualifier
  by_cases hparen : s.isPunct (i + 1) "(" = true
  · rw [if_pos hparen] at h
    cases h
    exact ⟨rfl, hname, hqualifier, fun hnot => absurd hparen (Bool.eq_false_iff.mp hnot), fun _ => rfl⟩
  · rw [if_neg hparen] at h
    split at h
    · cases h
      exact ⟨rfl, hname, hqualifier, fun _ => .inl rfl, fun hpos => absurd hpos hparen⟩
    · cases h
      exact ⟨rfl, hname, hqualifier, fun _ => .inr rfl, fun hpos => absurd hpos hparen⟩

/-- The mention has its arguments from the statement. -/
def Mention.SuppliedBy (s : Statement) (m : Mention) : Prop :=
  ∀ list, m.use.arguments? = some list → s.Supplies list

theorem mention_of_mem_only {mention? : Option Mention} (h : .mention m ∈ only mention?) :
    mention? = some m := by
  cases mention? with
  | none => cases h
  | some found =>
    cases mem_singleton.mp h
    rfl

/-- How a statement comes to mention a name: at its head or at that of a branch, or as an operand. -/
inductive Mentions (s : Statement) (m : Mention) : Prop
  | callOrAssignment {start stop : Nat} {bySet : Bool} : stop ≤ s.length →
    s.callOrAssignment? start stop bySet = some m → Mentions s m
  | called {start stop : Nat} : s.calledName? start stop = some m → Mentions s m
  | raised {start stop : Nat} : s.raisedName? start stop = some m → Mentions s m
  | operand {i : Nat} : s.operand? i = some m → Mentions s m

theorem mentions_of_mem_heads (hstop : stop ≤ s.length) (h : .mention m ∈ s.heads start stop) :
    s.Mentions m := by
  fun_induction heads s start stop with
  | case1 => exact .called (mention_of_mem_only h)
  | case2 => exact .raised (mention_of_mem_only h)
  | case3 | case4 | case12 => exact .callOrAssignment hstop (mention_of_mem_only h)
  | case5 | case11 | case13 => cases h
  | case6 =>
    rename_i hbranch ihthen ihelse
    have hlt := ((branches?_bounds hbranch).2.2 _ rfl).2
    rcases mem_append.mp h with h | h
    · exact ihthen (by omega) h
    · exact ihelse hstop h
  | case7 | case8 =>
    rename_i ih
    exact ih hstop h
  | case9 =>
    have hwith := mem_singleton.mp h
    rw [withTarget] at hwith
    split at hwith
    · cases hwith
    · split at hwith <;> cases hwith
  | case10 => cases mem_singleton.mp h

theorem mentions_of_mem_acts (h : .mention m ∈ s.acts) : s.Mentions m := by
  rcases mem_append.mp h with h | h
  · exact mentions_of_mem_heads (Nat.le_refl _) h
  · obtain ⟨found, hfound, heq⟩ := mem_map.mp h
    cases heq
    obtain ⟨i, -, hi⟩ := mem_filterMap.mp hfound
    split at hi
    · cases hi
    · exact .operand hi

theorem Mentions.isName (h : s.Mentions m) : s.isName m.name = true := by
  cases h with
  | callOrAssignment _ h => exact (chainFrom?_spec (callOrAssignment?_eq_some h).1).2.2
  | called h => exact (chainFrom?_spec (calledName?_eq_some h).1).2.2
  | raised h => exact (raisedName?_eq_some h).2.1
  | operand h =>
    obtain ⟨rfl, hname, -⟩ := operand?_eq_some h
    exact hname

theorem Mentions.takes (h : s.Mentions m) : s.Takes m.name m.use.arguments? := by
  cases h with
  | callOrAssignment hstop h => exact (callOrAssignment?_eq_some h).2 hstop
  | called h => exact (calledName?_eq_some h).2.1
  | raised h => exact (raisedName?_eq_some h).2.2.2.2
  | operand h =>
    obtain ⟨rfl, -, -, hbare, hinner⟩ := operand?_eq_some h
    cases hparen : s.isPunct (m.name + 1) "(" with
    | true =>
      rw [hinner hparen]
      exact .inner hparen
    | false => rcases hbare hparen with huse | huse <;> (rw [huse]; exact .none)

/-- Every mention of a statement has its arguments from the statement. -/
theorem Mentions.supplied (h : s.Mentions m) : Mention.SuppliedBy s m := by
  have htakes := h.takes
  unfold Mention.SuppliedBy
  generalize m.use.arguments? = arguments? at htakes
  cases htakes with
  | none => rintro list ⟨⟩
  | empty =>
    rintro list ⟨⟩
    exact .none rfl
  | inner _ => exact fun list hlist => supplies_argumentsIn? hlist
  | bare hlt hstop =>
    rintro list ⟨⟩
    exact .bare hlt hstop

end

end Statement

/-! ## References -/

/-- What the use of the name at an index makes of its reference. -/
inductive Statement.Makes (s : Statement) (name : Nat) : Use → UsageKind → Option ArgumentList → Prop
  | call {arguments? : Option ArgumentList} : Makes s name (.call arguments?) .call arguments?
  | assignment {arguments? : Option ArgumentList} {bySet : Bool} :
    Makes s name (.assignment arguments? bySet) .assignment arguments?
  | raiseEvent {arguments? : Option ArgumentList} :
    Makes s name (.raiseEvent arguments?) .raiseEvent arguments?
  | address : Makes s name .address .bare none
  | read : Makes s name .read .bare none
  /-- To read the name of a member is to call it. -/
  | readMember : Makes s name .read .call (some (s.noArguments name))

theorem Statement.Makes.arguments {usage : UsageKind} {arguments? : Option ArgumentList}
    (h : s.Makes name use usage arguments?) :
    arguments? = use.arguments? ∨ arguments? = some (s.noArguments name) := by
  cases h <;> first | exact .inl rfl | exact .inr rfl

theorem mem_of_meant? {candidates : List Declaration} {d : Declaration}
    (h : meant? candidates use = some d) : d ∈ candidates := by
  unfold meant? at h
  split at h
  · rw [Option.or_eq_some_iff, Option.or_eq_some_iff] at h
    rcases h with (h | ⟨-, h⟩) | ⟨-, h⟩
    · exact mem_of_find?_eq_some h
    · exact mem_of_find?_eq_some h
    · exact mem_of_mem_head? h
  · split at h
    · cases h
      exact mem_singleton_self _
    · cases h

namespace Place

variable {p : Place}

/-- A mention is bound to the member it stands in, as its result, or to a declaration it can mean. -/
theorem bind?_cases (h : p.bind? withs m = some r) :
    (p.isReturnValue m = true ∧
      r = p.reference { m with qualifier := .none } p.member .returnValue none) ∨
    (p.isReturnValue m = false ∧ ∃ d ∈ p.candidates withs m, ∃ usage arguments?,
      r = p.reference m d.id usage arguments? ∧ p.tokens.Makes m.name m.use usage arguments?) := by
  rw [bind?] at h
  split at h
  · rename_i hresult
    cases h
    exact .inl ⟨hresult, rfl⟩
  · rename_i hresult
    obtain ⟨d, hd, rfl⟩ := Option.map_eq_some_iff.mp h
    refine .inr ⟨Bool.eq_false_iff.mpr hresult, d, mem_of_meant? hd, ?_⟩
    cases m.use with
    | call => exact ⟨_, _, rfl, .call⟩
    | assignment => exact ⟨_, _, rfl, .assignment⟩
    | raiseEvent => exact ⟨_, _, rfl, .raiseEvent⟩
    | address => exact ⟨_, _, rfl, .address⟩
    | read =>
      dsimp only
      split
      · exact ⟨_, _, rfl, .readMember⟩
      · exact ⟨_, _, rfl, .read⟩

theorem bind?_supplied (hm : Statement.Mention.SuppliedBy p.tokens m)
    (h : p.bind? withs m = some r) :
    r.module = p.source.id ∧ ∀ list, r.arguments? = some list → p.tokens.Supplies list := by
  rcases bind?_cases h with ⟨-, rfl⟩ | ⟨-, d, -, usage, arguments?, rfl, hmakes⟩
  · exact ⟨rfl, by rintro list ⟨⟩⟩
  · refine ⟨rfl, ?_⟩
    rintro list (hlist : arguments? = some list)
    rcases hmakes.arguments with rfl | rfl
    · exact hm list hlist
    · cases hlist
      exact .none rfl

/-- Every reference of a list of acts is a mention that was bound. -/
theorem exists_bind_of_mem_perform {acts : List Act} (h : r ∈ (p.perform withs acts).1) :
    ∃ withs' m, .mention m ∈ acts ∧ p.bind? withs' m = some r := by
  induction acts generalizing withs with
  | nil => cases h
  | cons act acts ih =>
    have hrest {withs : WithStack} (h : r ∈ (p.perform withs acts).1) :
        ∃ withs' m, .mention m ∈ act :: acts ∧ p.bind? withs' m = some r := by
      obtain ⟨withs', m, hm, hbind⟩ := ih h
      exact ⟨withs', m, mem_cons_of_mem _ hm, hbind⟩
    cases act with
    | mention m =>
      rcases mem_append.mp h with h | h
      · exact ⟨withs, m, mem_cons_self, Option.mem_toList.mp h⟩
      · exact hrest h
    | enterNew type? => exact hrest h
    | enterWith chain? => exact hrest h
    | leaveWith => exact hrest h

end Place

variable {current? : Option DeclarationId} {bodies : List MemberStatement}

section

variable {scope : Scope} {source : Source} (h : r ∈ scope.references source current? withs bodies)

include h

/-- Every reference of a module is an act in the body of a member that was bound there. -/
theorem Scope.exists_act_of_mem_references :
    ∃ body ∈ bodies, ∃ withs' m, .mention m ∈ body.tokens.acts ∧
      (Place.mk scope source body.member body.tokens).bind? withs' m = some r := by
  induction bodies generalizing current? withs with
  | nil => cases h
  | cons body bodies ih =>
    rcases mem_append.mp h with h | h
    · exact ⟨body, mem_cons_self, Place.exists_bind_of_mem_perform h⟩
    · obtain ⟨found, hfound, hbind⟩ := ih h
      exact ⟨found, mem_cons_of_mem _ hfound, hbind⟩

/-- Every reference of a module is a mention in the body of a member that was bound there. -/
theorem Scope.exists_bind_of_mem_references :
    ∃ body ∈ bodies, ∃ withs' m, body.tokens.Mentions m ∧
      (Place.mk scope source body.member body.tokens).bind? withs' m = some r := by
  obtain ⟨body, hbody, withs', m, hm, hbind⟩ := Scope.exists_act_of_mem_references h
  exact ⟨body, hbody, withs', m, Statement.mentions_of_mem_acts hm, hbind⟩

/-- The references in the bodies of a module are in that module, and have their arguments from the
statements there. -/
theorem Scope.references_supplied :
    r.module = source.id ∧
      ∀ list, r.arguments? = some list → ∃ body ∈ bodies, body.tokens.Supplies list := by
  obtain ⟨body, hbody, withs', m, hm, hbind⟩ := Scope.exists_bind_of_mem_references h
  obtain ⟨hmodule, hlists⟩ := Place.bind?_supplied hm.supplied hbind
  exact ⟨hmodule, fun list hlist => ⟨body, hbody, hlists list hlist⟩⟩

end

end VbaRefactor
