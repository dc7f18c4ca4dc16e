import VbaRefactor.Syntax.Argument

/-!
# Mentions of names in a statement

Which names a statement mentions, with what qualifier in front, and how each is used: called with
arguments, assigned to, raised, taken the address of, or just read. This is decided by the tokens
alone. First come the mentions at the head of the statement, then all other names in order; `With`
statements are reported among the former because they change what a leading point stands for.
-/

namespace VbaRefactor

def keywords : List String := [
  "addressof", "and", "as", "boolean", "byref", "byte", "byval", "call", "case", "close",
  "const", "currency", "date", "debug", "decimal", "declare", "dim", "do", "double", "each",
  "else", "elseif", "empty", "end", "enum", "eqv", "erase", "error", "event", "exit", "false",
  "for", "friend", "function", "get", "global", "gosub", "goto", "if", "imp", "implements",
  "in", "input", "integer", "is", "let", "like", "long", "longlong", "longptr", "loop", "lset",
  "me", "mod", "new", "next", "not", "nothing", "null", "object", "on", "open", "option",
  "optional", "or", "paramarray", "preserve", "print", "private", "property", "public", "put",
  "raiseevent", "redim", "resume", "return", "rset", "select", "set", "single", "static",
  "step", "stop", "string", "sub", "then", "to", "true", "type", "typeof", "until", "variant",
  "wend", "while", "with", "withevents", "xor"]

/-- The words after which a name is a type or a label. -/
def typeOrLabelWords : List Text := ["as", "new", "goto", "gosub", "typeof"]

/-- The folded word is a keyword (`is_keyword`). -/
def isKeyword (word : Text) : Bool := keywords.any (·.toList == word)

/-- What stands in front of a name: a point that refers to the enclosing `With`, and the indices of
the names of the chain. -/
structure Qualifier where
  leadingDot : Bool
  names : List Nat
deriving DecidableEq, Repr

namespace Qualifier

def none : Qualifier := ⟨false, []⟩

def isNone (q : Qualifier) : Bool := !q.leadingDot && q.names.isEmpty

end Qualifier

inductive Use where
  /-- Called; no list when its parentheses do not close. -/
  | call (arguments? : Option ArgumentList)
  /-- Assigned to, by `Set` or not. -/
  | assignment (arguments? : Option ArgumentList) (bySet : Bool)
  | raiseEvent (arguments? : Option ArgumentList)
  | address
  | read
deriving DecidableEq, Repr

structure Mention where
  name : Nat
  qualifier : Qualifier
  use : Use
deriving DecidableEq, Repr

inductive Act where
  | mention (m : Mention)
  /-- A `With` block on a new object of this type begins. -/
  | enterNew (type? : Option Text)
  /-- A `With` block on the object that this chain names begins. -/
  | enterWith (chain? : Option Qualifier)
  | leaveWith
deriving DecidableEq, Repr

def Act.mention? : Act → Option Mention
  | .mention m => some m
  | _ => none

namespace Statement

/-- Follows `.name` after the name at an index as far as it goes: the names passed, and the last. -/
def follow (s : Statement) (stop : Nat) (passed : List Nat) (name : Nat) : List Nat × Nat :=
  if name + 2 < stop ∧ s.isPunct (name + 1) "." ∧ s.isName (name + 2) then
    follow s stop (passed ++ [name]) (name + 2)
  else (passed, name)
termination_by stop - name

/-- Reads `[.]a.b.name` from index `start` to the right: the qualifier and the index of the name
(`chain`). -/
def chainFrom? (s : Statement) (start stop : Nat) : Option (Qualifier × Nat) :=
  let leadingDot := s.isPunct start "."
  let first := if leadingDot then start + 1 else start
  if first < stop ∧ s.isName first then
    let (names, name) := s.follow stop [] first
    some (⟨leadingDot, names⟩, name)
  else none

/-- Reads the chain before the point at an index to the left. A chain that hangs on a closing
parenthesis cannot be followed. -/
def qualifierAtDot? (s : Statement) : Nat → Option Qualifier
  | 0 => some ⟨true, []⟩
  | j + 1 =>
    if s.isName j then
      match j with
      | 0 => some ⟨false, [0]⟩
      | k + 1 =>
        if s.isPunct k "." then
          (qualifierAtDot? s k).map fun q => { q with names := q.names ++ [k + 1] }
        else some ⟨false, [k + 1]⟩
    else if s.isPunct j ")" then none
    else some ⟨true, []⟩

/-- The qualifier in front of the name at an index (`qualifier_before`). -/
def qualifierAt? (s : Statement) : Nat → Option Qualifier
  | 0 => some .none
  | i + 1 => if s.isPunct i "." then s.qualifierAtDot? i else some .none

/-- The first index from `start` up to `stop` with this word. -/
def findWord? (s : Statement) (word : Text) (start stop : Nat) : Option Nat :=
  (List.range' start (stop - start)).find? fun i => s.isWord i word

theorem findWord?_bounds {s : Statement} {word : Text} {start stop i : Nat}
    (h : s.findWord? word start stop = some i) : start ≤ i ∧ i < stop := by
  have hmem := List.mem_of_find?_eq_some h
  rw [List.mem_range'_1] at hmem
  omega

/-- The indices of `Then` and of the `Else` after it. -/
def branches? (s : Statement) (start stop : Nat) : Option (Nat × Option Nat) :=
  (s.findWord? "then" start stop).map fun th => (th, s.findWord? "else" (th + 1) stop)

theorem branches?_bounds {s : Statement} {start stop th : Nat} {el? : Option Nat}
    (h : s.branches? start stop = some (th, el?)) :
    start ≤ th ∧ th < stop ∧ ∀ el ∈ el?, th < el ∧ el < stop := by
  simp only [branches?, Option.map_eq_some_iff, Prod.mk.injEq] at h
  obtain ⟨i, hi, rfl, rfl⟩ := h
  have hthen := findWord?_bounds hi
  refine ⟨hthen.1, hthen.2, fun el hel => ?_⟩
  have helse := findWord?_bounds hel
  omega

/-- The call or assignment that starts at index `start` (`statement`). -/
def callOrAssignment? (s : Statement) (start stop : Nat) (bySet : Bool) : Option Mention :=
  match s.chainFrom? start stop with
  | none => none
  | some (qualifier, name) =>
    let after := name + 1
    if after < stop && s.isPunct after "=" then
      some ⟨name, qualifier, .assignment (some (s.noArguments name)) bySet⟩
    else if after = stop then
      some ⟨name, qualifier, .call (some (s.noArguments name))⟩
    else
      let open? := if s.isPunct after "(" then matching? (s.take stop) after else none
      match open? with
      | some close =>
        if close + 1 < stop && s.isPunct (close + 1) "=" then
          some ⟨name, qualifier, .assignment (s.argumentsIn? after stop) bySet⟩
        else if close + 1 = stop then
          some ⟨name, qualifier, .call (s.argumentsIn? after stop)⟩
        else some ⟨name, qualifier, .call (some (s.bareArguments after stop))⟩
      | none => some ⟨name, qualifier, .call (some (s.bareArguments after stop))⟩

/-- The mention after `Call`. -/
def calledName? (s : Statement) (start stop : Nat) : Option Mention :=
  match s.chainFrom? start stop with
  | none => none
  | some (qualifier, name) =>
    if name + 1 < stop && s.isPunct (name + 1) "(" then
      some ⟨name, qualifier, .call (s.argumentsIn? (name + 1) stop)⟩
    else some ⟨name, qualifier, .call (some (s.noArguments name))⟩

/-- The mention after `RaiseEvent`. -/
def raisedName? (s : Statement) (name stop : Nat) : Option Mention :=
  if s.isName name then
    if s.isPunct (name + 1) "(" then
      some ⟨name, .none, .raiseEvent (s.argumentsIn? (name + 1) stop)⟩
    else some ⟨name, .none, .raiseEvent (some (s.noArguments name))⟩
  else none

/-- The object after `With`. -/
def withTarget (s : Statement) (start stop : Nat) : Act :=
  if s.isWord start "new" then .enterNew (s[start + 1]?.map Token.text)
  else
    match s.chainFrom? start stop with
    | some (qualifier, name) =>
      .enterWith (if name + 1 = stop then some { qualifier with names := qualifier.names ++ [name] }
        else none)
    | none => .enterWith none

/-- A mention, if there is one, as the only act. -/
def only (mention? : Option Mention) : List Act := (mention?.map Act.mention).toList

/-- What the head of the tokens from `start` up to `stop` says. A single-line `If` has a head after
`Then` and one after `Else` (`head`). -/
def heads (s : Statement) (start stop : Nat) : List Act :=
  if start < stop then
    if s.isWord start "call" then only (s.calledName? (start + 1) stop)
    else if s.isWord start "raiseevent" then only (s.raisedName? (start + 1) stop)
    else if s.isWord start "set" then only (s.callOrAssignment? (start + 1) stop true)
    else if s.isWord start "let" then only (s.callOrAssignment? (start + 1) stop false)
    else if s.isWord start "if" || s.isWord start "elseif" then
      match hbranch : s.branches? start stop with
      | none => []
      | some (th, some el) => s.heads (th + 1) el ++ s.heads (el + 1) stop
      | some (th, none) => s.heads (th + 1) stop
    else if s.isWord start "else" then s.heads (start + 1) stop
    else if s.isWord start "with" then [s.withTarget (start + 1) stop]
    else if s.isWord start "end" && s.isWord (start + 1) "with" then [.leaveWith]
    else if (s.word? start).any isKeyword then []
    else only (s.callOrAssignment? start stop false)
  else []
termination_by stop - start
decreasing_by
  · have := branches?_bounds hbranch
    simp at this
    omega
  · have := branches?_bounds hbranch
    simp at this
    omega
  · have := branches?_bounds hbranch
    omega
  · omega

/-- The mention of the name at an index as part of an expression. Keywords, types, labels, names
after `!` and the names of named arguments are none. -/
def operand? (s : Statement) (i : Nat) : Option Mention :=
  match s.word? i with
  | none => none
  | some word =>
    if isKeyword word
        || (0 < i && ((s.word? (i - 1)).any (typeOrLabelWords.contains ·)
          || s.isPunct (i - 1) "!"))
        || s.isPunct (i + 1) ":=" then none
    else
      match s.qualifierAt? i with
      | none => none
      | some qualifier =>
        if s.isPunct (i + 1) "(" then
          some ⟨i, qualifier, .call (s.argumentsIn? (i + 1) s.length)⟩
        else if 0 < i && s.isWord (i - 1) "addressof" then some ⟨i, qualifier, .address⟩
        else some ⟨i, qualifier, .read⟩

/-- The mentions at the indices that the head does not take (`scan`). -/
def operands (s : Statement) (taken : List Nat) : List Mention :=
  (List.range s.length).filterMap fun i => if taken.contains i then none else s.operand? i

/-- Everything that a statement says, in order. -/
def acts (s : Statement) : List Act :=
  let heads := s.heads 0 s.length
  let taken := (heads.filterMap Act.mention?).map Mention.name
  heads ++ (s.operands taken).map Act.mention

end Statement

end VbaRefactor
