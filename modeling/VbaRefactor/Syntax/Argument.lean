import VbaRefactor.Syntax.Statement

/-!
# Argument lists

The arguments that a call supplies, each with its span: given by place, given by name, or left out
between two commas.
-/

namespace VbaRefactor

inductive ArgumentForm where
  | positional
  | named (name : Text)
  /-- Nothing stands between two commas. -/
  | missing
deriving DecidableEq, Repr

/-- One slot of an argument list; a missing argument has width zero. -/
structure Argument where
  span : Span
  kind : ArgumentForm
deriving DecidableEq, Repr

structure ArgumentList where
  /-- The region of the arguments, inside the parentheses where there are any. -/
  extent : Span
  arguments : List Argument
  parenthesized : Bool
deriving DecidableEq, Repr

namespace Argument

def isNamed (a : Argument) : Bool :=
  match a.kind with
  | .named _ => true
  | _ => false

end Argument

namespace ArgumentList

def anyNamed (l : ArgumentList) : Bool := l.arguments.any Argument.isNamed

/-- There are arguments and all are given by name. -/
def everyNamed (l : ArgumentList) : Bool := !l.arguments.isEmpty && l.arguments.all Argument.isNamed

end ArgumentList

namespace Statement

def spanAt (s : Statement) (i : Nat) : Span := (s[i]?.map Token.span).getD default

def nameAt (s : Statement) (i : Nat) : Text := (s[i]?.map Token.name).getD []

/-- The argument made of the tokens from `start` up to `stop`; without tokens it is missing and
stands at `missingAt` (`argument`). -/
def argument (s : Statement) (start stop missingAt : Nat) : Argument :=
  if start < stop then
    { span := (s.spanAt start).cover (s.spanAt (stop - 1))
      kind := if s.isName start && s.isPunct (start + 1) ":=" then .named (s.nameAt start)
        else .positional }
  else ⟨.empty missingAt, .missing⟩

/-- The arguments from index `i` on, for the tokens up to `stop`. The argument being read starts at
`piece`, `depth` parentheses are open, and a last missing argument stands at `missingAt`. -/
def argumentsFrom (s : Statement) (stop missingAt piece depth i : Nat) : List Argument :=
  if i < stop then
    if depth = 0 ∧ s.isPunct i "," then
      s.argument piece i (s.spanAt i).start :: argumentsFrom s stop missingAt (i + 1) 0 (i + 1)
    else
      let depth := if s.isPunct i "(" then depth + 1 else if s.isPunct i ")" then depth - 1 else depth
      argumentsFrom s stop missingAt piece depth (i + 1)
  else [s.argument piece stop missingAt]
termination_by stop - i

/-- The slots of the tokens from `start` up to `stop`; no tokens have no slots (`arguments`). -/
def slots (s : Statement) (start stop missingAt : Nat) : List Argument :=
  if start < stop then s.argumentsFrom stop missingAt start 0 start else []

/-- The arguments between the parenthesis before `start` and the one at `stop`. -/
def innerArguments (s : Statement) (start stop : Nat) : ArgumentList :=
  let extent : Span := ⟨(s.spanAt (start - 1)).stop, (s.spanAt stop).start⟩
  ⟨extent, s.slots start stop extent.stop, true⟩

/-- The arguments without parentheses from `start` up to `stop`. -/
def bareArguments (s : Statement) (start stop : Nat) : ArgumentList :=
  let extent := (s.spanAt start).cover (s.spanAt (stop - 1))
  ⟨extent, s.slots start stop extent.stop, false⟩

/-- No arguments, right after the name at an index (`empty_arguments`). -/
def noArguments (s : Statement) (name : Nat) : ArgumentList :=
  ⟨.empty (s.spanAt name).stop, [], false⟩

/-- The arguments in the parentheses that open at `first`, if they close before `stop`
(`parenthesized`). -/
def argumentsIn? (s : Statement) (first stop : Nat) : Option ArgumentList :=
  (matching? (s.take stop) first).map fun close => s.innerArguments (first + 1) close

end Statement

end VbaRefactor
