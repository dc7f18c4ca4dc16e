import VbaRefactor.Edit.Queue
import VbaRefactor.Text.Continuation

/-!
# Refilling the slots of lists

A refill says how the slots of one comma-separated list in a text are filled anew: from the text of a
slot, with a literal, or not at all. Refills can stand inside the slots of others; the text of a slot
is taken with the refills inside it applied. `Refill.render` gives the text of a span with all refills
inside it applied, and `Refill.edits` turns refills into line edits.
-/

namespace VbaRefactor

inductive Fill where
  /-- The text of a span, with the refills inside it applied. -/
  | source (span : Span)
  | empty
  | literal (text : Text)
deriving DecidableEq, Repr

structure Refill where
  /-- The region of the list; what stands outside of the slots is kept. -/
  region : Span
  slots : List Span
  fills : List Fill
  /-- The continued lines of the region are joined. -/
  collapse : Bool
deriving DecidableEq, Repr

namespace Refill

/-- The text of a span, which has to lie in the text in order. Its ends have to stand between characters:
spans with an end inside of one are left out of consideration, here as in `Text.slice`. -/
def cut (text : Text) (span : Span) : Except RefillFault Text :=
  if span.start ≤ span.stop && span.stop ≤ text.byteSize then .ok (text.slice span)
  else .error (.badSpan span)

/-- What separates the slot at an index from the one before: the text between the two slots that
stand there, or a comma past the last of them. -/
def separator (text : Text) (slots : List Span) (index : Nat) : Except RefillFault Text :=
  if index = 0 then .ok []
  else
    match slots[index - 1]?, slots[index]? with
    | some before, some after => cut text ⟨before.stop, after.start⟩
    | _, _ => .ok ", "

/-- The new contents from an index on, each after its separator. The text of a span inside the region
is given by `inner`. -/
def contents (text : Text) (slots : List Span) (inner : Span → Except RefillFault Text)
    (index : Nat) : List Fill → Except RefillFault Text
  | [] => .ok []
  | fill :: rest => do
    let before ← separator text slots index
    let content ← match fill with
      | .source span => inner span
      | .empty => .ok []
      | .literal literal => .ok literal
    let after ← contents text slots inner (index + 1) rest
    return before ++ content ++ after

/-- The region with its slots filled anew (`render_rewrite`). -/
def value (text : Text) (inner : Span → Except RefillFault Text) (r : Refill) :
    Except RefillFault Text :=
  match r.slots.head?, r.slots.getLast? with
  | some first, some last => do
    let before ← inner ⟨r.region.start, first.start⟩
    let middle ← contents text r.slots inner 0 r.fills
    let after ← inner ⟨last.stop, r.region.stop⟩
    let whole := before ++ middle ++ after
    return if r.collapse then whole.joinContinuations else whole
  | _, _ => inner r.region

/-- The text from `pos` to the end of a span, with the refills that `use` picks applied; a refill that
begins before the end of the one before it is left out. -/
def weave (text : Text) (span : Span) (use : Nat → Bool)
    (value : Nat → Refill → Except RefillFault Text) (pos : Nat) :
    List (Refill × Nat) → Except RefillFault Text
  | [] => cut text ⟨pos, span.stop⟩
  | (r, place) :: rest =>
    if use place && pos ≤ r.region.start && span.contains r.region then do
      let before ← cut text ⟨pos, r.region.start⟩
      let here ← value place r
      let after ← weave text span use value r.region.stop rest
      return before ++ here ++ after
    else weave text span use value pos rest

/-- The text of a span with the refills inside it applied. On the stack are the places of the refills
whose content is being made, the innermost first, which is not applied to itself. A refill that is
needed for its own content has no rendering (`render`). -/
def render (text : Text) (refills : List Refill) (stack : List Nat) (span : Span) :
    Except RefillFault Text :=
  weave text span (stack.head? ≠ some ·)
    (fun place r =>
      if place ∈ stack ∨ refills.length ≤ stack.length then .error (.circular place)
      else value text (render text refills (place :: stack)) r)
    span.start refills.zipIdx
termination_by refills.length - stack.length
decreasing_by
  simp only [List.length_cons]
  omega

/-- The order in which refills are rendered: by start, and of two that start together the longer
first. -/
def sorted (refills : List Refill) : List Refill :=
  refills.mergeSort fun a b =>
    a.region.start < b.region.start
      || (a.region.start == b.region.start && b.region.stop ≤ a.region.stop)

/-- The line ranges of the outermost refills; ranges that share a line are one. The refills so far end
at `covered`, and `groups` are their ranges, the last one first. -/
def lineGroups (text : Text) (covered? : Option Nat) (groups : List LineRange) :
    List Refill → List LineRange
  | [] => groups.reverse
  | r :: rest =>
    if covered?.any (r.region.start < ·) then lineGroups text covered? groups rest
    else
      let range : LineRange := ⟨text.lineOf r.region.start, text.lineOf r.region.stop⟩
      let groups := match groups with
        | last :: before =>
          if last.overlaps range then ⟨last.first, max last.last range.last⟩ :: before
          else range :: last :: before
        | [] => [range]
      lineGroups text (some r.region.stop) groups rest

/-- The edits that give the lines of a group a new text. Where the number of lines stays, only lines
that differ are replaced; where one line remains, the others are deleted. -/
def groupEdits (text : Text) (group : LineRange) (rendered : Text) : List Edit :=
  if rendered = text.slice (text.spanOfLines group.first group.last) then []
  else
    let lines := rendered.splitLines
    if lines.length = group.last - group.first + 1 then
      lines.zipIdx.filterMap fun (line, offset) =>
        if line = text.lineText (group.first + offset) then none
        else some (.replace (.single (group.first + offset)) line)
    else
      match lines with
      | [line] => [.replace (.single group.first) line, .delete ⟨group.first + 1, group.last⟩]
      | _ => [.replace group (['\n'].intercalate lines)]

def groupsEdits (text : Text) (refills : List Refill) :
    List LineRange → Except RefillFault (List Edit)
  | [] => .ok []
  | group :: rest => do
    let rendered ← render text refills [] (text.spanOfLines group.first group.last)
    let more ← groupsEdits text refills rest
    return groupEdits text group rendered ++ more

/-- The line edits that apply refills to a text (`queue_slot_rewrites`). -/
def edits (text : Text) (refills : List Refill) : Except RefillFault (List Edit) :=
  groupsEdits text (sorted refills) (lineGroups text none [] (sorted refills))

end Refill

/-- Queues the line edits that apply refills to a module with the given text. -/
def EditQueue.refill (q : EditQueue) (m : ModuleName) (text : Text) (refills : List Refill) :
    EditQueue × Option Error :=
  match Refill.edits text refills with
  | .error fault => (q, some (.refillFault fault))
  | .ok edits => q.queueAll m edits

end VbaRefactor
