import VbaRefactor.Project

/-!
# Numbers of declarations

The number at which the declarations of a module start does not matter for what is read: starting
`k` later only makes every number greater by `k`.
-/

namespace VbaRefactor

open List

/-- The declaration with other numbers. -/
def Declaration.renumber (f : DeclarationId → DeclarationId) (d : Declaration) : Declaration :=
  { d with id := f d.id, parent? := d.parent?.map f }

/-- The statement as one of a member with another number. -/
def MemberStatement.renumber (f : DeclarationId → DeclarationId) (b : MemberStatement) :
    MemberStatement :=
  { b with member := f b.member }

/-- The item with other numbers. -/
def Item.renumber (f : DeclarationId → DeclarationId) : Item → Item
  | .implements interface extent => .implements interface extent
  | .fields s =>
    .fields { s with fields := s.fields.map fun d => { d with declaration := f d.declaration } }
  | .record b => .record { b with
      declaration := f b.declaration
      members := b.members.map fun m => { m with declaration := f m.declaration } }
  | .member node => .member { node with declaration := f node.declaration }

namespace Outline

/-- The outline with other numbers. -/
def renumber (f : DeclarationId → DeclarationId) (o : Outline) : Outline :=
  { o with
    base := f o.base
    declarations := o.declarations.map (.renumber f)
    items := o.items.map (.renumber f)
    bodies := o.bodies.map (.renumber f) }

/-- The outline with every number greater by `k`. -/
def shift (k : Nat) (o : Outline) : Outline := o.renumber (· + k)

/-- The construct with every number greater by `k`. -/
def Construct.shift (k : Nat) : Construct → Construct
  | .member opened => .member { opened with declaration := opened.declaration + k }
  | .record opened => .record { opened with
      declaration := opened.declaration + k
      members := opened.members.map fun m => { m with declaration := m.declaration + k } }
  | block => block

section

variable (k : Nat) (o : Outline)

@[simp]
theorem source_shift : (o.shift k).source = o.source := rfl

@[simp]
theorem base_shift : (o.shift k).base = o.base + k := rfl

@[simp]
theorem nextId_shift : (o.shift k).nextId = o.nextId + k := by
  simp only [nextId, shift, renumber, length_map]
  exact Nat.add_right_comm _ _ _

theorem shift_addDeclaration (e : Entry) :
    (o.addDeclaration e).shift k =
      (o.shift k).addDeclaration { e with parent := e.parent + k } := by
  simp only [addDeclaration, nextId_shift, source_shift]
  simp [shift, renumber, Declaration.renumber]

theorem shift_addItem (item : Item) :
    (o.addItem item).shift k = (o.shift k).addItem (item.renumber (· + k)) := by
  simp [addItem, shift, renumber]

theorem shift_foldl {α : Type} {f g : Outline → α → Outline}
    (h : ∀ o x, (f o x).shift k = g (o.shift k) x) (xs : List α) :
    (xs.foldl f o).shift k = xs.foldl g (o.shift k) := by
  induction xs generalizing o with
  | nil => rfl
  | cons x xs ih => rw [foldl_cons, foldl_cons, ih, h]

theorem shift_addConstants (scope : DeclarationId) (access : Access) (s : Statement) :
    (o.addConstants scope access s).shift k = (o.shift k).addConstants (scope + k) access s := by
  refine shift_foldl k o ?_ _
  intro o piece
  rw [source_shift]
  split
  · rfl
  · exact shift_addDeclaration k o _

theorem shift_addLocals (member : DeclarationId) (s : Statement) :
    (o.addLocals member s).shift k = (o.shift k).addLocals (member + k) s := by
  refine shift_foldl k o ?_ _
  intro o piece
  rw [source_shift]
  split
  · rfl
  · exact shift_addDeclaration k o _

theorem shift_addLocalStatement (member : DeclarationId) (s : Statement) :
    (o.addLocalStatement member s).shift k = (o.shift k).addLocalStatement (member + k) s := by
  rw [addLocalStatement, addLocalStatement]
  split
  · exact shift_addLocals k o _ _
  · split
    · exact shift_addConstants k o _ _ _
    · rfl

theorem shift_addDeclaredFields (access : Access) (withEvents : Bool) (pieces : List Statement) :
    (o.shift k).addDeclaredFields access withEvents pieces =
      ((o.addDeclaredFields access withEvents pieces).1.shift k,
        (o.addDeclaredFields access withEvents pieces).2.map fun d =>
          { d with declaration := d.declaration + k }) := by
  induction pieces generalizing o with
  | nil => rfl
  | cons piece pieces ih =>
    rw [addDeclaredFields, addDeclaredFields, source_shift]
    split
    · rename_i found span _ _
      have hrest := ih (o.addDeclaration {
        name := found.name, kind := .variable, parent := o.base, access, type? := found.type?
        isWithEvents := withEvents || piece.isWord 0 "withevents", isArray := found.bounds?.isSome
        extent := span })
      rw [shift_addDeclaration] at hrest
      simp only [base_shift, nextId_shift, hrest, map_cons]
    · exact ih o

theorem shift_addFields (access : Access) (s : Statement) (i : Nat) :
    (o.addFields access s i).shift k = (o.shift k).addFields access s i := by
  simp only [addFields]
  split
  · generalize (if s.isWord i "withevents" = true then i + 1 else i) = start
    split
    · rw [shift_addItem, shift_addDeclaredFields]
      rfl
    · rfl
  · rfl

theorem shift_endMember (opened : UnclosedMember) (s : Statement) :
    (o.endMember opened s).shift k =
      (o.shift k).endMember { opened with declaration := opened.declaration + k } s := by
  simp only [endMember, shift, renumber, map_map, map_append, mk.injEq, true_and]
  refine ⟨map_congr_left ?_, rfl, trivial⟩
  intro d _
  simp only [Function.comp_apply, Declaration.renumber, Nat.add_right_cancel_iff]
  split <;> rfl

theorem shift_recordStatement (opened : UnclosedRecord) (s : Statement) :
    (o.shift k).recordStatement { opened with
        declaration := opened.declaration + k
        members := opened.members.map fun m => { m with declaration := m.declaration + k } } s =
      ((o.recordStatement opened s).1.shift k, (o.recordStatement opened s).2.shift k) := by
  rw [recordStatement, recordStatement, source_shift]
  split
  · simp only [shift_addItem]
    rfl
  · split
    · rw [shift_addDeclaration, nextId_shift]
      simp [Construct.shift]
    · rfl

theorem shift_enumerationStatement (type : Text) (s : Statement) :
    (o.shift k).enumerationStatement type s =
      ((o.enumerationStatement type s).1.shift k, (o.enumerationStatement type s).2.shift k) := by
  rw [enumerationStatement, enumerationStatement]
  split
  · rfl
  · split
    · split
      · rw [shift_addDeclaration]
        rfl
      · rfl
    · rfl

/-- The results of a step with every number greater by `k`. -/
def shiftStep (result : Outline × Construct) : Outline × Construct :=
  (result.1.shift k, result.2.shift k)

theorem shift_codeStatement (s : Statement) :
    (o.shift k).codeStatement s = (o.codeStatement s).map (shiftStep k) := by
  rw [codeStatement, codeStatement]
  split
  · rfl
  · rfl
  · rw [source_shift]
    split
    · simp [Except.map, shiftStep, shift, renumber, addItem, Item.renumber, Construct.shift]
    · rfl
  · rw [source_shift]
    split
    · rfl
    · simp only [Except.map, shiftStep, addMember, shift_addDeclaration, nextId_shift]
      rfl
  · rw [source_shift]
    split
    · rfl
    · simp only [Except.map, shiftStep, addMember, shift_addItem, shift_addDeclaration, nextId_shift]
      rfl
  · rfl
  · split
    · rfl
    · simp only [Except.map, shiftStep, addBlock, shift_addDeclaration, nextId_shift]
      rfl
  · split
    · rfl
    · simp only [Except.map, shiftStep, addBlock, shift_addDeclaration]
      rfl
  · simp only [Except.map, shiftStep, shift_addConstants]
    rfl
  · simp only [Except.map, shiftStep, shift_addFields]
    rfl

theorem shift_step (block : Construct) (s : Statement) :
    (o.shift k).step (block.shift k) s = (o.step block s).map (shiftStep k) := by
  cases block with
  | code => exact shift_codeStatement k o s
  | fileHeader =>
    simp only [step, Construct.shift, Except.map, shiftStep]
    split <;> rfl
  | member opened =>
    simp only [step, Construct.shift]
    split
    · simp only [Except.map, shiftStep, shift_endMember]
      rfl
    · simp only [Except.map, shiftStep, ← shift_addLocalStatement]
      simp [shift, renumber, Construct.shift, MemberStatement.renumber]
  | record opened => simp only [step, Construct.shift, shift_recordStatement, Except.map, shiftStep]
  | enumeration type =>
    simp only [step, Construct.shift, shift_enumerationStatement, Except.map, shiftStep]

theorem shift_steps (block : Construct) (statements : List Statement) :
    (o.shift k).steps (block.shift k) statements = (o.steps block statements).map (shiftStep k) := by
  induction statements generalizing o block with
  | nil => rfl
  | cons s rest ih =>
    rw [steps, steps, shift_step]
    cases o.step block s with
    | error fault => rfl
    | ok next => exact ih next.1 next.2

end

/-- What is read is the same from any number on, with the numbers moved. -/
theorem read_add (base k : Nat) (source : Source) :
    read (base + k) source = (read base source).map (shift k) := by
  have hstart : start (base + k) source = (start base source).shift k := rfl
  have hsteps := shift_steps k (start base source) .code (Statement.ofTokens (tokenize source.text))
  rw [read, read, hstart]
  change (start base source |>.shift k).steps .code _ = _ at hsteps
  rw [hsteps]
  cases (start base source).steps .code (Statement.ofTokens (tokenize source.text)) with
  | error fault => rfl
  | ok result =>
    obtain ⟨o, block⟩ := result
    have hclosing : (block.shift k).closing? = block.closing? := by cases block <;> rfl
    simp only [Except.map, shiftStep, hclosing]
    cases block.closing? <;> rfl

end Outline

end VbaRefactor
