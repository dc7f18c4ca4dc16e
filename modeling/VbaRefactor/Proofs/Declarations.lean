import VbaRefactor.Proofs.ModuleOrder
import VbaRefactor.Proofs.Syntax.Agreement

/-!
# Declarations of a project and the items of its modules

The declarations of modules that are read together are numbered in order, each stands in one before
it, and every member among them is one item of its module with the same parameters.
-/

namespace VbaRefactor

open List

theorem DeclarationKind.isScope_iff {kind : DeclarationKind} :
    kind.isScope = true ↔ kind = .module ∨ kind = .record ∨ kind.isMember = true := by
  rw [isScope, Bool.or_eq_true, Bool.or_eq_true, decide_eq_true_eq, decide_eq_true_eq, or_assoc]

/-- What has a value of its own is the only one with it. -/
theorem filter_eq_singleton_of_nodup {α : Type} {f : α → Nat} {xs : List α} (h : (xs.map f).Nodup)
    {x : α} (hx : x ∈ xs) : xs.filter (fun y => f y = f x) = [x] := by
  obtain ⟨before, after, rfl⟩ := append_of_mem hx
  obtain ⟨-, hafter, hbefore⟩ := pairwise_append.mp (pairwise_map.mp h)
  rw [filter_append, filter_cons_of_pos (by simp),
    filter_eq_nil_iff.mpr fun y hy => by simpa using hbefore y hy x mem_cons_self,
    filter_eq_nil_iff.mpr fun y hy => by
      simpa using (rel_of_pairwise_cons hafter hy).symm]
  rfl

namespace Outline

variable {o : Outline} {base : DeclarationId} {source : Source} {d : Declaration}

/-- Every declaration but the module stands in an earlier one of the outline. -/
theorem exists_parent (h : read base source = .ok o) (hd : d ∈ o.declarations)
    (hkind : d.kind ≠ .module) : ∃ e ∈ o.declarations, d.parent? = some e.id ∧ e.id < d.id ∧
      e.module = d.module ∧ e.kind.isScope = true := by
  have hfrom := readFrom_of_read h
  have hshape {k : Nat} : o.shape[k]? = (o.declarations[k]?).map fun d => (d.kind, d.parent?) :=
    getElem?_map
  obtain ⟨i, hi⟩ := mem_iff_getElem?.mp hd
  have hat : o.shape[i]? = some (d.kind, d.parent?) := by
    rw [hshape, hi]
    rfl
  rcases nested_of_read h i d.kind d.parent? hat with hmodule | ⟨j, hlt, kind, parent?, hj, hparent, hscope⟩
  · exact absurd hmodule hkind
  rw [hshape] at hj
  obtain ⟨e, he, heq⟩ := Option.map_eq_some_iff.mp hj
  cases heq
  obtain ⟨hid, hmodule⟩ := hfrom.declared i d hi
  obtain ⟨hid', hmodule'⟩ := hfrom.declared j e he
  refine ⟨e, mem_of_getElem? he, ?_, ?_, by rw [hmodule, hmodule'], hscope⟩
  · rw [hparent, hid', hfrom.ofBase]
  · rw [hid, hid']
    exact Nat.add_lt_add_left hlt base

theorem nodup_ids (h : read base source = .ok o) : (o.declarations.map Declaration.id).Nodup := by
  rw [List.Nodup, pairwise_map, pairwise_iff_getElem]
  intro i j hi hj hlt heq
  have hfrom := readFrom_of_read h
  have hid := (hfrom.declared i _ (getElem?_eq_getElem hi)).1
  have hid' := (hfrom.declared j _ (getElem?_eq_getElem hj)).1
  rw [hid, hid'] at heq
  exact absurd (Nat.add_left_cancel heq) (Nat.ne_of_lt hlt)

/-- Every member that is declared is exactly one item. -/
theorem exists_node (h : read base source = .ok o) (hd : d ∈ o.declarations)
    (hkind : d.kind.isMember = true) :
    ∃ node, o.nodes.filter (·.declaration = d.id) = [node] ∧ node.face = d.face := by
  have hfaces := faces_of_read h
  have hmem : d.face ∈ o.nodes.map MemberItem.face := by
    rw [← hfaces]
    exact mem_map_of_mem (mem_filter.mpr ⟨hd, hkind⟩)
  obtain ⟨node, hnode, hface⟩ := mem_map.mp hmem
  have hids : (o.nodes.map MemberItem.declaration).Nodup := by
    have hsame : o.nodes.map MemberItem.declaration =
        (o.declarations.filter (·.kind.isMember)).map Declaration.id := by
      have := congrArg (List.map Face.declaration) hfaces
      rw [faces, map_map, map_map] at this
      exact this.symm
    rw [hsame]
    exact (nodup_ids h).sublist (filter_sublist.map _)
  have hid : node.declaration = d.id := congrArg Face.declaration hface
  exact ⟨node, by rw [← hid, filter_eq_singleton_of_nodup hids hnode], hface⟩

end Outline

/-- The item is that of the member: it has the kind and the parameters of the declaration, and a body
if members of that kind have one. -/
structure MemberItem.Of (node : MemberItem) (d : Declaration) : Prop where
  kind : node.kind = d.kind
  list : ∀ list ∈ node.list?, list.spans = d.parameters.map (·.extent.span)
  noList : node.list? = none → d.parameters = []
  body : node.body?.isSome = true ↔ d.kind = .procedure ∨ d.kind = .function ∨
    d.kind.isProperty = true

theorem MemberItem.of_face {node : MemberItem} {d : Declaration} (h : node.face = d.face) :
    node.Of d := by
  have hspans : ParameterList.spansOf node.list? = d.parameters.map (·.extent.span) :=
    congrArg Face.spans h
  refine ⟨congrArg Face.kind h, ?_, ?_, ?_⟩
  · intro list hlist
    rwa [Option.mem_def.mp hlist] at hspans
  · intro hnone
    rw [hnone] at hspans
    exact map_eq_nil_iff.mp hspans.symm
  · rw [show node.body?.isSome = d.kind.hasBody from congrArg Face.hasBody h]
    cases d.kind <;> simp [DeclarationKind.hasBody, DeclarationKind.isProperty]

namespace Project

variable {sources : List Source} {p : Project}

/-- Declarations are numbered in order, stand in earlier ones of the same module, and agree with the
items of their modules, which stand one after another. -/
theorem declarations_agree (hnames : sources.Pairwise fun a b => ¬ a.id.Same b.id)
    (h : read sources = .ok p) :
    (∀ (i : Nat) (d : Declaration), p.index.declarations[i]? = some d → d.id = i) ∧
    (∀ d ∈ p.index.declarations, d.kind ≠ .module → ∃ e ∈ p.index.declarations,
      d.parent? = some e.id ∧ e.id < d.id ∧ e.module = d.module ∧
        (e.kind = .module ∨ e.kind = .record ∨ e.kind.isMember = true)) ∧
    (∀ d ∈ p.index.declarations, d.kind.isMember = true →
      ∃ c, p.modules.get? d.module = some c ∧ ∃ node,
        (c.items.filterMap Item.member?).filter (·.declaration = d.id) = [node] ∧ node.Of d) ∧
    ∀ m c, p.modules.get? m = some c →
      (∀ item ∈ c.items, item.extent.span.start < item.extent.span.stop) ∧
        c.items.Pairwise fun a b => a.extent.span.stop ≤ b.extent.span.start := by
  obtain ⟨found, hfound, rfl⟩ := exists_outlines_of_read h
  obtain ⟨rfl, -, -⟩ := outlines_readFrom hfound
  have hread {o : Outline} (ho : o ∈ found) := read_of_mem hfound ho
  refine ⟨fun i d hd => id_of_getElem? hfound hd, ?_, ?_, ?_⟩
  · intro d hd hkind
    obtain ⟨o, ho, hmem⟩ := List.mem_flatMap.mp hd
    obtain ⟨e, he, hparent, hlt, hmodule, hscope⟩ := Outline.exists_parent (hread ho) hmem hkind
    exact ⟨e, List.mem_flatMap.mpr ⟨o, ho, he⟩, hparent, hlt, hmodule,
      DeclarationKind.isScope_iff.mp hscope⟩
  · intro d hd hkind
    obtain ⟨o, ho, hmem⟩ := List.mem_flatMap.mp hd
    obtain ⟨i, hi⟩ := List.mem_iff_getElem?.mp hmem
    have hmodule := ((Outline.readFrom_of_read (hread ho)).declared i d hi).2
    obtain ⟨node, hnode, hface⟩ := Outline.exists_node (hread ho) hmem hkind
    refine ⟨⟨o.source, o.items⟩, ?_, node, hnode, MemberItem.of_face hface⟩
    rw [get?_modules_ofOutlines hnames, hmodule]
    exact ⟨o, ho, rfl, .refl _⟩
  · intro m c hc
    obtain ⟨o, ho, rfl, -⟩ := (get?_modules_ofOutlines hnames m c).mp hc
    exact Outline.laid_of_read (hread ho)

/-- A record, an event and a property, in a module that is read behind another. -/
theorem declarations_agree_class :
    let main : Source := ⟨⟨"P", "Main"⟩, .standard, "Public Sub Run\nEnd Sub\n".toList⟩
    let shape : Source := ⟨⟨"P", "Shape"⟩, .classModule,
      "Private Type T\n    x As Long\nEnd Type: Event Done(ByVal n, m())\nProperty Get Size(i, Optional j)\n    Dim k: k = i\nEnd Property\n".toList⟩
    ∃ p, read [main, shape] = .ok p ∧
      p.index.declarations.map (fun d => (d.kind, d.parent?)) =
        [(.module, none), (.procedure, some 0), (.module, none), (.record, some 2),
          (.recordMember, some 3), (.event, some 2), (.propertyGet, some 2), (.variable, some 6)] ∧
      ∃ d ∈ p.index.declarations, d.kind = .propertyGet ∧ d.parameters.length = 2 ∧
        ∃ c, p.modules.get? d.module = some c ∧ ∃ node,
          (c.items.filterMap Item.member?).filter (·.declaration = d.id) = [node] ∧
            node.Of d ∧ node.body?.isSome = true := by
  intro main shape
  have hrun : ∃ p ∈ (read [main, shape]).toOption,
      p.index.declarations.map (fun d => (d.kind, d.parent?)) =
        [(.module, none), (.procedure, some 0), (.module, none), (.record, some 2),
          (.recordMember, some 3), (.event, some 2), (.propertyGet, some 2), (.variable, some 6)] ∧
      ∃ d ∈ p.index.declarations, d.kind = .propertyGet ∧ d.parameters.length = 2 := by
    decide +kernel
  obtain ⟨p, hp, hkinds, d, hd, hkind, hlength⟩ := hrun
  have hread := eq_ok_of_mem_toOption hp
  obtain ⟨-, -, hnodes, -⟩ := declarations_agree (by decide) hread
  obtain ⟨c, hc, node, hnode, hof⟩ := hnodes d hd (by rw [hkind]; rfl)
  refine ⟨p, hread, hkinds, d, hd, hkind, hlength, c, hc, node, hnode, hof, hof.body.mpr ?_⟩
  exact .inr (.inr (by rw [hkind]; rfl))

end Project

end VbaRefactor
