import VbaRefactor.File.Disk
import VbaRefactor.Proofs.Text.Rows

/-!
# Where paths lead

The place of a path is what its components lead to where no directory is a link: points stay, two
points go up. Paths that are cut and joined keep their components, so that a path that is seen from a
directory and joined to it again leads to its old place.
-/

namespace VbaRefactor

open List Text

variable {p' : Path} {first t : Text}

namespace Text

theorem split_append_cons (sep : Char) (a b : Text) :
    split sep (a ++ sep :: b) = split sep a ++ split sep b := by
  induction a with
  | nil => exact split_cons_self sep b
  | cons c a ih =>
    obtain ⟨piece, pieces, ha⟩ := exists_cons_of_ne_nil (split_ne_nil sep a)
    rw [ha, cons_append] at ih
    by_cases hc : c = sep
    · rw [hc, cons_append, split_cons_self, split_cons_self, ih, ha]
      rfl
    · rw [cons_append, split_cons_of_ne hc ih, split_cons_of_ne hc ha]
      rfl

variable {sep : Char}

theorem split_of_not_mem (h : sep ∉ t) : split sep t = [t] := by
  induction t with
  | nil => rfl
  | cons c t ih =>
    obtain ⟨hc, ht⟩ := not_or.mp (fun hmem => h (mem_cons.mpr hmem))
    exact split_cons_of_ne (Ne.symm hc) (ih ht)

theorem split_intercalate {parts : List Text} (hne : parts ≠ []) (h : ∀ part ∈ parts, sep ∉ part) :
    split sep ([sep].intercalate parts) = parts := by
  induction parts with
  | nil => exact absurd rfl hne
  | cons part parts ih =>
    obtain ⟨hpart, hparts⟩ := forall_mem_cons.mp h
    cases parts with
    | nil => rw [intercalate_singleton, split_of_not_mem hpart]
    | cons next parts =>
      rw [intercalate_cons_cons, append_assoc, singleton_append, split_append_cons,
        split_of_not_mem hpart, ih (cons_ne_nil _ _) hparts]
      rfl

end Text

/-- The names that lead to a place, the last one first; the empty name is the root. -/
abbrev FilePlace := List Text

namespace Path

variable {name : Text} {pieces : List (Text × Bool)} {p base rel : Path} {further purpose : Text}

/-! ## Places -/

/-- Where a component leads from a place. -/
def enter (above : FilePlace) (name : Text) : FilePlace :=
  if name = [] then [[]]
  else if name = ['.'] then above
  else if name = ['.', '.'] then
    match above with
    | [] => [name]
    | last :: rest => if last = [] then above else if last = name then name :: above else rest
  else name :: above

/-- Where a path leads. -/
def place (p : Path) : FilePlace := p.components.foldl enter []

/-- A name that a file or directory can have. -/
structure IsName (name : Text) : Prop where
  nonempty : name ≠ []
  notHere : name ≠ ['.']
  notAbove : name ≠ ['.', '.']
  plain : '/' ∉ name

theorem enter_of_isName (h : IsName name) (above : FilePlace) : enter above name = name :: above := by
  simp [enter, h.nonempty, h.notHere, h.notAbove]

/-! ## Pieces and components -/

/-- A piece behind the first one that is a component. -/
def isInner (piece : Text) : Bool := !piece.isEmpty && piece != ['.']

/-- The components among pieces. -/
def componentsOf (pieces : List (Text × Bool)) : List Text := (pieces.filter (·.2)).map Prod.fst

/-- Pieces that follow on a first one. -/
def Follow (pieces : List (Text × Bool)) : Prop :=
  ∀ piece ∈ pieces, '/' ∉ piece.1 ∧ piece.2 = isInner piece.1

/-- Pieces that start with a component. -/
def Starts : List (Text × Bool) → Prop
  | [] => True
  | first :: rest => first.2 = true ∧ '/' ∉ first.1 ∧ Follow rest

theorem Starts.front {front : List (Text × Bool)} (h : Starts pieces) (hfront : front <+: pieces) :
    Starts front := by
  obtain ⟨back, rfl⟩ := hfront
  cases front with
  | nil => trivial
  | cons first rest =>
    obtain ⟨hfirst, hplain, hrest⟩ := h
    exact ⟨hfirst, hplain, fun piece hpiece => hrest piece (mem_append_left _ hpiece)⟩

theorem componentsOf_append (a b : List (Text × Bool)) :
    componentsOf (a ++ b) = componentsOf a ++ componentsOf b := by
  rw [componentsOf, filter_append, map_append]
  rfl

/-- Only pieces that are no components are cut off at the end. -/
theorem exists_trimPieces (pieces : List (Text × Bool)) :
    ∃ back, pieces = trimPieces pieces ++ back ∧ ∀ piece ∈ back, piece.2 = false := by
  refine ⟨(pieces.reverse.takeWhile (!·.2)).reverse, ?_, ?_⟩
  · rw [trimPieces, ← reverse_append, takeWhile_append_dropWhile, reverse_reverse]
  · intro piece hpiece
    have hall : (pieces.reverse.takeWhile (!·.2)).all (!·.2) = true := all_takeWhile
    simpa using all_eq_true.mp hall piece (mem_reverse.mp hpiece)

theorem componentsOf_trimPieces (pieces : List (Text × Bool)) :
    componentsOf (trimPieces pieces) = componentsOf pieces := by
  obtain ⟨back, hback, hnone⟩ := exists_trimPieces pieces
  have hempty : componentsOf back = [] := by
    rw [componentsOf, map_eq_nil_iff, filter_eq_nil_iff]
    intro piece hpiece
    rw [hnone piece hpiece]
    exact Bool.false_ne_true
  calc componentsOf (trimPieces pieces) = componentsOf (trimPieces pieces ++ back) := by
        rw [componentsOf_append, hempty, append_nil]
    _ = componentsOf pieces := by rw [← hback]

theorem isComponent_of_getLast?_trimPieces {piece : Text × Bool}
    (h : (trimPieces pieces).getLast? = some piece) : piece.2 = true := by
  rw [trimPieces, getLast?_reverse] at h
  have hhead := head?_dropWhile_not (fun piece : Text × Bool => !piece.2) pieces.reverse
  rw [h] at hhead
  simpa using hhead

/-- Texts between slashes, each with whether it is a component. -/
def flagged (isAbsolute : Bool) : List Text → List (Text × Bool)
  | [] => []
  | first :: rest => (first, !first.isEmpty || isAbsolute) :: rest.map fun piece => (piece, isInner piece)

theorem pieces_eq (p : Path) : p.pieces = flagged p.isAbsolute (p.text.split '/') := by
  obtain ⟨first, rest, h⟩ := exists_cons_of_ne_nil (split_ne_nil '/' p.text)
  rw [pieces, h]
  rfl

theorem exists_pieces (p : Path) : ∃ first rest, p.text.split '/' = first :: rest ∧
    p.pieces = (first, !first.isEmpty || p.isAbsolute) :: rest.map fun piece => (piece, isInner piece) := by
  obtain ⟨first, rest, h⟩ := exists_cons_of_ne_nil (split_ne_nil '/' p.text)
  refine ⟨first, rest, h, ?_⟩
  rw [pieces_eq, h]
  rfl

theorem follow_map {rest : List Text} (h : t.split '/' = first :: rest) :
    Follow (rest.map fun piece => (piece, isInner piece)) := by
  refine forall_mem_map.mpr fun text htext => ?_
  exact ⟨not_mem_of_mem_split _ (h ▸ mem_cons_of_mem _ htext), rfl⟩

theorem components_eq (p : Path) : p.components = componentsOf p.pieces := rfl

/-- Only the empty path does not start with a component. -/
theorem starts_pieces (h : p.components ≠ []) : Starts p.pieces := by
  obtain ⟨first, rest, hsplit, hpieces⟩ := exists_pieces p
  rw [components_eq] at h
  rw [hpieces] at h ⊢
  refine ⟨?_, not_mem_of_mem_split _ (hsplit ▸ mem_cons_self), follow_map hsplit⟩
  cases first with
  | cons c first => rfl
  | nil =>
    cases htext : p.text with
    | nil =>
      rw [htext] at hsplit
      cases hsplit
      have habsolute : p.isAbsolute = false := by rw [isAbsolute, htext]; rfl
      rw [habsolute] at h
      exact absurd rfl h
    | cons c t =>
      rw [htext] at hsplit
      obtain ⟨piece, pieces, ht⟩ := exists_cons_of_ne_nil (split_ne_nil '/' t)
      by_cases hc : c = '/'
      · simp [isAbsolute, htext, hc]
      · rw [split_cons_of_ne hc ht] at hsplit
        cases hsplit

theorem starts_trimPieces (p : Path) : Starts (trimPieces p.pieces) := by
  obtain ⟨back, hback, -⟩ := exists_trimPieces p.pieces
  by_cases h : p.components = []
  · have hlast : (trimPieces p.pieces).getLast? = none := by
      cases hlast : (trimPieces p.pieces).getLast? with
      | none => rfl
      | some piece =>
        have hmem : piece ∈ trimPieces p.pieces := mem_of_getLast? hlast
        have hcomponent := isComponent_of_getLast?_trimPieces hlast
        rw [components_eq, componentsOf, map_eq_nil_iff, filter_eq_nil_iff] at h
        exact absurd hcomponent (h piece (hback ▸ mem_append_left _ hmem))
    rw [getLast?_eq_none_iff.mp hlast]
    trivial
  · exact (starts_pieces h).front ⟨back, hback.symm⟩

theorem components_intercalate {rest : List (Text × Bool)} (hstart : (!first.isEmpty ||
      (⟨['/'].intercalate (first :: rest.map Prod.fst)⟩ : Path).isAbsolute) = true)
    (hfirst : '/' ∉ first) (hrest : Follow rest) :
    (⟨['/'].intercalate (first :: rest.map Prod.fst)⟩ : Path).components =
      componentsOf ((first, true) :: rest) := by
  have hsplit : split '/' (['/'].intercalate (first :: rest.map Prod.fst)) =
      first :: rest.map Prod.fst := by
    refine split_intercalate (cons_ne_nil _ _) (forall_mem_cons.mpr ⟨hfirst, ?_⟩)
    exact forall_mem_map.mpr fun piece hpiece => (hrest piece hpiece).1
  have hflags : (rest.map Prod.fst).map (fun piece => (piece, isInner piece)) = rest := by
    rw [map_map]
    refine (map_congr_left ?_).trans (List.map_id rest)
    intro piece hpiece
    exact Prod.ext rfl (hrest piece hpiece).2.symm
  obtain ⟨first', rest', hsplit', hpieces⟩ :=
    exists_pieces ⟨['/'].intercalate (first :: rest.map Prod.fst)⟩
  obtain ⟨rfl, rfl⟩ := List.cons.inj (hsplit'.symm.trans hsplit)
  rw [components_eq, hpieces, hstart, hflags]

/-- A path that is put together from pieces has their components. -/
theorem components_ofPieces (h : Starts pieces) :
    (ofPieces pieces).components = componentsOf pieces := by
  match pieces, h with
  | [], _ => rfl
  | [([], true)], _ => rfl
  | (c :: first, true) :: rest, ⟨_, hfirst, hrest⟩ =>
    exact components_intercalate rfl hfirst hrest
  | ([], true) :: next :: rest, ⟨_, hfirst, hrest⟩ =>
    refine components_intercalate ?_ hfirst hrest
    rfl

theorem exists_parent? (h : p.components.getLast? = some name) (hne : name ≠ []) :
    ∃ q, p.parent? = some q ∧ p.components = q.components ++ [name] := by
  have hcomponents := componentsOf_trimPieces p.pieces
  have hstarts := starts_trimPieces p
  rw [← components_eq] at hcomponents
  rcases eq_nil_or_concat (trimPieces p.pieces) with hnil | ⟨init, last, htrimmed⟩
  · rw [← hcomponents, hnil] at h
    cases h
  rw [concat_eq_append] at htrimmed
  have hend : (trimPieces p.pieces).getLast? = some last := by
    rw [htrimmed, getLast?_concat]
  have hlast := isComponent_of_getLast?_trimPieces hend
  have hsingle : componentsOf [last] = [last.1] := by
    rw [componentsOf, filter_cons_of_pos hlast]
    rfl
  rw [htrimmed] at hstarts
  rw [htrimmed, componentsOf_append, hsingle] at hcomponents
  rw [← hcomponents, getLast?_concat, Option.some.injEq] at h
  subst h
  obtain ⟨back, hback, -⟩ := exists_trimPieces init
  have hinit : Starts (trimPieces init) :=
    hstarts.front (.trans ⟨back, hback.symm⟩ (prefix_append init [last]))
  refine ⟨ofPieces (trimPieces init), ?_, ?_⟩
  · simp [parent?, htrimmed, hne]
  · rw [components_ofPieces hinit, componentsOf_trimPieces, ← hcomponents]

theorem exists_dropComponents (n : Nat) (pieces : List (Text × Bool)) :
    dropComponents n pieces <:+ pieces ∧
      componentsOf (dropComponents n pieces) = (componentsOf pieces).drop n := by
  fun_induction dropComponents n pieces with
  | case1 pieces => exact ⟨suffix_refl _, rfl⟩
  | case2 n => exact ⟨suffix_refl _, rfl⟩
  | case3 n text rest ih => exact ⟨ih.1.trans (suffix_cons _ _), ih.2⟩
  | case4 n text rest ih => exact ⟨ih.1.trans (suffix_cons _ _), ih.2⟩

theorem starts_dropWhile (h : Follow pieces) : Starts (pieces.dropWhile (!·.2)) := by
  have hsuffix := dropWhile_suffix (fun piece : Text × Bool => !piece.2) (l := pieces)
  have hhead := head?_dropWhile_not (fun piece : Text × Bool => !piece.2) pieces
  generalize pieces.dropWhile (!·.2) = found at hsuffix hhead
  cases found with
  | nil => trivial
  | cons first rest =>
    refine ⟨by simpa using hhead, (h first (hsuffix.subset mem_cons_self)).1, ?_⟩
    exact fun piece hpiece => h piece (hsuffix.subset (mem_cons_of_mem _ hpiece))

theorem componentsOf_dropWhile (pieces : List (Text × Bool)) :
    componentsOf (pieces.dropWhile (!·.2)) = componentsOf pieces := by
  induction pieces with
  | nil => rfl
  | cons piece pieces ih =>
    rcases piece with ⟨text, _ | _⟩
    · exact ih
    · rfl

/-- The path seen from a directory has the components behind those of the directory. -/
theorem components_of_relativeTo? (h : p.relativeTo? base = some rel) :
    p.components = base.components ++ rel.components := by
  simp only [relativeTo?] at h
  split at h
  · rename_i hbase
    obtain ⟨behind, hbehind⟩ := isPrefixOf_iff_prefix.mp hbase
    split at h
    · rename_i hcount
      cases h
      rw [length_eq_zero_iff.mp hcount, components_ofPieces (starts_trimPieces p),
        componentsOf_trimPieces]
      rfl
    · rename_i hcount
      cases h
      have hne : p.components ≠ [] := by
        intro hnil
        rw [← hbehind, append_eq_nil_iff] at hnil
        exact hcount (length_eq_zero_iff.mpr hnil.1)
      -- the first piece is a component, so that those that remain all follow on it
      have hfollow : Follow (dropComponents base.components.length p.pieces) := by
        have hstarts := starts_pieces hne
        obtain ⟨n, hn⟩ := Nat.exists_eq_succ_of_ne_zero hcount
        rw [hn]
        match p.pieces, hstarts with
        | [], _ => exact fun _ hpiece => by cases hpiece
        | (first, true) :: rest, ⟨_, _, hrest⟩ =>
          exact fun piece hpiece => hrest piece ((exists_dropComponents n rest).1.subset hpiece)
      obtain ⟨back, hback, -⟩ := exists_trimPieces
        ((dropComponents base.components.length p.pieces).dropWhile (!·.2))
      rw [components_ofPieces ((starts_dropWhile hfollow).front ⟨back, hback.symm⟩),
        componentsOf_trimPieces, componentsOf_dropWhile, (exists_dropComponents _ _).2,
        ← components_eq, ← hbehind, drop_left]
  · cases h

/-! ## Places of joined paths -/

theorem componentsOf_map_isInner (texts : List Text) :
    componentsOf (texts.map fun piece => (piece, isInner piece)) = texts.filter isInner := by
  induction texts with
  | nil => rfl
  | cons text texts ih =>
    cases h : isInner text with
    | true => simpa [componentsOf, h] using ih
    | false => simpa [componentsOf, h] using ih

theorem components_eq_flagged (p : Path) :
    p.components = componentsOf (flagged p.isAbsolute (p.text.split '/')) := by
  rw [components_eq, pieces_eq]

theorem componentsOf_flagged_append (isAbsolute : Bool) {a : List Text} (ha : a ≠ []) (b : List Text) :
    componentsOf (flagged isAbsolute (a ++ b)) =
      componentsOf (flagged isAbsolute a) ++ b.filter isInner := by
  obtain ⟨first, rest, rfl⟩ := exists_cons_of_ne_nil ha
  rw [cons_append, flagged, flagged, map_append, ← cons_append, componentsOf_append,
    componentsOf_map_isInner b]

/-- What stands behind a slash adds its components. -/
theorem components_append_slash (t further : Text) :
    (⟨t ++ '/' :: further⟩ : Path).components =
      (⟨t ++ ['/']⟩ : Path).components ++ (further.split '/').filter isInner := by
  have habsolute : (⟨t ++ '/' :: further⟩ : Path).isAbsolute = (⟨t ++ ['/']⟩ : Path).isAbsolute := by
    cases t <;> rfl
  have hne := split_ne_nil '/' t
  rw [components_eq_flagged, components_eq_flagged, habsolute, split_append_cons,
    split_append_cons, componentsOf_flagged_append _ hne, componentsOf_flagged_append _ hne]
  exact congrArg (· ++ _) (append_nil _).symm

theorem components_slash (h : t ≠ []) :
    (⟨t ++ ['/']⟩ : Path).components = (⟨t⟩ : Path).components := by
  have habsolute : (⟨t ++ ['/']⟩ : Path).isAbsolute = (⟨t⟩ : Path).isAbsolute := by
    cases t with
    | nil => exact absurd rfl h
    | cons c t => rfl
  rw [components_eq_flagged, components_eq_flagged, habsolute, split_append_cons,
    componentsOf_flagged_append _ (split_ne_nil '/' t)]
  exact append_nil _

/-- The components of a relative path are its inner pieces, and a point that may stand in front. -/
theorem components_of_relative (h : p.isAbsolute = false) :
    [] ∉ p.components ∧ p.components.filter isInner = (p.text.split '/').filter isInner := by
  obtain ⟨first, rest, hsplit, hpieces⟩ := exists_pieces p
  have hrest := componentsOf_map_isInner rest
  have hnone : [] ∉ rest.filter isInner := by simp [isInner]
  rw [components_eq, hpieces, h, hsplit, Bool.or_false, componentsOf]
  by_cases hempty : first = []
  · have hfirst : isInner first = false := by simp [isInner, hempty]
    rw [filter_cons_of_neg (by simp [hempty]), ← componentsOf, hrest,
      filter_cons_of_neg (by simp [hfirst])]
    exact ⟨hnone, by simp⟩
  · rw [filter_cons_of_pos (by simp [hempty]), map_cons, ← componentsOf, hrest]
    refine ⟨?_, by simp [filter_cons]⟩
    intro hmem
    rcases mem_cons.mp hmem with heq | hmem
    · exact hempty heq.symm
    · exact hnone hmem

theorem foldl_enter_filter {names : List Text} (h : [] ∉ names) (above : FilePlace) :
    (names.filter isInner).foldl enter above = names.foldl enter above := by
  induction names generalizing above with
  | nil => rfl
  | cons name names ih =>
    obtain ⟨hname, hnames⟩ := not_or.mp (fun hmem => h (mem_cons.mpr hmem))
    by_cases hpoint : name = ['.']
    · rw [hpoint, filter_cons_of_neg (by decide), ih hnames]
      rfl
    · rw [filter_cons_of_pos (by simp [isInner, Ne.symm hname, hpoint])]
      exact ih hnames _

/-- The components of a path that is joined to another one. -/
theorem components_join (hbase : base.text ≠ []) (h : further.head? ≠ some '/') :
    (base.join further).components = base.components ++ (further.split '/').filter isInner := by
  by_cases hlast : base.text.getLast? = some '/'
  · obtain ⟨t, ht⟩ := getLast?_eq_some_iff.mp hlast
    have hjoin : base.join further = ⟨t ++ '/' :: further⟩ := by
      simp [join, h, hbase, hlast]
      simp [ht]
    have heq : base = ⟨t ++ ['/']⟩ := congrArg Path.mk ht
    rw [hjoin, components_append_slash, ← heq]
  · have hjoin : base.join further = ⟨base.text ++ '/' :: further⟩ := by
      simp [join, h, hbase, hlast]
    rw [hjoin, components_append_slash, components_slash hbase]

/-- A path that is joined to another one leads on from where that one leads. -/
theorem place_join (base : Path) (h : further.head? ≠ some '/') :
    (base.join further).place = (⟨further⟩ : Path).components.foldl enter base.place := by
  obtain ⟨hnone, hinner⟩ := components_of_relative (p := ⟨further⟩) (by simpa [isAbsolute] using h)
  by_cases hempty : base.text = []
  · have hbase : base = ⟨[]⟩ := congrArg Path.mk hempty
    have hjoin : base.join further = ⟨further⟩ := by simp [join, hempty]
    rw [hjoin, hbase]
    rfl
  · rw [place, components_join hempty h, foldl_append, ← hinner, foldl_enter_filter hnone]
    rfl

theorem components_name (h : IsName name) : (⟨name⟩ : Path).components = [name] := by
  have hhead : name.head? ≠ some '/' := fun hhead => h.plain (mem_of_mem_head? hhead)
  have hsplit : (⟨name⟩ : Path).text.split '/' = [name] := split_of_not_mem h.plain
  have habsolute : (⟨name⟩ : Path).isAbsolute = false := by simpa [isAbsolute] using hhead
  rw [components_eq_flagged, hsplit, flagged, habsolute]
  simp [componentsOf, h.nonempty]

theorem place_join_name (base : Path) (h : IsName name) :
    (base.join name).place = name :: base.place := by
  have hhead : name.head? ≠ some '/' := fun hhead => h.plain (mem_of_mem_head? hhead)
  rw [place_join base hhead, components_name h]
  exact enter_of_isName h base.place

theorem fileName?_join_name (base : Path) (h : IsName name) :
    (base.join name).fileName? = some name := by
  have hhead : name.head? ≠ some '/' := fun hhead => h.plain (mem_of_mem_head? hhead)
  have hlast : (base.join name).components.getLast? = some name := by
    by_cases hbase : base.text = []
    · have hjoin : base.join name = ⟨name⟩ := by simp [join, hbase]
      rw [hjoin, components_name h]
      rfl
    · rw [components_join hbase hhead, split_of_not_mem h.plain]
      simp [isInner, h.nonempty, h.notHere]
  rw [fileName?, hlast]
  simp [h.nonempty, h.notHere, h.notAbove]

/-- A path that is seen from a directory leads from there to its old place. -/
theorem place_join_of_relativeTo? (h : p.relativeTo? base = some rel) (hrel : rel.isAbsolute = false) :
    (base.join rel.text).place = p.place := by
  have hhead : rel.text.head? ≠ some '/' := by simpa [isAbsolute] using hrel
  rw [place_join base hhead, place, place, components_of_relativeTo? h, foldl_append]

/-- The file name is the last name on the way to a file, behind its directory. -/
theorem exists_place_of_fileName? (h : p.fileName? = some name) :
    IsName name ∧ ∃ q, p.parent? = some q ∧ p.place = name :: q.place := by
  rw [fileName?] at h
  split at h
  · rename_i last hlast
    split at h
    · cases h
    rename_i hproper
    cases h
    simp only [Bool.or_eq_true, not_or, List.isEmpty_iff, beq_iff_eq] at hproper
    obtain ⟨⟨hempty, hpoint⟩, hpoints⟩ := hproper
    have hplain : '/' ∉ name := by
      have hmem : name ∈ p.components := mem_of_getLast? hlast
      obtain ⟨piece, hpiece, rfl⟩ := mem_map.mp hmem
      have hpiece : piece ∈ p.pieces := (mem_filter.mp hpiece).1
      have hstarts := starts_pieces (ne_nil_of_mem hmem)
      match p.pieces, hstarts, hpiece with
      | first :: rest, ⟨_, hfirst, hrest⟩, hpiece =>
        rcases mem_cons.mp hpiece with rfl | hpiece
        · exact hfirst
        · exact (hrest piece hpiece).1
    have hname : IsName name := ⟨hempty, hpoint, hpoints, hplain⟩
    obtain ⟨q, hq, hcomponents⟩ := exists_parent? hlast hempty
    refine ⟨hname, q, hq, ?_⟩
    rw [place, hcomponents, foldl_append]
    exact enter_of_isName hname _
  · cases h

/-! ## Paths under a directory -/

/-- A path leads along `rel` to something under a directory, and not out of it again. -/
structure Under (p base rel : Path) : Prop where
  relative : p.relativeTo? base = some rel
  notAbsolute : rel.isAbsolute = false
  notUp : ['.', '.'] ∉ rel.components

/-- A path leads to something under a directory. -/
def LiesUnder (p base : Path) : Prop := ∃ rel, Under p base rel

/-- A path under a directory adds its names to the place from where it starts. -/
theorem Under.place_join (h : Under p base rel) (directory : Path) :
    (directory.join rel.text).place = (rel.components.filter isInner).reverse ++ directory.place := by
  obtain ⟨hnone, -⟩ := components_of_relative h.notAbsolute
  have hhead : rel.text.head? ≠ some '/' := by simpa [isAbsolute] using h.notAbsolute
  rw [Path.place_join directory hhead, ← foldl_enter_filter hnone]
  have hnames : ∀ name ∈ rel.components.filter isInner, name ≠ [] ∧ name ≠ ['.'] ∧ name ≠ ['.', '.'] := by
    intro name hname
    obtain ⟨hmem, hinner⟩ := mem_filter.mp hname
    obtain ⟨hempty, hpoint⟩ : name ≠ [] ∧ name ≠ ['.'] := by simpa [isInner] using hinner
    exact ⟨hempty, hpoint, fun heq => h.notUp (heq ▸ hmem)⟩
  generalize rel.components.filter isInner = names at hnames
  generalize directory.place = above
  induction names generalizing above with
  | nil => rfl
  | cons name names ih =>
    obtain ⟨⟨hempty, hpoint, hpoints⟩, hnames⟩ := forall_mem_cons.mp hnames
    rw [foldl_cons, ih hnames, reverse_cons, append_assoc]
    simp only [enter, hempty, hpoint, hpoints, if_false]
    rfl

theorem Under.place_join_base (h : Under p base rel) : (base.join rel.text).place = p.place :=
  place_join_of_relativeTo? h.relative h.notAbsolute

/-- Two files under a directory stand apart also in another directory. -/
theorem Under.place_eq {rel' : Path} (h : Under p base rel) (h' : Under p' base rel')
    (directory : Path) (heq : (directory.join rel.text).place = (directory.join rel'.text).place) :
    p.place = p'.place := by
  rw [h.place_join, h'.place_join] at heq
  rw [← h.place_join_base, ← h'.place_join_base, h.place_join, h'.place_join,
    append_cancel_right heq]

/-- Every name on the way to a place is a component of the path. -/
theorem mem_components_of_mem_place (h : name ∈ p.place) : name ∈ p.components := by
  have hstep (above : FilePlace) (last : Text) (hname : name ∈ enter above last) :
      name ∈ above ∨ name = last := by
    simp only [enter] at hname
    grind
  have hfold (names : List Text) (above : FilePlace) (hname : name ∈ names.foldl enter above) :
      name ∈ above ∨ name ∈ names := by
    induction names generalizing above with
    | nil => exact .inl hname
    | cons last names ih =>
      rcases ih _ hname with hname | hname
      · rcases hstep above last hname with hname | rfl
        · exact .inl hname
        · exact .inr mem_cons_self
      · exact .inr (mem_cons_of_mem _ hname)
  rcases hfold p.components [] h with hnil | hmem
  · cases hnil
  · exact hmem

/-- A file keeps its name when it is seen from a directory. -/
theorem Under.fileName?_join (h : Under p base rel) (hname : p.fileName? = some name) :
    (base.join rel.text).fileName? = some name := by
  have hcomponents := components_of_relativeTo? h.relative
  obtain ⟨⟨hempty, hpoint, -, -⟩, -⟩ := exists_place_of_fileName? hname
  have hlast : (base.join rel.text).components.getLast? = p.components.getLast? := by
    by_cases hbase : base.text = []
    · have hnil : base = ⟨[]⟩ := congrArg Path.mk hbase
      have hjoin : base.join rel.text = rel := by simp [join, hbase]
      rw [hjoin, hcomponents, hnil]
      rfl
    · have hp : p.components.getLast? = some name := by
        rw [fileName?] at hname
        grind
      obtain ⟨-, hinner⟩ := components_of_relative h.notAbsolute
      have hhead : rel.text.head? ≠ some '/' := by simpa [isAbsolute] using h.notAbsolute
      rw [components_join hbase hhead, ← hinner, hcomponents]
      rw [hcomponents] at hp
      rcases eq_nil_or_concat rel.components with hnil | ⟨before, last, hsplit⟩
      · rw [hnil]
        rfl
      · rw [concat_eq_append] at hsplit
        rw [hsplit, ← append_assoc, getLast?_concat, Option.some.injEq] at hp
        have hlast : isInner last = true := by simp [isInner, hp, hempty, hpoint]
        rw [hsplit, filter_append, filter_cons_of_pos hlast]
        simp
  rw [fileName?, hlast, ← fileName?, hname]

/-! ## Prepared files -/

/-- The name of the file in which the new content of a file is prepared. -/
def preparedName (name purpose : Text) : Text := .concat [".", name, ".", purpose, ".tmp"]

theorem extension_preparedName (name purpose : Text) :
    (stemAndExtension (preparedName name purpose)).2 = some "tmp".toList := by
  have hname : (preparedName name purpose).reverse =
      'p' :: 'm' :: 't' :: '.' :: (purpose.reverse ++ '.' :: (name.reverse ++ ['.'])) := by
    simp [preparedName, Text.concat]
  simp [stemAndExtension, hname, splitFirst?]

theorem isName_preparedName (hname : '/' ∉ name) (hpurpose : '/' ∉ purpose) :
    IsName (preparedName name purpose) := by
  have hlength : 6 ≤ (preparedName name purpose).length := by
    simp only [preparedName, Text.concat, flatten_cons, flatten_nil, length_append]
    simp +arith
  refine ⟨?_, ?_, ?_, by simp [preparedName, Text.concat, hname, hpurpose]⟩
  all_goals
    intro heq
    rw [heq] at hlength
    simp at hlength

/-- A file is prepared beside the file that it is to replace. -/
theorem place_preparedPath {q : Path} (hname : p.fileName? = some name) (hq : p.parent? = some q)
    (hpurpose : '/' ∉ purpose) :
    (Disk.preparedPath p purpose).place = preparedName name purpose :: q.place := by
  obtain ⟨hisName, -⟩ := exists_place_of_fileName? hname
  rw [Disk.preparedPath, hname, hq]
  exact place_join_name q (isName_preparedName hisName.plain hpurpose)

/-- It does not matter on which path a file is reached. -/
theorem place_preparedPath_congr (hname : p.fileName? = some name)
    (hname' : p'.fileName? = some name) (hplace : p.place = p'.place) (hpurpose : '/' ∉ purpose) :
    (Disk.preparedPath p purpose).place = (Disk.preparedPath p' purpose).place := by
  obtain ⟨-, q, hq, hp⟩ := exists_place_of_fileName? hname
  obtain ⟨-, q', hq', hp'⟩ := exists_place_of_fileName? hname'
  rw [hp, hp'] at hplace
  rw [place_preparedPath hname hq hpurpose, place_preparedPath hname' hq' hpurpose,
    (List.cons.inj hplace).2]

end Path

end VbaRefactor
