import Mathlib.Data.List.Forall2
import VbaRefactor.Syntax.Argument

/-!
# Parts between commas

Signatures are cut at commas by `splitAtCommas`, argument lists by `argumentsFrom`, which walks over
indices. Both find the same commas: those at depth zero, where the depth is counted from the first
token and a closing parenthesis does not take it below zero.
-/

namespace VbaRefactor

open List

variable {depth : Nat} {part s : Statement}

namespace Statement

/-- The depth of parentheses after tokens. -/
def depthOf (depth : Nat) (s : Statement) : Nat := s.foldl depthAfter depth

section

variable {t : Token}

theorem splitAtCommas_ne_nil (depth : Nat) (s : Statement) : splitAtCommas depth s ≠ [] := by
  cases s with
  | nil => exact cons_ne_nil _ _
  | cons t s =>
    rw [splitAtCommas]
    split
    · exact cons_ne_nil _ _
    · cases splitAtCommas (depthAfter depth t) s <;> exact cons_ne_nil _ _

/-- A token that is no comma at depth zero stands at the front of the first part. -/
theorem splitAtCommas_cons (ht : ¬ (depth = 0 ∧ t.isPunct "," = true)) :
    ∃ first more, splitAtCommas (depthAfter depth t) s = first :: more ∧
      splitAtCommas depth (t :: s) = (t :: first) :: more := by
  obtain ⟨first, more, h⟩ := exists_cons_of_ne_nil (splitAtCommas_ne_nil (depthAfter depth t) s)
  refine ⟨first, more, h, ?_⟩
  rw [splitAtCommas, if_neg ht, h]
  rfl

/-- What it means for a first token that no comma parts the tokens. -/
theorem splitAtCommas_cons_eq_singleton :
    splitAtCommas depth (t :: s) = [t :: s] ↔
      ¬ (depth = 0 ∧ t.isPunct "," = true) ∧ splitAtCommas (depthAfter depth t) s = [s] := by
  by_cases ht : depth = 0 ∧ t.isPunct "," = true
  · rw [splitAtCommas, if_pos ht]
    exact iff_of_false (by simp) fun h => h.1 ht
  · obtain ⟨first, more, hparts, hcons⟩ := splitAtCommas_cons (s := s) ht
    rw [hparts, hcons, and_iff_right ht]
    simp [cons.injEq]

/-- The first part is not parted once more. It is all there is, or its parentheses are closed, a comma
follows, and the other parts are those behind the comma. -/
theorem first_part {first : Statement} {more : List Statement}
    (h : splitAtCommas depth s = first :: more) :
    splitAtCommas depth first = [first] ∧
      (more = [] ∧ s = first ∨ ∃ comma rest, s = first ++ comma :: rest ∧
        comma.isPunct "," = true ∧ depthOf depth first = 0 ∧ splitAtCommas 0 rest = more) := by
  induction s generalizing depth first with
  | nil =>
    cases h
    exact ⟨rfl, .inl ⟨rfl, rfl⟩⟩
  | cons t s ih =>
    by_cases ht : depth = 0 ∧ t.isPunct "," = true
    · rw [splitAtCommas, if_pos ht] at h
      cases h
      exact ⟨rfl, .inr ⟨t, s, rfl, ht.2, ht.1, rfl⟩⟩
    · obtain ⟨next, others, hparts, hcons⟩ := splitAtCommas_cons (s := s) ht
      rw [hcons] at h
      cases h
      obtain ⟨hwhole, hrest⟩ := ih hparts
      refine ⟨splitAtCommas_cons_eq_singleton.mpr ⟨ht, hwhole⟩, hrest.imp ?_ ?_⟩
      · rintro ⟨hnil, rfl⟩
        exact ⟨hnil, rfl⟩
      · rintro ⟨comma, rest, rfl, hcomma, hdepth, hmore⟩
        exact ⟨comma, rest, rfl, hcomma, hdepth, hmore⟩

/-- A part and what stands behind the comma after it. -/
theorem splitAtCommas_append {rest : Statement} {comma : Token} (hcomma : comma.isPunct "," = true)
    (hpart : splitAtCommas depth part = [part]) (hdepth : depthOf depth part = 0) :
    splitAtCommas depth (part ++ comma :: rest) = part :: splitAtCommas 0 rest := by
  induction part generalizing depth with
  | nil =>
    have hzero : depth = 0 := hdepth
    rw [nil_append, splitAtCommas, if_pos ⟨hzero, hcomma⟩]
  | cons t part ih =>
    obtain ⟨hfirst, hpart⟩ := splitAtCommas_cons_eq_singleton.mp hpart
    rw [cons_append, splitAtCommas, if_neg hfirst, ih hpart hdepth]
    rfl

/-- No comma parts the parts once more, and the parentheses of all but the last one are closed. -/
theorem parts_of_splitAtCommas (s : Statement) :
    (∀ part ∈ splitAtCommas 0 s, splitAtCommas 0 part = [part]) ∧
      (splitAtCommas 0 s).Pairwise fun part _ => depthOf 0 part = 0 := by
  induction hparts : splitAtCommas 0 s generalizing s with
  | nil => exact absurd hparts (splitAtCommas_ne_nil 0 s)
  | cons first more ih =>
    obtain ⟨hwhole, ⟨rfl, -⟩ | ⟨comma, rest, -, -, hdepth, hmore⟩⟩ := first_part hparts
    · exact ⟨forall_mem_singleton.mpr hwhole, pairwise_singleton _ _⟩
    · obtain ⟨hall, hpairs⟩ := ih rest hmore
      exact ⟨forall_mem_cons.mpr ⟨hwhole, hall⟩, pairwise_cons.mpr ⟨fun _ _ => hdepth, hpairs⟩⟩

/-- A part stands between the ends and commas. -/
theorem exists_of_splitAtCommas {front back : List Statement}
    (h : splitAtCommas depth s = front ++ part :: back) :
    ∃ before after, s = before ++ part ++ after ∧ ∀ t ∈ after.head?, t.isPunct "," = true := by
  induction front generalizing depth s with
  | nil =>
    rcases (first_part h).2 with ⟨-, rfl⟩ | ⟨comma, rest, rfl, hcomma, -⟩
    · exact ⟨[], [], by simp, nofun⟩
    · exact ⟨[], comma :: rest, rfl, by rintro _ ⟨⟩; exact hcomma⟩
  | cons first front ih =>
    rcases (first_part h).2 with ⟨hnil, -⟩ | ⟨comma, rest, rfl, -, -, hrest⟩
    · cases append_eq_nil_iff.mp hnil
      contradiction
    · obtain ⟨before, after, rfl, hafter⟩ := ih hrest
      exact ⟨first ++ comma :: before, after, by simp, hafter⟩

theorem sublist_of_mem_splitAtCommas {piece : Statement} (hpiece : piece ∈ splitAtCommas depth s) :
    piece.Sublist s := by
  obtain ⟨front, back, h⟩ := append_of_mem hpiece
  obtain ⟨before, after, rfl, -⟩ := exists_of_splitAtCommas h
  exact (sublist_append_right _ _).trans (sublist_append_left _ _)

/-- A comma inside a part does not stand at depth zero. -/
theorem depthOf_ne_zero {before after : Statement}
    (h : splitAtCommas depth (before ++ t :: after) = [before ++ t :: after])
    (ht : t.isPunct "," = true) : depthOf depth before ≠ 0 := by
  induction before generalizing depth with
  | nil =>
    intro hzero
    exact (splitAtCommas_cons_eq_singleton.mp h).1 ⟨hzero, ht⟩
  | cons x before ih => exact ih (splitAtCommas_cons_eq_singleton.mp h).2

theorem depthOf_append (depth : Nat) (s s' : Statement) :
    depthOf depth (s ++ s') = depthOf (depthOf depth s) s' := foldl_append

theorem depthAfter_comma (ht : t.isPunct "," = true) : depthAfter depth t = depth := by
  have htext : t.text = [','] := by simpa [Token.isPunct] using (Bool.and_eq_true_iff.mp ht).2
  simp [depthAfter, Token.isPunct, htext]

end

/-! ## Commas between parts -/

/-- Behind the tokens `seen` no comma of the part stands at depth zero. -/
def Unparted (seen part : Statement) : Prop :=
  ∀ before t after, part = before ++ t :: after → t.isPunct "," = true →
    depthOf 0 (seen ++ before) ≠ 0

/-- Behind the tokens `seen` the tokens are these parts with a comma between any two; the commas
between the parts stand at depth zero, and none inside a part does. -/
inductive Parted : Statement → Statement → List Statement → Prop where
  | last {seen part : Statement} (hpart : Unparted seen part) : Parted seen part [part]
  | comma {seen part rest : Statement} {t : Token} {more : List Statement}
    (hpart : Unparted seen part) (ht : t.isPunct "," = true) (hdepth : depthOf 0 (seen ++ part) = 0)
    (hmore : Parted (seen ++ part ++ [t]) rest more) : Parted seen (part ++ t :: rest) (part :: more)

theorem parted_splitAtCommas (seen s : Statement) :
    Parted seen s (splitAtCommas (depthOf 0 seen) s) := by
  induction hparts : splitAtCommas (depthOf 0 seen) s generalizing seen s with
  | nil => exact absurd hparts (splitAtCommas_ne_nil _ s)
  | cons first more ih =>
    obtain ⟨hwhole, hrest⟩ := first_part hparts
    have hpart : Unparted seen first := by
      rintro before t after rfl ht
      rw [depthOf_append]
      exact depthOf_ne_zero hwhole ht
    rcases hrest with ⟨rfl, rfl⟩ | ⟨t, rest, rfl, ht, hdepth, rfl⟩
    · exact .last hpart
    · rw [← depthOf_append] at hdepth
      refine .comma hpart ht hdepth (ih _ rest ?_)
      rw [depthOf_append, hdepth]
      exact congrArg (splitAtCommas · rest) (depthAfter_comma ht)

/-! ## Slots and parts -/

/-- The slot is that of the part: it is missing where the part is empty, and covers it otherwise. -/
def SlotOf (a : Argument) (part : Statement) : Prop :=
  (a.kind = .missing ↔ part = []) ∧ (part ≠ [] → part.cover? = some a.span)

/-- Parts with more tokens in front of the first. -/
def putFirst (front : Statement) : List Statement → List Statement
  | [] => [front]
  | first :: more => (front ++ first) :: more

section

variable {start stop missingAt i : Nat}

theorem drop_take_succ (hstart : start ≤ i) (hi : i < s.length) :
    (s.take (i + 1)).drop start = (s.take i).drop start ++ [s[i]] := by
  rw [take_succ_eq_append_getElem hi, drop_append_of_le_length (by simp; omega)]

theorem drop_take_eq_cons (hi : i < stop) (hstop : stop ≤ s.length) :
    (s.take stop).drop i = s[i] :: (s.take stop).drop (i + 1) := by
  rw [drop_eq_getElem_cons (by simp; omega), getElem_take]

theorem slotOf_argument (hstart : start ≤ stop) (hstop : stop ≤ s.length) :
    SlotOf (s.argument start stop missingAt) ((s.take stop).drop start) := by
  by_cases hlt : start < stop
  · have hne : (s.take stop).drop start ≠ [] := by simp; omega
    have hfirst : ((s.take stop).drop start).head? = some s[start] := by
      rw [drop_take_eq_cons hlt hstop, head?_cons]
    have hlast : ((s.take stop).drop start).getLast? = some s[stop - 1] := by
      obtain ⟨n, rfl⟩ : ∃ n, stop = n + 1 := ⟨stop - 1, by omega⟩
      rw [drop_take_succ (by omega) (by omega), getLast?_concat]
      rfl
    rw [argument, if_pos hlt]
    refine ⟨iff_of_false ?_ hne, fun _ => ?_⟩
    · simp only
      split <;> simp
    · rw [cover?, hfirst, hlast, spanAt, spanAt, getElem?_eq_getElem (by omega),
        getElem?_eq_getElem (by omega)]
      rfl
  · have hnil : (s.take stop).drop start = [] := by simp; omega
    rw [argument, if_neg hlt, hnil]
    exact ⟨iff_of_true rfl rfl, fun hne => absurd rfl hne⟩

theorem isPunct_eq (hi : i < s.length) (mark : Text) : s.isPunct i mark = s[i].isPunct mark := by
  rw [isPunct, getElem?_eq_getElem hi, Option.any_some]

/-- The walk over the indices cuts the tokens from the start of the current argument on into the parts
between commas. -/
theorem slotOf_argumentsFrom {piece : Nat} (hpiece : piece ≤ i) (hi : i ≤ stop)
    (hstop : stop ≤ s.length) :
    Forall₂ SlotOf (s.argumentsFrom stop missingAt piece depth i)
      (putFirst ((s.take i).drop piece) (splitAtCommas depth ((s.take stop).drop i))) := by
  fun_induction argumentsFrom s stop missingAt piece depth i with
  | case1 piece depth i hlt hcomma ih =>
    rw [isPunct_eq (by omega)] at hcomma
    rw [drop_take_eq_cons hlt hstop, splitAtCommas, if_pos hcomma, putFirst, append_nil]
    refine .cons (slotOf_argument hpiece (by omega)) ?_
    obtain ⟨first, more, hparts⟩ :=
      exists_cons_of_ne_nil (splitAtCommas_ne_nil 0 ((s.take stop).drop (i + 1)))
    have hrest := ih (Nat.le_refl _) (by omega)
    rw [hparts] at hrest ⊢
    simpa [putFirst] using hrest
  | case2 piece depth i hlt hcomma next ih =>
    have hnext : next = depthAfter depth s[i] := by
      simp only [next, depthAfter, isPunct_eq (show i < s.length by omega), dite_eq_ite]
    rw [isPunct_eq (by omega)] at hcomma
    obtain ⟨first, more, hparts, hcons⟩ :=
      splitAtCommas_cons (s := (s.take stop).drop (i + 1)) hcomma
    have hrest := ih (by omega) (by omega)
    rw [hnext, hparts, drop_take_succ hpiece (by omega)] at hrest
    rw [drop_take_eq_cons hlt hstop, hcons]
    simpa [putFirst, hnext] using hrest
  | case3 piece depth i hge =>
    obtain rfl : i = stop := by omega
    have hnil : (s.take i).drop i = [] := by simp
    rw [hnil, splitAtCommas, putFirst, append_nil]
    exact .cons (slotOf_argument hpiece hstop) .nil

end

/-- The slots of an argument list are those of the parts that a signature of the same tokens has, one
for each in order, and the parts with the commas between them are the tokens. -/
theorem arguments_agree_with_parts (s : Statement) (start stop : Nat) (list : ArgumentList)
    (hlt : start < stop) (hstop : stop ≤ s.length)
    (hlist : list = s.innerArguments start stop ∨ list = s.bareArguments start stop) :
    Forall₂ SlotOf list.arguments (splitAtCommas 0 ((s.take stop).drop start)) ∧
      Parted [] ((s.take stop).drop start) (splitAtCommas 0 ((s.take stop).drop start)) := by
  refine ⟨?_, parted_splitAtCommas [] _⟩
  have hslots (missingAt : Nat) : Forall₂ SlotOf (s.slots start stop missingAt)
      (splitAtCommas 0 ((s.take stop).drop start)) := by
    have hall : Forall₂ SlotOf (s.argumentsFrom stop missingAt start 0 start) _ :=
      slotOf_argumentsFrom (Nat.le_refl start) (Nat.le_of_lt hlt) hstop
    obtain ⟨first, more, hparts⟩ :=
      exists_cons_of_ne_nil (splitAtCommas_ne_nil 0 ((s.take stop).drop start))
    rw [hparts] at hall ⊢
    rw [slots, if_pos hlt]
    simpa [putFirst] using hall
  rcases hlist with rfl | rfl
  · exact hslots _
  · exact hslots _

/-- A call with a closing parenthesis too many, an argument left out and one that is not closed. -/
def unbalancedCall : Statement := (ofTokens (tokenize "Foo (a), b), , (c, d")).headD []

theorem arguments_agree_with_parts_unbalanced :
    1 < unbalancedCall.length ∧
      (unbalancedCall.bareArguments 1 unbalancedCall.length).arguments.map Argument.kind =
        [.positional, .positional, .missing, .positional] ∧
      Forall₂ SlotOf (unbalancedCall.bareArguments 1 unbalancedCall.length).arguments
        (splitAtCommas 0 ((unbalancedCall.take unbalancedCall.length).drop 1)) := by
  have hlt : 1 < unbalancedCall.length := by decide +kernel
  exact ⟨hlt, by decide +kernel,
    (arguments_agree_with_parts _ 1 _ _ hlt (Nat.le_refl _) (.inr rfl)).1⟩

end Statement

end VbaRefactor
