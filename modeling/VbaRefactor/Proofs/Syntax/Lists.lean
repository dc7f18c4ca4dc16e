import VbaRefactor.Syntax.Mention
import VbaRefactor.Syntax.Outline
import VbaRefactor.Proofs.Syntax.Commas
import VbaRefactor.Proofs.Syntax.Tokens

/-!
# Lists in statements

The list of parameters of a signature and the arguments of a call are runs of tokens between commas.
Their spans lie one after another inside the list, and a text can be cut at all their ends.
-/

namespace VbaRefactor

open List

variable {s : Statement} {text : Text}

/-- The argument lies between two positions, and it is missing if nothing stands there. -/
structure Argument.Between (text : Text) (low high : Nat) (a : Argument) : Prop where
  slot : text.Slot a.span
  low : low ≤ a.span.start
  high : a.span.stop ≤ high
  missing : a.kind = .missing ↔ a.span.start = a.span.stop

/-- The arguments of a list are marked in a text, and the missing ones are those of width zero. -/
structure ArgumentList.MarkedIn (text : Text) (list : ArgumentList) : Prop where
  marked : text.Marked list.extent (list.arguments.map Argument.span)
  missing : ∀ a ∈ list.arguments, (a.kind = .missing ↔ a.span.start = a.span.stop)

namespace Statement

namespace StandsIn

variable {t : Token}

/-- What reaches from a cut to the end of a token has no line break before its end. -/
theorem noBreak (h : s.StandsIn text) (ht : t ∈ s) {pos : Nat} (hpos : text.IsCut pos)
    (hle : pos ≤ t.start) : (text.slice ⟨pos, t.stop⟩).endsWithNewline = false := by
  have hslice : text.slice ⟨t.start, t.stop⟩ = t.text := (h.hasAt t ht).slice_eq
  have hlt := h.lt ht
  rw [← Text.slice_add hpos.isBoundary (h.isCut_start ht).isBoundary (h.isCut_stop ht).isBoundary hle
    (by omega), hslice, Text.endsWithNewline_append, if_neg (h.given t ht), Text.endsWithNewline]
  rw [beq_eq_false_iff_ne]
  intro hlast
  have hc := h.oneLine t ht _ (mem_of_getLast? hlast)
  cases hc

theorem ended (h : s.StandsIn text) (ht : t ∈ s) (hstop : t.stop = text.byteSize) :
    text.endsWithNewline = false := by
  have hall : text.slice ⟨0, t.stop⟩ = text := by
    have := (Text.hasAt_zero text).slice_eq
    rwa [Nat.zero_add, ← hstop] at this
  rw [← hall]
  exact h.noBreak ht (Text.isCut_zero text) (Nat.zero_le _)

theorem slot (h : s.StandsIn text) {first last : Token} (hfirst : first ∈ s) (hlast : last ∈ s)
    (hle : first.start ≤ last.start) :
    text.Slot ⟨first.start, last.stop⟩ ∧ first.start < last.stop := by
  have hlt := h.lt hlast
  exact ⟨⟨by show first.start ≤ last.stop; omega, h.isCut_start hfirst, h.isCut_stop hlast,
    h.noBreak hlast (h.isCut_start hfirst) hle⟩, by omega⟩

section

variable {a b : Token} {i j : Nat} (h : s.StandsIn text) (ha : s[i]? = some a) (hb : s[j]? = some b)

include h ha hb

theorem stop_le (hlt : i < j) : a.stop ≤ b.start := by
  obtain ⟨hi, rfl⟩ := List.getElem?_eq_some_iff.mp ha
  obtain ⟨hj, rfl⟩ := List.getElem?_eq_some_iff.mp hb
  exact pairwise_iff_getElem.mp h.ordered i j hi hj hlt

theorem le_of_index_le (hle : i ≤ j) : a.start ≤ b.start ∧ a.stop ≤ b.stop := by
  rcases Nat.lt_or_eq_of_le hle with hlt | rfl
  · have hab := h.stop_le ha hb hlt
    have := h.lt (mem_of_getElem? ha)
    have := h.lt (mem_of_getElem? hb)
    omega
  · cases ha.symm.trans hb
    omega

theorem cover_spanAt (hle : i ≤ j) : (s.spanAt i).cover (s.spanAt j) = ⟨a.start, b.stop⟩ := by
  obtain ⟨hstart, hstop⟩ := h.le_of_index_le ha hb hle
  simp [spanAt, ha, hb, Token.span, Span.cover, Nat.min_eq_left hstart, Nat.max_eq_right hstop]

end

end StandsIn

/-! ## Arguments -/

section

variable {stop missingAt piece i low high : Nat} {found : Signature} {list : ParameterList}
  {nameAt start : Nat}

theorem between_argument (h : s.StandsIn text) (hstop : stop ≤ s.length) (hcut : text.IsCut missingAt)
    (hmissing : low ≤ missingAt ∧ missingAt ≤ high)
    (hlow : ∀ j t, piece ≤ j → s[j]? = some t → low ≤ t.start)
    (hhigh : ∀ j t, j < stop → s[j]? = some t → t.stop ≤ high) :
    (s.argument piece stop missingAt).Between text low high := by
  rw [argument]
  split
  · rename_i hlt
    have hfirst : s[piece]? = some s[piece] := getElem?_eq_getElem (by omega)
    have hlast : s[stop - 1]? = some s[stop - 1] := getElem?_eq_getElem (by omega)
    have hspan := h.cover_spanAt hfirst hlast (by omega)
    obtain ⟨hslot, hsome⟩ := h.slot (mem_of_getElem? hfirst) (mem_of_getElem? hlast)
      (h.le_of_index_le hfirst hlast (by omega)).1
    rw [hspan]
    refine ⟨hslot, hlow piece _ (Nat.le_refl _) hfirst, hhigh (stop - 1) _ (by omega) hlast,
      iff_of_false ?_ (Nat.ne_of_lt hsome)⟩
    dsimp only
    split <;> intro hnone <;> cases hnone
  · exact ⟨.empty hcut, hmissing.1, hmissing.2, by simp [Span.empty]⟩

/-- The arguments from a token on lie one after another, a comma between any two. -/
theorem argumentsFrom_between (h : s.StandsIn text) (depth : Nat) (hi : i ≤ stop) (hstop : stop ≤ s.length)
    (hpiece : piece ≤ i) (hcut : text.IsCut missingAt) (hmissing : low ≤ missingAt)
    (hlow : ∀ j t, piece ≤ j → s[j]? = some t → low ≤ t.start)
    (hhigh : ∀ j t, j < stop → s[j]? = some t → t.stop ≤ missingAt) :
    (∀ a ∈ s.argumentsFrom stop missingAt piece depth i, a.Between text low missingAt) ∧
      (s.argumentsFrom stop missingAt piece depth i).Pairwise fun a b => a.span.stop < b.span.start := by
  fun_induction argumentsFrom s stop missingAt piece depth i generalizing low with
  | case1 piece depth i hlt hcomma ih =>
    have hmark : s[i]? = some s[i] := getElem?_eq_getElem (by omega)
    have hspan : s.spanAt i = s[i].span := by simp only [spanAt, hmark, Option.map_some, Option.getD_some]
    have hwidth := h.lt (mem_of_getElem? hmark)
    have hfirst : (s.argument piece i (s.spanAt i).start).Between text low s[i].start := by
      rw [hspan]
      refine between_argument h (by omega) (h.isCut_start (mem_of_getElem? hmark))
        ⟨hlow i _ hpiece hmark, Nat.le_refl _⟩ hlow ?_
      intro j t hj ht
      exact h.stop_le ht hmark hj
    have hend : s[i].stop ≤ missingAt := hhigh i _ hlt hmark
    have hnext : ∀ j t, i + 1 ≤ j → s[j]? = some t → s[i].stop ≤ t.start :=
      fun j t hj ht => h.stop_le hmark ht (by omega)
    obtain ⟨hrest, hpairs⟩ := ih (by omega) (Nat.le_refl _) hend hnext
    refine ⟨?_, pairwise_cons.mpr ⟨?_, hpairs⟩⟩
    · intro a ha
      rcases mem_cons.mp ha with rfl | ha
      · have := hfirst.high
        exact ⟨hfirst.slot, hfirst.low, by omega, hfirst.missing⟩
      · have hbetween := hrest a ha
        have := hbetween.low
        have := hlow i _ hpiece hmark
        exact ⟨hbetween.slot, by omega, hbetween.high, hbetween.missing⟩
    · intro b hb
      have := hfirst.high
      have := (hrest b hb).low
      omega
  | case2 piece depth i hlt hcomma next =>
    rename_i ih
    exact ih (by omega) (by omega) hmissing hlow
  | case3 piece depth i hge =>
    refine ⟨?_, pairwise_singleton _ _⟩
    intro a ha
    cases mem_singleton.mp ha
    exact between_argument h hstop hcut ⟨hmissing, Nat.le_refl _⟩ hlow hhigh

/-- The arguments of a list between two positions. -/
theorem markedIn_of_between {list : ArgumentList} (hextent : list.extent = ⟨start, stop⟩)
    (hlt : start < stop) (hstart : text.IsCut start) (hstop : text.IsCut stop)
    (hended : stop = text.byteSize → text.endsWithNewline = false)
    (h : (∀ a ∈ list.arguments, a.Between text start stop) ∧
      list.arguments.Pairwise fun a b => a.span.stop < b.span.start) : list.MarkedIn text := by
  refine ⟨?_, fun a ha => (h.1 a ha).missing⟩
  rw [hextent]
  refine ⟨hlt, hstart, hstop, hended, ?_, ?_, pairwise_map.mpr h.2⟩
  · exact forall_mem_map.mpr fun a ha => (h.1 a ha).slot
  · exact forall_mem_map.mpr fun a ha => ⟨(h.1 a ha).low, (h.1 a ha).high⟩

theorem markedIn_innerArguments (h : s.StandsIn text) {first close : Nat} (hlt : first + 1 < close)
    (hclose : close < s.length) : (s.innerArguments (first + 1) close).MarkedIn text := by
  have hopen : s[first]? = some s[first] := getElem?_eq_getElem (by omega)
  have hend : s[close]? = some s[close] := getElem?_eq_getElem hclose
  have hinner : s[first + 1]? = some s[first + 1] := getElem?_eq_getElem (by omega)
  have hextent : (s.innerArguments (first + 1) close).extent = ⟨s[first].stop, s[close].start⟩ := by
    simp [innerArguments, spanAt, hopen, hend, Token.span]
  have harguments : (s.innerArguments (first + 1) close).arguments =
      s.argumentsFrom close s[close].start (first + 1) 0 (first + 1) := by
    rw [← show (s.innerArguments (first + 1) close).extent.stop = s[close].start by rw [hextent]]
    exact if_pos hlt
  have hbetween := argumentsFrom_between h 0 (Nat.le_of_lt hlt) (Nat.le_of_lt hclose)
    (Nat.le_refl _) (h.isCut_start (mem_of_getElem? hend)) (h.stop_le hopen hend (by omega))
    (fun j t hj ht => h.stop_le hopen ht (by omega)) (fun j t hj ht => h.stop_le ht hend hj)
  have hfirst := h.stop_le hopen hinner (by omega)
  have hlast := h.stop_le hinner hend hlt
  have hwidth := h.lt (mem_of_getElem? hinner)
  refine markedIn_of_between hextent (by omega) (h.isCut_stop (mem_of_getElem? hopen))
    (h.isCut_start (mem_of_getElem? hend)) ?_ (harguments ▸ hbetween)
  intro hall
  have hle : s[close].stop ≤ text.byteSize := (h.hasAt _ (mem_of_getElem? hend)).le
  have hsome := h.lt (mem_of_getElem? hend)
  omega

theorem markedIn_bareArguments (h : s.StandsIn text) (hlt : start < stop) (hstop : stop ≤ s.length) :
    (s.bareArguments start stop).MarkedIn text := by
  have hfirst : s[start]? = some s[start] := getElem?_eq_getElem (by omega)
  have hlast : s[stop - 1]? = some s[stop - 1] := getElem?_eq_getElem (by omega)
  have hextent : (s.bareArguments start stop).extent = ⟨s[start].start, s[stop - 1].stop⟩ :=
    h.cover_spanAt hfirst hlast (by omega)
  obtain ⟨hslot, hsome⟩ := h.slot (mem_of_getElem? hfirst) (mem_of_getElem? hlast)
    (h.le_of_index_le hfirst hlast (by omega)).1
  have harguments : (s.bareArguments start stop).arguments =
      s.argumentsFrom stop s[stop - 1].stop start 0 start := by
    rw [← show (s.bareArguments start stop).extent.stop = s[stop - 1].stop by rw [hextent]]
    exact if_pos hlt
  have hbetween := argumentsFrom_between h 0 (Nat.le_of_lt hlt) hstop (Nat.le_refl _)
    hslot.cutStop (Nat.le_of_lt hsome) (fun j t hj ht => (h.le_of_index_le hfirst ht hj).1)
    (fun j t hj ht => (h.le_of_index_le ht hlast (by omega)).2)
  exact markedIn_of_between hextent hsome hslot.cutStart hslot.cutStop
    (h.ended (mem_of_getElem? hlast)) (harguments ▸ hbetween)

/-! ## Parameters -/

/-- The span of a run of tokens covers all of them. -/
theorem cover?_eq (h : s.StandsIn text) (hs : s ≠ []) :
    ∃ first ∈ s, ∃ last ∈ s, s.cover? = some ⟨first.start, last.stop⟩ ∧
      ∀ t ∈ s, first.start ≤ t.start ∧ t.stop ≤ last.stop := by
  have hpos := length_pos_iff.mpr hs
  have hfirst : s[0]? = some s[0] := getElem?_eq_getElem hpos
  have hlast : s[s.length - 1]? = some s[s.length - 1] := getElem?_eq_getElem (by omega)
  refine ⟨s[0], mem_of_getElem? hfirst, s[s.length - 1], mem_of_getElem? hlast, ?_, ?_⟩
  · obtain ⟨hstart, hstop⟩ := h.le_of_index_le hfirst hlast (by omega)
    rw [cover?, head?_eq_getElem?, getLast?_eq_getElem?, hfirst, hlast]
    simp only [Token.span, Span.cover, Nat.min_eq_left hstart, Nat.max_eq_right hstop]
  · intro t ht
    obtain ⟨i, hi⟩ := mem_iff_getElem?.mp ht
    have hlt : i < s.length := (List.getElem?_eq_some_iff.mp hi).1
    exact ⟨(h.le_of_index_le hfirst hi (by omega)).1, (h.le_of_index_le hi hlast (by omega)).2⟩

theorem closing?_lt {depth : Nat} (h : closing? depth s = some i) : i < s.length := by
  induction s generalizing depth i with
  | nil => cases h
  | cons t s ih =>
    rw [closing?] at h
    split at h
    · cases h
      exact Nat.succ_pos _
    · obtain ⟨k, hk, rfl⟩ := Option.map_eq_some_iff.mp h
      exact Nat.succ_lt_succ (ih hk)

theorem matching?_lt (h : matching? s start = some i) : start ≤ i ∧ i < s.length := by
  obtain ⟨k, hk, rfl⟩ := Option.map_eq_some_iff.mp h
  have := closing?_lt hk
  rw [length_drop] at this
  omega

end

end Statement

end VbaRefactor
