import Mathlib.Data.List.Pairwise
import VbaRefactor.Edit.Refill
import VbaRefactor.Proofs.Edit.Commit

/-!
# What a queue decides about an edit

A queue looks at the pending edits in the order they came, and the first that says anything about a
new edit decides. The order does not count nevertheless: the pending edits of a module never clash
with each other, and an edit that clashes with the one that covers a new edit would have been
refused before.
-/

namespace VbaRefactor

open List Edit EditBuffer EditQueue

variable {e : Edit} {edits : List Edit} {count : Nat}

namespace Edit

/-- The first and the last line that an edit names. -/
def bounds : Edit → Nat × Nat
  | .insert line _ => (line, line)
  | .replace range _ | .delete range => (range.first, range.last)

/-- The edit takes lines of a module with `count` lines, or inserts before one of them or behind the
last. -/
def InBounds (count : Nat) : Edit → Prop
  | .insert line _ => 1 ≤ line ∧ line ≤ count + 1
  | .replace range _ | .delete range =>
    1 ≤ range.first ∧ range.first ≤ range.last ∧ range.last ≤ count

/-- The first edit leaves nothing to do for the second: both take the same lines for the same text,
or the second only deletes lines that the first takes. -/
def Covers (f e : Edit) : Prop :=
  (f = e ∧ e.range?.isSome = true) ∨
    ∃ range taken, e = .delete range ∧ f.range? = some taken ∧
      taken.first ≤ range.first ∧ range.last ≤ taken.last

/-- The first edit inserts between lines that the second takes. -/
def InsertsInto (e f : Edit) : Prop :=
  ∃ line text range, e = .insert line text ∧ f.range? = some range ∧
    range.first < line ∧ line ≤ range.last

/-- Both edits take the same line, or one inserts between lines that the other takes. -/
def Clashes (f e : Edit) : Prop :=
  (∃ line, f.takesLine line = true ∧ e.takesLine line = true) ∨ f.InsertsInto e ∨ e.InsertsInto f

section

variable {f g : Edit} {r s : LineRange} {line : Nat}

theorem takesLine_iff (hr : e.range? = some r) :
    e.takesLine line = true ↔ r.first ≤ line ∧ line ≤ r.last := by
  simp [takesLine, hr, LineRange.holds_iff]

theorem inBounds_iff (hr : e.range? = some r) :
    e.InBounds count ↔ 1 ≤ r.first ∧ r.first ≤ r.last ∧ r.last ≤ count := by
  cases e <;> cases hr <;> rfl

theorem bounds_of_range (hr : e.range? = some r) : e.bounds = (r.first, r.last) := by
  cases e <;> cases hr <;> rfl

theorem Clashes.symm (h : f.Clashes e) : e.Clashes f := by
  rcases h with ⟨line, hf, he⟩ | h | h
  · exact .inl ⟨line, he, hf⟩
  · exact .inr (.inr h)
  · exact .inr (.inl h)

/-- Edits of ranges clash where the ranges overlap. -/
theorem clashes_iff_of_ranges (hf : f.range? = some s) (he : e.range? = some r)
    (hr : r.first ≤ r.last) (hs : s.first ≤ s.last) : f.Clashes e ↔ s.overlaps r = true := by
  rw [LineRange.overlaps_iff]
  constructor
  · rintro (⟨line, hfl, hel⟩ | ⟨line, text, range, rfl, -⟩ | ⟨line, text, range, rfl, -⟩)
    · rw [takesLine_iff hf] at hfl
      rw [takesLine_iff he] at hel
      omega
    · cases hf
    · cases he
  · intro hover
    refine .inl ⟨max s.first r.first, ?_, ?_⟩
    · rw [takesLine_iff hf]
      omega
    · rw [takesLine_iff he]
      omega

/-- An insert clashes with an edit of a range that holds it. -/
theorem insert_clashes_iff {text : Text} (he : e.range? = some r) :
    (insert line text).Clashes e ↔ r.holdsInsert line = true := by
  rw [LineRange.holdsInsert_iff]
  constructor
  · rintro (⟨at', hinsert, -⟩ | ⟨at', text', range, heq, hrange, hfirst, hlast⟩ |
      ⟨at', text', range, rfl, -⟩)
    · cases hinsert
    · cases heq
      cases he.symm.trans hrange
      exact ⟨hfirst, hlast⟩
    · cases he
  · rintro ⟨hfirst, hlast⟩
    exact .inr (.inl ⟨line, text, r, rfl, he, hfirst, hlast⟩)

theorem not_insert_clashes_insert {a b : Nat} {t u : Text} : ¬ (insert a t).Clashes (insert b u) := by
  rintro (⟨line, h, -⟩ | ⟨line, text, range, -, h, -⟩ | ⟨line, text, range, -, h, -⟩) <;> cases h

/-- A covered edit takes lines, and only lines that the other takes too. -/
theorem Covers.exists_ranges (h : g.Covers e) : ∃ r s, e.range? = some r ∧ g.range? = some s ∧
    s.first ≤ r.first ∧ r.last ≤ s.last := by
  rcases h with ⟨rfl, hsome⟩ | ⟨range, taken, rfl, hg, hfirst, hlast⟩
  · obtain ⟨r, hr⟩ := Option.isSome_iff_exists.mp hsome
    exact ⟨r, r, hr, hr, Nat.le_refl _, Nat.le_refl _⟩
  · exact ⟨range, taken, rfl, hg, hfirst, hlast⟩

theorem Covers.clashes (h : g.Covers e) (he : e.InBounds count) : g.Clashes e := by
  obtain ⟨r, s, hr, hs, hfirst, hlast⟩ := h.exists_ranges
  rw [inBounds_iff hr] at he
  refine .inl ⟨r.first, ?_, ?_⟩
  · rw [takesLine_iff hs]
    omega
  · rw [takesLine_iff hr]
    omega

/-- What clashes with a covered edit clashes with the one that covers it. -/
theorem Covers.clashes_of_clashes (h : g.Covers e) (hf : f.Clashes e) : f.Clashes g := by
  obtain ⟨r, s, hr, hs, hfirst, hlast⟩ := h.exists_ranges
  rcases hf with ⟨line, hfl, hel⟩ | ⟨line, text, range, rfl, hrange, hlo, hhi⟩ |
    ⟨line, text, range, rfl, -⟩
  · rw [takesLine_iff hr] at hel
    refine .inl ⟨line, hfl, ?_⟩
    rw [takesLine_iff hs]
    omega
  · cases hr.symm.trans hrange
    exact .inr (.inl ⟨line, text, s, rfl, hs, by omega, by omega⟩)
  · cases hr

end

end Edit

/-- The edits stand in a module with `count` lines, and no two of them clash. -/
structure Compatible (count : Nat) (edits : List Edit) : Prop where
  inBounds : ∀ e ∈ edits, e.InBounds count
  apart : edits.Pairwise fun e f => ¬ e.Clashes f

namespace Compatible

variable {f g : Edit}

theorem nil (count : Nat) : Compatible count [] := ⟨by simp, .nil⟩

theorem append (h : Compatible count edits) (he : e.InBounds count)
    (hapart : ∀ f ∈ edits, ¬ f.Clashes e) : Compatible count (edits ++ [e]) := by
  refine ⟨?_, pairwise_append.mpr ⟨h.apart, pairwise_singleton _ _, ?_⟩⟩
  · intro f hf
    rcases mem_append.mp hf with hf | hf
    · exact h.inBounds f hf
    · exact mem_singleton.mp hf ▸ he
  · intro f hf g hg
    exact mem_singleton.mp hg ▸ hapart f hf

/-- Of two pending edits that clash, one is the other. -/
theorem eq_of_clashes (h : Compatible count edits) (hf : f ∈ edits) (hg : g ∈ edits)
    (hclash : f.Clashes g) : f = g := by
  have : Std.Symm fun e f : Edit => ¬ e.Clashes f := ⟨fun _ _ hne hclash => hne hclash.symm⟩
  by_contra hne
  exact h.apart.forall hf hg hne hclash

/-- Where a pending edit covers a new one, every pending edit that clashes with it is that one. -/
theorem eq_of_covers (h : Compatible count edits) (hf : f ∈ edits) (hg : g ∈ edits)
    (hcovers : g.Covers e) (hclash : f.Clashes e) : f = g :=
  h.eq_of_clashes hf hg (hcovers.clashes_of_clashes hclash)

end Compatible

/-- The verdict is the one that the pending edits call for, whatever order they have. -/
def Verdict.Fits (count : Nat) (pending : List Edit) (e : Edit) : Verdict → Prop
  | .outOfRange first last => ¬ e.InBounds count ∧ e.bounds = (first, last)
  | .absorbed => e.InBounds count ∧ ∃ f ∈ pending, f.Covers e
  | .overlap old new => e.InBounds count ∧ (∀ f ∈ pending, ¬ f.Covers e) ∧
      ∃ f ∈ pending, f.Clashes e ∧ old = f.bounds ∧ new = e.bounds
  | .queued => e.InBounds count ∧ ∀ f ∈ pending, ¬ f.Clashes e

namespace EditBuffer

section

variable {new : Edit} {range : LineRange} {b : EditBuffer}

/-- What one pending edit says about a new edit of a range: it covers it, clashes with it without
covering it, or says nothing. -/
theorem judgeAgainst_cons (hr : new.range? = some range) (hordered : range.first ≤ range.last)
    {pending : Edit} (hpending : ∀ s, pending.range? = some s → s.first ≤ s.last)
    (edits : List Edit) :
    (pending.Covers new ∧ judgeAgainst new range (pending :: edits) = .absorbed) ∨
    (¬ pending.Covers new ∧ pending.Clashes new ∧
      judgeAgainst new range (pending :: edits) = .overlap pending.bounds new.bounds) ∨
    (¬ pending.Clashes new ∧
      judgeAgainst new range (pending :: edits) = judgeAgainst new range edits) := by
  by_cases heq : pending = new
  · refine .inl ⟨.inl ⟨heq, by simp [hr]⟩, ?_⟩
    rw [judgeAgainst.eq_def]
    exact if_pos heq
  cases hs : pending.range? with
  | none =>
    cases pending with
    | replace taken text => cases hs
    | delete taken => cases hs
    | insert line text =>
      have hcovers : ¬ (insert line text).Covers new := by
        rintro (⟨h, -⟩ | ⟨_, _, _, h, _⟩)
        · exact heq h
        · cases h
      rw [judgeAgainst_insert, if_neg heq, insert_clashes_iff hr, bounds_of_range hr]
      by_cases hholds : range.holdsInsert line = true
      · exact .inr (.inl ⟨hcovers, hholds, if_pos hholds⟩)
      · exact .inr (.inr ⟨hholds, if_neg hholds⟩)
  | some taken =>
    have hcovers : pending.Covers new ↔ (new.isDelete && taken.contains range) = true := by
      rw [Bool.and_eq_true, LineRange.contains_iff]
      constructor
      · rintro (⟨h, -⟩ | ⟨r, s, rfl, hs', hfirst, hlast⟩)
        · exact absurd h heq
        · cases hs.symm.trans hs'
          cases hr
          exact ⟨rfl, hfirst, hlast⟩
      · rintro ⟨hdelete, hfirst, hlast⟩
        cases new with
        | insert line text => cases hdelete
        | replace r text => cases hdelete
        | delete r =>
          cases hr
          exact .inr ⟨range, taken, rfl, hs, hfirst, hlast⟩
    rw [judgeAgainst_range new range edits hs, if_neg heq,
      clashes_iff_of_ranges hs hr hordered (hpending taken hs), hcovers,
      bounds_of_range hs, bounds_of_range hr]
    by_cases hover : taken.overlaps range = true
    · rw [if_pos hover]
      by_cases hinside : (new.isDelete && taken.contains range) = true
      · exact .inl ⟨hinside, if_pos hinside⟩
      · exact .inr (.inl ⟨hinside, hover, if_neg hinside⟩)
    · exact .inr (.inr ⟨hover, if_neg hover⟩)

/-- The first pending edit that says anything is the only one that clashes with a covered edit, so
that the verdict fits all of them. -/
theorem judgeAgainst_fits (hedits : Compatible count edits) (hr : new.range? = some range)
    (hbounds : new.InBounds count) : (judgeAgainst new range edits).Fits count edits new := by
  have hordered := ((inBounds_iff hr).mp hbounds).2.1
  suffices h : ∀ rest, (∀ f ∈ rest, f ∈ edits) → (∀ f ∈ edits, f ∉ rest → ¬ f.Clashes new) →
      (judgeAgainst new range rest).Fits count edits new from
    h edits (fun _ hf => hf) fun f hf hnot => absurd hf hnot
  intro rest hrest hpassed
  induction rest with
  | nil => exact ⟨hbounds, fun f hf => hpassed f hf not_mem_nil⟩
  | cons pending rest ih =>
    have hmem := hrest pending mem_cons_self
    have hpending (s : LineRange) (hs : pending.range? = some s) : s.first ≤ s.last :=
      ((inBounds_iff hs).mp (hedits.inBounds pending hmem)).2.1
    rcases judgeAgainst_cons hr hordered hpending rest with
      ⟨hcovers, heq⟩ | ⟨hcovers, hclash, heq⟩ | ⟨hclash, heq⟩
    · rw [heq]
      exact ⟨hbounds, pending, hmem, hcovers⟩
    · rw [heq]
      refine ⟨hbounds, fun g hg hgcovers => hcovers ?_, pending, hmem, hclash, rfl, rfl⟩
      exact hedits.eq_of_covers hmem hg hgcovers hclash ▸ hgcovers
    · rw [heq]
      apply ih (forall_mem_cons.mp hrest).2
      intro f hf hnot
      by_cases hfp : f = pending
      · exact hfp ▸ hclash
      · exact hpassed f hf (by simp [hfp, hnot])

theorem judgeRange_fits (hb : Compatible b.module.lines.length b.edits)
    (hr : new.range? = some range) :
    (b.judgeRange new range).Fits b.module.lines.length b.edits new := by
  rw [judgeRange]
  by_cases hbounds : new.InBounds b.module.lines.length
  · have hrange := (inBounds_iff hr).mp hbounds
    rw [if_neg]
    · exact judgeAgainst_fits hb hr hbounds
    · simp only [Bool.or_eq_true, decide_eq_true_eq]
      omega
  · rw [if_pos]
    · exact ⟨hbounds, bounds_of_range hr⟩
    · rw [inBounds_iff hr] at hbounds
      simp only [Bool.or_eq_true, decide_eq_true_eq]
      omega

theorem judgeInsert_fits (b : EditBuffer) (line : Nat) (text : Text) :
    (b.judgeInsert line).Fits b.module.lines.length b.edits (.insert line text) := by
  have hclash (f : Edit) (s : LineRange) (hs : f.range? = some s) :
      f.Clashes (.insert line text) ↔ s.holdsInsert line = true :=
    ⟨fun h => (insert_clashes_iff hs).mp h.symm, fun h => ((insert_clashes_iff hs).mpr h).symm⟩
  have hcovers (f : Edit) : ¬ f.Covers (.insert line text) := by
    rintro (⟨-, h⟩ | ⟨_, _, h, _⟩) <;> cases h
  rw [judgeInsert]
  split
  · rename_i hout
    simp only [Bool.or_eq_true, decide_eq_true_eq] at hout
    refine ⟨?_, rfl⟩
    rw [InBounds]
    omega
  · rename_i hin
    simp only [Bool.or_eq_true, decide_eq_true_eq] at hin
    have hbounds : (insert line text).InBounds b.module.lines.length := by
      rw [InBounds]
      omega
    split
    · rename_i s hfind
      obtain ⟨f, hf, hs⟩ := mem_filterMap.mp (mem_of_find?_eq_some hfind)
      have hholds : s.holdsInsert line = true := by simpa using find?_some hfind
      exact ⟨hbounds, fun g _ => hcovers g, f, hf, (hclash f s hs).mpr hholds,
        (bounds_of_range hs).symm, rfl⟩
    · rename_i hfind
      refine ⟨hbounds, fun f hf => ?_⟩
      cases hs : f.range? with
      | some s =>
        rw [hclash f s hs]
        exact find?_eq_none.mp hfind s (mem_filterMap.mpr ⟨f, hf, hs⟩)
      | none =>
        cases f with
        | insert a t => exact not_insert_clashes_insert
        | replace s t => cases hs
        | delete s => cases hs

/-- The verdict of a buffer fits its pending edits. -/
theorem judge_fits (hb : Compatible b.module.lines.length b.edits) (e : Edit) :
    (b.judge e).Fits b.module.lines.length b.edits e := by
  cases e with
  | insert line text => exact judgeInsert_fits b line text
  | replace range text => exact judgeRange_fits hb rfl
  | delete range => exact judgeRange_fits hb rfl

end

section

variable {b : EditBuffer} (hb : Compatible b.module.lines.length b.edits) (m : ModuleName)

include hb m

/-- A step of the queue leaves the pending edits of a module compatible. -/
theorem compatible_follow (s : QueueStep) :
    Compatible (b.follow m s).module.lines.length (b.follow m s).edits := by
  cases s with
  | queue n e =>
    rw [follow]
    split
    · rw [take]
      have hfits := judge_fits hb e
      cases hjudge : b.judge e with
      | queued =>
        rw [hjudge] at hfits
        exact hb.append hfits.1 hfits.2
      | absorbed => exact hb
      | outOfRange first last => exact hb
      | overlap old new => exact hb
    · exact hb
  | discard => exact .nil _
  | commit => exact .nil _

theorem compatible_foldl_follow (steps : List QueueStep) :
    Compatible b.module.lines.length (steps.foldl (·.follow m) b).edits := by
  rw [← foldl_follow_module m b steps]
  induction steps generalizing b with
  | nil => exact hb
  | cons s steps ih => exact ih (compatible_follow hb m s)

end

end EditBuffer

namespace EditQueue

/-- The queues that arise from edits and refills for any modules, discards and commits. -/
inductive Reachable (host : ModuleMap ModuleLines) : EditQueue → Prop
  | start : Reachable host (.start host)
  | queue {q : EditQueue} (m : ModuleName) (e : Edit) (h : Reachable host q) :
    Reachable host (q.queue m e).1
  | refill {q : EditQueue} (m : ModuleName) (text : Text) (refills : List Refill)
    (h : Reachable host q) : Reachable host (q.refill m text refills).1
  | discard {q : EditQueue} (h : Reachable host q) : Reachable host q.discard
  | commit {q : EditQueue} (h : Reachable host q) : Reachable host q.commit.2

theorem run_append_steps (q : EditQueue) (steps more : List QueueStep) :
    q.run (steps ++ more) = (q.run steps).run more := foldl_append

/-- Queueing several edits is a run that ends at the first error. -/
theorem queueAll_eq_run (q : EditQueue) (m : ModuleName) (edits : List Edit) :
    ∃ steps, (q.queueAll m edits).1 = q.run steps := by
  induction edits generalizing q with
  | nil => exact ⟨[], rfl⟩
  | cons e rest ih =>
    rw [queueAll]
    cases hqueue : q.queue m e with
    | mk next error =>
      have hstep : q.step (.queue m e) = next := by rw [step, hqueue]
      cases error with
      | none =>
        obtain ⟨steps, hsteps⟩ := ih next
        exact ⟨.queue m e :: steps, by rw [hsteps, run, run, foldl_cons, hstep]⟩
      | some error => exact ⟨[.queue m e], hstep.symm⟩

variable {host : ModuleMap ModuleLines} {m n : ModuleName} {module : ModuleLines} {q : EditQueue}

theorem Reachable.exists_run (h : Reachable host q) :
    ∃ steps, q = (EditQueue.start host).run steps := by
  induction h with
  | start => exact ⟨[], rfl⟩
  | queue m e h ih =>
    obtain ⟨steps, rfl⟩ := ih
    exact ⟨steps ++ [.queue m e], by rw [run_append_steps]; rfl⟩
  | refill m text refills h ih =>
    obtain ⟨steps, rfl⟩ := ih
    rw [EditQueue.refill]
    split
    · exact ⟨steps, rfl⟩
    · rename_i edits hedits
      obtain ⟨more, hmore⟩ := queueAll_eq_run ((EditQueue.start host).run steps) m edits
      exact ⟨steps ++ more, by rw [hmore, run_append_steps]⟩
  | discard h ih =>
    obtain ⟨steps, rfl⟩ := ih
    exact ⟨steps ++ [.discard], by rw [run_append_steps]; rfl⟩
  | commit h ih =>
    obtain ⟨steps, rfl⟩ := ih
    exact ⟨steps ++ [.commit], by rw [run_append_steps]; rfl⟩

/-- A reachable queue has a buffer with compatible edits for every module of the host. -/
theorem Reachable.exists_buffer (h : Reachable host q) {m : ModuleName}
    (hm : host.get? m = some module) :
    ∃ b, q.bufferOf? m = some b ∧ b.module = module ∧ Compatible module.lines.length b.edits := by
  obtain ⟨steps, rfl⟩ := h.exists_run
  have hstart : (EditQueue.start host).bufferOf? m = some ⟨module, []⟩ := by
    simp [bufferOf?, EditQueue.start, hm]
  refine ⟨_, by rw [bufferOf?_run, hstart, Option.map_some],
    EditBuffer.foldl_follow_module m ⟨module, []⟩ steps, ?_⟩
  have hnil : Compatible module.lines.length [] := .nil _
  exact EditBuffer.compatible_foldl_follow (b := ⟨module, []⟩) hnil m steps

theorem pending_eq (q : EditQueue) (m : ModuleName) :
    q.pending m = ((q.bufferOf? m).map EditBuffer.edits).getD [] := by
  rw [pending, bufferOf?]
  cases q.buffers.get? m with
  | some b => rfl
  | none => cases q.host.get? m <;> rfl

/-- An edit leaves the pending edits of other modules as they are. -/
theorem pending_queue_of_not_same (q : EditQueue) (e : Edit) (h : ¬ m.Same n) :
    (q.queue m e).1.pending n = q.pending n := by
  rw [pending_eq, pending_eq, bufferOf?_queue, if_neg h]

theorem pending_queue_of_same (q : EditQueue) {b : EditBuffer} (e : Edit) (h : m.Same n)
    (hb : q.bufferOf? m = some b) :
    q.pending n = b.edits ∧ (q.queue m e).1.pending n = (b.take e).edits := by
  have hn : q.bufferOf? n = some b := (bufferOf?_congr q h).symm.trans hb
  rw [pending_eq, pending_eq, bufferOf?_queue, if_pos h, hn]
  exact ⟨rfl, rfl⟩

/-- What the queue does with an edit: it refuses, absorbs or takes it, and leaves everything as it is
unless it takes it. -/
inductive Handled (q : EditQueue) (m : ModuleName) (count : Nat) (e : Edit) : Prop
  | invalid (hbounds : ¬ e.InBounds count)
    (herror : (q.queue m e).2 = some (.invalidLineRange m e.bounds.1 e.bounds.2))
    (hstay : ∀ n, (q.queue m e).1.pending n = q.pending n)
  | absorbed (hbounds : e.InBounds count) (hcovers : ∃ f ∈ q.pending m, f.Covers e)
    (herror : (q.queue m e).2 = none) (hstay : ∀ n, (q.queue m e).1.pending n = q.pending n)
  | overlap (hbounds : e.InBounds count) (hcovers : ∀ f ∈ q.pending m, ¬ f.Covers e)
    (hclash : ∃ f ∈ q.pending m, f.Clashes e ∧
      (q.queue m e).2 = some (.overlappingEdits m f.bounds e.bounds))
    (hstay : ∀ n, (q.queue m e).1.pending n = q.pending n)
  | queued (hbounds : e.InBounds count) (hclash : ∀ f ∈ q.pending m, ¬ f.Clashes e)
    (herror : (q.queue m e).2 = none) (hadded : (q.queue m e).1.pending m = q.pending m ++ [e])

theorem Reachable.handled (h : Reachable host q) {m : ModuleName} (hm : host.get? m = some module)
    (e : Edit) : q.Handled m module.lines.length e := by
  obtain ⟨b, hb, rfl, hcompatible⟩ := h.exists_buffer hm
  have hfits := EditBuffer.judge_fits hcompatible e
  obtain ⟨hold, hnew⟩ := pending_queue_of_same q e (.refl m) hb
  have hstay (htake : b.take e = b) (n : ModuleName) :
      (q.queue m e).1.pending n = q.pending n := by
    by_cases hsame : m.Same n
    · obtain ⟨hold, hnew⟩ := pending_queue_of_same q e hsame hb
      rw [hold, hnew, htake]
    · exact pending_queue_of_not_same q e hsame
  cases hjudge : b.judge e with
  | outOfRange first last =>
    rw [hjudge] at hfits
    refine .invalid hfits.1 ?_ (hstay (by rw [EditBuffer.take, hjudge]))
    simp [EditQueue.queue, hb, hjudge, hfits.2]
  | absorbed =>
    rw [hjudge] at hfits
    have hqueue : (q.queue m e).2 = none := by simp [EditQueue.queue, hb, hjudge]
    exact .absorbed hfits.1 (hold ▸ hfits.2) hqueue (hstay (by rw [EditBuffer.take, hjudge]))
  | overlap old new =>
    rw [hjudge] at hfits
    have hqueue : (q.queue m e).2 = some (.overlappingEdits m old new) := by
      simp [EditQueue.queue, hb, hjudge]
    obtain ⟨hbounds, hcovers, f, hf, hclash, rfl, rfl⟩ := hfits
    exact .overlap hbounds (hold ▸ hcovers) ⟨f, hold ▸ hf, hclash, hqueue⟩
      (hstay (by rw [EditBuffer.take, hjudge]))
  | queued =>
    rw [hjudge] at hfits
    have hqueue : (q.queue m e).2 = none := by simp [EditQueue.queue, hb, hjudge]
    refine .queued hfits.1 (hold ▸ hfits.2) hqueue ?_
    rw [hold, hnew, EditBuffer.take, hjudge]

namespace Handled

variable {q : EditQueue} {m : ModuleName}

theorem not_covers (he : e.InBounds count) (hclash : ∀ f ∈ q.pending m, ¬ f.Clashes e) :
    ∀ f ∈ q.pending m, ¬ f.Covers e :=
  fun f hf hcovers => hclash f hf (hcovers.clashes he)

section

variable (h : q.Handled m count e)

include h

theorem invalid_iff :
    (∃ first last, (q.queue m e).2 = some (.invalidLineRange m first last)) ↔ ¬ e.InBounds count := by
  cases h with
  | invalid hbounds herror => simp [hbounds, herror]
  | absorbed hbounds _ herror => simp [hbounds, herror]
  | overlap hbounds _ hclash =>
    obtain ⟨f, -, -, herror⟩ := hclash
    simp [hbounds, herror]
  | queued hbounds _ herror => simp [hbounds, herror]

theorem absorbed_iff :
    (q.queue m e).2 = none ∧ (q.queue m e).1.pending m = q.pending m ↔
      e.InBounds count ∧ ∃ f ∈ q.pending m, f.Covers e := by
  cases h with
  | invalid hbounds herror => simp [hbounds, herror]
  | absorbed hbounds hcovers herror hstay => simp [hbounds, hcovers, herror, hstay]
  | overlap hbounds hcovers hclash =>
    obtain ⟨f, -, -, herror⟩ := hclash
    simpa [hbounds, herror] using hcovers
  | queued hbounds hclash _ hadded => simpa [hadded] using fun _ => not_covers hbounds hclash

theorem overlap_iff :
    (∃ old new, (q.queue m e).2 = some (.overlappingEdits m old new)) ↔
      e.InBounds count ∧ (∀ f ∈ q.pending m, ¬ f.Covers e) ∧ ∃ f ∈ q.pending m, f.Clashes e := by
  cases h with
  | invalid hbounds herror => simp [hbounds, herror]
  | absorbed _ hcovers herror =>
    simp only [herror]
    grind
  | overlap hbounds hcovers hclash =>
    obtain ⟨f, hf, hfe, herror⟩ := hclash
    simp only [herror]
    grind
  | queued _ hclash herror =>
    simp only [herror]
    grind

theorem queued_iff :
    (q.queue m e).2 = none ∧ (q.queue m e).1.pending m = q.pending m ++ [e] ↔
      e.InBounds count ∧ (∀ f ∈ q.pending m, ¬ f.Covers e) ∧ ∀ f ∈ q.pending m, ¬ f.Clashes e := by
  cases h with
  | invalid hbounds herror => simp [hbounds, herror]
  | absorbed _ hcovers _ hstay =>
    obtain ⟨f, hf, hfe⟩ := hcovers
    exact ⟨fun h => by simp [hstay] at h, fun h => absurd hfe (h.2.1 f hf)⟩
  | overlap _ _ hclash =>
    obtain ⟨f, hf, hfe, herror⟩ := hclash
    simp only [herror]
    grind
  | queued hbounds hclash herror hadded =>
    exact ⟨fun _ => ⟨hbounds, not_covers hbounds hclash, hclash⟩, fun _ => ⟨herror, hadded⟩⟩

/-- An edit that is not taken changes nothing for any module. -/
theorem stays (hleft : (q.queue m e).2 ≠ none ∨ (q.queue m e).1.pending m = q.pending m)
    (n : ModuleName) : (q.queue m e).1.pending n = q.pending n := by
  cases h with
  | invalid _ _ hstay => exact hstay n
  | absorbed _ _ _ hstay => exact hstay n
  | overlap _ _ _ hstay => exact hstay n
  | queued _ _ herror hadded => simp [herror, hadded] at hleft

/-- A refusal names the new edit and a pending one that clashes with it. -/
theorem named {old new : Nat × Nat} (hgiven : (q.queue m e).2 = some (.overlappingEdits m old new)) :
    new = e.bounds ∧ ∃ f ∈ q.pending m, f.Clashes e ∧ old = f.bounds := by
  cases h with
  | invalid _ herror => simp [herror] at hgiven
  | absorbed _ _ herror => simp [herror] at hgiven
  | overlap _ _ hclash =>
    obtain ⟨f, hf, hfe, herror⟩ := hclash
    simp only [herror, Option.some.injEq, Error.overlappingEdits.injEq, true_and] at hgiven
    exact ⟨hgiven.2.symm, f, hf, hfe, hgiven.1.symm⟩
  | queued _ _ herror => simp [herror] at hgiven

theorem error_cases : (q.queue m e).2 = none ∨
    (∃ first last, (q.queue m e).2 = some (.invalidLineRange m first last)) ∨
    ∃ old new, (q.queue m e).2 = some (.overlappingEdits m old new) := by
  cases h with
  | invalid _ herror => exact .inr (.inl ⟨_, _, herror⟩)
  | absorbed _ _ herror => exact .inl herror
  | overlap _ _ hclash =>
    obtain ⟨f, -, -, herror⟩ := hclash
    exact .inr (.inr ⟨_, _, herror⟩)
  | queued _ _ herror => exact .inl herror

/-- The kind of the error is decided by the pending edits as a set. -/
theorem label_eq {q' : EditQueue} (h' : q'.Handled m count e)
    (hset : ∀ f, f ∈ q'.pending m ↔ f ∈ q.pending m) :
    (q'.queue m e).2.map Error.label = (q.queue m e).2.map Error.label := by
  have hinvalid := h.invalid_iff.trans h'.invalid_iff.symm
  have hoverlap := h.overlap_iff
  simp only [← hset] at hoverlap
  have hoverlap := hoverlap.trans h'.overlap_iff.symm
  rcases h.error_cases with hnone | hq | hq
  · have hnone' := h'.error_cases
    simp only [← hinvalid, ← hoverlap, hnone, reduceCtorEq, exists_false, or_false] at hnone'
    rw [hnone, hnone']
  · obtain ⟨_, _, hq'⟩ := hinvalid.mp hq
    obtain ⟨_, _, hq⟩ := hq
    rw [hq, hq']
    rfl
  · obtain ⟨_, _, hq'⟩ := hoverlap.mp hq
    obtain ⟨_, _, hq⟩ := hq
    rw [hq, hq']
    rfl

end

end Handled

/-- What a queue does with an edit depends only on which edits are pending, not on their order. In
every state that can be reached the pending edits of a module lie in it and do not clash. A new edit
is invalid if and only if it does not lie in the module; otherwise it is absorbed if and only if a
pending edit covers it; otherwise it is refused, with the lines of both, if and only if it clashes
with a pending edit, and taken else. Unless it is taken, no pending edit of any module changes. -/
theorem queue_decides (host : ModuleMap ModuleLines) (q : EditQueue) (hq : Reachable host q)
    (m : ModuleName) (module : ModuleLines) (hm : host.get? m = some module) (e : Edit) :
    Compatible module.lines.length (q.pending m) ∧
    ((∃ first last, (q.queue m e).2 = some (.invalidLineRange m first last)) ↔
      ¬ e.InBounds module.lines.length) ∧
    ((q.queue m e).2 = none ∧ (q.queue m e).1.pending m = q.pending m ↔
      e.InBounds module.lines.length ∧ ∃ f ∈ q.pending m, f.Covers e) ∧
    ((∃ old new, (q.queue m e).2 = some (.overlappingEdits m old new)) ↔
      e.InBounds module.lines.length ∧ (∀ f ∈ q.pending m, ¬ f.Covers e) ∧
        ∃ f ∈ q.pending m, f.Clashes e) ∧
    ((q.queue m e).2 = none ∧ (q.queue m e).1.pending m = q.pending m ++ [e] ↔
      e.InBounds module.lines.length ∧ (∀ f ∈ q.pending m, ¬ f.Covers e) ∧
        ∀ f ∈ q.pending m, ¬ f.Clashes e) ∧
    (∀ old new, (q.queue m e).2 = some (.overlappingEdits m old new) →
      new = e.bounds ∧ ∃ f ∈ q.pending m, f.Clashes e ∧ old = f.bounds) ∧
    ((q.queue m e).2 ≠ none ∨ (q.queue m e).1.pending m = q.pending m →
      ∀ n, (q.queue m e).1.pending n = q.pending n) ∧
    (∀ q', Reachable host q' → (∀ f, f ∈ q'.pending m ↔ f ∈ q.pending m) →
      (q'.queue m e).2.map Error.label = (q.queue m e).2.map Error.label) := by
  have h := hq.handled hm e
  obtain ⟨b, hb, rfl, hcompatible⟩ := hq.exists_buffer hm
  refine ⟨?_, h.invalid_iff, h.absorbed_iff, h.overlap_iff, h.queued_iff, fun old new => h.named,
    h.stays, fun q' hq' hset => h.label_eq (hq'.handled hm e) hset⟩
  rw [(pending_queue_of_same q e (.refl m) hb).1]
  exact hcompatible

/-- A replacement of lines 2 and 3 and an insert are pending: a delete of line 3 is absorbed, and an
insert between the two lines is refused. -/
theorem queue_decides_pending :
    let m : ModuleName := ⟨['p'], ['m']⟩
    let host : ModuleMap ModuleLines := [(m, ⟨[['a'], ['b'], ['c'], ['d']], ['\n'], true⟩)]
    let q := (((start host).queue m (.replace ⟨2, 3⟩ ['x'])).1.queue m (.insert 5 ['e'])).1
    Reachable host q ∧ q.pending m = [.replace ⟨2, 3⟩ ['x'], .insert 5 ['e']] ∧
      (q.queue m (.delete ⟨3, 3⟩)).2 = none ∧
      (q.queue m (.delete ⟨3, 3⟩)).1.pending m = q.pending m ∧
      ∃ old new, (q.queue m (.insert 3 ['y'])).2 = some (.overlappingEdits m old new) := by
  intro m host q
  have hm : host.get? m = some ⟨[['a'], ['b'], ['c'], ['d']], ['\n'], true⟩ := by decide
  have hq : Reachable host q := .queue m _ (.queue m _ .start)
  have hpending : q.pending m = [.replace ⟨2, 3⟩ ['x'], .insert 5 ['e']] := by decide
  have hdelete := (queue_decides host q hq m _ hm (.delete ⟨3, 3⟩)).2.2.1.mpr
    ⟨⟨by decide, by decide, by decide⟩, .replace ⟨2, 3⟩ ['x'], by simp [hpending],
      .inr ⟨⟨3, 3⟩, ⟨2, 3⟩, rfl, rfl, by decide, by decide⟩⟩
  have hinsert := (queue_decides host q hq m _ hm (.insert 3 ['y'])).2.2.2.1.mpr
    ⟨⟨by decide, by decide⟩, ?_, .replace ⟨2, 3⟩ ['x'], by simp [hpending],
      .inr (.inr ⟨3, ['y'], ⟨2, 3⟩, rfl, rfl, by decide, by decide⟩)⟩
  · exact ⟨hq, hpending, hdelete.1, hdelete.2, hinsert⟩
  · rintro f - (⟨-, h⟩ | ⟨_, _, h, _⟩) <;> cases h

end EditQueue

end VbaRefactor
