import VbaRefactor.Proofs.Edit.Splice
import VbaRefactor.Proofs.ModuleTable

/-!
# Runs of a queue

A run queues edits for any modules, drops them and commits them, in any order. Each module goes its
own way in it: its buffer changes with its own edits only, and stays settled. What a commit gives for
a module is therefore what the edits make of it that were taken since the last commit or discard,
whatever happened to other modules and in whatever order the edits of ranges came.
-/

namespace VbaRefactor

open List Edit ModuleMap ModuleLines EditBuffer

variable {e : Edit} {q : EditQueue} {r : LineRange} {m : ModuleName}

namespace EditBuffer

/-- The buffer after an edit came: it waits only if nothing pending speaks about it. -/
def take (b : EditBuffer) (e : Edit) : EditBuffer :=
  match b.judge e with
  | .queued => { b with edits := b.edits ++ [e] }
  | _ => b

/-- The edit is queued, or absorbed by a pending one. -/
def accepts (b : EditBuffer) (e : Edit) : Bool :=
  match b.judge e with
  | .queued | .absorbed => true
  | _ => false

/-- The buffer with no edit waiting. -/
def cleared (b : EditBuffer) : EditBuffer := { b with edits := [] }

section

variable {b : EditBuffer}

theorem judge_of_range (b : EditBuffer) (hr : e.range? = some r) : b.judge e = b.judgeRange e r := by
  cases e with
  | insert line text => cases hr
  | replace range text =>
    cases hr
    rfl
  | delete range =>
    cases hr
    rfl

theorem judgeRange_queued (h : b.judgeRange e r = .queued) :
    (0 < r.first ∧ r.first ≤ r.last ∧ r.last ≤ b.module.lines.length) ∧
      judgeAgainst e r b.edits = .queued := by
  rw [judgeRange] at h
  split at h
  · cases h
  · rename_i hbounds
    simp only [Bool.or_eq_true, decide_eq_true_eq, not_or] at hbounds
    exact ⟨by omega, h⟩

theorem judgeRange_absorbed (h : b.judgeRange e r = .absorbed) :
    judgeAgainst e r b.edits = .absorbed := by
  rw [judgeRange] at h
  split at h
  · cases h
  · exact h

/-- An insert is queued only outside of the pending ranges. -/
theorem judgeInsert_queued {line : Nat} (h : b.judgeInsert line = .queued) :
    ∀ e ∈ b.edits, ∀ r, e.range? = some r → r.holdsInsert line = false := by
  rw [judgeInsert] at h
  split at h
  · cases h
  · split at h
    · cases h
    · rename_i hfind
      intro e he r hr
      have hnone := find?_eq_none.mp hfind r (mem_filterMap.mpr ⟨e, he, hr⟩)
      simpa using hnone

theorem judgeInsert_ne_absorbed (b : EditBuffer) (line : Nat) : b.judgeInsert line ≠ .absorbed := by
  rw [judgeInsert]
  split
  · simp
  · split <;> simp

theorem settled_cleared (b : EditBuffer) : b.cleared.Settled :=
  ⟨by simp [cleared], by simp [cleared], by simp [cleared]⟩

theorem Settled.queued (hb : b.Settled) (h : b.judge e = .queued) :
    Settled { b with edits := b.edits ++ [e] } := by
  have hnew : ∀ r, e.range? = some r →
      (0 < r.first ∧ r.first ≤ r.last ∧ r.last ≤ b.module.lines.length) ∧
        ∀ f ∈ b.edits, (∀ s, f.range? = some s → s.overlaps r = false) ∧
          ∀ line text, f = .insert line text → r.holdsInsert line = false := by
    intro r hr
    rw [judge_of_range b hr] at h
    obtain ⟨hbounds, hagainst⟩ := judgeRange_queued h
    exact ⟨hbounds, judgeAgainst_queued hagainst⟩
  refine ⟨?_, ?_, ?_⟩
  · intro f hf r hr
    rcases mem_append.mp hf with hf | hf
    · exact hb.bounded f hf r hr
    · obtain rfl := mem_singleton.mp hf
      exact (hnew r hr).1
  · refine pairwise_append.mpr ⟨hb.apart, pairwise_singleton _ _, ?_⟩
    intro f hf g hg r s hr hs
    obtain rfl := mem_singleton.mp hg
    exact ((hnew s hs).2 f hf).1 r hr
  · intro f hf r hr line text hinsert
    rcases mem_append.mp hf with hold | hadded <;>
      rcases mem_append.mp hinsert with hiold | hiadded
    · exact hb.outside f hold r hr line text hiold
    · obtain rfl := mem_singleton.mp hiadded
      exact judgeInsert_queued h f hold r hr
    · obtain rfl := mem_singleton.mp hadded
      exact ((hnew r hr).2 _ hiold).2 line text rfl
    · rw [mem_singleton.mp hadded, ← mem_singleton.mp hiadded] at hr
      cases hr

@[simp]
theorem take_module (b : EditBuffer) (e : Edit) : (b.take e).module = b.module := by
  rw [take]
  split <;> rfl

end

end EditBuffer

/-! ## Edits that come to the same -/

/-- Two lists of edits make the same of every module: they insert the same texts in the same order,
start the same replacements and take the same lines away. -/
structure SameEffect (a b : List Edit) : Prop where
  inserts : ∀ line, a.filterMap (Edit.insertedText? line) = b.filterMap (Edit.insertedText? line)
  replaces : ∀ line, a.findSome? (Edit.replacedText? line) = b.findSome? (Edit.replacedText? line)
  takes : ∀ line, a.any (Edit.takesLine line) = b.any (Edit.takesLine line)

namespace SameEffect

variable {a b : List Edit}

theorem edited_eq (h : SameEffect a b) (m : ModuleLines) : m.edited a = m.edited b := by
  have hplace : m.placeLines a = m.placeLines b := by
    funext line
    rw [placeLines, placeLines, h.inserts, h.replaces, h.takes]
  rw [edited, edited, placesFrom, placesFrom, hplace]

theorem refl (a : List Edit) : SameEffect a a := ⟨fun _ => rfl, fun _ => rfl, fun _ => rfl⟩

theorem append (h : SameEffect a b) (e : Edit) : SameEffect (a ++ [e]) (b ++ [e]) := by
  refine ⟨?_, ?_, ?_⟩
  · intro line
    rw [filterMap_append, filterMap_append, h.inserts]
  · intro line
    rw [findSome?_append, findSome?_append, h.replaces]
  · intro line
    rw [any_append, any_append, h.takes]

/-- An edit that is pending already, or deletes from a pending range, changes nothing. -/
theorem absorb (h : SameEffect a b) (hinsert : ∀ line text, e ≠ .insert line text)
    (hmem : e ∈ a ∨ (e.isDelete = true ∧ ∃ r, e.range? = some r ∧ ∃ f ∈ a, ∃ s, f.range? = some s ∧
      s.contains r = true)) : SameEffect a (b ++ [e]) := by
  refine ⟨?_, ?_, ?_⟩
  · intro line
    have hnone : e.insertedText? line = none := by
      cases e with
      | insert before text => exact absurd rfl (hinsert before text)
      | replace range text => rfl
      | delete range => rfl
    rw [filterMap_append, h.inserts]
    simp [hnone]
  · intro line
    rw [findSome?_append, ← h.replaces]
    cases hfind : a.findSome? (replacedText? line) with
    | some text => rfl
    | none =>
      have hnone : e.replacedText? line = none := by
        rcases hmem with hmem | ⟨hdelete, -⟩
        · exact findSome?_eq_none_iff.mp hfind e hmem
        · cases e with
          | delete range => rfl
          | insert before text => cases hdelete
          | replace range text => cases hdelete
      simp [hnone]
  · intro line
    rw [any_append, ← h.takes]
    cases htakes : a.any (takesLine line) with
    | true => rfl
    | false =>
      have hfalse : e.takesLine line = false := by
        rw [any_eq_false] at htakes
        rcases hmem with hmem | ⟨-, r, hr, f, hf, s, hs, hcontains⟩
        · simpa using htakes e hmem
        · have hnot := htakes f hf
          simp only [takesLine, hs, Option.any_some, LineRange.holds_iff] at hnot
          rw [LineRange.contains_iff] at hcontains
          have hout : ¬ r.holds line = true := by
            rw [LineRange.holds_iff]
            omega
          simpa [takesLine, hr] using hout
      simp [hfalse]

end SameEffect

/-! ## Runs -/

/-- What is done with a queue. -/
inductive QueueStep where
  | queue (m : ModuleName) (edit : Edit)
  | discard
  | commit
deriving DecidableEq, Repr

/-- The step queues an edit for the module, or is one for all modules. -/
def QueueStep.concerns (m : ModuleName) : QueueStep → Bool
  | .queue n _ => decide (n.Same m)
  | .discard | .commit => true

namespace EditQueue

/-- The queue after a step. -/
def step (q : EditQueue) : QueueStep → EditQueue
  | .queue m edit => (q.queue m edit).1
  | .discard => q.discard
  | .commit => q.commit.2

/-- The queue after a run. -/
def run (q : EditQueue) (steps : List QueueStep) : EditQueue := steps.foldl step q

/-- The edits of a module that a run took since its last commit or discard, in the order they came;
those before the run are `earlier`. -/
def taken (m : ModuleName) (q : EditQueue) (earlier : List Edit) : List QueueStep → List Edit
  | [] => earlier
  | .queue n edit :: rest =>
    (q.queue n edit).1.taken m
      (if n.Same m ∧ (q.queue n edit).2 = none then earlier ++ [edit] else earlier) rest
  | .discard :: rest => q.discard.taken m [] rest
  | .commit :: rest => q.commit.2.taken m [] rest

/-! ### One step, seen from one module -/

theorem queue_fst (q : EditQueue) (m : ModuleName) (e : Edit) :
    (q.queue m e).1 = match q.bufferOf? m with
      | none => q
      | some b => { q with buffers := q.buffers.insert m (b.take e) } := by
  rw [queue]
  cases q.bufferOf? m with
  | none => rfl
  | some b =>
    simp only [EditBuffer.take]
    cases b.judge e <;> rfl

theorem queue_snd_eq_none_iff (q : EditQueue) (m : ModuleName) (e : Edit) :
    (q.queue m e).2 = none ↔ ∃ b, q.bufferOf? m = some b ∧ b.accepts e = true := by
  rw [queue]
  cases q.bufferOf? m with
  | none => simp
  | some b =>
    simp only [accepts, Option.some.injEq, exists_eq_left']
    cases b.judge e <;> simp

theorem bufferOf?_congr (q : EditQueue) {n : ModuleName} (h : m.Same n) :
    q.bufferOf? m = q.bufferOf? n := by
  rw [bufferOf?, bufferOf?, get?_congr _ h, get?_congr _ h]

/-- An edit changes the buffer of its own module only. -/
theorem bufferOf?_queue (q : EditQueue) (n m : ModuleName) (e : Edit) :
    (q.queue n e).1.bufferOf? m =
      if n.Same m then (q.bufferOf? m).map (·.take e) else q.bufferOf? m := by
  rw [queue_fst]
  by_cases hsame : n.Same m
  · rw [if_pos hsame, ← bufferOf?_congr q hsame]
    cases hbuffer : q.bufferOf? n with
    | none => rw [← bufferOf?_congr q hsame, hbuffer]; rfl
    | some b => simp [bufferOf?, get?_insert, hsame]
  · rw [if_neg hsame]
    cases hbuffer : q.bufferOf? n with
    | none => rfl
    | some b => simp [bufferOf?, get?_insert, hsame]

theorem bufferOf?_discard (q : EditQueue) (m : ModuleName) :
    q.discard.bufferOf? m = (q.bufferOf? m).map cleared := by
  have hget : get? q.discard.buffers m = (get? q.buffers m).map cleared :=
    get?_map cleared q.buffers m
  rw [bufferOf?, bufferOf?, hget]
  cases get? q.buffers m with
  | some b => rfl
  | none =>
    show (get? q.host m).map _ = ((get? q.host m).map _).map _
    cases get? q.host m <;> rfl

end EditQueue

/-- The buffer of a module after a step of the queue. -/
def EditBuffer.follow (m : ModuleName) (b : EditBuffer) : QueueStep → EditBuffer
  | .queue n e => if n.Same m then b.take e else b
  | .discard | .commit => b.cleared

namespace EditQueue

theorem bufferOf?_step (q : EditQueue) (m : ModuleName) (s : QueueStep) :
    (q.step s).bufferOf? m = (q.bufferOf? m).map (·.follow m s) := by
  cases s with
  | queue n e =>
    rw [step, bufferOf?_queue]
    by_cases hsame : n.Same m
    · simp [follow, hsame]
    · simp [follow, hsame]
  | discard => exact bufferOf?_discard q m
  | commit => exact bufferOf?_discard q m

theorem bufferOf?_run (q : EditQueue) (m : ModuleName) (steps : List QueueStep) :
    (q.run steps).bufferOf? m = (q.bufferOf? m).map fun b => steps.foldl (·.follow m) b := by
  induction steps generalizing q with
  | nil => simp [run]
  | cons s steps ih =>
    show ((q.step s).run steps).bufferOf? m = _
    rw [ih, bufferOf?_step, Option.map_map]
    rfl

end EditQueue

namespace EditBuffer

variable {b : EditBuffer} {taken : List Edit}

/-- Steps for other modules leave the buffer as it is. -/
theorem foldl_follow_filter (m : ModuleName) (b : EditBuffer) (steps : List QueueStep) :
    (steps.filter (·.concerns m)).foldl (·.follow m) b = steps.foldl (·.follow m) b := by
  induction steps generalizing b with
  | nil => rfl
  | cons s steps ih =>
    by_cases hconcerns : s.concerns m = true
    · rw [filter_cons_of_pos hconcerns, foldl_cons, foldl_cons, ih]
    have hstay : b.follow m s = b := by
      cases s with
      | queue n e =>
        have hsame : ¬ n.Same m := by simpa [QueueStep.concerns] using hconcerns
        simp [follow, hsame]
      | discard => exact absurd rfl hconcerns
      | commit => exact absurd rfl hconcerns
    rw [filter_cons_of_neg hconcerns, foldl_cons, hstay, ih]

theorem foldl_follow_module (m : ModuleName) (b : EditBuffer) (steps : List QueueStep) :
    (steps.foldl (·.follow m) b).module = b.module := by
  induction steps generalizing b with
  | nil => rfl
  | cons s steps ih =>
    rw [foldl_cons, ih]
    cases s with
    | queue n e =>
      rw [follow]
      split
      · exact take_module b e
      · rfl
    | discard => rfl
    | commit => rfl

/-- A settled buffer whose edits come to the same as all those that were taken, and which still has
every replacement among them. -/
structure Keeps (b : EditBuffer) (taken : List Edit) : Prop where
  settled : b.Settled
  effect : SameEffect b.edits taken
  replaced : ∀ r text, .replace r text ∈ taken → .replace r text ∈ b.edits

namespace Keeps

theorem cleared (b : EditBuffer) : b.cleared.Keeps [] := ⟨settled_cleared b, .refl [], by simp⟩

theorem accept (h : b.Keeps taken) (he : b.accepts e = true) : (b.take e).Keeps (taken ++ [e]) := by
  rw [accepts] at he
  rw [take]
  cases hjudge : b.judge e with
  | queued =>
    refine ⟨h.settled.queued hjudge, h.effect.append e, ?_⟩
    intro r text hmem
    rcases mem_append.mp hmem with hmem | hmem
    · exact mem_append_left _ (h.replaced r text hmem)
    · exact mem_append_right _ hmem
  | absorbed =>
    have hrange : ∃ r, e.range? = some r := by
      cases e with
      | insert line text => exact absurd hjudge (judgeInsert_ne_absorbed b line)
      | replace range text => exact ⟨range, rfl⟩
      | delete range => exact ⟨range, rfl⟩
    obtain ⟨r, hr⟩ := hrange
    rw [judge_of_range b hr] at hjudge
    have hpending := judgeAgainst_absorbed (judgeRange_absorbed hjudge)
    refine ⟨h.settled, h.effect.absorb ?_ ?_, ?_⟩
    · rintro line text rfl
      cases hr
    · rcases hpending with hmem | ⟨hdelete, f, hf, s, hs, hcontains⟩
      · exact .inl hmem
      · exact .inr ⟨hdelete, r, hr, f, hf, s, hs, hcontains⟩
    · intro s text hmem
      rcases mem_append.mp hmem with hmem | hmem
      · exact h.replaced s text hmem
      · obtain rfl := mem_singleton.mp hmem
        rcases hpending with hmem | ⟨hdelete, -⟩
        · exact hmem
        · cases hdelete
  | outOfRange first last => simp [hjudge] at he
  | overlap pending new => simp [hjudge] at he

theorem refuse (h : b.Keeps taken) (he : ¬ b.accepts e = true) : (b.take e).Keeps taken := by
  have hstay : b.take e = b := by
    rw [accepts] at he
    rw [take]
    cases hjudge : b.judge e <;> simp_all
  rw [hstay]
  exact h

/-- The text of a replacement that was taken and starts at a line is the only one. -/
theorem findSome?_replacedText? (h : b.Keeps taken) {text : Text} (hmem : .replace r text ∈ taken) :
    taken.findSome? (replacedText? r.first) = some text := by
  cases hfind : taken.findSome? (replacedText? r.first) with
  | none =>
    have hnone := findSome?_eq_none_iff.mp hfind _ hmem
    simp [replacedText?] at hnone
  | some found =>
    obtain ⟨f, hf, htext⟩ := exists_of_findSome?_eq_some hfind
    obtain ⟨s, rfl, hs⟩ := replacedText?_eq_some htext
    have hpending := h.replaced _ _ hmem
    have hpending' := h.replaced _ _ hf
    have hfirst := h.settled.first_holds hpending rfl
    have hfirst' := h.settled.first_holds hpending' rfl
    have heq := h.settled.eq_of_holds hpending hpending' rfl rfl hfirst (hs ▸ hfirst')
    cases heq
    rfl

end Keeps

/-- Edits of ranges in another order come to the same. -/
theorem Keeps.sameEffect {other : List Edit} (h : b.Keeps taken)
    (hinserts : taken.filter (·.range?.isNone) = other.filter (·.range?.isNone))
    (hranges : ∀ e, e.range?.isSome = true → (e ∈ taken ↔ e ∈ other)) : SameEffect taken other := by
  refine ⟨?_, ?_, ?_⟩
  · have hfilter (edits : List Edit) (line : Nat) : edits.filterMap (insertedText? line) =
        (edits.filter (·.range?.isNone)).filterMap (insertedText? line) := by
      rw [filterMap_filter]
      congr 1
      funext e
      cases e <;> rfl
    intro line
    rw [hfilter taken, hfilter other, hinserts]
  · intro line
    cases hfind : other.findSome? (replacedText? line) with
    | some text =>
      obtain ⟨e, he, htext⟩ := exists_of_findSome?_eq_some hfind
      obtain ⟨r, rfl, rfl⟩ := replacedText?_eq_some htext
      exact h.findSome?_replacedText? ((hranges _ rfl).mpr he)
    | none =>
      rw [findSome?_eq_none_iff] at hfind ⊢
      intro e he
      cases htext : e.replacedText? line with
      | none => rfl
      | some text =>
        obtain ⟨r, rfl, rfl⟩ := replacedText?_eq_some htext
        have hnone := hfind _ ((hranges _ rfl).mp he)
        rw [htext] at hnone
        exact hnone
  · intro line
    rw [Bool.eq_iff_iff, any_eq_true, any_eq_true]
    have hsome : ∀ e : Edit, e.takesLine line = true → e.range?.isSome = true := by
      intro e he
      cases e with
      | insert before text => cases he
      | replace range text => rfl
      | delete range => rfl
    constructor
    · rintro ⟨e, he, htakes⟩
      exact ⟨e, (hranges e (hsome e htakes)).mp he, htakes⟩
    · rintro ⟨e, he, htakes⟩
      exact ⟨e, (hranges e (hsome e htakes)).mpr he, htakes⟩

/-- The new text of the module, if the edits change it. -/
def changed? (b : EditBuffer) : Option Text :=
  if !b.edits.isEmpty && b.appliedText ≠ b.module.text then some b.appliedText else none

/-- A settled buffer changes its module where the edited lines give another text. -/
theorem changed?_eq (hb : b.Settled) :
    b.changed? = if b.module.joined (b.module.edited b.edits) = b.module.text then none
      else some (b.module.joined (b.module.edited b.edits)) := by
  rw [changed?, appliedText, applied_eq_edited hb]
  by_cases hempty : b.edits = []
  · rw [hempty, edited_nil]
    simp [text]
  · simp only [hempty, Bool.and_eq_true, Bool.not_eq_true', decide_eq_true_eq,
      isEmpty_eq_false_iff, ne_eq, not_false_eq_true, true_and]
    split <;> simp_all

end EditBuffer

namespace EditQueue

/-- The buffer of a module keeps what a run took for it. -/
theorem keeps_taken {b : EditBuffer} {earlier : List Edit} (hq : q.bufferOf? m = some b)
    (hb : b.Keeps earlier) (steps : List QueueStep) :
    (steps.foldl (·.follow m) b).Keeps (q.taken m earlier steps) := by
  induction steps generalizing q b earlier with
  | nil => exact hb
  | cons s steps ih =>
    have hnext : (q.step s).bufferOf? m = some (b.follow m s) := by
      rw [bufferOf?_step, hq]
      rfl
    cases s with
    | queue n e =>
      rw [foldl_cons, taken]
      apply ih hnext
      by_cases hsame : n.Same m
      · have hbuffer : q.bufferOf? n = some b := (bufferOf?_congr q hsame).trans hq
        have hfollow : b.follow m (.queue n e) = b.take e := by simp [follow, hsame]
        rw [hfollow]
        by_cases haccepts : b.accepts e = true
        · have hnone := (queue_snd_eq_none_iff q n e).mpr ⟨b, hbuffer, haccepts⟩
          rw [if_pos ⟨hsame, hnone⟩]
          exact hb.accept haccepts
        · have hnone : ¬ (n.Same m ∧ (q.queue n e).2 = none) := by
            rintro ⟨-, hnone⟩
            obtain ⟨c, hc, haccepts'⟩ := (queue_snd_eq_none_iff q n e).mp hnone
            rw [hbuffer] at hc
            cases hc
            exact haccepts haccepts'
          rw [if_neg hnone]
          exact hb.refuse haccepts
      · have hfollow : b.follow m (.queue n e) = b := by simp [follow, hsame]
        rw [hfollow, if_neg fun h => hsame h.1]
        exact hb
    | discard =>
      rw [foldl_cons, taken]
      exact ih hnext (.cleared b)
    | commit =>
      rw [foldl_cons, taken]
      exact ih hnext (.cleared b)

section

variable (h : Sorted q.buffers)

include h

theorem sorted_step (s : QueueStep) : Sorted (q.step s).buffers := by
  cases s with
  | queue n e =>
    rw [step, queue_fst]
    cases q.bufferOf? n with
    | none => exact h
    | some b => exact sorted_insert n _ h
  | discard => exact sorted_map cleared h
  | commit => exact sorted_map cleared h

theorem sorted_run (steps : List QueueStep) : Sorted (q.run steps).buffers := by
  induction steps generalizing q with
  | nil => exact h
  | cons s steps ih => exact ih (sorted_step h s)

/-- What a commit gives for a module is decided by its buffer. -/
theorem get?_changes (m : ModuleName) :
    get? q.changes m = (q.bufferOf? m).bind changed? := by
  have hchanges : q.changes =
      q.buffers.filterMap fun entry => (entry.2.changed?).map (entry.1, ·) := by
    rw [changes]
    congr 1
    funext entry
    rcases entry with ⟨k, b⟩
    show (if _ then some (k, b.appliedText) else none) = b.changed?.map (k, ·)
    rw [changed?]
    split <;> rfl
  rw [hchanges, get?_filterMap _ h, bufferOf?]
  cases get? q.buffers m with
  | some b => rfl
  | none => cases hhost : get? q.host m <;> simp [changed?]

end

theorem pending_discard (q : EditQueue) (m : ModuleName) : q.discard.pending m = [] := by
  have hget : get? q.discard.buffers m = (get? q.buffers m).map cleared :=
    get?_map cleared q.buffers m
  rw [pending, hget]
  cases get? q.buffers m <;> rfl

/-- What a commit after a run gives for a module, through the edits that the run took for it. -/
theorem get?_commit_run {host : ModuleMap ModuleLines} {module : ModuleLines}
    (hm : host.get? m = some module) (steps : List QueueStep) :
    get? ((start host).run steps).commit.1 m =
      if module.joined (module.edited ((start host).taken m [] steps)) = module.text then none
      else some (module.joined (module.edited ((start host).taken m [] steps))) := by
  have hstart : (start host).bufferOf? m = some ⟨module, []⟩ := by
    simp [bufferOf?, start, hm]
  have hkeeps := keeps_taken hstart (.cleared ⟨module, []⟩) steps
  have hmodule := foldl_follow_module m ⟨module, []⟩ steps
  have hnil : Sorted (start host).buffers := sorted_nil
  have hsorted := sorted_run hnil steps
  rw [commit, get?_changes hsorted, bufferOf?_run, hstart]
  simp only [Option.map_some, Option.bind_some]
  rw [changed?_eq hkeeps.settled, hkeeps.effect.edited_eq, hmodule]

/-- A commit applies every pending edit once. Whatever run came before it, the text that it gives for
a module has at the place of each line the inserts taken since the last commit or discard, in order,
then the replacement that starts there or the line itself; a module is in the result where this text
differs from its own. Afterwards nothing is pending. Neither the order in which edits of ranges came
nor what was done to other modules counts. -/
theorem commit_after_run (host : ModuleMap ModuleLines) (steps : List QueueStep) (m : ModuleName)
    (module : ModuleLines) (hm : host.get? m = some module) :
    (ModuleMap.get? ((start host).run steps).commit.1 m =
      if module.joined (module.edited ((start host).taken m [] steps)) = module.text then none
      else some (module.joined (module.edited ((start host).taken m [] steps)))) ∧
    (∀ n, ((start host).run steps).commit.2.pending n = []) ∧
    (∀ steps' : List QueueStep,
      ((start host).taken m [] steps).filter (·.range?.isNone) =
        ((start host).taken m [] steps').filter (·.range?.isNone) →
      (∀ e, e.range?.isSome = true →
        (e ∈ (start host).taken m [] steps ↔ e ∈ (start host).taken m [] steps')) →
      ModuleMap.get? ((start host).run steps).commit.1 m =
        ModuleMap.get? ((start host).run steps').commit.1 m) ∧
    ModuleMap.get? ((start host).run steps).commit.1 m =
      ModuleMap.get? ((start host).run (steps.filter (·.concerns m))).commit.1 m := by
  have hstart : (start host).bufferOf? m = some ⟨module, []⟩ := by
    simp [bufferOf?, start, hm]
  have hnil : ModuleMap.Sorted (start host).buffers := ModuleMap.sorted_nil
  refine ⟨get?_commit_run hm steps, fun n => pending_discard _ n, ?_, ?_⟩
  · intro steps' hinserts hranges
    have hkeeps := keeps_taken hstart (.cleared ⟨module, []⟩) steps
    have heffect := hkeeps.sameEffect hinserts hranges
    rw [get?_commit_run hm steps, get?_commit_run hm steps', heffect.edited_eq]
  · rw [commit, commit, get?_changes (sorted_run hnil steps), get?_changes (sorted_run hnil _),
      bufferOf?_run, bufferOf?_run, hstart]
    simp only [Option.map_some]
    rw [EditBuffer.foldl_follow_filter]

/-- After a discard, a replacement, a delete that is queued twice and two inserts. -/
theorem commit_after_run_mixed :
    let m : ModuleName := ⟨['p'], ['m']⟩
    let host : ModuleMap ModuleLines := [(m, ⟨[['a'], ['b'], ['c'], ['d']], ['\n'], true⟩)]
    let steps : List QueueStep :=
      [.queue m (.insert 1 ['z']), .discard, .queue m (.delete ⟨3, 3⟩),
        .queue m (.replace ⟨2, 2⟩ ['x', '\n', 'y']), .queue m (.delete ⟨3, 3⟩),
        .queue m (.insert 5 ['e']), .queue m (.insert 1 ['t'])]
    host.get? m = some ⟨[['a'], ['b'], ['c'], ['d']], ['\n'], true⟩ ∧
      ModuleMap.get? ((start host).run steps).commit.1 m =
        some ['t', '\n', 'a', '\n', 'x', '\n', 'y', '\n', 'd', '\n', 'e', '\n'] := by
  intro m host steps
  have hm : host.get? m = some ⟨[['a'], ['b'], ['c'], ['d']], ['\n'], true⟩ := by decide
  exact ⟨hm, (commit_after_run host steps m _ hm).1.trans (by decide)⟩

end EditQueue

end VbaRefactor
