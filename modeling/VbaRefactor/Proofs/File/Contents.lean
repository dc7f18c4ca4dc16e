import VbaRefactor.Proofs.File.Places

/-!
# What disks hold

The content of a disk says which bytes the file at a place has. A disk obeys its content if reading
gives it, a write changes one place only, and a file that is given another path takes its content
with it, at once or not at all. Any operation may fail; what it can have done then is part of these
laws.
-/

namespace VbaRefactor

open List

variable {bytes : Bytes} {p : Path} {purpose : Text}

namespace Text

/-! ## Texts -/

theorem toList_loop (bytes : ByteArray) (i : Nat) (found : List UInt8) :
    ByteArray.toList.loop bytes i found = found.reverse ++ bytes.data.toList.drop i := by
  fun_induction ByteArray.toList.loop bytes i found with
  | case1 i found h ih =>
    have hget : bytes.get! i = bytes.data[i] := getElem!_pos bytes.data i h
    have hdrop : bytes.data.toList.drop i = bytes.data[i] :: bytes.data.toList.drop (i + 1) :=
      drop_eq_getElem_cons (by simpa using h)
    rw [ih, reverse_cons, append_assoc, hget, hdrop]
    rfl
  | case2 i found h =>
    rw [drop_eq_nil_of_le (by simpa using h), append_nil]

theorem decode?_encode (t : Text) : decode? (encode t) = some t := by
  have hbytes : (⟨(encode t).toArray⟩ : ByteArray) = (String.ofList t).toUTF8 := by
    rw [encode, ByteArray.toList, toList_loop]
    rfl
  rw [decode?, hbytes, String.fromUTF8?, String.toUTF8_eq_toByteArray,
    dif_pos (String.ofList t).isValidUTF8]
  exact congrArg some String.toList_ofList

end Text

variable {S α β : Type} {s s' : S} {r : Except Error β} {x : ExceptT Error (StateM S) α}

/-! ## Runs -/

/-- What an action gives in a state, and the state that it leaves. -/
def runOn (x : StateM S α) (s : S) : α × S := x.run s

theorem runOn_pure (a : α) (s : S) : runOn (pure a) s = (a, s) := rfl

theorem runOn_bind (x : StateM S α) (f : α → StateM S β) (s : S) :
    runOn (x >>= f) s = runOn (f (runOn x s).1) (runOn x s).2 := rfl

theorem runOn_ok_iff {a : α} {r : Except Error α} :
    runOn (pure a : ExceptT Error (StateM S) α).run s = (r, s') ↔ r = .ok a ∧ s' = s := by
  rw [ExceptT.run_pure, runOn_pure, Prod.mk.injEq, eq_comm, @eq_comm _ s]

theorem runOn_throw_iff {e : Error} {r : Except Error α} :
    runOn (throw e : ExceptT Error (StateM S) α).run s = (r, s') ↔ r = .error e ∧ s' = s := by
  rw [ExceptT.run_throw, runOn_pure, Prod.mk.injEq, eq_comm, @eq_comm _ s]

/-- A run of two actions fails in the first one, or goes on with what it gives. -/
theorem runOn_bind_iff {f : α → ExceptT Error (StateM S) β} : runOn (x >>= f).run s = (r, s') ↔
      (∃ e, runOn x.run s = (.error e, s') ∧ r = .error e) ∨
        ∃ a t, runOn x.run s = (.ok a, t) ∧ runOn (f a).run t = (r, s') := by
  rw [ExceptT.run_bind, runOn_bind]
  generalize runOn x.run s = first
  rcases first with ⟨e | a, t⟩
  · constructor
    · rintro ⟨⟩
      exact .inl ⟨e, rfl, rfl⟩
    · rintro (⟨_, ⟨⟩, rfl⟩ | ⟨_, _, ⟨⟩, -⟩)
      rfl
  · constructor
    · exact fun h => .inr ⟨a, t, rfl, h⟩
    · rintro (⟨_, ⟨⟩, -⟩ | ⟨_, _, ⟨⟩, h⟩)
      exact h

theorem runOn_map_iff {f : α → β} :
    runOn (f <$> x).run s = (r, s') ↔ ∃ found, runOn x.run s = (found, s') ∧ r = found.map f := by
  rw [ExceptT.run_map]
  have hmap : runOn (Except.map f <$> x.run) s = ((runOn x.run s).1.map f, (runOn x.run s).2) := rfl
  rw [hmap, Prod.mk.injEq]
  constructor
  · rintro ⟨rfl, rfl⟩
    exact ⟨_, rfl, rfl⟩
  · rintro ⟨found, hfound, rfl⟩
    rw [hfound]
    exact ⟨rfl, rfl⟩

namespace Disk

/-- An operation that fails is an error about its path. -/
theorem runOn_attempt (p : Path) (action : StateM S (Except FileFault α)) (s : S) :
    runOn (attempt p action).run s =
      ((runOn action s).1.mapError (.file p.text ·), (runOn action s).2) := by
  rw [attempt, ExceptT.run_mk, runOn_bind]
  rcases runOn action s with ⟨_ | _, _⟩ <;> rfl

theorem exists_of_runOn_attempt {action : StateM S (Except FileFault α)} {r : Except Error α}
    (h : runOn (attempt p action).run s = (r, s')) :
    ∃ found, runOn action s = (found, s') ∧ (∀ a, r = .ok a ↔ found = .ok a) ∧
      ((∃ e, r = .error e) ↔ ∃ fault, found = .error fault) := by
  rw [runOn_attempt] at h
  generalize runOn action s = found at h
  rcases found with ⟨fault | a, t⟩
  · cases h
    exact ⟨.error fault, rfl, fun a => iff_of_false nofun nofun, iff_of_true ⟨_, rfl⟩ ⟨fault, rfl⟩⟩
  · cases h
    refine ⟨.ok a, rfl, fun b => ?_, iff_of_false nofun nofun⟩
    constructor <;> (rintro ⟨⟩; rfl)

/-! ## Laws -/

/-- The laws of a disk whose files have contents: every operation says what it did to them, whether
it succeeded or failed. -/
structure Obeys (disk : Disk (StateM S)) (content : S → FilePlace → Option Bytes) : Prop where
  read : ∀ {p s s' r}, runOn (disk.read p) s = (r, s') →
    content s' = content s ∧ ∀ bytes, r = .ok bytes → content s p.place = some bytes
  makeDirectories : ∀ {p s s' r}, runOn (disk.makeDirectories p) s = (r, s') → content s' = content s
  /-- A write that fails can leave anything in its own file. -/
  write : ∀ {p bytes s s' r}, runOn (disk.write p bytes) s = (r, s') →
    (∀ place, place ≠ p.place → content s' place = content s place) ∧
      (r = .ok () → content s' p.place = some bytes)
  /-- A file gets another path at once or not at all. -/
  rename : ∀ {p q s s' r}, runOn (disk.rename p q) s = (r, s') →
    (∀ place, place ≠ p.place → place ≠ q.place → content s' place = content s place) ∧
      (r = .ok () → content s' q.place = content s p.place) ∧
      ∀ fault, r = .error fault → content s' = content s

section

variable {disk : Disk (StateM S)} {content : S → FilePlace → Option Bytes}

section

variable {r : Except Error Unit} (h : disk.Obeys content)

include h

theorem Obeys.readFile {r : Except Error Bytes} (hrun : runOn (disk.readFile p).run s = (r, s')) :
    content s' = content s ∧ ∀ bytes, r = .ok bytes → content s p.place = some bytes := by
  obtain ⟨found, hfound, hok, -⟩ := exists_of_runOn_attempt hrun
  obtain ⟨hkeeps, hread⟩ := h.read hfound
  exact ⟨hkeeps, fun bytes hr => hread bytes ((hok bytes).mp hr)⟩

theorem Obeys.writeFile (hrun : runOn (disk.writeFile p bytes).run s = (r, s')) :
    (∀ place, place ≠ p.place → content s' place = content s place) ∧
      (r = .ok () → content s' p.place = some bytes) := by
  obtain ⟨found, hfound, hok, -⟩ := exists_of_runOn_attempt hrun
  obtain ⟨hkeeps, hwrite⟩ := h.write hfound
  exact ⟨hkeeps, fun hr => hwrite ((hok ()).mp hr)⟩

theorem Obeys.makeAll (hrun : runOn (disk.makeAll p).run s = (r, s')) : content s' = content s := by
  obtain ⟨found, hfound, -, -⟩ := exists_of_runOn_attempt hrun
  exact h.makeDirectories hfound

/-- An action on a file after the directories above it have been made. -/
theorem Obeys.makeParent {k : Unit → ExceptT Error (StateM S) α} {r : Except Error α}
    (hrun : runOn (match p.parent? with
      | some above => disk.makeAll above >>= k
      | _ => k ()).run s = (r, s')) :
    (∃ e, r = .error e ∧ content s' = content s) ∨
      ∃ t, content t = content s ∧ runOn (k ()).run t = (r, s') := by
  split at hrun
  · rcases runOn_bind_iff.mp hrun with ⟨e, hmake, rfl⟩ | ⟨_, t, hmake, hrest⟩
    · exact .inl ⟨e, rfl, h.makeAll hmake⟩
    · exact .inr ⟨t, h.makeAll hmake, hrest⟩
  · exact .inr ⟨s, rfl, hrun⟩

/-- Replacing a file is atomic: it has its new content or the old one, and apart from the prepared
file all others stay as they are. -/
theorem Obeys.replaceFile (hne : (preparedPath p purpose).place ≠ p.place)
    (hrun : runOn (disk.replaceFile p bytes purpose).run s = (r, s')) :
    (∀ place, place ≠ p.place → place ≠ (preparedPath p purpose).place →
        content s' place = content s place) ∧
      (r = .ok () → content s' p.place = some bytes) ∧
      ∀ e, r = .error e → content s' p.place = content s p.place := by
  rw [Disk.replaceFile] at hrun
  rcases runOn_bind_iff.mp hrun with ⟨e, hwrite, rfl⟩ | ⟨_, t, hwrite, hrename⟩
  · obtain ⟨hkeeps, -⟩ := h.writeFile hwrite
    exact ⟨fun place _ hplace => hkeeps place hplace, fun hr => (by cases hr),
      fun _ _ => hkeeps _ hne.symm⟩
  · obtain ⟨hkeeps, hwritten⟩ := h.writeFile hwrite
    obtain ⟨found, hfound, hok, hfailed⟩ := exists_of_runOn_attempt hrename
    obtain ⟨hothers, hmoved, hnone⟩ := h.rename hfound
    refine ⟨?_, ?_, ?_⟩
    · intro place hplace hprepared
      rw [hothers place hprepared hplace, hkeeps place hprepared]
    · intro hr
      rw [hmoved ((hok ()).mp hr), hwritten rfl]
    · intro e hr
      obtain ⟨fault, hfault⟩ := hfailed.mp ⟨e, hr⟩
      rw [hnone fault hfault, hkeeps _ hne.symm]

end

end

/-! ## Reliable disks -/

/-- A disk on which everything succeeds that can: a file that is there can be read and moved, and
files and directories can always be made. -/
structure Reliable (disk : Disk (StateM S)) (content : S → FilePlace → Option Bytes) : Prop where
  read : ∀ {p s bytes}, content s p.place = some bytes → (runOn (disk.read p) s).1 = .ok bytes
  makeDirectories : ∀ p s, (runOn (disk.makeDirectories p) s).1 = .ok ()
  write : ∀ p bytes s, (runOn (disk.write p bytes) s).1 = .ok ()
  rename : ∀ {p s} (q), content s p.place ≠ none → (runOn (disk.rename p q) s).1 = .ok ()

section

variable {disk : Disk (StateM S)} {content : S → FilePlace → Option Bytes}

/-- An operation that succeeds gives its result. -/
theorem exists_of_ok {action : StateM S (Except FileFault α)} {a : α} (h : (runOn action s).1 = .ok a) :
    ∃ t, runOn (attempt p action).run s = (.ok a, t) := by
  refine ⟨(runOn action s).2, ?_⟩
  rw [runOn_attempt, h]
  rfl

theorem Reliable.readFile (h : disk.Reliable content) (hbytes : content s p.place = some bytes) :
    ∃ t, runOn (disk.readFile p).run s = (.ok bytes, t) :=
  exists_of_ok (h.read hbytes)

/-- An action on a file gets to run, after the directories above the file have been made. -/
theorem Reliable.makeParent (h : disk.Reliable content) (hdisk : disk.Obeys content) (p : Path) (s : S) :
    ∃ t, content t = content s ∧
      ∀ {k : Unit → ExceptT Error (StateM S) α} {r s'}, runOn (k ()).run t = (r, s') →
        runOn (match p.parent? with
          | some above => disk.makeAll above >>= k
          | _ => k ()).run s = (r, s') := by
  split
  · rename_i above _
    obtain ⟨t, hmake⟩ : ∃ t, runOn (disk.makeAll above).run s = (.ok (), t) :=
      exists_of_ok (h.makeDirectories above s)
    exact ⟨t, hdisk.makeAll hmake, fun hk => runOn_bind_iff.mpr (.inr ⟨(), t, hmake, hk⟩)⟩
  · exact ⟨s, rfl, fun hk => hk⟩

theorem Reliable.replaceFile (h : disk.Reliable content) (hdisk : disk.Obeys content) (p : Path)
    (bytes : Bytes) (purpose : Text) (s : S) :
    ∃ t, runOn (disk.replaceFile p bytes purpose).run s = (.ok (), t) := by
  obtain ⟨t, hwrite⟩ : ∃ t, runOn (disk.writeFile (preparedPath p purpose) bytes).run s = (.ok (), t) :=
    exists_of_ok (h.write _ bytes s)
  have hthere := (hdisk.writeFile hwrite).2 rfl
  obtain ⟨t', hrename⟩ : ∃ t', runOn (attempt p (disk.rename (preparedPath p purpose) p)).run t =
    (.ok (), t') := exists_of_ok (h.rename p (by rw [hthere]; simp))
  exact ⟨t', runOn_bind_iff.mpr (.inr ⟨(), t, hwrite, hrename⟩)⟩

end

/-! ## A shelf -/

/-- A disk that is nothing but the content of its files. Writing to a path that is `broken` fails. -/
def shelf (broken : Path → Bool) : Disk (StateM (FilePlace → Option Bytes)) where
  read p := fun s => ((s p.place).elim (.error .notFound) .ok, s)
  write p bytes := fun s =>
    if broken p then (.error (.described "Input/output error (os error 5)"), s)
    else (.ok (), fun place => if place = p.place then some bytes else s place)
  rename p q := fun s =>
    if (s p.place).isSome then
      (.ok (), fun place =>
        if place = q.place then s p.place else if place = p.place then none else s place)
    else (.error .notFound, s)
  makeDirectories _ := fun s => (.ok (), s)
  isFile p := fun s => ((s p.place).isSome, s)
  isDirectory _ := fun s => (false, s)
  list _ := fun s => ([], s)
  ownName? _ := fun s => (none, s)
  newId := fun s => ([], s)
  now := fun s => ([], s)

theorem obeys_shelf (broken : Path → Bool) : (shelf broken).Obeys id where
  read {p s s' r} h := by
    obtain ⟨rfl, rfl⟩ : (s p.place).elim (.error .notFound) .ok = r ∧ s = s' := Prod.mk.inj h
    refine ⟨rfl, ?_⟩
    intro bytes hbytes
    cases hfile : s p.place with
    | none =>
      rw [hfile] at hbytes
      cases hbytes
    | some found =>
      rw [hfile] at hbytes
      cases hbytes
      exact hfile
  makeDirectories {p s s' r} h := by
    cases h
    rfl
  write {p bytes s s' r} h := by
    change (if broken p then _ else _) = (r, s') at h
    split at h
    · cases h
      exact ⟨fun _ _ => rfl, nofun⟩
    · cases h
      exact ⟨fun place hplace => if_neg hplace, fun _ => if_pos rfl⟩
  rename {p q s s' r} h := by
    change (if (s p.place).isSome then _ else _) = (r, s') at h
    split at h
    · cases h
      refine ⟨?_, fun _ => if_pos rfl, nofun⟩
      intro place hp hq
      exact (if_neg hq).trans (if_neg hp)
    · cases h
      exact ⟨fun _ _ _ => rfl, fun hr => (by cases hr), fun _ _ => rfl⟩

/-- On a shelf a file can be replaced unless the place where it is prepared is broken. -/
theorem replaceFile_shelf {broken : Path → Bool} (h : broken (preparedPath p purpose) = false)
    (bytes : Bytes) (s : FilePlace → Option Bytes) :
    (runOn ((shelf broken).replaceFile p bytes purpose).run s).1 = .ok () := by
  let t : FilePlace → Option Bytes :=
    fun place => if place = (preparedPath p purpose).place then some bytes else s place
  have hprepared : t (preparedPath p purpose).place = some bytes := if_pos rfl
  have hwrite : runOn ((shelf broken).write (preparedPath p purpose) bytes) s = (.ok (), t) := by
    show (if broken (preparedPath p purpose) = true then _ else _) = _
    rw [h]
    rfl
  have hrename : (runOn ((shelf broken).rename (preparedPath p purpose) p) t).1 = .ok () := by
    show (if (t (preparedPath p purpose).place).isSome = true then _ else _ : _ × _).1 = _
    rw [hprepared]
    rfl
  obtain ⟨r, s', hrun⟩ : ∃ r s', runOn ((shelf broken).replaceFile p bytes purpose).run s = (r, s') :=
    ⟨_, _, rfl⟩
  rw [hrun]
  rw [replaceFile] at hrun
  rcases runOn_bind_iff.mp hrun with ⟨e, hfailed, -⟩ | ⟨_, t', hwritten, hrest⟩
  · rw [writeFile, runOn_attempt, hwrite] at hfailed
    cases hfailed
  · rw [writeFile, runOn_attempt, hwrite] at hwritten
    cases hwritten
    rw [runOn_attempt, hrename] at hrest
    exact (Prod.mk.inj hrest).1.symm

theorem reliable_shelf : (shelf fun _ => false).Reliable id where
  read {p s bytes} h := by
    show (s p.place).elim (Except.error FileFault.notFound) Except.ok = _
    rw [show s p.place = some bytes from h]
    rfl
  makeDirectories _ _ := rfl
  write _ _ _ := rfl
  rename {p s} q h := by
    have hthere : (s p.place).isSome = true := Option.isSome_iff_ne_none.mpr h
    show (if (s p.place).isSome then _ else _ : _ × _).1 = _
    rw [if_pos hthere]

end Disk

end VbaRefactor
