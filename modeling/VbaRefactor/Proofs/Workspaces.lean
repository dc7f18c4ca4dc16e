import Mathlib.Data.List.Forall2
import VbaRefactor.Proofs.File.Contents
import VbaRefactor.Proofs.ModuleTable
import VbaRefactor.Workspace

/-!
# Writing a workspace

Changes are written to all files of a workspace or to none. What every single write can do to the
files is known from the laws of the disk; the writes that were made before one that fails are put
back, so that an error leaves all files with the bytes that they had.
-/

namespace VbaRefactor

open List ModuleMap

variable {b : Backup} {f : ModuleName × Path} {change : ModuleName × Text} {S : Type}
  {w : Workspace}

namespace Backup

/-! ## Copies -/

/-- Where the copy of a file goes in a backup. -/
def copyPath? (b : Backup) (file : Path) : Option Path :=
  (file.relativeTo? b.root).map fun path => b.directory.join path.text

/-- The backup with one more file. -/
def holding (b : Backup) (entry : SavedFile) : Backup :=
  { b with manifest := { b.manifest with files := b.manifest.files ++ [entry] } }

/-- Copying a file changes nothing but its copy. A copy that was made has the bytes of the file. -/
theorem runOn_add {s s' : S} {disk : Disk (StateM S)} {content : S → FilePlace → Option Bytes}
    (hdisk : disk.Obeys content) {file : Path} {r : Except Error Backup}
    (h : runOn (b.add disk file).run s = (r, s')) :
    (∀ place, (∀ copy, b.copyPath? file = some copy → place ≠ copy.place) →
        content s' place = content s place) ∧
      ∀ b', r = .ok b' → ∃ path, file.relativeTo? b.root = some path ∧
        ((b' = b ∧ s' = s ∧ ∃ e ∈ b.manifest.files, e.path.components = path.components) ∨
          ∃ bytes, content s file.place = some bytes ∧
            content s' (b.directory.join path.text).place = some bytes ∧
            b' = b.holding ⟨path, sha256 bytes, bytes.length⟩) := by
  rw [add] at h
  split at h
  · obtain ⟨rfl, rfl⟩ := runOn_throw_iff.mp h
    exact ⟨fun _ _ => rfl, fun _ hr => by cases hr⟩
  rename_i path hpath
  split at h
  · rename_i hany
    obtain ⟨rfl, rfl⟩ := runOn_ok_iff.mp h
    refine ⟨fun _ _ => rfl, ?_⟩
    rintro _ ⟨⟩
    obtain ⟨e, he, heq⟩ := any_eq_true.mp hany
    exact ⟨path, hpath, .inl ⟨rfl, rfl, e, he, of_decide_eq_true heq⟩⟩
  · have hcopy : b.copyPath? file = some (b.directory.join path.text) := by rw [copyPath?, hpath]; rfl
    rcases runOn_bind_iff.mp h with ⟨e, hread, rfl⟩ | ⟨bytes, t, hread, hrest⟩
    · exact ⟨fun _ _ => by rw [(hdisk.readFile hread).1], fun _ hr => by cases hr⟩
    obtain ⟨hkeeps, hbytes⟩ := hdisk.readFile hread
    have hplaces {t' : S} (hsame : ∀ place, place ≠ (b.directory.join path.text).place →
        content t' place = content s place) (place : FilePlace)
        (hplace : ∀ copy, b.copyPath? file = some copy → place ≠ copy.place) :
        content t' place = content s place :=
      hsame place (hplace _ hcopy)
    rcases hdisk.makeParent hrest with ⟨e, rfl, hsame⟩ | ⟨t', hsame, hcopied⟩
    · exact ⟨hplaces fun _ _ => by rw [hsame, hkeeps], fun _ hr => by cases hr⟩
    rcases runOn_bind_iff.mp hcopied with ⟨e, hwrite, rfl⟩ | ⟨_, t'', hwrite, hlast⟩
    · obtain ⟨hothers, -⟩ := hdisk.writeFile hwrite
      exact ⟨hplaces fun place hplace => by rw [hothers place hplace, hsame, hkeeps],
        fun _ hr => by cases hr⟩
    · obtain ⟨hothers, hwritten⟩ := hdisk.writeFile hwrite
      obtain ⟨rfl, rfl⟩ := runOn_ok_iff.mp hlast
      refine ⟨hplaces fun place hplace => by rw [hothers place hplace, hsame, hkeeps], ?_⟩
      rintro _ ⟨⟩
      exact ⟨path, hpath, .inr ⟨bytes, hbytes bytes rfl, hwritten rfl, rfl⟩⟩

end Backup

namespace Workspace

/-! ## Files of modules -/

/-- What holds of every workspace that was loaded: there is one file for each module, with the name of
the module and the extension of a module file, and none of them is in a backup. -/
structure Regular (w : Workspace) : Prop where
  sorted : ModuleMap.Sorted w.files
  named : ∀ f ∈ w.files, f.1.project = w.name ∧ f.2.stem? = some f.1.component
  isModule : ∀ f ∈ w.files, moduleKind? f.2 ≠ none
  outside : ∀ f ∈ w.files, f.2.passes Backup.home = false

section

variable (hw : w.Regular) {g : ModuleName × Path}

include hw

theorem Regular.exists_fileName (hf : f ∈ w.files) : ∃ name, f.2.fileName? = some name ∧
    (Path.stemAndExtension name).1 = f.1.component := by
  obtain ⟨-, hstem⟩ := hw.named f hf
  obtain ⟨name, hname, heq⟩ := Option.map_eq_some_iff.mp hstem
  exact ⟨name, hname, heq⟩

/-- The files of different modules stand at different places. -/
theorem Regular.eq_of_place (hf : f ∈ w.files) (hg : g ∈ w.files) (h : f.2.place = g.2.place) :
    f = g := by
  obtain ⟨name, hname, hcomponent⟩ := hw.exists_fileName hf
  obtain ⟨name', hname', hcomponent'⟩ := hw.exists_fileName hg
  obtain ⟨-, q, -, hplace⟩ := Path.exists_place_of_fileName? hname
  obtain ⟨-, q', -, hplace'⟩ := Path.exists_place_of_fileName? hname'
  rw [hplace, hplace'] at h
  obtain ⟨rfl, -⟩ := List.cons.inj h
  have hmodule : f.1 = g.1 := by
    have hproject := (hw.named f hf).1.trans (hw.named g hg).1.symm
    rcases hf₁ : f.1 with ⟨project, component⟩
    rcases hg₁ : g.1 with ⟨project', component'⟩
    rw [hf₁, hg₁] at hproject
    rw [hf₁] at hcomponent
    rw [hg₁] at hcomponent'
    rw [show project = project' from hproject,
      show component = component' from hcomponent.symm.trans hcomponent']
  have hfile := get?_of_mem hw.sorted hf
  rw [hmodule, get?_of_mem hw.sorted hg, Option.some.injEq] at hfile
  exact Prod.ext hmodule hfile.symm

/-- New contents are prepared where no module stands. -/
theorem Regular.prepared_ne (hf : f ∈ w.files) (hg : g ∈ w.files) {purpose : Text}
    (hpurpose : '/' ∉ purpose) : (Disk.preparedPath f.2 purpose).place ≠ g.2.place := by
  obtain ⟨name, hname, -⟩ := hw.exists_fileName hf
  obtain ⟨name', hname', -⟩ := hw.exists_fileName hg
  obtain ⟨-, q, hq, -⟩ := Path.exists_place_of_fileName? hname
  obtain ⟨-, q', -, hplace'⟩ := Path.exists_place_of_fileName? hname'
  rw [Path.place_preparedPath hname hq hpurpose, hplace']
  intro heq
  obtain ⟨rfl, -⟩ := List.cons.inj heq
  apply hw.isModule g hg
  rw [moduleKind?, Path.extension?, hname', Option.bind_some, Path.extension_preparedName]
  rfl

theorem Regular.home_not_mem (hf : f ∈ w.files) : Backup.home ∉ f.2.place := by
  intro hmem
  have hpasses := contains_iff_mem.mpr (Path.mem_components_of_mem_place hmem)
  rw [← Path.passes, hw.outside f hf] at hpasses
  cases hpasses

end

/-! ## Loading -/

section

variable {s s' : S} {disk : Disk (StateM S)} {name : Text}

/-- The files of modules of a project, as `Regular` has them. -/
def FilesOf (name : Text) (files : ModuleMap Path) : Prop :=
  ModuleMap.Sorted files ∧ ∀ f ∈ files,
    (f.1.project = name ∧ f.2.stem? = some f.1.component) ∧ moduleKind? f.2 ≠ none ∧
      f.2.passes Backup.home = false

theorem filesOf_readModules {files : ModuleMap Path} {sources : List Source} {paths : List Path}
    {found : ModuleMap Path × List Source} (hfiles : FilesOf name files)
    (h : runOn (readModules disk name files sources paths).run s = (.ok found, s')) :
    FilesOf name found.1 := by
  induction paths generalizing files sources s with
  | nil =>
    cases (runOn_ok_iff.mp h).1
    exact hfiles
  | cons path paths ih =>
    rw [readModules] at h
    split at h
    · rename_i kind component hkind hstem hpasses
      dsimp only at h
      split at h
      · rcases runOn_bind_iff.mp h with ⟨e, -, hr⟩ | ⟨_, t, hthrow, -⟩
        · cases hr
        · cases (runOn_throw_iff.mp hthrow).1
      · rename_i hnone
        rcases runOn_bind_iff.mp h with ⟨e, -, hr⟩ | ⟨text, t, -, hrest⟩
        · cases hr
        refine ih ⟨sorted_insert _ _ hfiles.1, ?_⟩ hrest
        have hnew : ∀ entry ∈ files, ¬ entry.1.Same ⟨name, component⟩ := by
          intro entry hentry hsame
          have hfound := get?_of_mem hfiles.1 hentry
          rw [get?_congr files hsame] at hfound
          exact hnone _ hfound
        intro f hf
        rcases mem_cons.mp ((insert_perm path hnew).subset hf) with rfl | hf
        · exact ⟨⟨rfl, hstem⟩, by rw [hkind]; simp, hpasses⟩
        · exact hfiles.2 f hf
    · exact ih hfiles h

theorem regular_of_load {root : Path} {pattern : Text}
    (h : runOn (load disk root pattern).run s = (.ok w, s')) : w.Regular := by
  unfold load at h
  rcases runOn_bind_iff.mp h with ⟨e, -, hr⟩ | ⟨name?, t, -, h⟩
  · cases hr
  dsimp only at h
  split at h
  · cases (runOn_throw_iff.mp h).1
  rcases runOn_bind_iff.mp h with ⟨e, -, hr⟩ | ⟨paths, t, -, h⟩
  · cases hr
  rcases runOn_bind_iff.mp h with ⟨e, -, hr⟩ | ⟨⟨files, sources⟩, t, hread, h⟩
  · cases hr
  have hempty : FilesOf (name?.getD defaultName) [] := ⟨sorted_nil, nofun⟩
  obtain ⟨hsorted, hall⟩ := filesOf_readModules hempty hread
  dsimp only at h
  split at h
  · cases (runOn_throw_iff.mp h).1
  · cases (runOn_ok_iff.mp h).1
    exact ⟨hsorted, fun f hf => (hall f hf).1, fun f hf => (hall f hf).2.1,
      fun f hf => (hall f hf).2.2⟩

end

/-! ## Planning and putting back -/

section

variable {s s' : S} {disk : Disk (StateM S)} {content : S → FilePlace → Option Bytes}
  {done : List FileWrite} {text : Text} (hdisk : disk.Obeys content)
  {changes : List (ModuleName × Text)} {backup? : Option Backup} {write : FileWrite}
  {r : Except Error (Option Backup)} {old : FilePlace → Option Bytes} {writes : List FileWrite}

/-- The write that a change asks for: of the file of its module, with the bytes that are there. -/
structure Writes (w : Workspace) (content : FilePlace → Option Bytes) (change : ModuleName × Text)
    (write : FileWrite) : Prop where
  module : write.module = change.1
  file : w.files.get? change.1 = some write.file
  before : content write.file.place = some write.before
  beforeHash : write.beforeHash = sha256 write.before
  afterHash : write.afterHash = sha256 change.2.encode

include hdisk

/-- All contents are read before anything is written. -/
theorem runOn_planWrites {r : Except Error (List FileWrite × List Text)}
    (h : runOn (w.planWrites disk changes).run s = (r, s')) :
    content s' = content s ∧ ∀ writes texts, r = .ok (writes, texts) →
      texts = changes.map Prod.snd ∧ List.Forall₂ (w.Writes (content s)) changes writes := by
  induction changes generalizing s s' r with
  | nil =>
    obtain ⟨rfl, rfl⟩ := runOn_ok_iff.mp h
    refine ⟨rfl, ?_⟩
    rintro _ _ ⟨⟩
    exact ⟨rfl, .nil⟩
  | cons change changes ih =>
    obtain ⟨module, text⟩ := change
    rw [planWrites] at h
    split at h
    · obtain ⟨rfl, rfl⟩ := runOn_throw_iff.mp h
      exact ⟨rfl, fun _ _ hr => by cases hr⟩
    rename_i file hfile
    rcases runOn_bind_iff.mp h with ⟨e, hread, rfl⟩ | ⟨before, t, hread, hrest⟩
    · exact ⟨(hdisk.readFile hread).1, fun _ _ hr => by cases hr⟩
    obtain ⟨hkeeps, hbefore⟩ := hdisk.readFile hread
    rcases runOn_bind_iff.mp hrest with ⟨e, hmore, rfl⟩ | ⟨⟨writes, texts⟩, t', hmore, hlast⟩
    · exact ⟨(ih hmore).1.trans hkeeps, fun _ _ hr => by cases hr⟩
    · obtain ⟨hkeeps', hplans⟩ := ih hmore
      obtain ⟨rfl, rfl⟩ := runOn_ok_iff.mp hlast
      refine ⟨hkeeps'.trans hkeeps, ?_⟩
      rintro _ _ ⟨⟩
      obtain ⟨htexts, hwrites⟩ := hplans _ _ rfl
      rw [hkeeps] at hwrites
      exact ⟨by rw [htexts]; rfl, .cons ⟨rfl, hfile, hbefore before rfl, rfl, rfl⟩ hwrites⟩

/-- Files that are there can be put back: a replacement for this purpose succeeds. -/
def RollsBack (disk : Disk (StateM S)) (content : S → FilePlace → Option Bytes) (w : Workspace) : Prop :=
  ∀ f ∈ w.files, ∀ bytes s, content s f.2.place ≠ none →
    (runOn (disk.replaceFile f.2 bytes "rollback").run s).1 = .ok ()

/-- Putting files back gives them their old bytes and leaves the other modules. -/
theorem runOn_rollBack (hw : w.Regular) (hback : RollsBack disk content w)
    (hfiles : ∀ x ∈ done, ∃ f ∈ w.files, f.2 = x.file)
    (hapart : done.Pairwise fun x y => x.file.place ≠ y.file.place)
    (hthere : ∀ x ∈ done, content s x.file.place ≠ none)
    (h : runOn (rollBack disk done) s = ((), s')) :
    (∀ x ∈ done, content s' x.file.place = some x.before) ∧
      ∀ f ∈ w.files, (∀ x ∈ done, x.file.place ≠ f.2.place) →
        content s' f.2.place = content s f.2.place := by
  induction done generalizing s with
  | nil =>
    cases h
    exact ⟨fun _ hx => (by cases hx), fun _ _ _ => rfl⟩
  | cons x done ih =>
    obtain ⟨⟨f, hf, hfile⟩, hfiles⟩ := forall_mem_cons.mp hfiles
    obtain ⟨hx, hapart⟩ := pairwise_cons.mp hapart
    obtain ⟨hhere, hthere⟩ := forall_mem_cons.mp hthere
    rw [rollBack, runOn_bind] at h
    have hok := hback f hf x.before s (hfile ▸ hhere)
    rw [hfile] at hok
    obtain ⟨r, t, hreplace⟩ : ∃ r t, runOn (disk.replaceFile x.file x.before "rollback").run s = (r, t) :=
      ⟨_, _, rfl⟩
    have hprepared {g : ModuleName × Path} (hg : g ∈ w.files) :
        (Disk.preparedPath x.file "rollback").place ≠ g.2.place :=
      hfile ▸ hw.prepared_ne hf hg (by decide)
    obtain ⟨hothers, hwritten, -⟩ := hdisk.replaceFile (hfile ▸ hprepared hf) hreplace
    rw [hreplace] at hok h
    have hmodule {g : ModuleName × Path} (hg : g ∈ w.files) (hne : x.file.place ≠ g.2.place) :
        content t g.2.place = content s g.2.place :=
      hothers _ hne.symm (hprepared hg).symm
    have hlater : ∀ y ∈ done, content t y.file.place = content s y.file.place := by
      intro y hy
      obtain ⟨g, hg, hfile'⟩ := hfiles y hy
      rw [← hfile']
      exact hmodule hg (hfile' ▸ hx y hy)
    obtain ⟨hrestored, hkept⟩ := ih hfiles hapart (fun y hy => by rw [hlater y hy]; exact hthere y hy) h
    refine ⟨forall_mem_cons.mpr ⟨?_, hrestored⟩, ?_⟩
    · have hstays := hkept f hf fun y hy => hfile ▸ (hx y hy).symm
      rw [hfile] at hstays
      rw [hstays, hwritten hok]
    · intro g hg hnone
      obtain ⟨hfirst, hrest⟩ := forall_mem_cons.mp hnone
      rw [hkept g hg hrest, hmodule hg hfirst]

/-! ## Writing -/

/-- No copy of a backup stands in the place of a module. -/
def Spares (w : Workspace) (b : Backup) : Prop :=
  ∀ f ∈ w.files, ∀ g ∈ w.files, ∀ copy ∈ b.copyPath? f.2, copy.place ≠ g.2.place

omit hdisk in
/-- The modules are spared if they lie under the root and the backup in the home of all backups. -/
theorem Regular.spares (hw : w.Regular) (hunder : ∀ f ∈ w.files, f.2.LiesUnder w.root)
    (hroot : b.root = w.root) (hhome : Backup.home ∈ b.directory.place) : w.Spares b := by
  intro f hf g hg copy hcopy hplace
  obtain ⟨rel, hrel⟩ := hunder f hf
  rw [Backup.copyPath?, hroot, hrel.relative] at hcopy
  cases hcopy
  rw [hrel.place_join] at hplace
  exact hw.home_not_mem hg (hplace ▸ mem_append_right _ hhome)

omit hdisk in
/-- A file is copied first, if there is a backup, and then replaced. -/
theorem runOn_writeOne_cases (h : runOn (writeOne disk backup? write text).run s = (r, s')) :
    (∃ b e, backup? = some b ∧ runOn (b.add disk write.file).run s = (.error e, s') ∧ r = .error e) ∨
      ∃ backup' t replaced,
        (backup? = none ∧ backup' = none ∧ t = s ∨ ∃ b b', backup? = some b ∧ backup' = some b' ∧
          runOn (b.add disk write.file).run s = (.ok b', t)) ∧
        runOn (disk.replaceFile write.file text.encode "vbrewrite").run t = (replaced, s') ∧
        r = replaced.map fun _ => backup' := by
  have hreplace {backup' : Option Backup} {t : S}
      (h : runOn (disk.replaceFile write.file text.encode "vbrewrite" >>= fun _ => pure backup').run t =
        (r, s')) : ∃ replaced,
        runOn (disk.replaceFile write.file text.encode "vbrewrite").run t = (replaced, s') ∧
        r = replaced.map fun _ => backup' := by
    rcases runOn_bind_iff.mp h with ⟨e, hfailed, rfl⟩ | ⟨_, t', hreplaced, hlast⟩
    · exact ⟨_, hfailed, rfl⟩
    · obtain ⟨rfl, rfl⟩ := runOn_ok_iff.mp hlast
      exact ⟨_, hreplaced, rfl⟩
  unfold writeOne at h
  cases backup? with
  | none =>
    rcases runOn_bind_iff.mp h with ⟨e, hpure, -⟩ | ⟨backup', t, hpure, hrest⟩
    · cases (runOn_ok_iff.mp hpure).1
    · obtain ⟨heq, rfl⟩ := runOn_ok_iff.mp hpure
      cases heq
      obtain ⟨replaced, hreplaced, hr⟩ := hreplace hrest
      exact .inr ⟨none, t, replaced, .inl ⟨rfl, rfl, rfl⟩, hreplaced, hr⟩
  | some b =>
    rcases runOn_bind_iff.mp h with ⟨e, hadd, rfl⟩ | ⟨backup', t, hadd, hrest⟩
    · obtain ⟨found, hfound, heq⟩ := runOn_map_iff.mp hadd
      cases found with
      | error e' =>
        cases heq
        exact .inl ⟨b, e, rfl, hfound, rfl⟩
      | ok b' => cases heq
    · obtain ⟨found, hfound, heq⟩ := runOn_map_iff.mp hadd
      cases found with
      | error e => cases heq
      | ok b' =>
        cases heq
        obtain ⟨replaced, hreplaced, hr⟩ := hreplace hrest
        exact .inr ⟨some b', t, replaced, .inr ⟨b, b', rfl, rfl, hfound⟩, hreplaced, hr⟩

/-- Writing one file gives it its new bytes, or fails and leaves it; the other modules stay as they
are. -/
theorem runOn_writeOne (hw : w.Regular) (hspares : ∀ b ∈ backup?, w.Spares b) (hf : f ∈ w.files)
    (hfile : f.2 = write.file) (h : runOn (writeOne disk backup? write text).run s = (r, s')) :
    (∀ g ∈ w.files, write.file.place ≠ g.2.place → content s' g.2.place = content s g.2.place) ∧
      (∀ e, r = .error e → content s' write.file.place = content s write.file.place) ∧
      ∀ backup', r = .ok backup' → content s' write.file.place = some text.encode ∧
        ∀ b ∈ backup', w.Spares b := by
  rw [← hfile]
  -- copying leaves all modules
  have hcopied {b : Backup} (hb : backup? = some b) {found : Except Error Backup} {t : S}
      (hadd : runOn (b.add disk write.file).run s = (found, t)) :
      ∀ g ∈ w.files, content t g.2.place = content s g.2.place := by
    intro g hg
    refine (Backup.runOn_add hdisk hadd).1 _ ?_
    intro copy hcopy
    exact (hspares b hb f hf g hg copy (hfile ▸ hcopy)).symm
  rcases runOn_writeOne_cases h with ⟨b, e, hb, hadd, rfl⟩ | ⟨backup', t, replaced, hbackup, hreplace, rfl⟩
  · exact ⟨fun g hg _ => hcopied hb hadd g hg, fun _ _ => hcopied hb hadd f hf, nofun⟩
  have hsame : ∀ g ∈ w.files, content t g.2.place = content s g.2.place := by
    rcases hbackup with ⟨-, -, rfl⟩ | ⟨b, b', hb, -, hadd⟩
    · exact fun _ _ => rfl
    · exact hcopied hb hadd
  have hlater : ∀ b ∈ backup', w.Spares b := by
    rcases hbackup with ⟨-, rfl, -⟩ | ⟨b, b', hb, rfl, hadd⟩
    · exact fun _ hb => by cases hb
    · rintro _ ⟨⟩
      obtain ⟨-, -, ⟨rfl, -, -⟩ | ⟨bytes, -, -, rfl⟩⟩ := (Backup.runOn_add hdisk hadd).2 b' rfl
      · exact hspares b' hb
      · exact hspares b hb
  have hprepared {g : ModuleName × Path} (hg : g ∈ w.files) :
      (Disk.preparedPath f.2 "vbrewrite").place ≠ g.2.place := hw.prepared_ne hf hg (by decide)
  rw [← hfile] at hreplace
  obtain ⟨hothers, hwritten, hkept⟩ := hdisk.replaceFile (hprepared hf) hreplace
  refine ⟨?_, ?_, ?_⟩
  · intro g hg hne
    rw [hothers _ hne.symm (hprepared hg).symm, hsame g hg]
  · intro e hr
    cases replaced with
    | error e' => rw [hkept e' rfl, hsame f hf]
    | ok _ => cases hr
  · intro backup'' hr
    cases replaced with
    | error e' => cases hr
    | ok _ =>
      cases hr
      exact ⟨hwritten rfl, hlater⟩

omit hdisk in
theorem runOn_writeAll_cons {writes : List (FileWrite × Text)}
    (h : runOn (writeAll disk backup? done ((write, text) :: writes)).run s = (r, s')) :
    (∃ backup' t, runOn (writeOne disk backup? write text).run s = (.ok backup', t) ∧
        runOn (writeAll disk backup' (write :: done) writes).run t = (r, s')) ∨
      ∃ e t, runOn (writeOne disk backup? write text).run s = (.error e, t) ∧
        runOn (rollBack disk done) t = ((), s') ∧ r = .error e := by
  rw [writeAll, ExceptT.run_mk, runOn_bind] at h
  obtain ⟨found, t, hfound⟩ : ∃ found t,
    runOn (writeOne disk backup? write text).run s = (found, t) := ⟨_, _, rfl⟩
  rw [hfound] at h ⊢
  cases found with
  | ok backup' => exact .inl ⟨backup', t, rfl, h⟩
  | error e =>
    obtain ⟨rfl, rfl⟩ := Prod.mk.inj h
    exact .inr ⟨e, t, rfl, rfl, rfl⟩

/-- Files are written one after another. If one fails, all modules have the bytes that they had before
the first one; else each file has its new bytes and the other modules are as they were. -/
theorem runOn_writeAll (hw : w.Regular) (hback : RollsBack disk content w)
    (old : FilePlace → Option Bytes) (hspares : ∀ b ∈ backup?, w.Spares b)
    {writes : List (FileWrite × Text)} (hfiles : ∀ x ∈ done ++ writes.map Prod.fst,
      (∃ f ∈ w.files, f.2 = x.file) ∧ old x.file.place = some x.before)
    (hapart : (done ++ writes.map Prod.fst).Pairwise fun x y => x.file.place ≠ y.file.place)
    (hthere : ∀ x ∈ done, content s x.file.place ≠ none)
    (hold : ∀ f ∈ w.files, (∀ x ∈ done, x.file.place ≠ f.2.place) →
      content s f.2.place = old f.2.place)
    (h : runOn (writeAll disk backup? done writes).run s = (r, s')) :
    (∀ e, r = .error e → ∀ f ∈ w.files, content s' f.2.place = old f.2.place) ∧
      ∀ backup', r = .ok backup' → (∀ x ∈ writes, content s' x.1.file.place = some x.2.encode) ∧
        ∀ f ∈ w.files, (∀ x ∈ writes, x.1.file.place ≠ f.2.place) →
          content s' f.2.place = content s f.2.place := by
  induction writes generalizing backup? done s with
  | nil =>
    obtain ⟨rfl, rfl⟩ := runOn_ok_iff.mp h
    exact ⟨fun _ hr => (by cases hr), fun _ _ => ⟨fun _ hx => (by cases hx), fun _ _ _ => rfl⟩⟩
  | cons first writes ih =>
    obtain ⟨write, text⟩ := first
    have hmoved : (done ++ ((write, text) :: writes).map Prod.fst).Perm
        ((write :: done) ++ writes.map Prod.fst) := perm_middle
    obtain ⟨⟨f, hf, hfile⟩, hbefore⟩ := hfiles write (hmoved.mem_iff.mpr mem_cons_self)
    have hapart' := (hmoved.pairwise_iff fun hne => hne.symm).mp hapart
    obtain ⟨hne, hrest⟩ := pairwise_cons.mp hapart'
    have hhere : content s write.file.place = old write.file.place := by
      rw [← hfile]
      exact hold f hf fun x hx => hfile ▸ (hne x (mem_append_left _ hx)).symm
    have hstays {t : S} (hothers : ∀ g ∈ w.files, write.file.place ≠ g.2.place →
        content t g.2.place = content s g.2.place) :
        ∀ x ∈ done, content t x.file.place = content s x.file.place := by
      intro x hx
      obtain ⟨⟨g, hg, hfile'⟩, -⟩ := hfiles x (mem_append_left _ hx)
      rw [← hfile']
      exact hothers g hg (hfile' ▸ hne x (mem_append_left _ hx))
    rcases runOn_writeAll_cons h with ⟨backup', t, hwrite, hmore⟩ | ⟨e, t, hwrite, hrolled, rfl⟩
    · obtain ⟨hothers, -, hwritten⟩ := runOn_writeOne hdisk hw hspares hf hfile hwrite
      obtain ⟨hnew, hspares'⟩ := hwritten backup' rfl
      have hdone := hstays hothers
      obtain ⟨hfailed, hdone'⟩ := ih hspares' (fun x hx => hfiles x (hmoved.mem_iff.mpr hx)) hapart'
        (forall_mem_cons.mpr ⟨by rw [hnew]; simp, fun x hx => hdone x hx ▸ hthere x hx⟩)
        (fun g hg hg' => by
          obtain ⟨hfirst, hlater⟩ := forall_mem_cons.mp hg'
          rw [hothers g hg hfirst, hold g hg hlater]) hmore
      refine ⟨hfailed, ?_⟩
      intro backup'' hr
      obtain ⟨hall, hkept⟩ := hdone' backup'' hr
      refine ⟨forall_mem_cons.mpr ⟨?_, hall⟩, ?_⟩
      · rw [← hnew, ← hfile]
        refine hkept f hf ?_
        intro x hx
        rw [hfile]
        exact (hne x.1 (mem_append_right _ (mem_map_of_mem hx))).symm
      · intro g hg hg'
        obtain ⟨hfirst, hlater⟩ := forall_mem_cons.mp hg'
        rw [hkept g hg hlater, hothers g hg hfirst]
    · obtain ⟨hothers, hkept, -⟩ := runOn_writeOne hdisk hw hspares hf hfile hwrite
      have hdone := hstays hothers
      obtain ⟨hrestored, hleft⟩ := runOn_rollBack hdisk hw hback
        (fun x hx => (hfiles x (mem_append_left _ hx)).1)
        (hapart.sublist (sublist_append_left _ _))
        (fun x hx => hdone x hx ▸ hthere x hx) hrolled
      refine ⟨?_, nofun⟩
      intro _ _ g hg
      by_cases hin : ∃ x ∈ done, x.file.place = g.2.place
      · obtain ⟨x, hx, hplace⟩ := hin
        rw [← hplace, hrestored x hx, (hfiles x (mem_append_left _ hx)).2]
      · have hnone : ∀ x ∈ done, x.file.place ≠ g.2.place := fun x hx hplace => hin ⟨x, hx, hplace⟩
        rw [hleft g hg hnone]
        by_cases hplace : write.file.place = g.2.place
        · rw [← hplace, hkept e rfl, hhere]
        · rw [hothers g hg hplace, hold g hg hnone]

omit hdisk in
theorem exists_mem_of_forall₂ {α β : Type} {R : α → β → Prop} {xs : List α} {ys : List β}
    (h : List.Forall₂ R xs ys) {y : β} (hy : y ∈ ys) : ∃ x ∈ xs, R x y := by
  obtain ⟨i, hi, rfl⟩ := mem_iff_getElem.mp hy
  obtain ⟨hlength, hpairs⟩ := forall₂_iff_get.mp h
  exact ⟨_, get_mem xs ⟨i, hlength ▸ hi⟩, hpairs i (hlength ▸ hi) hi⟩

omit hdisk in
theorem Writes.exists_file (h : w.Writes old change write) :
    ∃ f ∈ w.files, f.2 = write.file ∧ f.1.Same change.1 := by
  obtain ⟨k, hk, hsame⟩ := exists_mem_of_get? h.file
  exact ⟨(k, write.file), hk, rfl, hsame⟩

omit hdisk in
/-- The writes of different modules go to different places. -/
theorem Regular.apart_of_writes (hw : w.Regular) (hchanges : Sorted changes)
    (h : List.Forall₂ (w.Writes old) changes writes) :
    writes.Pairwise fun x y => x.file.place ≠ y.file.place := by
  induction h with
  | nil => exact .nil
  | cons hx hrest ih =>
    obtain ⟨hfirst, hlater⟩ := pairwise_cons.mp hchanges
    refine pairwise_cons.mpr ⟨?_, ih hlater⟩
    intro y hy hplace
    obtain ⟨change, hchange, hwrite⟩ := exists_mem_of_forall₂ hrest hy
    obtain ⟨f, hf, hfile, hsame⟩ := hx.exists_file
    obtain ⟨g, hg, hfile', hsame'⟩ := hwrite.exists_file
    rw [← hfile, ← hfile'] at hplace
    rw [← hw.eq_of_place hf hg hplace] at hsame'
    have hlt := hfirst change hchange
    rw [(ModuleName.order_eq_iff _ _).mpr (hsame.symm.trans hsame')] at hlt
    cases hlt

omit hdisk in
section

variable (h : List.Forall₂ (w.Writes old) changes writes)

include h

theorem map_fst_zip_writes : (writes.zip (changes.map Prod.snd)).map Prod.fst = writes := by
  apply map_fst_zip
  exact Nat.le_of_eq (by rw [length_map, h.length_eq])

omit hdisk in
theorem exists_change_of_mem_zip {text : Text} :
    (write, text) ∈ writes.zip (changes.map Prod.snd) → ∃ change, w.Writes old change write := by
  induction h with
  | nil => exact fun hmem => by cases hmem
  | cons hx hrest ih =>
    intro hmem
    rcases mem_cons.mp hmem with heq | hmem
    · cases heq
      exact ⟨_, hx⟩
    · exact ih hmem

omit hdisk in
theorem exists_mem_zip_of_writes (hchange : change ∈ changes) :
    ∃ write, (write, change.2) ∈ writes.zip (changes.map Prod.snd) ∧ w.Writes old change write := by
  induction h with
  | nil => cases hchange
  | cons hx hrest ih =>
    rcases mem_cons.mp hchange with rfl | hchange
    · exact ⟨_, mem_cons_self, hx⟩
    · obtain ⟨write, hmem, hwrite⟩ := ih hchange
      exact ⟨write, mem_cons_of_mem _ hmem, hwrite⟩

end

omit hdisk in
/-- The file of a module that is changed is among those that are written. -/
theorem Regular.exists_write (hw : w.Regular) (h : List.Forall₂ (w.Writes old) changes writes)
    (hf : f ∈ w.files) (htext : get? changes f.1 = some text) :
    ∃ write, (write, text) ∈ writes.zip (changes.map Prod.snd) ∧ write.file = f.2 ∧
      old f.2.place = some write.before := by
  obtain ⟨k, hk, hsame⟩ := exists_mem_of_get? htext
  obtain ⟨write, hmem, hwrite⟩ := exists_mem_zip_of_writes h hk
  have hfile := hwrite.file
  rw [get?_congr w.files hsame, get?_of_mem hw.sorted hf, Option.some.injEq] at hfile
  exact ⟨write, hmem, hfile.symm, hfile ▸ hwrite.before⟩

omit hdisk in
theorem Regular.file_ne_of_get?_none (hw : w.Regular) (hchanges : Sorted changes)
    (h : List.Forall₂ (w.Writes old) changes writes) (hf : f ∈ w.files)
    (hnone : get? changes f.1 = none) : ∀ x ∈ writes, x.file.place ≠ f.2.place := by
  intro x hx hplace
  obtain ⟨change, hchange, hwrite⟩ := exists_mem_of_forall₂ h hx
  obtain ⟨g, hg, hfile, hsame⟩ := hwrite.exists_file
  rw [← hfile] at hplace
  rw [hw.eq_of_place hg hf hplace] at hsame
  rw [get?_congr changes hsame, get?_of_mem hchanges hchange] at hnone
  cases hnone

/-- What the files of a workspace have `after` an attempt to write changes that ended in this way: what
they had `before`, or their new bytes. -/
def Settles (w : Workspace) (changes : Changes) (before after : FilePlace → Option Bytes)
    (r : Except Error (List FileWrite × Option Backup)) : Prop :=
  (∀ e, r = .error e → ∀ f ∈ w.files, after f.2.place = before f.2.place) ∧
    ∀ writes backup', r = .ok (writes, backup') →
      (∀ f ∈ w.files, after f.2.place =
        match changes.get? f.1 with
        | some text => some text.encode
        | none => before f.2.place) ∧
      List.Forall₂ (w.Writes before) changes writes

theorem settles_of_apply (hw : w.Regular) (hback : RollsBack disk content w) {changes : Changes}
    (hchanges : ModuleMap.Sorted changes) {backup? : Option Backup}
    (hspares : ∀ b ∈ backup?, w.Spares b) {r : Except Error (List FileWrite × Option Backup)}
    (h : runOn (w.apply disk changes backup?).run s = (r, s')) :
    w.Settles changes (content s) (content s') r := by
  unfold Workspace.apply at h
  rcases runOn_bind_iff.mp h with ⟨e, hplan, rfl⟩ | ⟨⟨writes, texts⟩, t, hplan, hrest⟩
  · obtain ⟨hkeeps, -⟩ := runOn_planWrites hdisk hplan
    exact ⟨fun _ _ _ _ => by rw [hkeeps], fun _ _ hr => by cases hr⟩
  · obtain ⟨hkeeps, hplanned⟩ := runOn_planWrites hdisk hplan
    obtain ⟨rfl, hwrites⟩ := hplanned _ _ rfl
    have hfirst := map_fst_zip_writes hwrites
    have hrun {found : Except Error (Option Backup)} {t' : S}
        (hall : runOn (writeAll disk backup? [] (writes.zip (changes.map Prod.snd))).run t =
          (found, t')) :=
      runOn_writeAll hdisk hw hback (content s) hspares
        (by
          rw [List.nil_append, hfirst]
          intro x hx
          obtain ⟨change, -, hwrite⟩ := exists_mem_of_forall₂ hwrites hx
          obtain ⟨f, hf, hfile, -⟩ := hwrite.exists_file
          exact ⟨⟨f, hf, hfile⟩, hwrite.before⟩)
        (by
          rw [List.nil_append, hfirst]
          exact hw.apart_of_writes hchanges hwrites)
        (fun _ hx => by cases hx) (fun _ _ _ => by rw [hkeeps]) hall
    rcases runOn_bind_iff.mp hrest with ⟨e, hall, rfl⟩ | ⟨backup', t', hall, hlast⟩
    · exact ⟨fun _ _ => (hrun hall).1 e rfl, fun _ _ hr => by cases hr⟩
    · obtain ⟨rfl, rfl⟩ := runOn_ok_iff.mp hlast
      obtain ⟨hwritten, hothers⟩ := (hrun hall).2 backup' rfl
      refine ⟨fun _ hr => (by cases hr), ?_⟩
      rintro _ _ ⟨⟩
      refine ⟨?_, hwrites⟩
      intro f hf
      split
      · rename_i text htext
        obtain ⟨write, hmem, hfile, -⟩ := hw.exists_write hwrites hf htext
        rw [← hfile]
        exact hwritten _ hmem
      · rename_i hnone
        rw [hothers f hf, hkeeps]
        intro x hx
        exact hw.file_ne_of_get?_none hchanges hwrites hf hnone x.1 (List.of_mem_zip hx).1

/-- Writing a result is all or nothing. If it fails at any point, all modules have the bytes that they
had before; else the modules of the result have their new bytes, all others are as they were, and the
files are listed in the order of the modules, with the hashes of their bytes before and after. -/
theorem apply_allOrNothing (hw : w.Regular) (hback : RollsBack disk content w) {changes : Changes}
    (hchanges : ModuleMap.Sorted changes) {backup? : Option Backup}
    (hspares : ∀ b ∈ backup?, w.Spares b) {r : Except Error (List FileWrite × Option Backup)}
    (h : runOn (w.apply disk changes backup?).run s = (r, s')) :
    (∀ e, r = .error e → ∀ f ∈ w.files, content s' f.2.place = content s f.2.place) ∧
      ∀ writes backup', r = .ok (writes, backup') →
        (∀ f ∈ w.files, content s' f.2.place =
          match changes.get? f.1 with
          | some text => some text.encode
          | none => content s f.2.place) ∧
        List.Forall₂ (w.Writes (content s)) changes writes :=
  settles_of_apply hdisk hw hback hchanges hspares h

end

/-- Two modules with a backup, where the second one cannot be written: the first one, which was, has
its old bytes again, and its copy is there. -/
theorem apply_allOrNothing_rolledBack :
    let first : Path := ⟨"proj/A.bas".toList⟩
    let second : Path := ⟨"proj/B.bas".toList⟩
    let w : Workspace := ⟨⟨"proj"⟩, "proj", [(⟨"proj", "A"⟩, first), (⟨"proj", "B"⟩, second)],
      ⟨⟨[], [], []⟩, []⟩⟩
    let changes : Changes := [(⟨"proj", "A"⟩, "x"), (⟨"proj", "B"⟩, "y")]
    let backup : Backup := ⟨⟨"proj"⟩, ⟨"proj/.vbrewrite-backup/1".toList⟩, ⟨"1", "apply", "now", []⟩⟩
    let disk := Disk.shelf fun p => p == Disk.preparedPath second "vbrewrite"
    let s : FilePlace → Option Bytes := fun place =>
      if place = first.place then some [1, 2] else if place = second.place then some [3] else none
    ∃ e s', runOn (w.apply disk changes (some backup)).run s = (.error e, s') ∧
      s' (⟨"proj/.vbrewrite-backup/1/A.bas".toList⟩ : Path).place = some [1, 2] ∧
      ∀ f ∈ w.files, s' f.2.place = s f.2.place := by
  intro first second w changes backup disk s
  have hw : w.Regular := by
    refine ⟨?_, by decide +kernel, by decide +kernel, by decide +kernel⟩
    unfold ModuleMap.Sorted
    decide +kernel
  have hback : RollsBack disk id w := by
    intro f hf bytes s _
    have hsound : ∀ f ∈ w.files,
        (Disk.preparedPath f.2 "rollback" == Disk.preparedPath second "vbrewrite") = false := by
      decide +kernel
    apply Disk.replaceFile_shelf
    exact hsound f hf
  have hchanges : ModuleMap.Sorted changes := by
    unfold ModuleMap.Sorted
    decide +kernel
  have hspares : ∀ b ∈ some backup, w.Spares b := by
    rintro _ ⟨⟩
    unfold Spares
    decide +kernel
  have hcopy : (runOn (w.apply disk changes (some backup)).run s).2
      (⟨"proj/.vbrewrite-backup/1/A.bas".toList⟩ : Path).place = some [1, 2] := by decide +kernel
  have hfails : (runOn (w.apply disk changes (some backup)).run s).1.isOk = false := by
    decide +kernel
  rcases hrun : runOn (w.apply disk changes (some backup)).run s with ⟨e | ok, s'⟩
  · rw [hrun] at hcopy
    exact ⟨e, s', rfl, hcopy,
      (apply_allOrNothing (Disk.obeys_shelf _) hw hback hchanges hspares hrun).1 e rfl⟩
  · rw [hrun] at hfails
    cases hfails

end Workspace

end VbaRefactor
