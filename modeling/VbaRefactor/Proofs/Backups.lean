import Mathlib.Data.Prod.Basic
import VbaRefactor.Proofs.Workspaces

/-!
# Undoing what was written

While files are written, a backup keeps a copy of what each of them had before, and the manifest lists
the copies with their hashes. As long as the directory of the backup is left alone, restoring gives
every file its old bytes, whatever happened to it in between. A copy that was tampered with is noticed
before anything is put back.
-/

namespace VbaRefactor

open List

variable {b : Backup} {now : FilePlace → Option Bytes} {write : FileWrite}
  {entries : List SavedFile} {f : ModuleName × Path} {directory root : Path} {entry : SavedFile}
  {S : Type} {s s' : S} {disk : Disk (StateM S)} {content : S → FilePlace → Option Bytes}

namespace Disk

/-- The bytes can be read at a place as long as the files are as they are `now`. -/
def CanRead (disk : Disk (StateM S)) (content : S → FilePlace → Option Bytes)
    (now : FilePlace → Option Bytes) (place : FilePlace) (bytes : Bytes) : Prop :=
  ∃ p t t', p.place = place ∧ content t = now ∧ runOn (disk.read p) t = (.ok bytes, t')

end Disk

namespace Backup

variable {writes : List FileWrite}

/-! ## What a backup keeps -/

/-- An entry of a backup for a file that was written, and the copy of what the file had before. -/
structure Keeps (root directory : Path) (content : FilePlace → Option Bytes) (write : FileWrite)
    (entry : SavedFile) : Prop where
  under : Path.Under write.file root entry.path
  hash : entry.hash = sha256 write.before
  copy : content (directory.join entry.path.text).place = some write.before

section

variable {old new : FilePlace → Option Bytes}

/-- The place of a copy is in the directory of the backup. -/
theorem Keeps.below (h : Keeps root directory old write entry) :
    directory.place <:+ (directory.join entry.path.text).place :=
  ⟨_, (h.under.place_join directory).symm⟩

/-- Copies are kept as long as their places are left alone. -/
theorem forall₂_keeps_of_same (h : List.Forall₂ (Keeps root directory old) writes entries)
    (hsame : ∀ write entry, write ∈ writes → Keeps root directory old write entry →
      new (directory.join entry.path.text).place = old (directory.join entry.path.text).place) :
    List.Forall₂ (Keeps root directory new) writes entries := by
  induction h with
  | nil => exact .nil
  | cons hx _ ih =>
    exact .cons ⟨hx.under, hx.hash, (hsame _ _ mem_cons_self hx).trans hx.copy⟩
      (ih fun write entry hmem => hsame write entry (mem_cons_of_mem _ hmem))

end

/-! ## Reading a backup -/

theorem isName_home : Path.IsName home := ⟨by decide, by decide, by decide, by decide⟩

theorem isName_fileName : Path.IsName Manifest.fileName :=
  ⟨by decide, by decide, by decide, by decide⟩

/-- The manifest is in the directory of the backup. -/
theorem place_manifestPath (b : Backup) :
    b.manifestPath.place = Manifest.fileName :: b.directory.place ∧
      (b.manifestPath.parent?.getD ⟨[]⟩).place = b.directory.place := by
  have hplace := Path.place_join_name b.directory isName_fileName
  obtain ⟨-, q, hq, hplace'⟩ :=
    Path.exists_place_of_fileName? (Path.fileName?_join_name b.directory isName_fileName)
  refine ⟨hplace, ?_⟩
  rw [manifestPath, hq]
  exact (List.cons.inj (hplace'.symm.trans hplace)).2

/-- A backup goes below the home of all backups, under its own id. -/
theorem exists_of_start {operation : Text} {id? : Option Text}
    (h : runOn (start disk root operation id?).run s = (.ok b, s')) :
    b.root = root ∧ b.directory = (root.join home).join b.manifest.id ∧ b.manifest.files = [] := by
  have hmade (id : Text) (t : S) (h : runOn (do
      disk.makeAll ((root.join home).join id)
      let now ← disk.now
      return (⟨root, (root.join home).join id, ⟨id, operation, now, []⟩⟩ : Backup) :
        ExceptT Error (StateM S) Backup).run t = (.ok b, s')) :
      b.root = root ∧ b.directory = (root.join home).join b.manifest.id ∧ b.manifest.files = [] := by
    rcases runOn_bind_iff.mp h with ⟨_, _, hr⟩ | ⟨_, t', _, hrest⟩
    · cases hr
    rcases runOn_bind_iff.mp hrest with ⟨_, _, hr⟩ | ⟨now, t', _, hlast⟩
    · cases hr
    cases (runOn_ok_iff.mp hlast).1
    exact ⟨rfl, rfl, rfl⟩
  unfold start at h
  cases id? with
  | some id =>
    rcases runOn_bind_iff.mp h with ⟨_, _, hr⟩ | ⟨_, t, -, hrest⟩
    · cases hr
    · exact hmade _ t hrest
  | none =>
    rcases runOn_bind_iff.mp h with ⟨_, _, hr⟩ | ⟨id, t, -, hrest⟩
    · cases hr
    · exact hmade id t hrest

theorem home_mem_of_start {operation : Text} {id? : Option Text}
    (h : runOn (start disk root operation id?).run s = (.ok b, s'))
    (hid : Path.IsName b.manifest.id) : home ∈ b.directory.place := by
  rw [(exists_of_start h).2.1, Path.place_join_name _ hid, Path.place_join_name _ isName_home]
  exact mem_cons_of_mem _ mem_cons_self

section

variable {path : Path} (hdisk : disk.Obeys content)

include hdisk

theorem runOn_load {r : Except Error Manifest} (h : runOn (load disk path).run s = (r, s')) :
    content s' = content s ∧ ∀ manifest, r = .ok manifest → ∃ bytes text,
      content s path.place = some bytes ∧ Text.decode? bytes = some text ∧
        Manifest.parse? text = some manifest := by
  have htext {found : Except Error Text} {t : S} (h : runOn (disk.readText path).run s = (found, t)) :
      content t = content s ∧ ∀ text, found = .ok text → ∃ bytes,
        content s path.place = some bytes ∧ Text.decode? bytes = some text := by
    unfold Disk.readText at h
    rcases runOn_bind_iff.mp h with ⟨_, hread, rfl⟩ | ⟨bytes, t', hread, hrest⟩
    · exact ⟨(hdisk.readFile hread).1, nofun⟩
    obtain ⟨hkeeps, hbytes⟩ := hdisk.readFile hread
    split at hrest
    · rename_i text hdecode
      obtain ⟨rfl, rfl⟩ := runOn_ok_iff.mp hrest
      refine ⟨hkeeps, ?_⟩
      rintro _ ⟨⟩
      exact ⟨bytes, hbytes bytes rfl, hdecode⟩
    · obtain ⟨rfl, rfl⟩ := runOn_throw_iff.mp hrest
      exact ⟨hkeeps, nofun⟩
  unfold load at h
  rcases runOn_bind_iff.mp h with ⟨_, hread, rfl⟩ | ⟨text, t, hread, hrest⟩
  · exact ⟨(htext hread).1, nofun⟩
  obtain ⟨hkeeps, hbytes⟩ := htext hread
  obtain ⟨bytes, hcontent, hdecode⟩ := hbytes text rfl
  split at hrest
  · rename_i manifest hparse
    obtain ⟨rfl, rfl⟩ := runOn_ok_iff.mp hrest
    refine ⟨hkeeps, ?_⟩
    rintro _ ⟨⟩
    exact ⟨bytes, text, hcontent, hdecode, hparse⟩
  · obtain ⟨rfl, rfl⟩ := runOn_throw_iff.mp hrest
    exact ⟨hkeeps, nofun⟩

/-- All copies are checked before anything is put back. -/
theorem runOn_copies {r : Except Error (List (Path × Bytes))}
    (h : runOn (copies disk directory root entries).run s = (r, s')) :
    content s' = content s ∧ ∀ files, r = .ok files → ∀ entry ∈ entries, ∃ bytes,
      disk.CanRead content (content s) (directory.join entry.path.text).place bytes ∧
        sha256 bytes = entry.hash := by
  induction entries generalizing s s' r with
  | nil =>
    obtain ⟨rfl, rfl⟩ := runOn_ok_iff.mp h
    exact ⟨rfl, fun _ _ _ hentry => by cases hentry⟩
  | cons entry entries ih =>
    unfold copies at h
    rcases runOn_bind_iff.mp h with ⟨_, hread, rfl⟩ | ⟨bytes, t, hread, hrest⟩
    · exact ⟨(hdisk.readFile hread).1, nofun⟩
    obtain ⟨hkeeps, -⟩ := hdisk.readFile hread
    dsimp only at hrest
    split at hrest
    · rcases runOn_bind_iff.mp hrest with ⟨_, hthrow, rfl⟩ | ⟨_, _, hthrow, -⟩
      · obtain ⟨-, rfl⟩ := runOn_throw_iff.mp hthrow
        exact ⟨hkeeps, nofun⟩
      · cases (runOn_throw_iff.mp hthrow).1
    · rename_i hhash
      rcases runOn_bind_iff.mp hrest with ⟨_, hmore, rfl⟩ | ⟨more, t', hmore, hlast⟩
      · exact ⟨(ih hmore).1.trans hkeeps, nofun⟩
      obtain ⟨hkeeps', hall⟩ := ih hmore
      obtain ⟨rfl, rfl⟩ := runOn_ok_iff.mp hlast
      refine ⟨hkeeps'.trans hkeeps, fun _ _ => forall_mem_cons.mpr ⟨?_, ?_⟩⟩
      · obtain ⟨found, hfound, hok, -⟩ := Disk.exists_of_runOn_attempt hread
        cases (hok bytes).mp rfl
        exact ⟨bytes, ⟨_, s, t, rfl, rfl, hfound⟩, Classical.not_not.mp hhash⟩
      · rw [hkeeps] at hall
        exact hall more rfl

/-- What a path and its bytes have to be so that a write is undone. -/
structure Returns (write : FileWrite) (file : Path × Bytes) : Prop where
  place : file.1.place = write.file.place
  name : file.1.fileName? = write.file.fileName?
  bytes : file.2 = write.before

variable (hsure : disk.Reliable content)

include hsure

theorem exists_load {manifest : Manifest}
    (hcontent : content s path.place = some manifest.print.encode)
    (hparse : Manifest.parse? manifest.print = some manifest) :
    ∃ t, runOn (load disk path).run s = (.ok manifest, t) ∧ content t = content s := by
  obtain ⟨t, hread⟩ := hsure.readFile hcontent
  refine ⟨t, ?_, (hdisk.readFile hread).1⟩
  have htext : runOn (disk.readText path).run s = (.ok manifest.print, t) := by
    refine runOn_bind_iff.mpr (.inr ⟨_, t, hread, ?_⟩)
    rw [Text.decode?_encode]
    rfl
  refine runOn_bind_iff.mpr (.inr ⟨_, t, htext, ?_⟩)
  rw [hparse]
  rfl

/-- Copies that are kept pass the check. -/
theorem exists_copies {directory' : Path} (hplace : directory'.place = directory.place)
    (hnow : content s = now) (hnamed : ∀ x ∈ writes, x.file.fileName? ≠ none)
    (h : List.Forall₂ (Keeps root directory now) writes entries) :
    ∃ files t, runOn (copies disk directory' root entries).run s = (.ok files, t) ∧
      content t = now ∧ List.Forall₂ Returns writes files := by
  induction h generalizing s with
  | nil => exact ⟨[], s, rfl, hnow, .nil⟩
  | @cons write entry writes entries hx _ ih =>
    obtain ⟨hhere, hnamed⟩ := forall_mem_cons.mp hnamed
    obtain ⟨name, hname⟩ := Option.ne_none_iff_exists'.mp hhere
    have hcopy : content s (directory'.join entry.path.text).place = some write.before := by
      rw [hnow, hx.under.place_join, hplace, ← hx.under.place_join]
      exact hx.copy
    obtain ⟨t, hread⟩ := hsure.readFile hcopy
    obtain ⟨more, t', hmore, hnow', hreturns⟩ := ih ((hdisk.readFile hread).1.trans hnow) hnamed
    refine ⟨(root.join entry.path.text, write.before) :: more, t', ?_, hnow', .cons ?_ hreturns⟩
    · unfold copies
      refine runOn_bind_iff.mpr (.inr ⟨_, t, hread, ?_⟩)
      dsimp only
      rw [if_neg (by simp [hx.hash])]
      exact runOn_bind_iff.mpr (.inr ⟨more, t', hmore, rfl⟩)
    · exact ⟨hx.under.place_join_base, (hx.under.fileName?_join hname).trans hname.symm, rfl⟩

end

end Backup

namespace Workspace

variable {w : Workspace}

/-- The files of a workspace that a backup can hold: the workspace and the backup have the same root,
the files lie under it, and the backup is in the home of all backups. -/
structure Backs (w : Workspace) (b : Backup) : Prop where
  under : ∀ f ∈ w.files, f.2.LiesUnder w.root
  root : b.root = w.root
  home : Backup.home ∈ b.directory.place

section

variable {backup' : Option Backup} {done writes : List FileWrite} (hdisk : disk.Obeys content)
  (hw : w.Regular) (hb : w.Backs b)

include hw in
/-- Nothing is prepared in the home of backups. -/
theorem Regular.home_not_mem_prepared (hf : f ∈ w.files) {purpose : Text} (hpurpose : '/' ∉ purpose) :
    Backup.home ∉ (Disk.preparedPath f.2 purpose).place := by
  obtain ⟨name, hname, -⟩ := hw.exists_fileName hf
  obtain ⟨-, q, hq, hplace⟩ := Path.exists_place_of_fileName? hname
  rw [Path.place_preparedPath hname hq hpurpose]
  intro hmem
  rcases mem_cons.mp hmem with heq | hmem
  · have hextension := Path.extension_preparedName name purpose
    rw [← heq] at hextension
    exact absurd hextension (by decide)
  · exact hw.home_not_mem hf (hplace ▸ mem_cons_of_mem _ hmem)

include hdisk hw hb

/-- A file that is written gets an entry, and the copies so far are kept. -/
theorem runOn_writeOne_keeps (hf : f ∈ w.files) (hfile : f.2 = write.file)
    (hbefore : content s write.file.place = some write.before)
    (hdone : List.Forall₂ (Backup.Keeps b.root b.directory (content s)) done b.manifest.files)
    (hapart : ∀ x ∈ done, x.file.place ≠ write.file.place) {text : Text}
    (h : runOn (writeOne disk (some b) write text).run s = (.ok backup', s')) :
    ∃ entry, backup' = some (b.holding entry) ∧
      List.Forall₂ (Backup.Keeps b.root b.directory (content s')) (done ++ [write]) (b.manifest.files ++ [entry]) := by
  obtain ⟨rel, hrel⟩ := hb.under f hf
  rw [← hb.root, hfile] at hrel
  rcases runOn_writeOne_cases h with ⟨_, _, _, _, hr⟩ | ⟨_, t, replaced, hbackup, hreplace, hr⟩
  · cases hr
  rcases hbackup with ⟨hb', -, -⟩ | ⟨_, b', ⟨⟩, rfl, hadd⟩
  · cases hb'
  cases replaced with
  | error e => cases hr
  | ok _ =>
    cases hr
    obtain ⟨hothers, hadded⟩ := Backup.runOn_add hdisk hadd
    obtain ⟨path, hpath, hcases⟩ := hadded b' rfl
    cases hrel.relative.symm.trans hpath
    rw [← hfile] at hreplace
    obtain ⟨hleft, -, -⟩ := hdisk.replaceFile (hw.prepared_ne hf hf (by decide)) hreplace
    -- replacing the file changes nothing in the backup
    have hkept {entry : SavedFile} (hbelow : b.directory.place <:+
        (b.directory.join entry.path.text).place) :
        content s' (b.directory.join entry.path.text).place =
          content t (b.directory.join entry.path.text).place := by
      have hhome := hbelow.subset hb.home
      refine hleft _ ?_ ?_
      · intro heq
        exact hw.home_not_mem hf (heq ▸ hhome)
      · intro heq
        exact hw.home_not_mem_prepared hf (by decide) (heq ▸ hhome)
    rcases hcases with ⟨-, -, e, he, heq⟩ | ⟨bytes, hbytes, hcopy, rfl⟩
    · obtain ⟨x, hx, hkeeps⟩ := exists_mem_of_forall₂ hdone he
      refine absurd ?_ (hapart x hx)
      rw [Path.place, Path.place, Path.components_of_relativeTo? hkeeps.under.relative,
        Path.components_of_relativeTo? hpath, heq]
    · rw [hbefore] at hbytes
      cases hbytes
      have hnew : Backup.Keeps b.root b.directory (content s') write ⟨rel, sha256 write.before, write.before.length⟩ :=
        ⟨hrel, rfl, (hkept ⟨_, (hrel.place_join b.directory).symm⟩).trans hcopy⟩
      refine ⟨_, rfl, rel_append (Backup.forall₂_keeps_of_same hdone ?_) (.cons hnew .nil)⟩
      · intro x entry hx hkeeps
        rw [hkept hkeeps.below]
        refine hothers _ ?_
        intro copy hcopy' heq
        rw [Backup.copyPath?, hpath] at hcopy'
        cases hcopy'
        exact hapart x hx (hkeeps.under.place_eq hrel b.directory heq)

/-- The whole run of writes: every file that was written has its entry and its copy. -/
theorem runOn_writeAll_keeps {writes : List (FileWrite × Text)}
    (hfiles : ∀ x ∈ writes, ∃ f ∈ w.files, f.2 = x.1.file)
    (hbefore : ∀ x ∈ writes, content s x.1.file.place = some x.1.before)
    (hapart : (done ++ writes.map Prod.fst).Pairwise fun x y => x.file.place ≠ y.file.place)
    (hdone : List.Forall₂ (Backup.Keeps b.root b.directory (content s)) done.reverse b.manifest.files)
    (h : runOn (writeAll disk (some b) done writes).run s = (.ok backup', s')) :
    ∃ b', backup' = some b' ∧ b'.directory = b.directory ∧
      List.Forall₂ (Backup.Keeps b.root b.directory (content s')) (done.reverse ++ writes.map Prod.fst)
        b'.manifest.files := by
  induction writes generalizing b done s with
  | nil =>
    obtain ⟨hr, rfl⟩ := runOn_ok_iff.mp h
    cases hr
    refine ⟨b, rfl, rfl, ?_⟩
    rw [map_nil, append_nil]
    exact hdone
  | cons first writes ih =>
    obtain ⟨write, text⟩ := first
    obtain ⟨⟨f, hf, hfile⟩, hfiles⟩ := forall_mem_cons.mp hfiles
    obtain ⟨hhere, hbefore⟩ := forall_mem_cons.mp hbefore
    have hapart' : ((write :: done) ++ writes.map Prod.fst).Pairwise
        fun x y => x.file.place ≠ y.file.place :=
      (perm_middle.pairwise_iff fun hne => hne.symm).mp hapart
    obtain ⟨hne, -⟩ := pairwise_cons.mp hapart'
    rcases runOn_writeAll_cons h with ⟨backup₁, t, hwrite, hmore⟩ | ⟨_, _, _, _, hr⟩
    · obtain ⟨entry, rfl, hkeeps⟩ := runOn_writeOne_keeps hdisk hw hb hf hfile hhere hdone
        (fun x hx => (hne x (mem_append_left _ (mem_reverse.mp hx))).symm) hwrite
      have hspares : ∀ b' ∈ some b, w.Spares b' := by
        rintro _ ⟨⟩
        exact hw.spares hb.under hb.root hb.home
      obtain ⟨hothers, -, -⟩ := runOn_writeOne hdisk hw hspares hf hfile hwrite
      have hlater : ∀ x ∈ writes, content t x.1.file.place = some x.1.before := by
        intro x hx
        obtain ⟨g, hg, hfile'⟩ := hfiles x hx
        have hplace := hne x.1 (mem_append_right _ (mem_map_of_mem hx))
        rw [← hbefore x hx, ← hfile']
        exact hothers g hg (hfile' ▸ hplace)
      have hb' : w.Backs (b.holding entry) := ⟨hb.under, hb.root, hb.home⟩
      obtain ⟨b', hb', hdirectory, hall⟩ := ih hb' hfiles hlater hapart'
        (by rw [reverse_cons]; exact hkeeps) hmore
      refine ⟨b', hb', hdirectory, ?_⟩
      rw [reverse_cons, append_assoc] at hall
      exact hall
    · cases hr

/-- After changes were written, the backup keeps what every file had before. -/
theorem runOn_apply_keeps (hempty : b.manifest.files = []) {changes : Changes}
    (hchanges : ModuleMap.Sorted changes)
    (h : runOn (w.apply disk changes (some b)).run s = (.ok (writes, backup'), s')) :
    List.Forall₂ (w.Writes (content s)) changes writes ∧
      ∃ b', backup' = some b' ∧ b'.directory = b.directory ∧
        List.Forall₂ (Backup.Keeps b.root b.directory (content s')) writes b'.manifest.files := by
  unfold Workspace.apply at h
  rcases runOn_bind_iff.mp h with ⟨_, _, hr⟩ | ⟨⟨found, texts⟩, t, hplan, hrest⟩
  · cases hr
  rcases runOn_bind_iff.mp hrest with ⟨_, _, hr⟩ | ⟨backup₁, t', hall, hlast⟩
  · cases hr
  obtain ⟨hr, rfl⟩ := runOn_ok_iff.mp hlast
  cases hr
  obtain ⟨hkeeps, hplanned⟩ := runOn_planWrites hdisk hplan
  obtain ⟨rfl, hwrites⟩ := hplanned _ _ rfl
  have hfirst := map_fst_zip_writes hwrites
  refine ⟨hwrites, ?_⟩
  obtain ⟨b', hb', hdirectory, hkept⟩ := runOn_writeAll_keeps hdisk hw hb (fun x hx => by
      obtain ⟨change, hwrite⟩ := exists_change_of_mem_zip hwrites hx
      obtain ⟨f, hf, hfile, -⟩ := hwrite.exists_file
      exact ⟨f, hf, hfile⟩)
    (fun x hx => by
      obtain ⟨change, hwrite⟩ := exists_change_of_mem_zip hwrites hx
      rw [hkeeps]
      exact hwrite.before)
    (by
      rw [nil_append, hfirst]
      exact hw.apart_of_writes hchanges hwrites)
    (by rw [hempty]; exact .nil) hall
  rw [hfirst] at hkept
  exact ⟨b', hb', hdirectory, hkept⟩

omit hb in
/-- Putting files back gives them their old bytes and leaves the other modules. -/
theorem exists_putBack (hsure : disk.Reliable content) {files : List (Path × Bytes)}
    (hfiles : ∀ x ∈ writes, ∃ f ∈ w.files, f.2 = x.file)
    (hapart : writes.Pairwise fun x y => x.file.place ≠ y.file.place)
    (h : List.Forall₂ Backup.Returns writes files) :
    ∃ t, runOn (Backup.putBack disk files).run s = (.ok (), t) ∧
      (∀ x ∈ writes, content t x.file.place = some x.before) ∧
      ∀ f ∈ w.files, (∀ x ∈ writes, x.file.place ≠ f.2.place) →
        content t f.2.place = content s f.2.place := by
  induction h generalizing s with
  | nil => exact ⟨s, rfl, fun _ hx => (by cases hx), fun _ _ _ => rfl⟩
  | @cons write file writes files hreturns _ ih =>
    obtain ⟨path, bytes⟩ := file
    obtain ⟨hplace, hname, rfl⟩ := hreturns
    obtain ⟨⟨f, hf, hfile⟩, hfiles⟩ := forall_mem_cons.mp hfiles
    obtain ⟨hne, hapart⟩ := pairwise_cons.mp hapart
    have hprepared {g : ModuleName × Path} (hg : g ∈ w.files) :
        (Disk.preparedPath path "restore").place ≠ g.2.place := by
      obtain ⟨name, hfileName, -⟩ := hw.exists_fileName hf
      rw [Path.place_preparedPath_congr (hname.trans (hfile ▸ hfileName)) hfileName
        (hplace.trans (hfile ▸ rfl)) (by decide)]
      exact hw.prepared_ne hf hg (by decide)
    obtain ⟨t₁, hsame, hparent⟩ := hsure.makeParent hdisk path s
    obtain ⟨t₂, hreplace⟩ := hsure.replaceFile hdisk path write.before "restore" t₁
    obtain ⟨hothers, hwritten, -⟩ := hdisk.replaceFile (by rw [hplace, ← hfile]; exact hprepared hf) hreplace
    rw [hsame, hplace] at hothers
    rw [hplace] at hwritten
    obtain ⟨t, hrest, hback, hleft⟩ := ih hfiles hapart (s := t₂)
    refine ⟨t, ?_, forall_mem_cons.mpr ⟨?_, hback⟩, ?_⟩
    · unfold Backup.putBack
      exact hparent (runOn_bind_iff.mpr (.inr ⟨(), t₂, hreplace, hrest⟩))
    · rw [← hwritten rfl, ← hfile]
      exact hleft f hf fun x hx => hfile ▸ (hne x hx).symm
    · intro g hg hg'
      obtain ⟨hfirst, hlater⟩ := forall_mem_cons.mp hg'
      rw [hleft g hg hlater, hothers _ hfirst.symm (hprepared hg).symm]

end

/-! ## Restoring -/

/-- The manifest and the copies do not get in each other's way. -/
theorem Regular.copy_ne_manifest (hw : w.Regular) (hf : f ∈ w.files) (hfile : f.2 = write.file)
    (h : Backup.Keeps root directory now write entry) :
    (directory.join entry.path.text).place ≠ Manifest.fileName :: directory.place := by
  intro heq
  obtain ⟨name, hname, -⟩ := hw.exists_fileName hf
  obtain ⟨-, q, -, hplace⟩ := Path.exists_place_of_fileName? hname
  have hnames : (entry.path.components.filter Path.isInner).reverse = [Manifest.fileName] :=
    append_cancel_right ((h.under.place_join directory).symm.trans heq)
  rw [hfile, ← h.under.place_join_base, h.under.place_join, hnames] at hplace
  have hfileName : Manifest.fileName = name := (List.cons.inj hplace).1
  apply hw.isModule f hf
  rw [moduleKind?, Path.extension?, hname, ← hfileName]
  decide

/-- A workspace that was loaded is written all or not at all, with a backup that was started for it. -/
theorem settles_of_loaded (hdisk : disk.Obeys content) {pattern : Text} {s₀ s₁ s₂ s₃ s₄ : S}
    (hload : runOn (load disk root pattern).run s₀ = (.ok w, s₁))
    (hunder : ∀ f ∈ w.files, f.2.LiesUnder w.root) (hback : RollsBack disk content w)
    {operation : Text} {id? : Option Text} (hid : Path.IsName b.manifest.id)
    (hstart : runOn (Backup.start disk w.root operation id?).run s₂ = (.ok b, s₃)) {changes : Changes}
    (hchanges : ModuleMap.Sorted changes) {r : Except Error (List FileWrite × Option Backup)}
    (h : runOn (w.apply disk changes (some b)).run s₃ = (r, s₄)) :
    w.Settles changes (content s₃) (content s₄) r := by
  have hw := regular_of_load hload
  refine settles_of_apply hdisk hw hback hchanges ?_ h
  rintro _ ⟨⟩
  exact hw.spares hunder (Backup.exists_of_start hstart).1 (Backup.home_mem_of_start hstart hid)

/-- Restoring undoes what was written. After changes were written with a backup, and as long as the
directory of the backup is left alone, restoring gives the files that were written what they had
before and leaves the others, whatever was done to them in between. If a copy cannot be read or is not
what it was, restoring fails and changes nothing. -/
theorem restore_undoes_apply (hdisk : disk.Obeys content) (hw : w.Regular)
    (hunder : ∀ f ∈ w.files, f.2.LiesUnder w.root) {changes : Changes}
    (hchanges : ModuleMap.Sorted changes) {operation : Text} {id? : Option Text} {b b' : Backup}
    (hid : Path.IsName b.manifest.id) {writes : List FileWrite} {manifest : Path} {s₀ s₁ s₂ s₃ : S}
    (hstart : runOn (Backup.start disk w.root operation id?).run s₀ = (.ok b, s₁))
    (happly : runOn (w.apply disk changes (some b)).run s₁ = (.ok (writes, some b'), s₂))
    (hfinish : runOn (b'.finish disk).run s₂ = (.ok manifest, s₃))
    (hparse : Manifest.parse? b'.manifest.print = some b'.manifest) :
    (disk.Reliable content → ∀ s₄,
      (∀ place, b.directory.place <:+ place → content s₄ place = content s₃ place) →
      ∃ s₅, runOn (Backup.restore disk manifest w.root).run s₄ = (.ok changes.length, s₅) ∧
        ∀ f ∈ w.files, content s₅ f.2.place =
          if (changes.get? f.1).isSome then content s₁ f.2.place else content s₄ f.2.place) ∧
    ∀ s₄, content s₄ manifest.place = content s₃ manifest.place →
      (∃ entry ∈ b'.manifest.files, ∀ bytes,
        disk.CanRead content (content s₄) (b.directory.join entry.path.text).place bytes →
          sha256 bytes ≠ entry.hash) →
      ∃ e s₅, runOn (Backup.restore disk manifest w.root).run s₄ = (.error e, s₅) ∧
        content s₅ = content s₄ := by
  obtain ⟨hroot, hdirectory, hempty⟩ := Backup.exists_of_start hstart
  have hhome := Backup.home_mem_of_start hstart hid
  obtain ⟨hwrites, _, ⟨⟩, hdirectory', hkeeps⟩ :=
    runOn_apply_keeps hdisk hw ⟨hunder, hroot, hhome⟩ hempty hchanges happly
  have hfiles : ∀ x ∈ writes, ∃ f ∈ w.files, f.2 = x.file := by
    intro x hx
    obtain ⟨change, -, hwrite⟩ := exists_mem_of_forall₂ hwrites hx
    obtain ⟨f, hf, hfile, -⟩ := hwrite.exists_file
    exact ⟨f, hf, hfile⟩
  obtain ⟨hmanifest, hparent⟩ := b'.place_manifestPath
  rw [hdirectory'] at hmanifest hparent
  rcases runOn_bind_iff.mp hfinish with ⟨_, _, hr⟩ | ⟨_, t, hwritten, hlast⟩
  · cases hr
  obtain ⟨hr, rfl⟩ := runOn_ok_iff.mp hlast
  cases hr
  obtain ⟨hothers, hnew⟩ := hdisk.writeFile hwritten
  have hkept : List.Forall₂ (Backup.Keeps b.root b.directory (content s₃)) writes b'.manifest.files := by
    refine Backup.forall₂_keeps_of_same hkeeps ?_
    intro x entry hx hkeeps
    obtain ⟨f, hf, hfile⟩ := hfiles x hx
    exact hothers _ (hmanifest ▸ hw.copy_ne_manifest hf hfile hkeeps)
  refine ⟨?_, ?_⟩
  · intro hsure s₄ hsame
    have hcopies : List.Forall₂ (Backup.Keeps b.root b.directory (content s₄)) writes b'.manifest.files :=
      Backup.forall₂_keeps_of_same hkept fun _ _ _ hkeeps => hsame _ hkeeps.below
    have hcontent : content s₄ b'.manifestPath.place = some b'.manifest.print.encode := by
      rw [hsame _ (hmanifest ▸ List.suffix_cons _ _), hnew rfl]
    have hnamed : ∀ x ∈ writes, x.file.fileName? ≠ none := by
      intro x hx
      obtain ⟨f, hf, hfile⟩ := hfiles x hx
      obtain ⟨name, hname, -⟩ := hw.exists_fileName hf
      simp [← hfile, hname]
    obtain ⟨t₁, hload, hsame₁⟩ := Backup.exists_load hdisk hsure hcontent hparse
    obtain ⟨files, t₂, hcopied, hsame₂, hreturns⟩ :=
      Backup.exists_copies hdisk hsure hparent hsame₁ hnamed hcopies
    obtain ⟨s₅, hput, hback, hleft⟩ := exists_putBack hdisk hw hsure (s := t₂) hfiles
      (hw.apart_of_writes hchanges hwrites) hreturns
    refine ⟨s₅, ?_, ?_⟩
    · rw [hwrites.length_eq, hreturns.length_eq, ← hroot]
      exact runOn_bind_iff.mpr (.inr ⟨_, t₁, hload, runOn_bind_iff.mpr (.inr ⟨_, t₂, hcopied,
        runOn_bind_iff.mpr (.inr ⟨(), s₅, hput, rfl⟩)⟩)⟩)
    · intro f hf
      cases htext : changes.get? f.1 with
      | none => exact (hleft f hf (hw.file_ne_of_get?_none hchanges hwrites hf htext)).trans (by rw [hsame₂]; rfl)
      | some text =>
        obtain ⟨write, hmem, hfile, hbefore⟩ := hw.exists_write hwrites hf htext
        rw [← hfile, hback write (List.of_mem_zip hmem).1, hfile, hbefore]
        rfl
  · rintro s₄ hsame ⟨entry, hentry, hbad⟩
    obtain ⟨r, s₅, hrun⟩ : ∃ r s₅, runOn (Backup.restore disk b'.manifestPath w.root).run s₄ = (r, s₅) :=
      ⟨_, _, rfl⟩
    have hbad' : ∀ bytes, disk.CanRead content (content s₄)
        ((b'.manifestPath.parent?.getD ⟨[]⟩).join entry.path.text).place bytes →
        sha256 bytes ≠ entry.hash := by
      obtain ⟨x, -, hkeeps⟩ := exists_mem_of_forall₂ hkept hentry
      rw [hkeeps.under.place_join, hparent, ← hkeeps.under.place_join]
      exact hbad
    rcases runOn_bind_iff.mp hrun with ⟨e, hload, rfl⟩ | ⟨found, t₁, hload, hrest⟩
    · exact ⟨e, s₅, hrun, (Backup.runOn_load hdisk hload).1⟩
    obtain ⟨hkeeps₁, hfound⟩ := Backup.runOn_load hdisk hload
    obtain ⟨bytes, text, hbytes, hdecode, hparse'⟩ := hfound found rfl
    rw [hsame, hnew rfl] at hbytes
    cases hbytes
    rw [Text.decode?_encode] at hdecode
    cases hdecode
    cases hparse.symm.trans hparse'
    rcases runOn_bind_iff.mp hrest with ⟨e, hcopies, rfl⟩ | ⟨files, t₂, hcopies, -⟩
    · exact ⟨e, s₅, hrun, (Backup.runOn_copies hdisk hcopies).1.trans hkeeps₁⟩
    · obtain ⟨bytes, hread, hhash⟩ := (Backup.runOn_copies hdisk hcopies).2 files rfl entry hentry
      rw [hkeeps₁] at hread
      exact absurd hhash (hbad' bytes hread)

/-- One of two modules is written and then both are changed by hand: restoring gives the first one its
old bytes. With other bytes in the copy it fails. -/
theorem restore_undoes_apply_changed :
    let first : Path := ⟨"proj/A.bas".toList⟩
    let second : Path := ⟨"proj/B.bas".toList⟩
    let copy : Path := ⟨"proj/.vbrewrite-backup/1/A.bas".toList⟩
    let w : Workspace := ⟨⟨"proj"⟩, "proj", [(⟨"proj", "A"⟩, first), (⟨"proj", "B"⟩, second)],
      ⟨⟨[], [], []⟩, []⟩⟩
    let disk := Disk.shelf fun _ => false
    let set := fun (p : Path) (bytes : Bytes) (s : FilePlace → Option Bytes) (place : FilePlace) =>
      if place = p.place then some bytes else s place
    let s₀ := set first [1, 2] (set second [3] fun _ => none)
    ∃ b b' writes manifest s₁ s₂ s₃,
      runOn (Backup.start disk w.root "apply" (some "1")).run s₀ = (.ok b, s₁) ∧
      runOn (w.apply disk [(⟨"proj", "A"⟩, "x")] (some b)).run s₁ = (.ok (writes, some b'), s₂) ∧
      runOn (b'.finish disk).run s₂ = (.ok manifest, s₃) ∧
      (∃ s₅, runOn (Backup.restore disk manifest w.root).run (set first [7] (set second [9] s₃)) =
        (.ok 1, s₅) ∧ s₅ first.place = some [1, 2] ∧ s₅ second.place = some [9]) ∧
      ∃ e s₅, runOn (Backup.restore disk manifest w.root).run (set copy [7] s₃) = (.error e, s₅) ∧
        s₅ = set copy [7] s₃ := by
  intro first second copy w disk set s₀
  let b : Backup := ⟨⟨"proj"⟩, ⟨"proj/.vbrewrite-backup/1".toList⟩, ⟨"1", "apply", [], []⟩⟩
  let entry : SavedFile :=
    ⟨⟨"A.bas".toList⟩, "a12871fee210fb8619291eaea194581cbd2531e4b23759d225f6806923f63222", 2⟩
  let write : FileWrite := ⟨⟨"proj", "A"⟩, first, [1, 2],
    "a12871fee210fb8619291eaea194581cbd2531e4b23759d225f6806923f63222",
    "2d711642b726b04401627ca9fbac32f5c8530fb1903cc4db02258717921a4881"⟩
  have hw : w.Regular := by
    refine ⟨?_, by decide +kernel, by decide +kernel, by decide +kernel⟩
    unfold ModuleMap.Sorted
    decide +kernel
  have hunder : ∀ f ∈ w.files, f.2.LiesUnder w.root := by
    have hfirst : first.LiesUnder w.root :=
      ⟨⟨"A.bas".toList⟩, by decide +kernel, by decide +kernel, by decide +kernel⟩
    have hsecond : second.LiesUnder w.root :=
      ⟨⟨"B.bas".toList⟩, by decide +kernel, by decide +kernel, by decide +kernel⟩
    simp only [w, List.forall_mem_cons]
    exact ⟨hfirst, hsecond, fun _ hf => by cases hf⟩
  have hchanges : ModuleMap.Sorted ([(⟨"proj", "A"⟩, "x")] : Changes) := List.pairwise_singleton _ _
  obtain ⟨s₁, s₂, s₃, hstart, happly, hfinish, hs₁⟩ : ∃ s₁ s₂ s₃,
      runOn (Backup.start disk w.root "apply" (some "1")).run s₀ = (.ok b, s₁) ∧
      runOn (w.apply disk [(⟨"proj", "A"⟩, "x")] (some b)).run s₁ =
        (.ok ([write], some (b.holding entry)), s₂) ∧
      runOn ((b.holding entry).finish disk).run s₂ = (.ok b.manifestPath, s₃) ∧
      s₁ first.place = some [1, 2] := by
    refine ⟨_, _, _, Prod.fst_eq_iff.mp ?_, Prod.fst_eq_iff.mp ?_, Prod.fst_eq_iff.mp ?_, ?_⟩
    all_goals decide +kernel
  have hobeys : disk.Obeys id := Disk.obeys_shelf _
  have hsure : disk.Reliable id := Disk.reliable_shelf
  have hid : Path.IsName ['1'] := ⟨by decide, by decide, by decide, by decide⟩
  obtain ⟨hrestores, hfails⟩ := restore_undoes_apply hobeys hw hunder hchanges hid hstart
    happly hfinish (by decide +kernel)
  refine ⟨b, b.holding entry, [write], b.manifestPath, s₁, s₂, s₃, hstart, happly, hfinish, ?_, ?_⟩
  · obtain ⟨s₅, hrun, hback⟩ := hrestores hsure (set first [7] (set second [9] s₃)) (by
      intro place hbelow
      have hfirst : place ≠ first.place := by
        rintro rfl
        exact absurd hbelow (by decide +kernel)
      have hsecond : place ≠ second.place := by
        rintro rfl
        exact absurd hbelow (by decide +kernel)
      exact (if_neg hfirst).trans (if_neg hsecond))
    refine ⟨s₅, hrun, ?_, ?_⟩
    · exact (hback (⟨"proj", "A"⟩, first) (by simp [w])).trans hs₁
    · have hother : second.place ≠ first.place := by decide +kernel
      have hkept : set first [7] (set second [9] s₃) second.place = some [9] :=
        (if_neg hother).trans (if_pos rfl)
      exact (hback (⟨"proj", "B"⟩, second) (by simp [w])).trans hkept
  · have hother : b.manifestPath.place ≠ copy.place := by decide +kernel
    have hcopy : (b.directory.join entry.path.text).place = copy.place := by decide +kernel
    have hsame : set copy [7] s₃ b.manifestPath.place = s₃ b.manifestPath.place := if_neg hother
    refine hfails (set copy [7] s₃) hsame ⟨entry, List.mem_cons_self, ?_⟩
    rintro bytes ⟨p, t, t', hplace, hnow, hread⟩
    have hbytes := (hobeys.read hread).2 bytes rfl
    have hnew : set copy [7] s₃ copy.place = some [7] := if_pos rfl
    rw [hnow, hplace, hcopy, id, hnew, Option.some.injEq] at hbytes
    rw [← hbytes]
    decide +kernel

end Workspace

end VbaRefactor
