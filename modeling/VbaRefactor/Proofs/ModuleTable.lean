import VbaRefactor.ModuleName

/-!
# Tables of modules

The order of module names is a strict order on their folded names. A table that is built by insertion
is sorted by it, has one entry per module, and answers with what was inserted last.
-/

namespace VbaRefactor

open List

/-! ## The order of texts and names -/

namespace Text

theorem order_eq_iff (a b : Text) : order a b = .eq ↔ a = b := by
  induction a generalizing b with
  | nil => cases b <;> simp [order]
  | cons c a ih =>
    cases b with
    | nil => simp [order]
    | cons d b =>
      have hchar : compare c.toNat d.toNat = .eq ↔ c = d := by
        rw [Nat.compare_eq_eq]
        exact Char.toNat_inj
      simp [order, Ordering.then_eq_eq, hchar, ih]

theorem order_lt_trans {a b c : Text} (hab : order a b = .lt) (hbc : order b c = .lt) :
    order a c = .lt := by
  induction a generalizing b c with
  | nil =>
    cases b with
    | nil => simp [order] at hab
    | cons y b => cases c <;> simp_all [order]
  | cons x a ih =>
    cases b with
    | nil => simp [order] at hab
    | cons y b =>
      cases c with
      | nil => simp [order] at hbc
      | cons z c =>
        simp only [order, Ordering.then_eq_lt, Nat.compare_eq_lt, Nat.compare_eq_eq] at hab hbc ⊢
        rcases hab with hab | ⟨hxy, hab⟩ <;> rcases hbc with hbc | ⟨hyz, hbc⟩
        · left; omega
        · left; omega
        · left; omega
        · exact .inr ⟨by omega, ih hab hbc⟩

theorem order_gt_iff (a b : Text) : order a b = .gt ↔ order b a = .lt := by
  induction a generalizing b with
  | nil => cases b <;> simp [order]
  | cons x a ih =>
    cases b with
    | nil => simp [order]
    | cons y b =>
      simp only [order, Ordering.then_eq_gt, Ordering.then_eq_lt, Nat.compare_eq_gt,
        Nat.compare_eq_lt, Nat.compare_eq_eq, ih]
      rw [eq_comm (a := x.toNat)]

end Text

namespace ModuleName

theorem order_eq_iff (a b : ModuleName) : order a b = .eq ↔ a.Same b := by
  simp only [order, Ordering.then_eq_eq, Text.order_eq_iff, Same, Prod.ext_iff]

theorem order_lt_trans {a b c : ModuleName} (hab : order a b = .lt) (hbc : order b c = .lt) :
    order a c = .lt := by
  simp only [order, Ordering.then_eq_lt, Text.order_eq_iff] at hab hbc ⊢
  rcases hab with hab | ⟨hproj, hab⟩ <;> rcases hbc with hbc | ⟨hproj', hbc⟩
  · exact .inl (Text.order_lt_trans hab hbc)
  · exact .inl (hproj' ▸ hab)
  · exact .inl (hproj ▸ hbc)
  · exact .inr ⟨hproj.trans hproj', Text.order_lt_trans hab hbc⟩

theorem order_gt_iff (a b : ModuleName) : order a b = .gt ↔ order b a = .lt := by
  simp only [order, Ordering.then_eq_gt, Ordering.then_eq_lt, Text.order_gt_iff, Text.order_eq_iff]
  rw [eq_comm (a := a.key.1)]

end ModuleName

/-! ## Tables -/

namespace ModuleMap

variable {α β : Type} {m : ModuleName} {table : ModuleMap α} {entries : List (ModuleName × α)}
  {entry : ModuleName × α} {k : ModuleName} {value : α}

@[simp]
theorem get?_nil (m : ModuleName) : get? ([] : ModuleMap α) m = none := rfl

theorem get?_cons (k m : ModuleName) (value : α) (table : ModuleMap α) :
    get? ((k, value) :: table) m = if k.Same m then some value else get? table m := by
  by_cases h : k.Same m <;> simp [get?, h]

theorem get?_congr (table : ModuleMap α) (h : m.Same k) : get? table m = get? table k := by
  induction table with
  | nil => rfl
  | cons entry table ih =>
    rcases entry with ⟨other, value⟩
    have hiff : other.Same m ↔ other.Same k := ⟨fun hm => hm.trans h, fun hk => hk.trans h.symm⟩
    simp only [get?_cons, hiff, ih]

/-- A table answers with what was inserted last. -/
theorem get?_insert (m k : ModuleName) (value : α) (table : ModuleMap α) :
    get? (insert m value table) k = if m.Same k then some value else get? table k := by
  induction table with
  | nil => simp [insert, get?_cons]
  | cons entry table ih =>
    rcases entry with ⟨other, old⟩
    rw [insert]
    cases horder : ModuleName.order m other with
    | lt => exact get?_cons m k value _
    | eq =>
      have hsame := (ModuleName.order_eq_iff m other).mp horder
      have hiff : other.Same k ↔ m.Same k := ⟨hsame.trans, hsame.symm.trans⟩
      simp only [get?_cons, hiff]
      split <;> rfl
    | gt =>
      have hother : ¬ m.Same other := by
        rw [← ModuleName.order_eq_iff, horder]
        simp
      rw [get?_cons, get?_cons, ih]
      by_cases hk : other.Same k
      · have hm : ¬ m.Same k := fun hm => hother (hm.trans hk.symm)
        rw [if_pos hk, if_neg hm, if_pos hk]
      · rw [if_neg hk, if_neg hk]

theorem get?_map (f : α → β) (table : ModuleMap α) (m : ModuleName) :
    get? (table.map fun entry => (entry.1, f entry.2)) m = (get? table m).map f := by
  induction table with
  | nil => rfl
  | cons entry table ih =>
    rcases entry with ⟨k, value⟩
    rw [map_cons, get?_cons, get?_cons, ih]
    split <;> rfl

/-- The entries stand in the order of their modules, each module once. -/
def Sorted (table : ModuleMap α) : Prop :=
  table.Pairwise fun a b => ModuleName.order a.1 b.1 = .lt

theorem sorted_nil : Sorted ([] : ModuleMap α) := List.Pairwise.nil

theorem name_of_mem_insert (h : entry ∈ insert m value table) :
    entry.1 = m ∨ ∃ old ∈ table, old.1 = entry.1 := by
  induction table with
  | nil =>
    have heq : entry = (m, value) := by simpa [insert] using h
    exact .inl (by rw [heq])
  | cons head table ih =>
    rcases head with ⟨k, old⟩
    rw [insert] at h
    split at h
    · rcases mem_cons.mp h with rfl | h
      · exact .inl rfl
      · exact .inr ⟨entry, h, rfl⟩
    · rcases mem_cons.mp h with rfl | h
      · exact .inr ⟨(k, old), mem_cons_self, rfl⟩
      · exact .inr ⟨entry, mem_cons_of_mem _ h, rfl⟩
    · rcases mem_cons.mp h with rfl | h
      · exact .inr ⟨(k, old), mem_cons_self, rfl⟩
      · rcases ih h with hname | ⟨before, hmem, hname⟩
        · exact .inl hname
        · exact .inr ⟨before, mem_cons_of_mem _ hmem, hname⟩

theorem sorted_insert (m : ModuleName) (value : α) (h : Sorted table) :
    Sorted (insert m value table) := by
  induction table with
  | nil => exact pairwise_singleton _ _
  | cons head table ih =>
    rcases head with ⟨k, old⟩
    obtain ⟨hhead, htail⟩ := pairwise_cons.mp h
    rw [insert]
    cases horder : ModuleName.order m k with
    | lt =>
      refine pairwise_cons.mpr ⟨?_, h⟩
      refine forall_mem_cons.mpr ⟨horder, fun entry hmem => ?_⟩
      exact ModuleName.order_lt_trans horder (hhead entry hmem)
    | eq => exact pairwise_cons.mpr ⟨hhead, htail⟩
    | gt =>
      refine pairwise_cons.mpr ⟨?_, ih htail⟩
      intro entry hmem
      rcases name_of_mem_insert hmem with hname | ⟨before, hbefore, hname⟩
      · show ModuleName.order k entry.1 = .lt
        rw [hname]
        exact (ModuleName.order_gt_iff m k).mp horder
      · show ModuleName.order k entry.1 = .lt
        rw [← hname]
        exact hhead before hbefore

theorem sorted_map (f : α → β) (h : Sorted table) :
    Sorted (table.map fun entry => (entry.1, f entry.2)) := by
  unfold Sorted
  rw [pairwise_map]
  exact h

theorem get?_eq_none (h : ∀ entry ∈ table, ¬ entry.1.Same m) : get? table m = none := by
  induction table with
  | nil => rfl
  | cons entry table ih =>
    rcases entry with ⟨k, value⟩
    rw [get?_cons, if_neg (h _ mem_cons_self)]
    exact ih (forall_mem_cons.mp h).2

theorem exists_mem_of_get? (h : get? table m = some value) :
    ∃ k, (k, value) ∈ table ∧ k.Same m := by
  obtain ⟨entry, hfind, rfl⟩ := Option.map_eq_some_iff.mp h
  have hsame := find?_some hfind
  exact ⟨entry.1, mem_of_find?_eq_some hfind, of_decide_eq_true hsame⟩

theorem get?_of_mem (h : Sorted table) (hentry : entry ∈ table) :
    get? table entry.1 = some entry.2 := by
  induction table with
  | nil => cases hentry
  | cons head table ih =>
    rcases head with ⟨k, value⟩
    obtain ⟨hhead, htail⟩ := pairwise_cons.mp h
    rw [get?_cons]
    rcases mem_cons.mp hentry with rfl | hmem
    · rw [if_pos (.refl k)]
    · have hne : ¬ k.Same entry.1 := by
        intro hsame
        have hlt := hhead entry hmem
        rw [(ModuleName.order_eq_iff _ _).mpr hsame] at hlt
        cases hlt
      rw [if_neg hne, ih htail hmem]

theorem get?_foldl_insert (h : entries.Pairwise fun a b => ¬ a.1.Same b.1) (table : ModuleMap α)
    (m : ModuleName) (value : α) :
    get? (entries.foldl (fun table entry => insert entry.1 entry.2 table) table) m = some value ↔
      (∃ k, (k, value) ∈ entries ∧ k.Same m) ∨
        ((∀ entry ∈ entries, ¬ entry.1.Same m) ∧ get? table m = some value) := by
  induction entries generalizing table with
  | nil => simp
  | cons entry entries ih =>
    rcases entry with ⟨k, old⟩
    obtain ⟨hhead, htail⟩ := pairwise_cons.mp h
    rw [foldl_cons, ih htail, get?_insert]
    by_cases hk : k.Same m
    · have hnone : ∀ entry ∈ entries, ¬ entry.1.Same m := fun entry hmem hsame =>
        hhead entry hmem (hk.trans hsame.symm)
      rw [if_pos hk, Option.some.injEq]
      constructor
      · rintro (⟨k', hmem, hsame⟩ | ⟨-, rfl⟩)
        · exact absurd hsame (hnone _ hmem)
        · exact .inl ⟨k, mem_cons_self, hk⟩
      · rintro (⟨k', hmem, hsame⟩ | ⟨hall, -⟩)
        · rcases mem_cons.mp hmem with heq | hmem
          · cases heq
            exact .inr ⟨hnone, rfl⟩
          · exact absurd hsame (hnone _ hmem)
        · exact absurd hk (hall _ mem_cons_self)
    · rw [if_neg hk]
      simp only [mem_cons, Prod.mk.injEq, forall_eq_or_imp, hk, not_false_eq_true, true_and]
      refine or_congr_left ?_
      constructor
      · rintro ⟨k', hmem, hsame⟩
        exact ⟨k', .inr hmem, hsame⟩
      · rintro ⟨k', ⟨rfl, -⟩ | hmem, hsame⟩
        · exact absurd hsame hk
        · exact ⟨k', hmem, hsame⟩

/-- A table of modules that are all different has the entries of the list. -/
theorem get?_ofList (h : entries.Pairwise fun a b => ¬ a.1.Same b.1) (m : ModuleName) (value : α) :
    get? (ofList entries) m = some value ↔ ∃ k, (k, value) ∈ entries ∧ k.Same m := by
  rw [ofList, get?_foldl_insert h, get?_nil]
  simp

theorem insert_perm (value : α) (h : ∀ entry ∈ table, ¬ entry.1.Same m) :
    (insert m value table).Perm ((m, value) :: table) := by
  induction table with
  | nil => exact .refl _
  | cons entry table ih =>
    rcases entry with ⟨k, old⟩
    obtain ⟨hk, htable⟩ := forall_mem_cons.mp h
    rw [insert]
    cases horder : ModuleName.order m k with
    | lt => exact .refl _
    | eq => exact absurd ((ModuleName.order_eq_iff m k).mp horder).symm hk
    | gt => exact ((ih htable).cons (k, old)).trans (.swap _ _ _)

theorem foldl_insert_perm (h : entries.Pairwise fun a b => ¬ a.1.Same b.1) (table : ModuleMap α)
    (hnew : ∀ entry ∈ entries, ∀ old ∈ table, ¬ old.1.Same entry.1) :
    (entries.foldl (fun table entry => insert entry.1 entry.2 table) table).Perm (entries ++ table) := by
  induction entries generalizing table with
  | nil => exact .refl _
  | cons entry entries ih =>
    obtain ⟨hentry, hentries⟩ := pairwise_cons.mp h
    obtain ⟨hfirst, hrest⟩ := forall_mem_cons.mp hnew
    have hinserted := insert_perm entry.2 hfirst
    refine (ih hentries _ ?_).trans ((hinserted.append_left entries).trans perm_middle)
    intro later hlater old hold
    rcases mem_cons.mp (hinserted.subset hold) with rfl | hold
    · exact hentry later hlater
    · exact hrest later hlater old hold

theorem ofList_perm (h : entries.Pairwise fun a b => ¬ a.1.Same b.1) : (ofList entries).Perm entries := by
  have hperm := foldl_insert_perm h [] fun _ _ _ hold => by cases hold
  rwa [append_nil] at hperm

/-- A table of modules that are all different is made of the entries of the list. -/
theorem mem_ofList_iff (h : entries.Pairwise fun a b => ¬ a.1.Same b.1) :
    entry ∈ ofList entries ↔ entry ∈ entries :=
  (ofList_perm h).mem_iff

theorem sorted_ofList (entries : List (ModuleName × α)) : Sorted (ofList entries) := by
  rw [ofList]
  generalize hstart : ([] : ModuleMap α) = table
  have htable : Sorted table := hstart ▸ sorted_nil
  clear hstart
  induction entries generalizing table with
  | nil => exact htable
  | cons entry entries ih => exact ih _ (sorted_insert entry.1 entry.2 htable)

theorem erase_eq_self (h : ∀ entry ∈ table, ¬ entry.1.Same m) : erase table m = table :=
  filter_eq_self.mpr fun entry hentry => by simpa using h entry hentry

/-- Where no module comes twice it does not matter whose spelling would be kept. -/
theorem ofLatest_eq_ofList (h : entries.Pairwise fun a b => ¬ a.1.Same b.1) :
    ofLatest entries = ofList entries := by
  rw [ofLatest, ofList]
  have hnew : ∀ entry ∈ entries, ∀ old ∈ ([] : ModuleMap α), ¬ old.1.Same entry.1 :=
    fun _ _ _ hold => by cases hold
  generalize ([] : ModuleMap α) = table at hnew
  induction entries generalizing table with
  | nil => rfl
  | cons entry entries ih =>
    obtain ⟨hentry, hentries⟩ := pairwise_cons.mp h
    obtain ⟨hfirst, hrest⟩ := forall_mem_cons.mp hnew
    rw [foldl_cons, foldl_cons, erase_eq_self hfirst]
    refine ih hentries _ ?_
    intro later hlater old hold
    rcases mem_cons.mp ((insert_perm entry.2 hfirst).subset hold) with rfl | hold
    · exact hentry later hlater
    · exact hrest later hlater old hold

/-- Choosing entries by their values is choosing by the value that the table answers with, since each
module stands in it once. -/
theorem get?_filterMap (f : α → Option β) (h : Sorted table) (m : ModuleName) :
    get? (table.filterMap fun entry => (f entry.2).map (entry.1, ·)) m = (get? table m).bind f := by
  induction table with
  | nil => rfl
  | cons entry table ih =>
    rcases entry with ⟨k, value⟩
    obtain ⟨hhead, htail⟩ := pairwise_cons.mp h
    have ih := ih htail
    rw [get?_cons]
    by_cases hk : k.Same m
    · rw [if_pos hk, filterMap_cons]
      cases hf : f value with
      | some result => simp [get?_cons, hk, hf]
      | none =>
        have habsent : get? table m = none := by
          apply get?_eq_none
          intro entry hmem hsame
          have hlt := hhead entry hmem
          rw [(ModuleName.order_eq_iff _ _).mpr (hk.trans hsame.symm)] at hlt
          cases hlt
        rw [habsent] at ih
        simpa [hf] using ih
    · rw [if_neg hk, filterMap_cons]
      cases hf : f value with
      | some result => simpa [get?_cons, hk, hf] using ih
      | none => simpa [hf] using ih

end ModuleMap

end VbaRefactor
