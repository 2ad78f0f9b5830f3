import Gavel.Market.Archive

/-!
# What the archive is made of

An expansion of the archive is that of one group of catalogues, but for the instant it ended; every
catalogue it names is one of these.
-/

namespace Gavel.Market

open Gavel.Cluster (Millis)
open Gavel.Sorting

variable {catalogs : List Catalog} {collecting : Catalog → Bool} {e : ArchivedExpansion} {name : Text}
  {p : ArchivedPatch} {t : ArchivedTier} {catalog : Text}

/-! ## Expansions -/

namespace Archive

/-- The catalogues of an expansion, newest first. -/
def mine (catalogs : List Catalog) (name : Text) : List Catalog :=
  sortWith Catalog.byNewest (Groups.group Catalog.expansion catalogs name)

theorem mem_mine {c : Catalog} : c ∈ mine catalogs name ↔ c ∈ catalogs ∧ c.expansion = name := by
  rw [mine, mem_sortWith, Groups.mem_group]

/-- The same expansion, but for its end. -/
def SameBut (e e₀ : ArchivedExpansion) : Prop := e = { e₀ with until' := e.until' }

theorem SameBut.name_eq {e₀ : ArchivedExpansion} (h : SameBut e e₀) : e.name = e₀.name := by
  rw [h]

theorem SameBut.patches_eq {e₀ : ArchivedExpansion} (h : SameBut e e₀) : e.patches = e₀.patches := by
  rw [h]

theorem mem_close {l : List ArchivedExpansion} {pair : Nat × Nat} (h : e ∈ close l pair) :
    ∃ e₀ ∈ l, SameBut e e₀ := by
  simp only [close] at h
  split at h
  · obtain ⟨i, hi⟩ := List.mem_iff_getElem?.mp h
    rw [List.getElem?_modify, Option.map_eq_map, Option.map_eq_some_iff] at hi
    obtain ⟨e₀, he₀, rfl⟩ := hi
    refine ⟨e₀, List.mem_of_getElem? he₀, ?_⟩
    by_cases hpair : pair.1 = i <;> simp [SameBut, hpair]
  · exact ⟨e, h, rfl⟩

theorem mem_foldl_close {pairs : List (Nat × Nat)} {l : List ArchivedExpansion}
    (h : e ∈ pairs.foldl close l) : ∃ e₀ ∈ l, SameBut e e₀ := by
  induction pairs generalizing l with
  | nil => exact ⟨e, h, rfl⟩
  | cons pair pairs ih =>
      obtain ⟨e₁, he₁, hsame⟩ := ih h
      obtain ⟨e₀, he₀, hsame₀⟩ := mem_close he₁
      refine ⟨e₀, he₀, ?_⟩
      rw [SameBut] at hsame hsame₀ ⊢
      rw [hsame, hsame₀]

theorem mem_of (h : e ∈ (Archive.of catalogs collecting).expansions) :
    ∃ name, SameBut e (expansion name (mine catalogs name) collecting) := by
  obtain ⟨e₀, he₀, hsame⟩ := mem_foldl_close h
  rw [mem_sortWith] at he₀
  obtain ⟨⟨name, group⟩, hgroup, rfl⟩ := List.mem_map.mp he₀
  obtain ⟨-, rfl⟩ := Groups.mem_grouped.mp hgroup
  exact ⟨name, hsame⟩

theorem exists_mem_close {l : List ArchivedExpansion} {e₀ : ArchivedExpansion} (h : e₀ ∈ l)
    (pair : Nat × Nat) : ∃ e ∈ close l pair, SameBut e e₀ := by
  simp only [close]
  split
  · rename_i later _
    obtain ⟨i, hi⟩ := List.mem_iff_getElem?.mp h
    refine ⟨if pair.1 = i then { e₀ with until' := some later.from' } else e₀,
      List.mem_of_getElem? (i := i) ?_, ?_⟩
    · rw [List.getElem?_modify, hi]
      rfl
    · split <;> rfl
  · exact ⟨e₀, h, rfl⟩

theorem exists_mem_foldl_close {pairs : List (Nat × Nat)} {l : List ArchivedExpansion}
    {e₀ : ArchivedExpansion} (h : e₀ ∈ l) : ∃ e ∈ pairs.foldl close l, SameBut e e₀ := by
  induction pairs generalizing l e₀ with
  | nil => exact ⟨e₀, h, rfl⟩
  | cons pair pairs ih =>
      obtain ⟨e₁, he₁, hsame₁⟩ := exists_mem_close h pair
      obtain ⟨e, he, hsame⟩ := ih he₁
      refine ⟨e, he, ?_⟩
      rw [SameBut] at hsame hsame₁ ⊢
      rw [hsame, hsame₁]

/-- The expansion of every catalogue is in the archive. -/
theorem exists_mem_of (collecting : Catalog → Bool) {c : Catalog} (hc : c ∈ catalogs) :
    ∃ e ∈ (Archive.of catalogs collecting).expansions,
      SameBut e (expansion c.expansion (mine catalogs c.expansion) collecting) := by
  apply exists_mem_foldl_close
  rw [mem_sortWith]
  have hkey : c.expansion ∈ Groups.keys textLe Catalog.expansion catalogs :=
    Groups.mem_keys.mpr ⟨c, hc, rfl⟩
  exact List.mem_map.mpr ⟨_, Groups.mem_grouped.mpr ⟨hkey, rfl⟩, rfl⟩

end Archive

/-! ## Patches and tiers -/

theorem mem_declaredPatches {d : Catalog × Patch} :
    d ∈ declaredPatches catalogs ↔ d.1 ∈ catalogs ∧ d.2 ∈ d.1.patches := by
  simp only [declaredPatches, List.mem_flatMap, List.mem_map]
  constructor
  · rintro ⟨c, hc, q, hq, rfl⟩
    exact ⟨hc, hq⟩
  · rintro ⟨hc, hq⟩
    exact ⟨d.1, hc, d.2, hq, rfl⟩

/-- A patch of an expansion carries a key that is declared, and the tiers that name it. -/
theorem mem_archivedPatches (h : p ∈ archivedPatches catalogs) :
    (∃ d ∈ declaredPatches catalogs, d.2.patch = p.patch) ∧
      p.catalogs = firsts id [] ((Groups.group (fun d => d.2.patch) (declaredPatches catalogs) p.patch).map
        fun d => d.1.id) ∧
      p.tiers = sortBy ArchivedTier.opened ((archivedTiers catalogs).filter (·.patch = p.patch)) := by
  rw [archivedPatches, sortBy, List.mem_insertionSort] at h
  obtain ⟨⟨key, group⟩, hgroup, rfl⟩ := List.mem_map.mp h
  obtain ⟨hkey, rfl⟩ := Groups.mem_grouped.mp hgroup
  exact ⟨Groups.mem_keys.mp hkey, rfl, rfl⟩

theorem mem_expansion_patches (h : p ∈ (expansion name catalogs collecting).patches) :
    ∃ q ∈ archivedPatches catalogs, p = { q with until' := p.until' } := by
  rw [expansion, List.mem_reverse, List.mem_mapIdx] at h
  obtain ⟨i, hi, rfl⟩ := h
  exact ⟨_, List.getElem_mem hi, rfl⟩

theorem mem_archivedTiers (h : t ∈ archivedTiers catalogs) :
    ∃ tier ∈ mergedTiers catalogs, t.id = tier.id ∧ t.patch = tier.patch ∧ t.opened = tier.openedAt ∧
      t.catalog = opener catalogs tier ∧
      t.declaredBy = (catalogs.filter (·.declares tier.id)).map Catalog.id := by
  simp only [archivedTiers, List.mem_mapIdx] at h
  obtain ⟨i, hi, rfl⟩ := h
  exact ⟨_, List.getElem_mem hi, rfl, rfl, rfl, rfl, rfl⟩

theorem mem_mergedTiers {tier : RaidTier} (h : tier ∈ mergedTiers catalogs) :
    ∃ c ∈ catalogs, tier ∈ c.raidTiers := by
  have hmem := mem_of_mem_firsts h
  rw [sortBy, List.mem_insertionSort] at hmem
  exact List.mem_flatMap.mp hmem

theorem Catalog.declares_iff {c : Catalog} {tier : Text} :
    c.declares tier = true ↔ ∃ t ∈ c.raidTiers, t.id = tier := by
  simp [Catalog.declares]

/-- A tier that is declared was opened by a catalogue that declares it. -/
theorem opener_mem {tier : RaidTier} (h : tier ∈ mergedTiers catalogs) :
    ∃ c ∈ catalogs, c.declares tier.id = true ∧ opener catalogs tier = c.id := by
  obtain ⟨c, hc, htier⟩ := mem_mergedTiers h
  have hdeclares : c.declares tier.id = true := Catalog.declares_iff.mpr ⟨tier, htier, rfl⟩
  have hmem : c ∈ catalogs.filter (·.declares tier.id) := List.mem_filter.mpr ⟨hc, hdeclares⟩
  obtain ⟨last, hlast⟩ := Option.ne_none_iff_exists'.mp
    (mt List.getLast?_eq_none_iff.mp (List.ne_nil_of_mem hmem))
  have hfound (d : Catalog) (hd : d ∈ catalogs.filter (·.declares tier.id)) :
      d ∈ catalogs ∧ d.declares tier.id = true := List.mem_filter.mp hd
  cases hfind : (catalogs.filter (·.declares tier.id)).find? fun c => c.currentTier.any (·.id = tier.id) with
  | some d =>
      obtain ⟨hd, hdeclares⟩ := hfound d (List.mem_of_find?_eq_some hfind)
      exact ⟨d, hd, hdeclares, by simp only [opener, hfind, Option.some_or]⟩
  | none =>
      obtain ⟨hd, hdeclares⟩ := hfound last (List.mem_of_getLast? hlast)
      exact ⟨last, hd, hdeclares, by simp only [opener, hfind, hlast, Option.none_or]⟩

/-! ## The catalogues an archive names -/

/-- A patch or one of its tiers names a catalogue. -/
def ArchivedPatch.Mentions (p : ArchivedPatch) (catalog : Text) : Prop :=
  catalog ∈ p.catalogs ∨ ∃ t ∈ p.tiers, catalog = t.catalog ∨ catalog ∈ t.declaredBy

def Archive.Mentions (a : Archive) (catalog : Text) : Prop :=
  ∃ e ∈ a.expansions, catalog ∈ e.catalogs ∨ ∃ p ∈ e.patches, p.Mentions catalog

theorem mentions_patch (h : p ∈ archivedPatches catalogs) (hnamed : p.Mentions catalog) :
    ∃ c ∈ catalogs, c.id = catalog := by
  obtain ⟨-, hcatalogs, htiers⟩ := mem_archivedPatches h
  rcases hnamed with hnamed | ⟨t, ht, hnamed⟩
  · rw [hcatalogs] at hnamed
    obtain ⟨d, hd, rfl⟩ := List.mem_map.mp (mem_of_mem_firsts hnamed)
    exact ⟨d.1, (mem_declaredPatches.mp (Groups.mem_group.mp hd).1).1, rfl⟩
  · rw [htiers, sortBy, List.mem_insertionSort] at ht
    obtain ⟨tier, htier, -, -, -, hcatalog, hdeclared⟩ := mem_archivedTiers (List.mem_of_mem_filter ht)
    rcases hnamed with rfl | hnamed
    · obtain ⟨c, hc, -, hopener⟩ := opener_mem htier
      exact ⟨c, hc, by rw [hcatalog, hopener]⟩
    · rw [hdeclared] at hnamed
      obtain ⟨c, hc, rfl⟩ := List.mem_map.mp hnamed
      exact ⟨c, List.mem_of_mem_filter hc, rfl⟩

theorem Archive.mentions_of (h : (Archive.of catalogs collecting).Mentions catalog) :
    ∃ c ∈ catalogs, c.id = catalog := by
  obtain ⟨e, he, hnamed⟩ := h
  obtain ⟨name, hsame⟩ := mem_of he
  rw [hsame] at hnamed
  rcases hnamed with hnamed | ⟨p, hp, hnamed⟩
  · obtain ⟨c, hc, rfl⟩ := List.mem_map.mp hnamed
    exact ⟨c, (mem_mine.mp hc).1, rfl⟩
  · have hp' : p ∈ (expansion name (mine catalogs name) collecting).patches := hp
    obtain ⟨q, hq, hpq⟩ := mem_expansion_patches hp'
    rw [hpq] at hnamed
    obtain ⟨c, hc, rfl⟩ := mentions_patch hq hnamed
    exact ⟨c, (mem_mine.mp hc).1, rfl⟩

end Gavel.Market
