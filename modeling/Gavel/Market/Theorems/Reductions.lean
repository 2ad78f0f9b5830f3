import Gavel.Market.Lemmas.Summaries
import Gavel.Market.Lemmas.Supply

/-!
# The two reductions of one snapshot

The listings of an item are reduced to the statistics of a sample and to a ladder that is stored. The two
agree unless a listing of nothing is cheaper than everything on offer, and what is stored of the ladder
is the ladder unless something is offered at no price.
-/

namespace Gavel.Market

open Quantile (upto walk Reaches)

variable {listings : List Listing} {target seen total percent : Nat}

/-! ## Statistics as quantiles -/

namespace Stats

/-- While no sum overflows, the listings are walked like any weighted points. -/
theorem priceReaching_eq (h : seen + (listings.map Listing.quantity).sum < 2 ^ 64) :
    priceReaching target seen listings = walk target seen (listings.map Listing.entry) := by
  induction listings generalizing seen with
  | nil => rfl
  | cons l listings ih =>
      rw [List.map_cons, List.sum_cons] at h
      have hseen : (seen + l.quantity) % 2 ^ 64 = seen + l.quantity := Nat.mod_eq_of_lt (by omega)
      rw [priceReaching, List.map_cons, walk, hseen, ih (by omega)]
      rfl

theorem pairwise_entry (listings : List Listing) :
    ((sortBy Listing.unitPrice listings).map Listing.entry).Pairwise fun a b => a.1 ≤ b.1 :=
  List.pairwise_map.mpr
    (List.pairwise_insertionSort (fun a b : Listing => a.unitPrice ≤ b.unitPrice) listings)

theorem perm_sortBy (listings : List Listing) : (sortBy Listing.unitPrice listings).Perm listings :=
  List.perm_insertionSort _ _

theorem sum_sortBy (listings : List Listing) :
    ((sortBy Listing.unitPrice listings).map Listing.quantity).sum = (listings.map Listing.quantity).sum :=
  ((perm_sortBy listings).map _).sum_eq

/-- A quantile is the least price with enough units at or below it. -/
theorem quantilePrice_reaches (hpercent : percent ≤ 100)
    (hpos : 0 < (listings.map Listing.quantity).sum)
    (hfit : (listings.map Listing.quantity).sum * 100 ≤ maxU64) :
    Reaches (listings.map Listing.entry) (Ladder.sought (listings.map Listing.quantity).sum percent)
      (quantilePrice (sortBy Listing.unitPrice listings) (listings.map Listing.quantity).sum percent) := by
  have hsum := sum_sortBy listings
  have htotal : Quantile.total ((sortBy Listing.unitPrice listings).map Listing.entry) =
      (listings.map Listing.quantity).sum := by
    rw [← hsum, Quantile.total, List.map_map]
    rfl
  have hle := Ladder.sought_le hpercent hpos
  have hone : 0 < Ladder.sought (listings.map Listing.quantity).sum percent := by simp [Ladder.sought]
  obtain ⟨price, hwalk⟩ : ∃ price, walk (Ladder.sought (listings.map Listing.quantity).sum percent) 0
      ((sortBy Listing.unitPrice listings).map Listing.entry) = some price := by
    apply Quantile.walk_isSome _ hone
    omega
  have hlt : 0 + ((sortBy Listing.unitPrice listings).map Listing.quantity).sum < 2 ^ 64 := by
    simp only [maxU64] at hfit
    omega
  have hprice : quantilePrice (sortBy Listing.unitPrice listings) (listings.map Listing.quantity).sum
      percent = price := by
    simp only [quantilePrice, Ladder.sought_eq hpercent hfit, priceReaching_eq hlt, hwalk]
  rw [hprice]
  refine (Quantile.walk_reaches (pairwise_entry listings) hone hwalk).congr ?_
  exact Quantile.upto_perm ((perm_sortBy listings).map _)

/-- The first of the listings in order has the least price. -/
theorem min_sortBy {first : Listing} {rest : List Listing}
    (h : sortBy Listing.unitPrice listings = first :: rest) :
    (listings.map Listing.unitPrice).min? = some first.unitPrice := by
  have hpair := List.pairwise_insertionSort (fun a b : Listing => a.unitPrice ≤ b.unitPrice) listings
  have hmem : ∀ l, l ∈ listings ↔ l ∈ first :: rest := by
    intro l
    rw [← h, mem_sortBy]
  change (sortBy Listing.unitPrice listings).Pairwise _ at hpair
  rw [h, List.pairwise_cons] at hpair
  refine List.min?_eq_some_iff.mpr ⟨List.mem_map_of_mem ((hmem first).mpr List.mem_cons_self), ?_⟩
  intro price hprice
  obtain ⟨l, hl, rfl⟩ := List.mem_map.mp hprice
  rcases List.mem_cons.mp ((hmem l).mp hl) with rfl | hl
  · exact Nat.le_refl _
  · exact hpair.1 l hl

theorem summarise_none (h : (listings.map Listing.quantity).sum = 0) : summarise listings = none := by
  simp only [summarise, sum_sortBy, h]
  split <;> rfl

theorem summarise_some (hpos : 0 < (listings.map Listing.quantity).sum)
    (hfit : (listings.map Listing.quantity).sum * 100 ≤ maxU64) :
    ∃ stats, summarise listings = some stats ∧ stats.quantity = (listings.map Listing.quantity).sum ∧
      (listings.map Listing.unitPrice).min? = some stats.min ∧
      Reaches (listings.map Listing.entry) (Ladder.sought (listings.map Listing.quantity).sum 5)
        stats.p05 ∧
      Reaches (listings.map Listing.entry) (Ladder.sought (listings.map Listing.quantity).sum 50)
        stats.median := by
  have hmod : (listings.map Listing.quantity).sum % 2 ^ 64 = (listings.map Listing.quantity).sum := by
    simp only [maxU64] at hfit
    exact Nat.mod_eq_of_lt (by omega)
  have hsum := sum_sortBy listings
  cases hsorted : sortBy Listing.unitPrice listings with
  | nil =>
      rw [hsorted] at hsum
      simp only [List.map_nil, List.sum_nil] at hsum
      omega
  | cons first rest =>
      refine ⟨⟨first.unitPrice,
        quantilePrice (sortBy Listing.unitPrice listings) (listings.map Listing.quantity).sum 5,
        quantilePrice (sortBy Listing.unitPrice listings) (listings.map Listing.quantity).sum 50,
        (listings.map Listing.quantity).sum, (sortBy Listing.unitPrice listings).length % 2 ^ 32⟩,
        ?_, rfl, min_sortBy hsorted, quantilePrice_reaches (by decide) hpos hfit,
        quantilePrice_reaches (by decide) hpos hfit⟩
      rw [hsorted] at hsum
      simp only [summarise, hsorted, hsum, hmod, Nat.ne_of_gt hpos, if_false]

end Stats

/-! ## The sample and the ladder -/

/-- The statistics of listings and their ladder say the same. -/
structure Agree (listings : List Listing) : Prop where
  both : (Stats.summarise listings).isSome = !(Ladder.of listings).isEmpty
  quantity : ∀ stats, Stats.summarise listings = some stats → stats.quantity = (Ladder.of listings).total
  min : ∀ stats, Stats.summarise listings = some stats → (Ladder.of listings).cheapest = some stats.min
  p05 : ∀ stats, Stats.summarise listings = some stats → (Ladder.of listings).isSparse = false →
    (Ladder.of listings).supplyPercentile 5 = some stats.p05
  median : ∀ stats, Stats.summarise listings = some stats → (Ladder.of listings).isSparse = false →
    (Ladder.of listings).supplyPercentile 50 = some stats.median

/-- Where anything is on offer, every listing is at least as dear as one that offers something. -/
def NoCheaperVoid (listings : List Listing) : Prop :=
  stocked listings ≠ [] → ∀ l ∈ listings, ∃ m ∈ stocked listings, m.unitPrice ≤ l.unitPrice

instance decidableNoCheaperVoid (listings : List Listing) : Decidable (NoCheaperVoid listings) :=
  inferInstanceAs (Decidable (_ → _))

theorem sum_pos_iff : 0 < (listings.map Listing.quantity).sum ↔ stocked listings ≠ [] := by
  rw [← Ladder.total_of_listings, ← not_iff_not, not_lt, Nat.le_zero, not_not, ← Ladder.units_of_eq_nil]
  constructor
  · intro hzero
    by_contra hne
    exact Nat.ne_of_gt (Ladder.total_pos hne) hzero
  · intro hnil
    rw [Ladder.total_of, hnil]
    rfl

/-- The cheapest of all listings is the cheapest on offer when no void listing is cheaper. -/
theorem min_eq_iff (hstock : stocked listings ≠ []) :
    ((stocked listings).map Listing.unitPrice).min? = (listings.map Listing.unitPrice).min? ↔
      NoCheaperVoid listings := by
  obtain ⟨m, hm⟩ : ∃ m, ((stocked listings).map Listing.unitPrice).min? = some m := by
    rw [← Option.isSome_iff_exists, List.isSome_min?_iff]
    simpa using hstock
  obtain ⟨hmem, hle⟩ := List.min?_eq_some_iff.mp hm
  obtain ⟨a, ha, rfl⟩ := List.mem_map.mp hmem
  constructor
  · intro heq _ l hl
    rw [hm] at heq
    exact ⟨a, ha, (List.min?_eq_some_iff.mp heq.symm).2 _ (List.mem_map_of_mem hl)⟩
  · intro hvoid
    rw [hm]
    refine (List.min?_eq_some_iff.mpr ⟨List.mem_map_of_mem (mem_stocked.mp ha).1, ?_⟩).symm
    intro price hprice
    obtain ⟨l, hl, rfl⟩ := List.mem_map.mp hprice
    obtain ⟨b, hb, hbl⟩ := hvoid hstock l hl
    exact Nat.le_trans (hle _ (List.mem_map_of_mem hb)) hbl

/-- One percentile of the ladder and the quantile of the listings. -/
theorem supplyPercentile_eq (hpercent : percent ≤ 100) (hsparse : (Ladder.of listings).isSparse = false)
    (hfit : (listings.map Listing.quantity).sum * 100 ≤ maxU64) {price : Copper}
    (h : Reaches (listings.map Listing.entry)
      (Ladder.sought (listings.map Listing.quantity).sum percent) price) :
    (Ladder.of listings).supplyPercentile percent = some price := by
  have htotal := Ladder.total_of_listings listings
  obtain ⟨price', heq, hreach⟩ := Ladder.supplyPercentile_of hsparse hpercent (by rwa [htotal])
  rw [htotal] at hreach
  rw [heq, (hreach.congr (Ladder.upto_of listings)).unique h]

/-- The two reductions agree exactly when no listing of nothing is cheaper than everything on offer. -/
theorem agree_iff (hfit : (listings.map Listing.quantity).sum * 100 ≤ maxU64) :
    Agree listings ↔ NoCheaperVoid listings := by
  by_cases hstock : stocked listings = []
  · -- Nothing is on offer: neither reduction says anything.
    have hzero : (listings.map Listing.quantity).sum = 0 :=
      Nat.eq_zero_of_not_pos fun h => sum_pos_iff.mp h hstock
    have hnone := Stats.summarise_none hzero
    have hempty : (Ladder.of listings).isEmpty = true :=
      Ladder.isEmpty_iff.mpr (Ladder.units_of_eq_nil.mpr hstock)
    constructor
    · intro _ h
      exact absurd hstock h
    · intro _
      refine ⟨by rw [hnone, hempty]; rfl, ?_, ?_, ?_, ?_⟩ <;>
      · intro stats h
        rw [hnone] at h
        cases h
  · have hpos := sum_pos_iff.mpr hstock
    have htotal := Ladder.total_of_listings listings
    obtain ⟨stats, hstats, hquantity, hmin, hp05, hmedian⟩ := Stats.summarise_some hpos hfit
    have hnonempty : (Ladder.of listings).isEmpty = false := Ladder.isEmpty_eq_false (by rwa [htotal])
    rw [← min_eq_iff hstock, hmin, ← Ladder.cheapest_of]
    constructor
    · intro h
      exact h.min stats hstats
    · intro hcheapest
      refine ⟨by rw [hstats, hnonempty]; rfl, ?_, ?_, ?_, ?_⟩
      · rintro _ h
        cases hstats.symm.trans h
        rw [hquantity, htotal]
      · rintro _ h
        cases hstats.symm.trans h
        exact hcheapest
      · rintro _ h hsparse
        cases hstats.symm.trans h
        exact supplyPercentile_eq (by decide) hsparse hfit hp05
      · rintro _ h hsparse
        cases hstats.symm.trans h
        exact supplyPercentile_eq (by decide) hsparse hfit hmedian

/-- An auction of nothing at a copper moves the sample's least price and not the ladder's. -/
theorem void_listing_disagrees :
    commodityListings [7] [⟨7, 0, some 1⟩, ⟨7, 5, some 200⟩] = .ok [⟨7, 1, 0⟩, ⟨7, 200, 5⟩] ∧
    (Stats.summarise [⟨7, 1, 0⟩, ⟨7, 200, 5⟩]).map PriceStats.min = some 1 ∧
    (Ladder.of [⟨7, 1, 0⟩, ⟨7, 200, 5⟩]).cheapest = some 200 ∧ ¬ Agree [⟨7, 1, 0⟩, ⟨7, 200, 5⟩] := by
  refine ⟨by decide, by decide, by decide, ?_⟩
  intro h
  have hmin := h.min ⟨1, 200, 200, 5, 2⟩ (by decide)
  exact absurd hmin (by decide)

theorem agree_potions :
    Agree [⟨7, 300, 5⟩, ⟨7, 200, 5⟩, ⟨7, 250, 0⟩] :=
  (agree_iff (by decide)).mpr (by decide)

/-! ## What is stored of a ladder -/

/-- A ladder is read back as it was, and so are its figures. -/
structure Lossless (l : Ladder) : Prop where
  same : Ladder.decode l.encode = l
  total : (Ladder.decode l.encode).total = l.total
  cheapest : (Ladder.decode l.encode).cheapest = l.cheapest
  fill : ∀ wanted, (Ladder.decode l.encode).fill wanted = l.fill wanted
  supplyPercentile : ∀ percent, (Ladder.decode l.encode).supplyPercentile percent = l.supplyPercentile percent

theorem lossless_iff_same (l : Ladder) : Lossless l ↔ Ladder.decode l.encode = l := by
  refine ⟨Lossless.same, fun h => ⟨h, ?_, ?_, ?_, ?_⟩⟩ <;> simp only [h, implies_true]

/-- Pooled units are read back exactly when none of them is free. -/
theorem lossless_pooled {entries : List (Nat × Nat)} (hpos : ∀ e ∈ entries, e.1 ≤ maxU64 ∧ 0 < e.2)
    (hfit : (entries.map Prod.snd).sum ≤ maxU64) :
    Lossless (Ladder.ofUnits (Ladder.pooled entries)) ↔ ∀ e ∈ entries, e.1 ≠ 0 := by
  have hkeys : ∀ P : Nat → Prop, (∀ e ∈ Ladder.pooled entries, P e.1) ↔ ∀ e ∈ entries, P e.1 := by
    intro P
    calc (∀ e ∈ Ladder.pooled entries, P e.1)
        ↔ ∀ j ∈ (Ladder.pooled entries).map Prod.fst, P j := List.forall_mem_map.symm
      _ ↔ ∀ j ∈ entries.map Prod.fst, P j := by simp only [Ladder.mem_keys_pooled]
      _ ↔ ∀ e ∈ entries, P e.1 := List.forall_mem_map
  have hprice := (hkeys (· ≤ maxU64)).mpr fun e he => (hpos e he).1
  have hquantity := Ladder.pooled_pos fun e he => (hpos e he).2
  rw [lossless_iff_same, Ladder.decode_encode_iff, hkeys (· ≠ 0)]
  intro e he
  refine ⟨hprice e he, hquantity e he, ?_⟩
  rw [← Ladder.sum_pooled] at hfit
  exact (List.le_sum_of_mem (List.mem_map_of_mem he)).trans hfit

/-- The units of the ladders of several lists of listings. -/
def unitsOf (snapshots : List (List Listing)) : List (Nat × Nat) :=
  (snapshots.map Ladder.of).flatMap Ladder.units

theorem mem_keys_unitsOf {snapshots : List (List Listing)} {p : Nat} :
    p ∈ (unitsOf snapshots).map Prod.fst ↔ p ∈ (stocked snapshots.flatten).map Listing.unitPrice := by
  induction snapshots with
  | nil => rfl
  | cons listings snapshots ih =>
      have hstocked : stocked (listings :: snapshots).flatten =
          stocked listings ++ stocked snapshots.flatten := List.filter_append ..
      have hunits : unitsOf (listings :: snapshots) =
          (Ladder.of listings).units ++ unitsOf snapshots := rfl
      rw [hunits, hstocked, List.map_append, List.map_append, List.mem_append, List.mem_append, ih,
        Ladder.mem_keys_of]

theorem unitsOf_pos {snapshots : List (List Listing)} : ∀ e ∈ unitsOf snapshots, 0 < e.2 := by
  intro e he
  obtain ⟨ladder, hladder, he⟩ := List.mem_flatMap.mp he
  obtain ⟨listings, -, rfl⟩ := List.mem_map.mp hladder
  exact Ladder.units_pos he

theorem sum_unitsOf (snapshots : List (List Listing)) :
    ((unitsOf snapshots).map Prod.snd).sum = (snapshots.flatten.map Listing.quantity).sum := by
  induction snapshots with
  | nil => rfl
  | cons listings snapshots ih =>
      have hunits : unitsOf (listings :: snapshots) =
          (Ladder.of listings).units ++ unitsOf snapshots := rfl
      rw [hunits, List.map_append, List.sum_append, ih, ← Ladder.total_of, Ladder.total_of_listings,
        List.flatten_cons, List.map_append, List.sum_append]

/-- What is stored of a ladder of listings, or of several such ladders as one, is read back exactly when
none of the listings that offer something has a price of zero. -/
theorem stored_iff (listings : List Listing) (snapshots : List (List Listing)) :
    ((∀ l ∈ listings, l.unitPrice ≤ maxU64) → (listings.map Listing.quantity).sum ≤ maxU64 →
      (Lossless (Ladder.of listings) ↔ ∀ l ∈ stocked listings, l.unitPrice ≠ 0)) ∧
    ((∀ l ∈ snapshots.flatten, l.unitPrice ≤ maxU64) →
      (snapshots.flatten.map Listing.quantity).sum ≤ maxU64 →
      (Lossless (Ladder.merged (snapshots.map Ladder.of)) ↔
        ∀ l ∈ stocked snapshots.flatten, l.unitPrice ≠ 0)) := by
  constructor
  · intro hprice hfit
    rw [Ladder.of_stocked, lossless_pooled]
    · exact List.forall_mem_map
    · intro e he
      obtain ⟨l, hl, rfl⟩ := List.mem_map.mp he
      obtain ⟨hl, hne⟩ := mem_stocked.mp hl
      exact ⟨hprice l hl, Nat.pos_of_ne_zero hne⟩
    · rw [← sum_stocked] at hfit
      rw [List.map_map]
      exact hfit
  · intro hprice hfit
    have hkeys : ∀ P : Nat → Prop, (∀ e ∈ unitsOf snapshots, P e.1) ↔
        ∀ l ∈ stocked snapshots.flatten, P l.unitPrice := by
      intro P
      calc (∀ e ∈ unitsOf snapshots, P e.1)
          ↔ ∀ j ∈ (unitsOf snapshots).map Prod.fst, P j := List.forall_mem_map.symm
        _ ↔ ∀ j ∈ (stocked snapshots.flatten).map Listing.unitPrice, P j := by
            simp only [mem_keys_unitsOf]
        _ ↔ ∀ l ∈ stocked snapshots.flatten, P l.unitPrice := List.forall_mem_map
    have hbound := (hkeys (· ≤ maxU64)).mpr fun l hl => hprice l (mem_stocked.mp hl).1
    rw [Ladder.merged_eq, ← hkeys (· ≠ 0)]
    apply lossless_pooled
    · intro e he
      exact ⟨hbound e he, unitsOf_pos e he⟩
    · exact (sum_unitsOf snapshots).trans_le hfit

/-- An auction whose price is left out is stored and not read back. -/
theorem free_listing_lost :
    commodityListings [7] [⟨7, 5, none⟩, ⟨7, 2, some 200⟩] = .ok [⟨7, 0, 5⟩, ⟨7, 200, 2⟩] ∧
    (Ladder.of [⟨7, 0, 5⟩, ⟨7, 200, 2⟩]).encode = "0:5,200:2".toList ∧
    Ladder.decode "0:5,200:2".toList = Ladder.of [⟨7, 200, 2⟩] ∧
    Ladder.of [⟨7, 0, 5⟩, ⟨7, 200, 2⟩] ≠ Ladder.of [⟨7, 200, 2⟩] := by
  decide

theorem stored_potions :
    Lossless (Ladder.of [⟨7, 200, 5⟩, ⟨7, 300, 2⟩]) ∧
    Lossless (Ladder.merged ([[⟨7, 200, 5⟩], [⟨7, 300, 2⟩]].map Ladder.of)) :=
  ⟨((stored_iff [⟨7, 200, 5⟩, ⟨7, 300, 2⟩] []).1 (by decide) (by decide)).mpr (by decide),
    ((stored_iff [] [[⟨7, 200, 5⟩], [⟨7, 300, 2⟩]]).2 (by decide) (by decide)).mpr (by decide)⟩

end Gavel.Market
