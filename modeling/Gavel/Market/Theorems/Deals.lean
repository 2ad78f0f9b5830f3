import Gavel.Market.Deals
import Gavel.Market.Lemmas.Summaries

/-!
# What is called a deal

A deal is the cheapest offer of a realm on evidence, under a threshold that the region's history sets. Which
rows play which part depends on what they cover and not on the order they come in.
-/

namespace Gavel.Market.Deals

open Gavel.Sorting

variable {rows rows' : List MarketRollup} {g : DealGroup} {d : Deal} {realm : RealmId} {price : Copper}
  {evidence : Bool}

/-- A realm asks a price for a market, has it on sale and is known well enough. -/
def Offers (rows : List MarketRollup) (g : DealGroup) (realm : RealmId) (price : Copper) : Prop :=
  ∃ row ∈ rows, row.dealGroup = g ∧ row.scope = .realm realm ∧ row.cheapestNow = some price ∧
    0 < row.listingsNow ∧ sufficient row = true

/-- The prices that realms ask for a market. -/
def prices (rows : List MarketRollup) (g : DealGroup) : List Copper :=
  rows.filterMap fun row =>
    if row.dealGroup = g ∧ row.scope ≠ .region ∧ 0 < row.listingsNow ∧ sufficient row = true then
      row.cheapestNow
    else none

/-- The price a third of the way up the offers. -/
def third (rows : List MarketRollup) (g : DealGroup) : Option Copper :=
  (sortBy id (prices rows g))[(prices rows g).length / 3]?

/-- The row of the region passes the gates, and its median the threshold. -/
structure Gated (rows : List MarketRollup) (d : Deal) (row : MarketRollup) : Prop where
  region : row.scope = .region
  group : row.dealGroup = d.group
  sufficient : sufficient row = true
  listing : minListingRealms ≤ row.realmsListing
  collected : 0 < row.realmsCollected
  coverage : satMul32 row.realmsCollected minListingCoveragePercent ≤ satMul32 row.realmsListing 100
  half : row.realmsListing * 100 ≤ maxU32 →
    row.realmsCollected * minListingCoveragePercent ≤ row.realmsListing * 100
  median : ∃ distribution, row.distribution = some distribution ∧ d.threshold ≤ distribution.median ∧
    ((prices rows d.group).length < percentileRealms → d.threshold = distribution.median)
  counts : d.realmsListing = row.realmsListing ∧ d.realmsCollected = row.realmsCollected

/-- A deal that may be shown. -/
structure Sound (rows : List MarketRollup) (d : Deal) : Prop where
  perRealm : d.kind.isCommodity = false
  regional : ∃ row ∈ rows, Gated rows d row
  offer : Offers rows d.group d.realm d.price
  cheapest : ∀ realm price, Offers rows d.group realm price → d.price ≤ price
  lowest : ∀ realm, Offers rows d.group realm d.price → d.realm ≤ realm
  priced : minDealPrice ≤ d.price ∧ d.price < d.threshold
  capped : percentileRealms ≤ (prices rows d.group).length →
    ∃ price, third rows d.group = some price ∧ d.threshold ≤ price
  saving : d.savingPercent < 100
  exact : (d.threshold - d.price) * 100 < 2 ^ 64 →
    d.savingPercent = (d.threshold - d.price) * 100 / d.threshold

/-- One deal for a market at most, the deals in order, and each market that was withheld counted once. -/
structure Selects (rows : List MarketRollup) (selection : DealSelection) : Prop where
  sound : ∀ d ∈ selection.deals, Sound rows d
  once : (selection.deals.map Deal.group).Nodup
  sorted : selection.deals.Pairwise fun d e => (Deal.order d e).isLE = true
  withheld : ∃ withheld : List DealGroup, withheld.Nodup ∧ selection.suppressed = withheld.length ∧
    ∀ g ∈ withheld, g ∉ selection.deals.map Deal.group ∧ ∃ row ∈ rows, row.dealGroup = g

/-- One row for the region of a per-realm market at most, and one for a realm. -/
def Distinct (rows : List MarketRollup) : Prop :=
  (rows.filter fun row => !row.kind.isCommodity).Pairwise fun a b =>
    ¬ (a.dealGroup = b.dealGroup ∧ a.scope = b.scope)

instance Distinct.decidable (rows : List MarketRollup) : Decidable (Distinct rows) :=
  inferInstanceAs (Decidable (List.Pairwise _ _))

/-! ## Offers -/

theorem mem_offered : (price, realm) ∈ offered rows evidence ↔
    ∃ row ∈ rows, row.scope = .realm realm ∧ row.cheapestNow = some price ∧ 0 < row.listingsNow ∧
      (evidence = true → sufficient row = true) := by
  rw [offered, mem_sortWith, List.mem_filterMap]
  refine exists_congr fun row => and_congr_right fun _ => ?_
  rw [offer]
  cases hscope : row.scope with
  | region => simp
  | realm id =>
      cases evidence <;> simp [and_comm, and_left_comm, and_assoc]

instance : Std.TransCmp (compareLex (compareOn Prod.fst) (compareOn Prod.snd) :
    Copper × RealmId → Copper × RealmId → Ordering) := inferInstance

theorem offered_sorted (rows : List MarketRollup) (evidence : Bool) :
    (offered rows evidence).Pairwise fun a b => a.1 ≤ b.1 ∧ (a.1 = b.1 → a.2 ≤ b.2) := by
  refine (pairwise_sortWith _).imp fun {a b} h => ?_
  simp only [compareLex, compareOn, Ordering.isLE_then_iff_or, Nat.compare_eq_lt, Nat.compare_eq_eq,
    Nat.isLE_compare] at h
  rcases h with hlt | ⟨heq, hle⟩
  · exact ⟨Nat.le_of_lt hlt, fun heq => absurd heq (Nat.ne_of_lt hlt)⟩
  · exact ⟨Nat.le_of_eq heq, fun _ => hle⟩

/-- The cheapest offer stands first, the lowest realm of its price. -/
theorem offered_head (h : (offered rows evidence).head? = some (price, realm)) :
    (price, realm) ∈ offered rows evidence ∧ ∀ o ∈ offered rows evidence,
      price ≤ o.1 ∧ (price = o.1 → realm ≤ o.2) := by
  have hsorted := offered_sorted rows evidence
  refine ⟨List.mem_of_mem_head? h, fun o ho => ?_⟩
  cases hl : offered rows evidence with
  | nil => simp [hl] at h
  | cons first rest =>
      rw [hl] at h hsorted ho
      obtain rfl : first = (price, realm) := Option.some.inj h
      rcases List.mem_cons.mp ho with rfl | ho
      · exact ⟨Nat.le_refl _, fun _ => Nat.le_refl _⟩
      · exact (List.pairwise_cons.mp hsorted).1 o ho

theorem offered_perm (h : rows.Perm rows') : offered rows evidence = offered rows' evidence := by
  refine sortWith_congr (h.filterMap _) fun a b heq => ?_
  simp only [compareLex_eq_eq, compareOn, Nat.compare_eq_eq] at heq
  exact Prod.ext heq.1 heq.2

/-! ## One market -/

/-- The rows of a market. -/
def rowsOf (rows : List MarketRollup) (g : DealGroup) : List MarketRollup :=
  rows.filter fun row => row.dealGroup = g

theorem mem_rowsOf {row : MarketRollup} : row ∈ rowsOf rows g ↔ row ∈ rows ∧ row.dealGroup = g := by
  simp [rowsOf]

theorem offers_iff : Offers rows g realm price ↔ (price, realm) ∈ offered (rowsOf rows g) true := by
  simp only [mem_offered, mem_rowsOf, Offers, and_assoc, true_imp_iff]

/-- The prices of the offers are those the realms ask, in order. -/
theorem prices_offered (rows : List MarketRollup) (g : DealGroup) :
    (offered (rowsOf rows g) true).map Prod.fst = sortBy id (prices rows g) := by
  have hprices : ((rowsOf rows g).filterMap (offer true)).map Prod.fst = prices rows g := by
    rw [rowsOf, List.filterMap_filter, List.map_filterMap]
    refine List.filterMap_congr fun row _ => ?_
    by_cases hg : row.dealGroup = g
    · cases hscope : row.scope with
      | region => simp [hg, offer, hscope]
      | realm id =>
          by_cases hevidence : sufficient row = true
          · by_cases hlisted : 0 < row.listingsNow
            · simp [hg, offer, hscope, hevidence, hlisted, Function.comp_def]
            · simp [hg, offer, hscope, hlisted]
          · simp [hg, offer, hscope, hevidence]
    · simp [hg]
  have hperm : ((offered (rowsOf rows g) true).map Prod.fst).Perm (sortBy id (prices rows g)) := by
    refine ((perm_sortWith _ _).map Prod.fst).trans ?_
    rw [hprices]
    exact (perm_sortBy _).symm
  refine hperm.eq_of_pairwise' (List.pairwise_map.mpr ?_) (pairwise_sortBy _)
  exact (offered_sorted _ _).imp fun h => h.1

theorem length_offered (rows : List MarketRollup) (g : DealGroup) :
    (offered (rowsOf rows g) true).length = (prices rows g).length := by
  rw [← (perm_sortBy (prices rows g)).length_eq, ← prices_offered, List.length_map]

theorem third_eq (rows : List MarketRollup) (g : DealGroup) : third rows g =
    (offered (rowsOf rows g) true)[(offered (rowsOf rows g) true).length / 3]?.map Prod.fst := by
  rw [third, ← prices_offered, List.getElem?_map, length_offered]

theorem deal_cases (h : deal rows = some d) : ∃ regional distribution price realm,
    regionalRow rows = some regional ∧ regional.distribution = some distribution ∧
      sufficient regional = true ∧ minListingRealms ≤ regional.realmsListing ∧
      0 < regional.realmsCollected ∧
      satMul32 regional.realmsCollected minListingCoveragePercent ≤ satMul32 regional.realmsListing 100 ∧
      (offered rows true).head? = some (price, realm) ∧ minDealPrice ≤ price ∧
      price < threshold distribution.median (offered rows true) ∧
      d = ⟨regional.item, regional.kind, regional.track, realm, price,
        threshold distribution.median (offered rows true),
        (threshold distribution.median (offered rows true) - price) * 100 % 2 ^ 64 /
          threshold distribution.median (offered rows true) % 2 ^ 8,
        regional.realmsListing, regional.realmsCollected⟩ := by
  simp only [deal, Option.bind_eq_bind, Option.bind_eq_some_iff] at h
  obtain ⟨regional, hregional, distribution, hdistribution, position, hposition, h⟩ := h
  split at h
  · cases h
  · rename_i hgates
    obtain ⟨⟨price, realm⟩, hhead, h⟩ := Option.bind_eq_some_iff.mp h
    split at h
    · cases h
    · rename_i hprice
      simp only [not_or, Nat.not_lt, Nat.not_le] at hgates hprice
      obtain ⟨hsufficient, hlisting, hcollected, hcoverage⟩ := hgates
      refine ⟨regional, distribution, price, realm, hregional, hdistribution, ?_, hlisting,
        Nat.pos_of_ne_zero hcollected, hcoverage, hhead, hprice.1, hprice.2, (Option.some.inj h).symm⟩
      simpa [sufficient, hposition] using hsufficient

/-- Fewer offers than a percentile takes leave the median alone; of more, a third caps it. -/
theorem threshold_spec (rows : List MarketRollup) (g : DealGroup) (median : Copper) :
    ((prices rows g).length < percentileRealms → threshold median (offered (rowsOf rows g) true) = median) ∧
      (percentileRealms ≤ (prices rows g).length → ∃ price, third rows g = some price ∧
        threshold median (offered (rowsOf rows g) true) = min median price) := by
  rw [threshold, length_offered]
  refine ⟨fun hfew => if_neg (Nat.not_le_of_lt hfew), fun hmany => ?_⟩
  have hpos : 0 < (prices rows g).length := Nat.lt_of_lt_of_le (by decide) hmany
  have hi : (prices rows g).length / 3 < (sortBy id (prices rows g)).length := by
    rw [(perm_sortBy _).length_eq]
    exact Nat.div_lt_self hpos (by decide)
  obtain ⟨price, hprice⟩ : ∃ price, third rows g = some price := ⟨_, List.getElem?_eq_getElem hi⟩
  refine ⟨price, hprice, ?_⟩
  rw [if_pos hmany, ← length_offered, ← third_eq, hprice, Option.getD_some]

/-- What is saved is less than everything, also where the product wraps. -/
theorem saving_lt {limit : Nat} (hpos : 0 < price) (hlt : price < limit) :
    (limit - price) * 100 % 2 ^ 64 / limit < 100 := by
  refine Nat.div_lt_of_lt_mul (Nat.lt_of_le_of_lt (Nat.mod_le _ _) ?_)
  exact Nat.mul_lt_mul_of_pos_right (Nat.sub_lt (Nat.lt_trans hpos hlt) hpos) (by decide)

theorem deal_sound (hg : g.kind.isCommodity = false) (h : deal (rowsOf rows g) = some d) :
    d.group = g ∧ Sound rows d := by
  obtain ⟨regional, distribution, price, realm, hregional, hdistribution, hsufficient, hlisting, hcollected,
    hcoverage, hhead, hprice, hlt, rfl⟩ := deal_cases h
  obtain ⟨hmem, hgroup⟩ := mem_rowsOf.mp (List.mem_of_find?_eq_some hregional)
  have hscope : regional.scope = .region := by simpa using List.find?_some hregional
  obtain ⟨hoffer, hleast⟩ := offered_head hhead
  obtain ⟨hfew, hmany⟩ := threshold_spec rows g distribution.median
  have hpos : 0 < price := Nat.lt_of_lt_of_le (by decide) hprice
  have hsaving := saving_lt hpos hlt
  subst hgroup
  refine ⟨rfl, ?_⟩
  constructor
  · exact hg
  · refine ⟨regional, hmem, hscope, rfl, hsufficient, hlisting, hcollected, hcoverage, fun hfits => ?_,
      ⟨distribution, hdistribution, ?_, hfew⟩, rfl, rfl⟩
    · rw [satMul32, satMul32, Nat.min_eq_left hfits] at hcoverage
      have hbelow : regional.realmsListing * 100 < maxU32 := by
        refine Nat.lt_of_le_of_ne hfits fun heq => ?_
        rw [maxU32] at heq
        omega
      exact (min_le_iff.mp hcoverage).resolve_right (Nat.not_le_of_lt hbelow)
    · rcases Nat.lt_or_ge (prices rows regional.dealGroup).length percentileRealms with hlen | hlen
      · exact Nat.le_of_eq (hfew hlen)
      · obtain ⟨_, -, hcap⟩ := hmany hlen
        exact Nat.le_trans (Nat.le_of_eq hcap) (Nat.min_le_left _ _)
  · exact offers_iff.mpr hoffer
  · exact fun realm' price' h => (hleast _ (offers_iff.mp h)).1
  · exact fun realm' h => (hleast _ (offers_iff.mp h)).2 rfl
  · exact ⟨hprice, hlt⟩
  · intro hlen
    obtain ⟨third, hthird, hcap⟩ := hmany hlen
    exact ⟨third, hthird, Nat.le_trans (Nat.le_of_eq hcap) (Nat.min_le_right _ _)⟩
  · exact Nat.lt_of_le_of_lt (Nat.mod_le _ _) hsaving
  · intro hfits
    have hbyte := Nat.mod_eq_of_lt (Nat.lt_trans hsaving (by decide : 100 < 2 ^ 8))
    exact hbyte.trans (congrArg (· / _) (Nat.mod_eq_of_lt hfits))

/-! ## All markets -/

/-- The per-realm markets that rows are of, in order. -/
def markets (rows : List MarketRollup) : List DealGroup :=
  Groups.keys DealGroup.le MarketRollup.dealGroup (rows.filter fun row => !row.kind.isCommodity)

theorem markets_nodup (rows : List MarketRollup) : (markets rows).Nodup := Groups.keys_nodup

theorem mem_markets : g ∈ markets rows ↔ g.kind.isCommodity = false ∧ ∃ row ∈ rows, row.dealGroup = g := by
  simp only [markets, Groups.mem_keys, List.mem_filter, Bool.not_eq_true']
  constructor
  · rintro ⟨row, ⟨hmem, hkind⟩, rfl⟩
    exact ⟨hkind, row, hmem, rfl⟩
  · rintro ⟨hkind, row, hmem, rfl⟩
    exact ⟨row, ⟨hmem, hkind⟩, rfl⟩

theorem perRealm_of_mem {row : MarketRollup} (hg : g ∈ markets rows) (h : row.dealGroup = g) :
    row.kind.isCommodity = false := by
  subst h
  exact (mem_markets.mp hg).1

theorem groups_eq (rows : List MarketRollup) : groups rows = (markets rows).map fun g => (g, rowsOf rows g) := by
  refine List.map_congr_left fun g hg => Prod.ext rfl ?_
  change (rows.filter _).filter _ = rows.filter _
  rw [List.filter_filter]
  refine List.filter_congr fun row _ => ?_
  by_cases hrow : row.dealGroup = g
  · simp [hrow, perRealm_of_mem hg hrow]
  · simp [hrow]

theorem select_eq (rows : List MarketRollup) : select rows =
    ⟨sortWith Deal.order ((markets rows).filterMap fun g => deal (rowsOf rows g)),
      (markets rows).countP fun g => (deal (rowsOf rows g)).isNone && candidate (rowsOf rows g)⟩ := by
  rw [select, groups_eq, List.filterMap_map, List.countP_map]
  rfl

theorem mem_deals : d ∈ (select rows).deals ↔ d.group ∈ markets rows ∧ deal (rowsOf rows d.group) = some d := by
  rw [select_eq, mem_sortWith, List.mem_filterMap]
  constructor
  · rintro ⟨g, hg, hd⟩
    obtain ⟨rfl, -⟩ := deal_sound (mem_markets.mp hg).1 hd
    exact ⟨hg, hd⟩
  · rintro ⟨hg, hd⟩
    exact ⟨d.group, hg, hd⟩

instance : Std.TransCmp Deal.order := by
  have hsaving : Std.TransCmp fun a b : Deal => compare b.savingPercent a.savingPercent :=
    inferInstanceAs (Std.TransCmp fun a b => compareOn Deal.savingPercent b a)
  exact inferInstanceAs (Std.TransCmp (compareLex _ (compareLex (compareOn Deal.price)
    (compareLex (compareOn Deal.item) (compareOn _)))))

theorem selects (rows : List MarketRollup) : Selects rows (select rows) where
  sound d hd := by
    obtain ⟨hg, hdeal⟩ := mem_deals.mp hd
    exact (deal_sound (mem_markets.mp hg).1 hdeal).2
  once := by
    rw [select_eq]
    refine ((perm_sortWith _ _).map _).nodup_iff.mpr (List.pairwise_map.mpr ?_)
    rw [List.pairwise_filterMap]
    refine (markets_nodup rows).imp_of_mem fun {a b} ha hb hne d hd e he heq => ?_
    obtain ⟨rfl, -⟩ := deal_sound (mem_markets.mp ha).1 hd
    obtain ⟨rfl, -⟩ := deal_sound (mem_markets.mp hb).1 he
    exact hne heq
  sorted := pairwise_sortWith _
  withheld := by
    refine ⟨(markets rows).filter fun g => (deal (rowsOf rows g)).isNone && candidate (rowsOf rows g),
      (markets_nodup rows).filter _, ?_, fun g hg => ?_⟩
    · rw [select_eq, List.countP_eq_length_filter]
    · obtain ⟨hmarket, hnone⟩ := List.mem_filter.mp hg
      refine ⟨fun hdeal => ?_, (mem_markets.mp hmarket).2⟩
      obtain ⟨d, hd, rfl⟩ := List.mem_map.mp hdeal
      rw [(mem_deals.mp hd).2] at hnone
      cases hnone

/-! ## Rows in another order -/

theorem dealGroup_places_injective : Function.Injective DealGroup.places := by
  rintro ⟨item, kind, track⟩ ⟨item', kind', track'⟩ h
  simp only [DealGroup.places, List.cons.injEq, and_true] at h
  obtain ⟨hitem, hkind, htrack⟩ := h
  obtain rfl : kind = kind' := by
    cases kind <;> cases kind' <;> first | rfl | cases hkind
  obtain rfl : track = track' := by
    rcases track with - | (_ | _ | _ | _) <;> rcases track' with - | (_ | _ | _ | _) <;>
      first | rfl | cases htrack
  rw [hitem]

theorem markets_perm (h : rows.Perm rows') : markets rows = markets rows' :=
  Groups.keys_congr (φ := DealGroup.places) (fun _ _ => Iff.rfl) dealGroup_places_injective fun g => by
    simp only [List.mem_filter, h.mem_iff]

/-- The rows of a market come to the same whatever their order. -/
theorem rowsOf_perm (hdistinct : Distinct rows) (h : rows.Perm rows') (hg : g ∈ markets rows) :
    deal (rowsOf rows g) = deal (rowsOf rows' g) ∧ candidate (rowsOf rows g) = candidate (rowsOf rows' g) := by
  have hrows : (rowsOf rows g).Perm (rowsOf rows' g) := h.filter _
  have hone : (rowsOf rows g).Pairwise fun a b =>
      ¬ (decide (a.scope = .region) = true ∧ decide (b.scope = .region) = true) := by
    have hsub : (rowsOf rows g).Sublist (rows.filter fun row => !row.kind.isCommodity) := by
      refine List.monotone_filter_right rows fun row hrow => ?_
      have hgroup : row.dealGroup = g := by simpa using hrow
      simp [perRealm_of_mem hg hgroup]
    refine (hdistinct.sublist hsub).imp_of_mem fun {a b} ha hb hne hboth => hne ⟨?_, ?_⟩
    · exact (mem_rowsOf.mp ha).2.trans (mem_rowsOf.mp hb).2.symm
    · exact (of_decide_eq_true hboth.1).trans (of_decide_eq_true hboth.2).symm
  have hregional : regionalRow (rowsOf rows g) = regionalRow (rowsOf rows' g) := find?_perm hrows hone
  have hoffered : ∀ evidence, offered (rowsOf rows g) evidence = offered (rowsOf rows' g) evidence :=
    fun evidence => offered_perm hrows
  simp only [deal, candidate, hregional, hoffered, and_self]

theorem select_perm (hdistinct : Distinct rows) (h : rows.Perm rows') : select rows' = select rows := by
  have hsame : ∀ g ∈ markets rows, _ := fun g hg => rowsOf_perm hdistinct h hg
  rw [select_eq, select_eq, ← markets_perm h]
  congr 1
  · exact congrArg _ (List.filterMap_congr fun g hg => (hsame g hg).1.symm)
  · refine List.countP_congr fun g hg => ?_
    rw [(hsame g hg).1, (hsame g hg).2]

/-- The deals that are selected are sound, one for a market, in order; a market that was withheld is no
deal; and the order of the rows has no part in it. -/
theorem selection_sound (rows : List MarketRollup) (hdistinct : Distinct rows) :
    Selects rows (select rows) ∧ ∀ rows', rows.Perm rows' → select rows' = select rows :=
  ⟨selects rows, fun _ h => select_perm hdistinct h⟩

/-- A piece of gear in three realms, far cheaper in one than it used to be. -/
theorem selection_sound_cheap :
    let row : Scope → Copper → MarketRollup := fun scope price =>
      { region := .eu, item := 7, kind := .boe, track := some .hero, scope, window := .all,
        observedAt := some 10, snapshots := 1, realmsListing := 3, cheapestNow := some price,
        cheapestRealm := none, realmsCollected := 3, realmSpread := none, dearestRealmNow := none,
        dearestRealm := none, medianRealmNow := none, highestNow := none, cheapestEver := none,
        highestEver := none, listingsNow := 1, listingsSeen := 1, depth := none, ladder := ⟨[]⟩,
        levelRange := [], levels := [], modifiers := [], series := [],
        distribution := some ⟨1, 1, 3000000, 1, 1, 1, 1, 72⟩,
        position := some ⟨some 50, none, none, none, .ordinary⟩, swing := 0 }
    let rows := [row .region 2000000, row (.realm 4) 3000000, row (.realm 3) 2000000, row (.realm 5) 3200000]
    (select rows).deals.map (fun d => (d.realm, d.price, d.savingPercent)) = [(3, 2000000, 33)] ∧
      ∀ d ∈ (select rows).deals, Sound rows d :=
  ⟨by decide, (selection_sound _ (by decide)).1.sound⟩

end Gavel.Market.Deals
