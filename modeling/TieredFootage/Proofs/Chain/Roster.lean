import Mathlib.Data.List.Dedup
import Mathlib.Data.List.Induction
import Mathlib.Data.List.Sort
import Mathlib.Data.String.Basic
import TieredFootage.Proofs.Chain.Neighbours
import TieredFootage.Tier.Keeper

/-!
# The keepers of accepted settings

Keepers stand in the order of their addresses, which name no category, and a
keeper that is put in drives out the one that stood at its address. Accepted
settings give no two tiers one address, but for a domain that is listed twice,
whose tiers are the same again. So nobody is driven out: every tier has its
keeper, the places of a chain are taken without a gap, and the keeper behind
another one is that of the root it moves its files to.
-/

namespace TieredFootage

namespace Address

variable {a b c : Address}

theorem before_iff : a.before b = true ↔
    a.camera < b.camera ∨ a.camera = b.camera ∧
      (a.subcategory < b.subcategory ∨ a.subcategory = b.subcategory ∧ a.index < b.index) := by
  unfold before
  split
  · rename_i hcamera
    split
    · rename_i hsubcategory
      simp [hcamera, hsubcategory]
    · rename_i hsubcategory
      simp [hcamera, hsubcategory]
  · rename_i hcamera
    simp [hcamera]

theorem not_before_self (a : Address) : ¬ a.before a = true := by
  simp [before]

theorem before_trans (hab : a.before b = true) (hbc : b.before c = true) : a.before c = true := by
  rw [before_iff] at *
  rcases hab with hab | ⟨hab, hab'⟩
  · rcases hbc with hbc | ⟨hbc, -⟩
    · exact Or.inl (hab.trans hbc)
    · exact Or.inl (hbc ▸ hab)
  · rcases hbc with hbc | ⟨hbc, hbc'⟩
    · exact Or.inl (hab ▸ hbc)
    · refine Or.inr ⟨hab.trans hbc, ?_⟩
      rcases hab' with hab' | ⟨hab', hi⟩
      · rcases hbc' with hbc' | ⟨hbc', -⟩
        · exact Or.inl (hab'.trans hbc')
        · exact Or.inl (hbc' ▸ hab')
      · rcases hbc' with hbc' | ⟨hbc', hj⟩
        · exact Or.inl (hab' ▸ hbc')
        · exact Or.inr ⟨hab'.trans hbc', hi.trans hj⟩

theorem before_of_not_before (hne : a ≠ b) (h : ¬ b.before a = true) : a.before b = true := by
  rw [before_iff] at *
  obtain ⟨camera, subcategory, i⟩ := a
  obtain ⟨camera', subcategory', j⟩ := b
  simp only [ne_eq, mk.injEq, not_and] at hne h ⊢
  rcases lt_trichotomy camera camera' with hlt | rfl | hlt
  · exact Or.inl hlt
  · rcases lt_trichotomy subcategory subcategory' with hlt | rfl | hlt
    · exact Or.inr ⟨rfl, Or.inl hlt⟩
    · have hi := hne rfl rfl
      refine Or.inr ⟨rfl, Or.inr ⟨rfl, ?_⟩⟩
      have hj : ¬ j < i := fun hj => h (Or.inr ⟨rfl, Or.inr ⟨rfl, hj⟩⟩)
      omega
    · exact absurd (Or.inr ⟨rfl, Or.inl hlt⟩) h
  · exact absurd (Or.inl hlt) h

end Address

namespace Keepers

/-- The keepers stand in the order of their addresses, no two at one address. -/
def Ordered (ks : Keepers) : Prop :=
  List.Pairwise (fun x y : Keeper => x.address.before y.address = true) ks

variable {k x : Keeper} {ks : Keepers} {a : Address}

theorem Ordered.address_ne (h : Ordered (x :: ks)) (hk : k ∈ ks) : x.address ≠ k.address := by
  intro heq
  have hbefore := List.rel_of_pairwise_cons h hk
  rw [heq] at hbefore
  exact Address.not_before_self _ hbefore

theorem Ordered.eq_of_address_eq (h : Ordered ks) (hk : k ∈ ks) (hx : x ∈ ks)
    (heq : k.address = x.address) : k = x := by
  induction ks with
  | nil => cases hk
  | cons y ys ih =>
    rcases List.mem_cons.1 hk with hky | hk
    · rcases List.mem_cons.1 hx with hxy | hx
      · rw [hky, hxy]
      · exact absurd (hky ▸ heq) (h.address_ne hx)
    · rcases List.mem_cons.1 hx with hxy | hx
      · exact absurd (hxy ▸ heq.symm) (h.address_ne hk)
      · exact ih (List.Pairwise.of_cons h) hk hx

theorem Ordered.nodup (h : Ordered ks) : (List.map Keeper.address ks).Nodup := by
  rw [List.Nodup, List.pairwise_map]
  refine List.Pairwise.imp (fun hbefore heq => ?_) h
  rw [heq] at hbefore
  exact Address.not_before_self _ hbefore

theorem Ordered.get?_eq_some_iff (h : Ordered ks) :
    ks.get? a = some k ↔ k ∈ ks ∧ k.address = a := by
  constructor
  · intro hget
    exact ⟨List.mem_of_find?_eq_some hget, by simpa using List.find?_some hget⟩
  · rintro ⟨hk, rfl⟩
    cases hget : ks.get? k.address with
    | none => simpa using List.find?_eq_none.1 hget k hk
    | some y =>
      have hy : y.address = k.address := by simpa using List.find?_some hget
      rw [h.eq_of_address_eq hk (List.mem_of_find?_eq_some hget) hy.symm]

/-- A keeper that is put in takes the place of the one at its address. -/
theorem mem_insert (h : Ordered ks) :
    x ∈ insert k ks ↔ x = k ∨ x ∈ ks ∧ x.address ≠ k.address := by
  induction ks with
  | nil => simp [insert]
  | cons y ys ih =>
    have hys : Ordered ys := List.Pairwise.of_cons h
    rw [insert]
    split
    · rename_i hy
      have hkeep : x ∈ ys → x.address ≠ k.address := fun hx => hy ▸ (h.address_ne hx).symm
      simp only [List.mem_cons]
      constructor
      · rintro (hx | hx)
        · exact Or.inl hx
        · exact Or.inr ⟨Or.inr hx, hkeep hx⟩
      · rintro (hx | ⟨rfl | hx, hne⟩)
        · exact Or.inl hx
        · exact absurd hy hne
        · exact Or.inr hx
    · rename_i hy
      split
      · rename_i hbefore
        have hkeep : x ∈ ys → x.address ≠ k.address := by
          intro hx heq
          have hback := Address.before_trans hbefore (List.rel_of_pairwise_cons h hx)
          rw [heq] at hback
          exact Address.not_before_self _ hback
        simp only [List.mem_cons]
        constructor
        · rintro (hx | rfl | hx)
          · exact Or.inl hx
          · exact Or.inr ⟨Or.inl rfl, hy⟩
          · exact Or.inr ⟨Or.inr hx, hkeep hx⟩
        · rintro (hx | ⟨hx, -⟩)
          · exact Or.inl hx
          · exact Or.inr hx
      · rw [List.mem_cons, List.mem_cons, ih hys]
        constructor
        · rintro (rfl | hx | ⟨hx, hne⟩)
          · exact Or.inr ⟨Or.inl rfl, hy⟩
          · exact Or.inl hx
          · exact Or.inr ⟨Or.inr hx, hne⟩
        · rintro (hx | ⟨hx | hx, hne⟩)
          · exact Or.inr (Or.inl hx)
          · exact Or.inl hx
          · exact Or.inr (Or.inr ⟨hx, hne⟩)

theorem Ordered.insert (h : Ordered ks) (k : Keeper) : Ordered (insert k ks) := by
  induction ks with
  | nil => exact List.pairwise_singleton _ _
  | cons y ys ih =>
    obtain ⟨hy, hys⟩ := List.pairwise_cons.1 h
    rw [Keepers.insert]
    split
    · rename_i heq
      exact List.pairwise_cons.2 ⟨fun z hz => heq ▸ hy z hz, hys⟩
    · rename_i hne
      split
      · rename_i hbefore
        refine List.pairwise_cons.2 ⟨?_, h⟩
        intro z hz
        rcases List.mem_cons.1 hz with rfl | hz
        · exact hbefore
        · exact Address.before_trans hbefore (hy z hz)
      · rename_i hbefore
        refine List.pairwise_cons.2 ⟨?_, ih hys⟩
        intro z hz
        rcases (mem_insert hys).1 hz with rfl | ⟨hz, -⟩
        · exact Address.before_of_not_before hne hbefore
        · exact hy z hz

/-- A keeper that has not been started. -/
def fresh (t : Tier) : Keeper := ⟨t, .starting, {}, {}, {}, none, none⟩

theorem ofTiers_concat (ts : List Tier) (t : Tier) :
    ofTiers (ts ++ [t]) = insert (fresh t) (ofTiers ts) := by
  rw [ofTiers, List.foldl_append]
  rfl

theorem ordered_ofTiers (ts : List Tier) : Ordered (ofTiers ts) := by
  induction ts using List.reverseRecOn with
  | nil => exact List.Pairwise.nil
  | append_singleton ts t ih => exact ofTiers_concat ts t ▸ ih.insert (fresh t)

/-- Where no two tiers have one address, every tier gets its keeper. -/
theorem mem_ofTiers {ts : List Tier} (h : ∀ t ∈ ts, ∀ t' ∈ ts, t.address = t'.address → t = t') :
    k ∈ ofTiers ts ↔ ∃ t ∈ ts, k = fresh t := by
  induction ts using List.reverseRecOn with
  | nil => simp [ofTiers]
  | append_singleton ts t ih =>
    have hts : ∀ u ∈ ts, ∀ v ∈ ts, u.address = v.address → u = v := fun u hu v hv =>
      h u (List.mem_append_left _ hu) v (List.mem_append_left _ hv)
    rw [ofTiers_concat, mem_insert (ordered_ofTiers ts), ih hts]
    constructor
    · rintro (rfl | ⟨⟨u, hu, rfl⟩, -⟩)
      · exact ⟨t, List.mem_append_right _ (List.mem_singleton.2 rfl), rfl⟩
      · exact ⟨u, List.mem_append_left _ hu, rfl⟩
    · rintro ⟨u, hu, rfl⟩
      by_cases heq : u = t
      · exact Or.inl (congrArg fresh heq)
      · have hmem : u ∈ ts := by
          rcases List.mem_append.1 hu with hu | hu
          · exact hu
          · exact absurd (List.mem_singleton.1 hu) heq
        refine Or.inr ⟨⟨u, hmem, rfl⟩, ?_⟩
        intro haddress
        exact heq (h u hu t (List.mem_append_right _ (List.mem_singleton.2 rfl)) haddress)

theorem mem_chain {camera subcategory : String} : k ∈ ks.chain camera subcategory ↔
    k ∈ ks ∧ k.tier.camera = camera ∧ k.tier.subcategory = subcategory := by
  simp [chain]

/-- Along a chain the places go up. -/
theorem pairwise_chain (h : Ordered ks) (camera subcategory : String) :
    List.Pairwise (fun x y : Keeper => x.tier.index < y.tier.index)
      (ks.chain camera subcategory) := by
  refine (List.Pairwise.filter _ h).imp_of_mem fun hx hy hbefore => ?_
  obtain ⟨-, hcamera, hsubcategory⟩ := mem_chain.1 hx
  obtain ⟨-, hcamera', hsubcategory'⟩ := mem_chain.1 hy
  simpa [Address.before_iff, Keeper.address, Tier.address, hcamera, hsubcategory, hcamera',
    hsubcategory'] using hbefore

end Keepers

namespace CameraSpec

/-- The tiers of a camera, a domain that is listed twice counted once. -/
def distinctTiers (c : CameraSpec) : List Tier :=
  c.recorderTiers ++ c.snapshots.domains.dedup.flatMap c.domainTiers

/-- The addresses that the settings of a camera ask for: three for each root of
its recorder, and one for each domain and root of its snapshots. -/
def places (c : CameraSpec) : List Address :=
  ((List.range c.recorder.tiers.length).flatMap fun i =>
    [segmentsName, thumbnailsName, clipsName].map fun name => ⟨c.identifier, name, i⟩) ++
  c.snapshots.domains.dedup.flatMap fun d =>
    (List.range c.snapshots.tiers.length).map fun i => ⟨c.identifier, d.text, i⟩

/-- The number of tiers in the chain of a subcategory. -/
def depth (c : CameraSpec) (subcategory : String) : Nat :=
  if subcategory ∈ subcategories .recorder then c.recorder.tiers.length
  else if subcategory ∈ c.snapshots.domains.map Domain.text then c.snapshots.tiers.length
  else 0

variable {c : CameraSpec} {t t' : Tier}

theorem mem_distinctTiers : t ∈ c.distinctTiers ↔ t ∈ c.tiers := by
  simp [distinctTiers, tiers, snapshotTiers]

/-- The subcategory of a tier tells its category. -/
theorem category_eq_of_subcategory {k k' : Category} {s : String} (h : s ∈ subcategories k)
    (h' : s ∈ subcategories k') : k = k' := by
  revert s
  cases k <;> cases k' <;> decide

theorem mem_recorderTiers : t ∈ c.recorderTiers ↔ ∃ i s, c.recorder.tiers[i]? = some s ∧
    t ∈ c.recorderTiersAt (i, s, c.recorder.tiers[i + 1]?) := by
  constructor
  · intro h
    obtain ⟨⟨i, s, next⟩, hlink, ht⟩ := List.mem_flatMap.1 h
    obtain ⟨-, hs, rfl⟩ := mem_links.1 hlink
    exact ⟨i, s, hs, ht⟩
  · rintro ⟨i, s, hs, ht⟩
    exact List.mem_flatMap.2 ⟨_, mem_links.2 ⟨Nat.zero_le i, hs, rfl⟩, ht⟩

theorem mem_domainTiers {d : Domain} : t ∈ c.domainTiers d ↔ ∃ i s,
    c.snapshots.tiers[i]? = some s ∧ c.snapshotTier d (i, s, c.snapshots.tiers[i + 1]?) = t := by
  constructor
  · intro h
    obtain ⟨⟨i, s, next⟩, hlink, ht⟩ := List.mem_map.1 h
    obtain ⟨-, hs, rfl⟩ := mem_links.1 hlink
    exact ⟨i, s, hs, ht⟩
  · rintro ⟨i, s, hs, ht⟩
    exact List.mem_map.2 ⟨_, mem_links.2 ⟨Nat.zero_le i, hs, rfl⟩, ht⟩

/-- Of the three tiers below a root, each is known by its subcategory. -/
theorem map_subcategory_recorderTiersAt (l : Nat × SegmentTierSpec × Option SegmentTierSpec) :
    (c.recorderTiersAt l).map (·.subcategory) = subcategories .recorder := rfl

theorem nodup_subcategories (k : Category) : (subcategories k).Nodup := by
  cases k <;> decide

theorem of_mem_recorderTiersAt {l : Nat × SegmentTierSpec × Option SegmentTierSpec}
    (h : t ∈ c.recorderTiersAt l) : t.category = .recorder ∧ t.index = l.1 := by
  obtain ⟨i, s, next⟩ := l
  simp only [recorderTiersAt, List.mem_cons, List.not_mem_nil, or_false] at h
  rcases h with rfl | rfl | rfl <;> exact ⟨rfl, rfl⟩

theorem category_of_mem_recorderTiers (h : t ∈ c.recorderTiers) : t.category = .recorder := by
  obtain ⟨i, s, -, ht⟩ := mem_recorderTiers.1 h
  exact (of_mem_recorderTiersAt ht).1

theorem category_of_mem_snapshotTiers (h : t ∈ c.snapshotTiers) : t.category = .snapshots := by
  obtain ⟨d, -, hd⟩ := List.mem_flatMap.1 h
  obtain ⟨i, s, -, rfl⟩ := mem_domainTiers.1 hd
  rfl

/-- The tiers of a camera stand at the places that its settings ask for. -/
theorem map_address_distinctTiers (c : CameraSpec) :
    c.distinctTiers.map Tier.address = c.places := by
  have hrecorder : c.recorderTiers.map Tier.address =
      (List.range c.recorder.tiers.length).flatMap fun i =>
        [segmentsName, thumbnailsName, clipsName].map fun name => ⟨c.identifier, name, i⟩ := by
    rw [List.range_eq_range', ← map_fst_links 0 c.recorder.tiers, List.flatMap_map, recorderTiers,
      List.map_flatMap]
    rfl
  have hdomain : ∀ d, (c.domainTiers d).map Tier.address =
      (List.range c.snapshots.tiers.length).map fun i => ⟨c.identifier, d.text, i⟩ := by
    intro d
    rw [List.range_eq_range', ← map_fst_links 0 c.snapshots.tiers, List.map_map, domainTiers,
      List.map_map]
    rfl
  rw [distinctTiers, List.map_append, List.map_flatMap, hrecorder]
  simp only [hdomain, places]

/-- One chain has one tier at each place. -/
theorem eq_of_address_eq (ht : t ∈ c.tiers) (ht' : t' ∈ c.tiers) (h : t.address = t'.address) :
    t = t' := by
  obtain ⟨-, hname, -⟩ := roots_of_mem_tiers ht
  obtain ⟨-, hname', -⟩ := roots_of_mem_tiers ht'
  simp only [Tier.address, Address.mk.injEq] at h
  obtain ⟨-, hsubcategory, hindex⟩ := h
  have hcategory : t.category = t'.category :=
    category_eq_of_subcategory hname (hsubcategory ▸ hname')
  rcases List.mem_append.1 ht with ht | ht <;> rcases List.mem_append.1 ht' with ht' | ht'
  · obtain ⟨i, s, hs, ht⟩ := mem_recorderTiers.1 ht
    obtain ⟨i', s', hs', ht'⟩ := mem_recorderTiers.1 ht'
    obtain rfl : i = i' :=
      (of_mem_recorderTiersAt ht).2.symm.trans (hindex.trans (of_mem_recorderTiersAt ht').2)
    obtain rfl : s = s' := Option.some.inj (hs.symm.trans hs')
    have hnodup := nodup_subcategories .recorder
    rw [← map_subcategory_recorderTiersAt (c := c) (i, s, c.recorder.tiers[i + 1]?)] at hnodup
    exact List.inj_on_of_nodup_map hnodup ht ht' hsubcategory
  · have := category_of_mem_recorderTiers ht
    rw [hcategory, category_of_mem_snapshotTiers ht'] at this
    cases this
  · have := category_of_mem_recorderTiers ht'
    rw [← hcategory, category_of_mem_snapshotTiers ht] at this
    cases this
  · obtain ⟨d, -, hd⟩ := List.mem_flatMap.1 ht
    obtain ⟨d', -, hd'⟩ := List.mem_flatMap.1 ht'
    obtain ⟨i, s, hs, rfl⟩ := mem_domainTiers.1 hd
    obtain ⟨i', s', hs', rfl⟩ := mem_domainTiers.1 hd'
    obtain rfl : i = i' := hindex
    obtain rfl : d = d' := Domain.text_injective hsubcategory
    obtain rfl : s = s' := Option.some.inj (hs.symm.trans hs')
    rfl

theorem text_notMem_recorder (d : Domain) : d.text ∉ subcategories .recorder := by
  intro h
  have hsnapshots : d.text ∈ subcategories .snapshots := List.mem_map_of_mem (Domain.mem_all d)
  exact absurd (category_eq_of_subcategory h hsnapshots) (by decide)

/-- The chain of a tier is as long as the list of its roots. -/
theorem depth_of_mem_tiers (h : t ∈ c.tiers) :
    c.depth t.subcategory = (c.roots t.category).length := by
  rcases List.mem_append.1 h with ht | ht
  · obtain ⟨i, s, -, ht⟩ := mem_recorderTiers.1 ht
    have hname : t.subcategory ∈ subcategories .recorder :=
      map_subcategory_recorderTiersAt _ ▸ List.mem_map_of_mem ht
    rw [depth, if_pos hname, (of_mem_recorderTiersAt ht).1]
    simp [roots]
  · obtain ⟨d, hd, ht⟩ := List.mem_flatMap.1 ht
    obtain ⟨i, s, -, rfl⟩ := mem_domainTiers.1 ht
    have hname : d.text ∈ c.snapshots.domains.map Domain.text := List.mem_map_of_mem hd
    simp only [snapshotTier]
    rw [depth, if_neg (text_notMem_recorder d), if_pos hname]
    simp [roots]

/-- The tiers of a camera take the places of its chains without a gap. -/
theorem exists_tier_iff {subcategory : String} {i : Nat} :
    (∃ t ∈ c.tiers, t.address = ⟨c.identifier, subcategory, i⟩) ↔ i < c.depth subcategory := by
  constructor
  · rintro ⟨t, ht, haddress⟩
    obtain ⟨-, -, p, hp, -⟩ := roots_of_mem_tiers ht
    simp only [Tier.address, Address.mk.injEq] at haddress
    obtain ⟨-, rfl, rfl⟩ := haddress
    rw [depth_of_mem_tiers ht]
    exact (List.getElem?_eq_some_iff.1 hp).1
  · intro h
    unfold depth at h
    split at h
    · rename_i hname
      have hs := List.getElem?_eq_getElem h
      rw [← map_subcategory_recorderTiersAt
        (i, c.recorder.tiers[i], c.recorder.tiers[i + 1]?) (c := c)] at hname
      obtain ⟨t, ht, rfl⟩ := List.mem_map.1 hname
      have hmem : t ∈ c.tiers := List.mem_append_left _ (mem_recorderTiers.2 ⟨i, _, hs, ht⟩)
      refine ⟨t, hmem, ?_⟩
      rw [Tier.address, (roots_of_mem_tiers hmem).1, (of_mem_recorderTiersAt ht).2]
    · split at h
      · rename_i hname
        obtain ⟨d, hd, rfl⟩ := List.mem_map.1 hname
        have hs := List.getElem?_eq_getElem h
        have ht := mem_domainTiers (d := d).2 ⟨i, _, hs, rfl⟩
        exact ⟨_, List.mem_append_right _ (List.mem_flatMap.2 ⟨d, hd, ht⟩), rfl⟩
      · cases h

/-- No two links of a chain have one place. -/
theorem pairwise_links {α : Type} (xs : List α) :
    (links 0 xs).Pairwise fun l l' => l.1 ≠ l'.1 := by
  have hnodup : ((links 0 xs).map (·.1)).Nodup := by
    rw [map_fst_links]
    exact List.nodup_range'
  exact List.pairwise_map.1 hnodup

theorem nodup_recorderTiers (c : CameraSpec) : c.recorderTiers.Nodup := by
  refine List.nodup_flatMap.2 ⟨fun l _ => ?_, ?_⟩
  · have hnodup := nodup_subcategories .recorder
    rw [← map_subcategory_recorderTiersAt (c := c) l] at hnodup
    exact List.Nodup.of_map _ hnodup
  · refine (pairwise_links c.recorder.tiers).imp fun hne t ht ht' => hne ?_
    rw [← (of_mem_recorderTiersAt ht).2, (of_mem_recorderTiersAt ht').2]

theorem nodup_domainTiers (c : CameraSpec) (d : Domain) : (c.domainTiers d).Nodup := by
  refine List.pairwise_map.2 ((pairwise_links c.snapshots.tiers).imp fun hne heq => hne ?_)
  exact congrArg Tier.index heq

theorem nodup_distinctTiers (c : CameraSpec) : c.distinctTiers.Nodup := by
  refine List.nodup_append.2 ⟨c.nodup_recorderTiers, ?_, ?_⟩
  · refine List.nodup_flatMap.2 ⟨fun d _ => c.nodup_domainTiers d, ?_⟩
    refine c.snapshots.domains.nodup_dedup.imp fun hne t ht ht' => hne ?_
    obtain ⟨i, s, -, rfl⟩ := mem_domainTiers.1 ht
    obtain ⟨j, s', -, h⟩ := mem_domainTiers.1 ht'
    exact Domain.text_injective (congrArg Tier.subcategory h.symm)
  · intro t ht t' ht' heq
    have hcategory := category_of_mem_recorderTiers ht
    obtain ⟨d, -, hd⟩ := List.mem_flatMap.1 ht'
    obtain ⟨i, s, -, rfl⟩ := mem_domainTiers.1 hd
    rw [heq] at hcategory
    cases hcategory

theorem cameraFailed_of_mem_tiers (h : t ∈ c.tiers) : t.cameraFailed = c.failed := by
  rcases List.mem_append.1 h with ht | ht
  · obtain ⟨i, s, -, ht⟩ := mem_recorderTiers.1 ht
    simp only [recorderTiersAt, List.mem_cons, List.not_mem_nil, or_false] at ht
    rcases ht with rfl | rfl | rfl <;> rfl
  · obtain ⟨d, -, ht⟩ := List.mem_flatMap.1 ht
    obtain ⟨i, s, -, rfl⟩ := mem_domainTiers.1 ht
    rfl

end CameraSpec

/-- The length of the chain of a camera and a subcategory. -/
def StorageConfig.depth (s : StorageConfig) (camera subcategory : String) : Nat :=
  (s.cameras.find? (·.identifier == camera)).elim 0 fun c => c.depth subcategory

namespace Config

variable {c : Config}

/-- Accepted settings name no two cameras alike. -/
theorem camera_eq_of_identifier_eq (hc : c.validate = .ok ()) {k k' : CameraSpec}
    (hk : k ∈ c.storage.cameras) (hk' : k' ∈ c.storage.cameras)
    (h : k.identifier = k'.identifier) : k = k' :=
  List.inj_on_of_nodup_map ((checkCameras_eq_ok_iff [] c.storage.cameras).1 hc).2 hk hk' h

theorem find?_camera (hc : c.validate = .ok ()) {k : CameraSpec} (hk : k ∈ c.storage.cameras) :
    c.storage.cameras.find? (·.identifier == k.identifier) = some k := by
  cases hfind : c.storage.cameras.find? (·.identifier == k.identifier) with
  | none => simpa using List.find?_eq_none.1 hfind k hk
  | some k' =>
    have hname : k'.identifier = k.identifier := by simpa using List.find?_some hfind
    rw [camera_eq_of_identifier_eq hc (List.mem_of_find?_eq_some hfind) hk hname]

theorem tier_eq_of_address_eq (hc : c.validate = .ok ()) :
    ∀ t ∈ c.storage.tiers, ∀ t' ∈ c.storage.tiers, t.address = t'.address → t = t' := by
  intro t ht t' ht' h
  obtain ⟨k, hk, ht⟩ := List.mem_flatMap.1 ht
  obtain ⟨k', hk', ht'⟩ := List.mem_flatMap.1 ht'
  have hcamera : k.identifier = k'.identifier := by
    rw [← (CameraSpec.roots_of_mem_tiers ht).1, ← (CameraSpec.roots_of_mem_tiers ht').1]
    exact congrArg Address.camera h
  obtain rfl := camera_eq_of_identifier_eq hc hk hk' hcamera
  exact CameraSpec.eq_of_address_eq ht ht' h

theorem exists_tier_iff (hc : c.validate = .ok ()) {a : Address} :
    (∃ t ∈ c.storage.tiers, t.address = a) ↔ a.index < c.storage.depth a.camera a.subcategory := by
  obtain ⟨camera, subcategory, i⟩ := a
  unfold StorageConfig.depth
  constructor
  · rintro ⟨t, ht, haddress⟩
    obtain ⟨k, hk, ht⟩ := List.mem_flatMap.1 ht
    obtain rfl : k.identifier = camera :=
      (CameraSpec.roots_of_mem_tiers ht).1.symm.trans (congrArg Address.camera haddress)
    have hi := CameraSpec.exists_tier_iff.1 ⟨t, ht, haddress⟩
    rw [find?_camera hc hk]
    exact hi
  · intro h
    cases hfind : c.storage.cameras.find? (·.identifier == camera) with
    | none =>
      rw [hfind] at h
      cases h
    | some k =>
      rw [hfind] at h
      obtain rfl : k.identifier = camera := by simpa using List.find?_some hfind
      obtain ⟨t, ht, haddress⟩ := CameraSpec.exists_tier_iff.2 h
      exact ⟨t, List.mem_flatMap.2 ⟨k, List.mem_of_find?_eq_some hfind, ht⟩, haddress⟩

theorem mem_keepers (hc : c.validate = .ok ()) {k : Keeper} :
    k ∈ Keepers.ofTiers c.storage.tiers ↔ ∃ t ∈ c.storage.tiers, k = Keepers.fresh t :=
  Keepers.mem_ofTiers (tier_eq_of_address_eq hc)

theorem exists_keeper_iff (hc : c.validate = .ok ()) {a : Address} :
    (∃ k ∈ Keepers.ofTiers c.storage.tiers, k.address = a) ↔
      a.index < c.storage.depth a.camera a.subcategory := by
  rw [← exists_tier_iff hc]
  constructor
  · rintro ⟨k, hk, haddress⟩
    obtain ⟨t, ht, rfl⟩ := (mem_keepers hc).1 hk
    exact ⟨t, ht, haddress⟩
  · rintro ⟨t, ht, haddress⟩
    exact ⟨_, (mem_keepers hc).2 ⟨t, ht, rfl⟩, haddress⟩

/-- Every tier that is set up has one keeper. -/
theorem perm_keepers (hc : c.validate = .ok ()) :
    ((Keepers.ofTiers c.storage.tiers).map (·.tier)).Perm
      (c.storage.cameras.flatMap CameraSpec.distinctTiers) := by
  refine (List.perm_ext_iff_of_nodup ?_ ?_).2 fun t => ?_
  · refine List.Nodup.of_map Tier.address ?_
    rw [List.map_map]
    exact (Keepers.ordered_ofTiers c.storage.tiers).nodup
  · refine List.nodup_flatMap.2 ⟨fun k _ => k.nodup_distinctTiers, ?_⟩
    have hnodup := ((checkCameras_eq_ok_iff [] c.storage.cameras).1 hc).2
    refine (List.pairwise_map.1 hnodup).imp fun hne t ht ht' => hne ?_
    rw [← (CameraSpec.roots_of_mem_tiers (CameraSpec.mem_distinctTiers.1 ht)).1,
      (CameraSpec.roots_of_mem_tiers (CameraSpec.mem_distinctTiers.1 ht')).1]
  · have htiers : t ∈ c.storage.cameras.flatMap CameraSpec.distinctTiers ↔ t ∈ c.storage.tiers := by
      simp only [List.mem_flatMap, CameraSpec.mem_distinctTiers, StorageConfig.tiers]
    rw [htiers, List.mem_map]
    constructor
    · rintro ⟨k, hk, rfl⟩
      obtain ⟨t, ht, rfl⟩ := (mem_keepers hc).1 hk
      exact ht
    · intro ht
      exact ⟨_, (mem_keepers hc).2 ⟨t, ht, rfl⟩, rfl⟩

/-- The places of a chain are taken in order. -/
theorem map_index_chain (hc : c.validate = .ok ()) (camera subcategory : String) :
    ((Keepers.ofTiers c.storage.tiers).chain camera subcategory).map (·.tier.index) =
      List.range (c.storage.depth camera subcategory) := by
  refine List.Pairwise.eq_of_mem_iff (r := (· < ·)) ?_ List.pairwise_lt_range fun i => ?_
  · exact List.pairwise_map.2
      (Keepers.pairwise_chain (Keepers.ordered_ofTiers _) camera subcategory)
  · rw [List.mem_range, ← exists_keeper_iff hc (a := ⟨camera, subcategory, i⟩), List.mem_map]
    constructor
    · rintro ⟨k, hk, rfl⟩
      obtain ⟨hmem, rfl, rfl⟩ := Keepers.mem_chain.1 hk
      exact ⟨k, hmem, rfl⟩
    · rintro ⟨k, hk, haddress⟩
      simp only [Keeper.address, Tier.address, Address.mk.injEq] at haddress
      obtain ⟨hcamera, hsubcategory, hindex⟩ := haddress
      exact ⟨k, Keepers.mem_chain.2 ⟨hk, hcamera, hsubcategory⟩, hindex⟩

/-- The keeper behind another one is there exactly if there is a next root, and it is the keeper
of that root. -/
theorem next_of_mem_keepers (hc : c.validate = .ok ()) {k : Keeper}
    (hk : k ∈ Keepers.ofTiers c.storage.tiers) :
    ((Keepers.ofTiers c.storage.tiers).next? k.address).isSome = k.tier.next.isSome ∧
      ∀ k', (Keepers.ofTiers c.storage.tiers).next? k.address = some k' →
        k'.tier.camera = k.tier.camera ∧ k'.tier.Follows k.tier ∧
          k'.tier.cameraFailed = k.tier.cameraFailed ∧ k.tier.next = some k'.tier.root := by
  obtain ⟨t, ht, rfl⟩ := (mem_keepers hc).1 hk
  obtain ⟨camera, hcamera, ht⟩ := List.mem_flatMap.1 ht
  have hordered := Keepers.ordered_ofTiers c.storage.tiers
  obtain ⟨hname, hsubcategory, p, -, -, hnext⟩ := CameraSpec.roots_of_mem_tiers ht
  constructor
  · rw [Bool.eq_iff_iff, Option.isSome_iff_exists]
    have hat : (∃ k', (Keepers.ofTiers c.storage.tiers).next? t.address = some k') ↔
        ∃ k' ∈ Keepers.ofTiers c.storage.tiers,
          k'.address = ⟨t.camera, t.subcategory, t.index + 1⟩ := by
      simp only [Keepers.next?, hordered.get?_eq_some_iff]
      rfl
    have hlength : (Keepers.fresh t).tier.next.isSome = true ↔
        t.index + 1 < (camera.roots t.category).length := by
      simp [Keepers.fresh, hnext]
    have hdepth : c.storage.depth t.camera t.subcategory = (camera.roots t.category).length := by
      rw [StorageConfig.depth, hname, find?_camera hc hcamera, Option.elim_some,
        CameraSpec.depth_of_mem_tiers ht]
    rw [hlength, ← hdepth]
    exact hat.trans (exists_keeper_iff hc)
  · intro k' hk'
    obtain ⟨hk', haddress⟩ := hordered.get?_eq_some_iff.1 hk'
    obtain ⟨t', ht', rfl⟩ := (mem_keepers hc).1 hk'
    obtain ⟨camera', hcamera', ht'⟩ := List.mem_flatMap.1 ht'
    simp only [Keeper.address, Keepers.fresh, Tier.address, Address.mk.injEq] at haddress
    obtain ⟨hsame, hsubcategory_eq, hindex⟩ := haddress
    obtain ⟨hname', hsubcategory', -⟩ := CameraSpec.roots_of_mem_tiers ht'
    obtain rfl : camera' = camera :=
      camera_eq_of_identifier_eq hc hcamera' hcamera (hname'.symm.trans (hsame.trans hname))
    have hfollows : t'.Follows t :=
      ⟨CameraSpec.category_eq_of_subcategory hsubcategory' (hsubcategory_eq ▸ hsubcategory),
        hsubcategory_eq, hindex⟩
    refine ⟨hsame, hfollows, ?_, hfollows.next_eq ht ht'⟩
    exact (CameraSpec.cameraFailed_of_mem_tiers ht').trans
      (CameraSpec.cameraFailed_of_mem_tiers ht).symm

/-- Accepted settings are kept without gaps or mix-ups: there is one keeper for each tier, the
places of each chain are taken in order, and the keeper behind another one is there exactly if that
one has a next root, which is then the root of its tier. -/
theorem keepers_linked (hc : c.validate = .ok ()) :
    ((Keepers.ofTiers c.storage.tiers).map (·.tier)).Perm
        (c.storage.cameras.flatMap CameraSpec.distinctTiers) ∧
      ((Keepers.ofTiers c.storage.tiers).map Keeper.address).Perm
        (c.storage.cameras.flatMap CameraSpec.places) ∧
      ((Keepers.ofTiers c.storage.tiers).map Keeper.address).Nodup ∧
      (∀ camera subcategory,
        ((Keepers.ofTiers c.storage.tiers).chain camera subcategory).map (·.tier.index) =
          List.range (c.storage.depth camera subcategory)) ∧
      ∀ k ∈ Keepers.ofTiers c.storage.tiers,
        ((Keepers.ofTiers c.storage.tiers).next? k.address).isSome = k.tier.next.isSome ∧
          ∀ k', (Keepers.ofTiers c.storage.tiers).next? k.address = some k' →
            k'.tier.camera = k.tier.camera ∧ k'.tier.Follows k.tier ∧
              k'.tier.cameraFailed = k.tier.cameraFailed ∧ k.tier.next = some k'.tier.root := by
  have hperm := perm_keepers hc
  refine ⟨hperm, ?_, (Keepers.ordered_ofTiers _).nodup, map_index_chain hc,
    fun k hk => next_of_mem_keepers hc hk⟩
  have hplaces := hperm.map Tier.address
  rw [List.map_map, List.map_flatMap] at hplaces
  simp only [CameraSpec.map_address_distinctTiers] at hplaces
  exact hplaces

/-- Two cameras: one with two roots and a domain listed twice, one with a failed device. -/
def twoCameras : Config where
  storage := { cameras := [
    { identifier := "porch"
      recorder := { tiers := [{ root := "/fast/".toList }, { root := "/slow".toList }] }
      snapshots :=
        { domains := [.motionDetector, .motionDetector]
          tiers := [{ root := "/fast".toList }] } },
    { identifier := "attic"
      failed := true
      recorder := { tiers := [{ root := "/fast".toList }] }
      snapshots := { domains := [], tiers := [{ root := "/fast".toList }] } }] }

theorem keepers_linked_twoCameras :
    twoCameras.validate = .ok () ∧
      (Keepers.ofTiers twoCameras.storage.tiers).length = 10 ∧
      ((Keepers.ofTiers twoCameras.storage.tiers).chain "porch" clipsName).map (·.tier.index) =
        [0, 1] ∧
      ∀ k ∈ Keepers.ofTiers twoCameras.storage.tiers,
        ((Keepers.ofTiers twoCameras.storage.tiers).next? k.address).isSome =
          k.tier.next.isSome := by
  have haccepted : twoCameras.validate = .ok () := rfl
  obtain ⟨hperm, -, -, hchain, hnext⟩ := keepers_linked haccepted
  have hcount : (twoCameras.storage.cameras.flatMap CameraSpec.distinctTiers).length = 10 := rfl
  refine ⟨haccepted, ?_, hchain "porch" clipsName, fun k hk => (hnext k hk).1⟩
  rw [← hcount, ← hperm.length_eq, List.length_map]

end Config

end TieredFootage
