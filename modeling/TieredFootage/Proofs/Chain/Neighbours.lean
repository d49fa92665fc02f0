import TieredFootage.Chain

/-!
# Neighbours in a chain

A tier knows its own root and that of the tier behind it, both without slashes
at the end. `CameraSpec.roots` lists the roots of one category as they are set
up; every tier of a camera reads its two roots off that list at its place, so
the next root of a tier is the root of the next tier. Accepted settings tell
the roots of a chain apart, and cutting off slashes keeps them apart.
-/

namespace TieredFootage

theorem trimSlashes_ne_slash (p : Path) : p.trimSlashes ≠ ['/'] := by
  intro h
  have hlast := Path.getLast?_trimSlashes p
  rw [h] at hlast
  exact hlast rfl

/-- A root is `/` or ends in something else than a slash. -/
theorem normalRoot_eq_slash_or (p : Path) :
    normalRoot p = ['/'] ∨ ∃ c, (normalRoot p).getLast? = some c ∧ c ≠ '/' := by
  unfold normalRoot
  split
  · exact Or.inl rfl
  · rename_i hne
    right
    have hlast := Path.getLast?_trimSlashes p
    cases hc : p.trimSlashes.getLast? with
    | none => exact absurd (List.getLast?_eq_none_iff.1 hc) hne
    | some c =>
      refine ⟨c, rfl, ?_⟩
      rintro rfl
      exact hlast hc

theorem normalRoot_ne_nil (p : Path) : normalRoot p ≠ [] := by
  unfold normalRoot
  split
  · exact List.cons_ne_nil _ _
  · assumption

theorem normalRoot_eq_iff {p q : Path} :
    normalRoot p = normalRoot q ↔ p.trimSlashes = q.trimSlashes := by
  constructor
  · intro h
    unfold normalRoot at h
    split at h <;> split at h
    · rename_i hp hq
      rw [hp, hq]
    · exact absurd h.symm (trimSlashes_ne_slash q)
    · exact absurd h (trimSlashes_ne_slash p)
    · exact h
  · intro h
    simp only [normalRoot, h]

theorem nodup_map_normalRoot_iff {ps : List Path} :
    (ps.map normalRoot).Nodup ↔ (ps.map Path.trimSlashes).Nodup := by
  simp only [List.Nodup, List.pairwise_map, ne_eq, normalRoot_eq_iff]

namespace CameraSpec

variable {c : CameraSpec} {t : Tier}

/-- The roots of the chains of one category, as they are set up. -/
def roots (c : CameraSpec) : Category → List Path
  | .recorder => c.recorder.tiers.map (·.root)
  | .snapshots => c.snapshots.tiers.map (·.root)

/-- The names under which tiers of a category keep their files. -/
def subcategories : Category → List String
  | .recorder => [segmentsName, thumbnailsName, clipsName]
  | .snapshots => Domain.all.map Domain.text

/-- A tier reads its roots off the list at its place. -/
theorem roots_of_mem_tiers {c : CameraSpec} {t : Tier} (h : t ∈ c.tiers) :
    t.camera = c.identifier ∧ t.subcategory ∈ subcategories t.category ∧
      ∃ p, (c.roots t.category)[t.index]? = some p ∧ t.root = normalRoot p ∧
        t.next = ((c.roots t.category)[t.index + 1]?).map normalRoot := by
  rcases List.mem_append.1 h with h | h
  · obtain ⟨⟨i, s, next⟩, hlink, ht⟩ := List.mem_flatMap.1 h
    obtain ⟨-, hs, rfl⟩ := mem_links.1 hlink
    have hroot : (c.roots .recorder)[i]? = some s.root := by
      simpa [roots] using congrArg (Option.map (·.root)) hs
    have hnext : (c.recorder.tiers[i - 0 + 1]?).map (fun n => normalRoot n.root) =
        ((c.roots .recorder)[i + 1]?).map normalRoot := by
      simp [roots, Function.comp_def]
    have hname : ∀ n ∈ [segmentsName, thumbnailsName, clipsName], n ∈ subcategories .recorder :=
      fun n hn => hn
    simp only [recorderTiersAt, List.mem_cons, List.not_mem_nil, or_false] at ht
    rcases ht with rfl | rfl | rfl
    · exact ⟨rfl, hname segmentsName (by decide), s.root, hroot, rfl, hnext⟩
    · exact ⟨rfl, hname thumbnailsName (by decide), s.root, hroot, rfl, hnext⟩
    · exact ⟨rfl, hname clipsName (by decide), s.root, hroot, rfl, hnext⟩
  · obtain ⟨d, -, hd⟩ := List.mem_flatMap.1 h
    obtain ⟨⟨i, s, next⟩, hlink, rfl⟩ := List.mem_map.1 hd
    obtain ⟨-, hs, rfl⟩ := mem_links.1 hlink
    have hroot : (c.roots .snapshots)[i]? = some s.root := by
      simpa [roots] using congrArg (Option.map (·.root)) hs
    have hnext : (c.snapshots.tiers[i - 0 + 1]?).map (fun n => normalRoot n.root) =
        ((c.roots .snapshots)[i + 1]?).map normalRoot := by
      simp [roots, Function.comp_def]
    exact ⟨rfl, List.mem_map_of_mem (Domain.mem_all d), s.root, hroot, rfl, hnext⟩

/-- Both chains of a camera are checked, each under its name. -/
theorem validate_eq (c : CameraSpec) : c.validate =
    (checkRoots (rootsField c.identifier Category.recorder.text) [] (c.roots .recorder) >>= fun _ =>
      checkRoots (rootsField c.identifier Category.snapshots.text) [] (c.roots .snapshots)) := rfl

/-- A camera is accepted exactly if the roots of each of its chains are there and differ once they
are given to tiers. -/
theorem validate_eq_ok_iff : c.validate = .ok () ↔
    ∀ k, (∀ p ∈ c.roots k, p ≠ []) ∧ ((c.roots k).map normalRoot).Nodup := by
  have hchain : ∀ k, checkRoots (rootsField c.identifier k.text) [] (c.roots k) = .ok () ↔
      (∀ p ∈ c.roots k, p ≠ []) ∧ ((c.roots k).map normalRoot).Nodup := fun k => by
    simp [checkRoots_eq_ok_iff, nodup_map_normalRoot_iff]
  have hboth : c.validate = .ok () ↔
      ∀ k, checkRoots (rootsField c.identifier k.text) [] (c.roots k) = .ok () := by
    rw [validate_eq]
    constructor
    · intro h k
      cases hrecorder : checkRoots (rootsField c.identifier Category.recorder.text) []
          (c.roots .recorder) with
      | error e =>
        rw [hrecorder] at h
        cases h
      | ok u =>
        rw [hrecorder] at h
        cases k with
        | recorder => exact hrecorder
        | snapshots => exact h
    · intro h
      rw [h .recorder]
      exact h .snapshots
  rw [hboth]
  exact forall_congr' hchain

/-- A tier reads its two roots off the list of those its chain is given. -/
theorem getElem?_normalRoots (ht : t ∈ c.tiers) :
    ((c.roots t.category).map normalRoot)[t.index]? = some t.root ∧
      ((c.roots t.category).map normalRoot)[t.index + 1]? = t.next := by
  obtain ⟨-, -, p, hp, hroot, hnext⟩ := roots_of_mem_tiers ht
  simp only [List.getElem?_map, hp, hroot, hnext, Option.map_some, and_self]

/-- In a chain of an accepted camera the root tells the place. -/
theorem index_eq_of_root (hc : c.validate = .ok ()) (ht : t ∈ c.tiers) {i : Nat}
    (h : ((c.roots t.category).map normalRoot)[i]? = some t.root) : i = t.index := by
  have hroot := (getElem?_normalRoots ht).1
  exact ((List.getElem?_inj (List.getElem?_eq_some_iff.1 hroot).1
    (validate_eq_ok_iff.1 hc t.category).2).1 (hroot.trans h.symm)).symm

/-- No tier of an accepted camera hands its files on to its own root. -/
theorem next_ne_root (hc : c.validate = .ok ()) (ht : t ∈ c.tiers) : t.next ≠ some t.root := by
  intro h
  have hplace := index_eq_of_root hc ht ((getElem?_normalRoots ht).2.trans h)
  omega

end CameraSpec

/-- The tier behind another one in the same chain. -/
structure Tier.Follows (t' t : Tier) : Prop where
  category_eq : t'.category = t.category
  subcategory_eq : t'.subcategory = t.subcategory
  index_eq : t'.index = t.index + 1

/-- The next root of a tier is the root of the next tier. -/
theorem Tier.Follows.next_eq {c : CameraSpec} {t t' : Tier} (h : t'.Follows t) (ht : t ∈ c.tiers)
    (ht' : t' ∈ c.tiers) : t.next = some t'.root := by
  obtain ⟨-, -, p, -, -, hnext⟩ := CameraSpec.roots_of_mem_tiers ht
  obtain ⟨-, -, q, hq, hroot, -⟩ := CameraSpec.roots_of_mem_tiers ht'
  rw [h.category_eq, h.index_eq] at hq
  rw [hnext, hq, hroot]
  rfl

/-- Accepted settings never lead from a root to the same root. -/
theorem Tier.Follows.root_ne {c : CameraSpec} {t t' : Tier} (h : t'.Follows t) (ht : t ∈ c.tiers)
    (ht' : t' ∈ c.tiers) (hc : c.validate = .ok ()) : t.root ≠ t'.root :=
  fun heq => CameraSpec.next_ne_root hc ht (heq ▸ h.next_eq ht ht')

theorem Config.validate_camera {c : Config} (h : c.validate = .ok ()) {k : CameraSpec}
    (hk : k ∈ c.storage.cameras) : k.identifier ≠ "" ∧ k.validate = .ok () := by
  obtain ⟨hall, -⟩ := (checkCameras_eq_ok_iff [] c.storage.cameras).1 h
  exact ⟨(hall k hk).1, (hall k hk).2.2⟩

end TieredFootage
