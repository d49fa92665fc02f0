import TieredFootage.Proofs.Chain.Destination
import TieredFootage.Proofs.Chain.Roster

/-!
# Shared roots

Whether two tiers share a root is decided twice: the settings are checked with the slashes
at the end of each root cut off, and a tier is given the root without them, which is `/`
if nothing is left. Both tell the same roots apart (`normalRoot_eq_iff`), so settings are
accepted exactly if the roots that the tiers of each chain are given differ.

An eviction from a tier ends in a collision only if the next root is that of the file, or
if the root of the file does not occur in its path (`Holdings.evict_eq_collision_iff`). The
first never happens in a chain of accepted settings.
-/

namespace TieredFootage

variable {c : CameraSpec} {t t' : Tier} {p : Path} {ps : List Path} {e : ConfigError}

/-- What is wrong with a chain whose roots are all there: one of them leads to a root that was
seen, or to one in front of it. -/
theorem exists_shared_of_checkRoots {field : String} {seen : List Path}
    (h : checkRoots field seen ps = .error e) (hps : ∀ p ∈ ps, p ≠ []) :
    ∃ (j : Nat) (q : Path), ps[j]? = some q ∧
      e = .invalidValue field
        ("tier path " ++ String.ofList q ++ " is used by more than one tier") ∧
      (q.trimSlashes ∈ seen ∨ ∃ i < j, ∃ p, ps[i]? = some p ∧ normalRoot p = normalRoot q) := by
  induction ps generalizing seen with
  | nil => cases h
  | cons p ps ih =>
    rw [checkRoots, if_neg (hps p (List.mem_cons_self ..))] at h
    split at h
    · rename_i hseen
      exact ⟨0, p, rfl, (Except.error.inj h).symm, Or.inl hseen⟩
    · obtain ⟨j, q, hq, he, hshared⟩ := ih h fun x hx => hps x (List.mem_cons_of_mem _ hx)
      refine ⟨j + 1, q, hq, he, ?_⟩
      rcases hshared with hseen | ⟨i, hi, x, hx, heq⟩
      · rcases List.mem_cons.1 hseen with hp | hseen
        · exact Or.inr ⟨0, by omega, p, rfl, normalRoot_eq_iff.2 hp.symm⟩
        · exact Or.inl hseen
      · exact Or.inr ⟨i + 1, by omega, x, hx, heq⟩

namespace CameraSpec

/-- A camera that is rejected has a chain that is. -/
theorem exists_checkRoots_of_validate (h : c.validate = .error e) :
    ∃ k, checkRoots (rootsField c.identifier k.text) [] (c.roots k) = .error e := by
  rw [validate_eq] at h
  cases hrecorder : checkRoots (rootsField c.identifier Category.recorder.text) []
      (c.roots .recorder) with
  | error e' =>
    rw [hrecorder] at h
    obtain rfl : e' = e := Except.error.inj h
    exact ⟨.recorder, hrecorder⟩
  | ok u =>
    rw [hrecorder] at h
    exact ⟨.snapshots, h⟩

end CameraSpec

/-- Cameras that can all be told apart are rejected for one of them. -/
theorem exists_validate_of_checkCameras {seen : List String} {cs : List CameraSpec}
    (h : checkCameras seen cs = .error e)
    (hnames : ∀ c ∈ cs, c.identifier ≠ "" ∧ c.identifier ∉ seen)
    (hnodup : (cs.map (·.identifier)).Nodup) : ∃ c ∈ cs, c.validate = .error e := by
  induction cs generalizing seen with
  | nil => cases h
  | cons c cs ih =>
    obtain ⟨hname, hseen⟩ := hnames c (List.mem_cons_self ..)
    obtain ⟨hfirst, hnodup⟩ := List.nodup_cons.1 hnodup
    rw [checkCameras, if_neg hname, if_neg hseen] at h
    cases hc : c.validate with
    | error e' =>
      rw [hc] at h
      obtain rfl : e' = e := Except.error.inj h
      exact ⟨c, List.mem_cons_self .., hc⟩
    | ok u =>
      rw [hc] at h
      have hrest : ∀ x ∈ cs, x.identifier ≠ "" ∧ x.identifier ∉ c.identifier :: seen := by
        intro x hx
        obtain ⟨hxname, hxseen⟩ := hnames x (List.mem_cons_of_mem _ hx)
        refine ⟨hxname, fun hmem => ?_⟩
        rcases List.mem_cons.1 hmem with heq | hmem
        · exact hfirst (List.mem_map.2 ⟨x, hx, heq⟩)
        · exact hxseen hmem
      obtain ⟨x, hx, he⟩ := ih h hrest hnodup
      exact ⟨x, List.mem_cons_of_mem _ hx, he⟩

namespace Holdings

variable {h : Holdings} {fileRoot root : Path} {next : Option Path}

theorem discard_ne_collision (h : Holdings) (p : Path) : (h.discard p).1 ≠ .collision := by
  intro heq
  simp only [discard] at heq
  split at heq <;> cases heq

theorem move_ne_collision (h : Holdings) (p q : Path) : (h.move p q).1 ≠ .collision := by
  intro heq
  simp only [move] at heq
  split at heq <;> cases heq

/-- A file that nobody reads stays because it would be moved onto itself exactly if its root does
not change, or is nowhere in its path. -/
theorem evict_eq_collision_iff : (h.evict p fileRoot root next).1 = .collision ↔
    h.served.protects h.now p = false ∧
      ∃ n, next = some n ∧ (n = fileRoot ∨ ¬ fileRoot <:+: p) := by
  cases hserved : h.served.protects h.now p with
  | true => simp [evict, Served.contains, hserved]
  | false =>
    cases next with
    | none => simp [evict, Served.contains, hserved, evictUnserved, discard_ne_collision]
    | some n =>
      have hstays : destination p fileRoot n = p ↔ n = fileRoot ∨ ¬ fileRoot <:+: p :=
        Path.replaceFirst_eq_self_iff
      simp only [evict, Served.contains, hserved, evictUnserved, Bool.false_eq_true, if_false,
        Option.some.injEq, exists_eq_left', true_and, ← hstays]
      split
      · rename_i heq
        exact iff_of_true rfl heq
      · rename_i hne
        exact iff_of_false (move_ne_collision _ _ _) hne

end Holdings

namespace Config

variable {c : Config}

/-- Settings are accepted exactly if every camera has a name of its own and roots that are there
and differ once they are given to tiers. -/
theorem validate_eq_ok_iff : c.validate = .ok () ↔
    (∀ k ∈ c.storage.cameras, k.identifier ≠ "") ∧
      (c.storage.cameras.map (·.identifier)).Nodup ∧
      ∀ k ∈ c.storage.cameras, ∀ category,
        (∀ p ∈ k.roots category, p ≠ []) ∧ ((k.roots category).map normalRoot).Nodup := by
  simp only [validate, checkCameras_eq_ok_iff, List.not_mem_nil, not_false_iff, true_and,
    CameraSpec.validate_eq_ok_iff, forall_and]
  tauto

/-- Along a chain of keepers of accepted settings no root comes twice. -/
theorem nodup_root_chain (hc : c.validate = .ok ()) (camera subcategory : String) :
    (((Keepers.ofTiers c.storage.tiers).chain camera subcategory).map (·.tier.root)).Nodup := by
  refine List.pairwise_map.2 ((Keepers.pairwise_chain (Keepers.ordered_ofTiers _) camera
    subcategory).imp_of_mem fun {x y} hx hy hlt heq => ?_)
  obtain ⟨hx, hcamera, hsubcategory⟩ := Keepers.mem_chain.1 hx
  obtain ⟨hy, hcamera', hsubcategory'⟩ := Keepers.mem_chain.1 hy
  obtain ⟨t, ht, rfl⟩ := (mem_keepers hc).1 hx
  obtain ⟨t', ht', rfl⟩ := (mem_keepers hc).1 hy
  obtain ⟨k, hk, ht⟩ := List.mem_flatMap.1 ht
  obtain ⟨k', hk', ht'⟩ := List.mem_flatMap.1 ht'
  obtain ⟨hname, hs, -⟩ := CameraSpec.roots_of_mem_tiers ht
  obtain ⟨hname', hs', -⟩ := CameraSpec.roots_of_mem_tiers ht'
  obtain rfl : k = k' := camera_eq_of_identifier_eq hc hk hk'
    ((hname.symm.trans hcamera).trans (hcamera'.symm.trans hname'))
  have hcategory : t.category = t'.category := CameraSpec.category_eq_of_subcategory hs
    (hsubcategory.trans hsubcategory'.symm ▸ hs')
  have hplace := CameraSpec.index_eq_of_root (validate_camera hc hk).2 ht
    (hcategory ▸ (CameraSpec.getElem?_normalRoots ht').1.trans (congrArg some heq.symm))
  exact absurd hplace (Nat.ne_of_gt hlt)

/-- The check of the settings and the roots that tiers are given agree on what a shared root is.
Settings are accepted exactly if cameras are told apart and each chain has roots that are there
and differ as they are given to tiers. Then the keepers of a chain have roots of their own, and no
file that starts with the root of its tier is left in place for being moved onto itself. Where
cameras and roots are in order one by one, the settings are rejected only for two tiers of one
chain that are given one root, and the message names the second of them. -/
theorem accepts_iff_roots_apart (c : Config) :
    (c.validate = .ok () ↔
      (∀ k ∈ c.storage.cameras, k.identifier ≠ "") ∧
        (c.storage.cameras.map (·.identifier)).Nodup ∧
        ∀ k ∈ c.storage.cameras, ∀ category,
          (∀ p ∈ k.roots category, p ≠ []) ∧ ((k.roots category).map normalRoot).Nodup) ∧
      (c.validate = .ok () → ∀ camera subcategory,
        (((Keepers.ofTiers c.storage.tiers).chain camera subcategory).map (·.tier.root)).Nodup ∧
          ∀ x ∈ (Keepers.ofTiers c.storage.tiers).chain camera subcategory, x.tier.root ≠ [] ∧
            ∀ (h : Holdings) (p : Path), x.tier.root <+: p →
              (h.evict p x.tier.root x.tier.root x.tier.next).1 ≠ .collision) ∧
      ∀ e, c.validate = .error e → (∀ k ∈ c.storage.cameras, k.identifier ≠ "") →
        (c.storage.cameras.map (·.identifier)).Nodup →
        (∀ k ∈ c.storage.cameras, ∀ category, ∀ p ∈ k.roots category, p ≠ []) →
        ∃ k ∈ c.storage.cameras, ∃ category, ∃ i j : Nat, ∃ p q : Path, i < j ∧
          (k.roots category)[i]? = some p ∧ (k.roots category)[j]? = some q ∧
          normalRoot p = normalRoot q ∧
          e = .invalidValue (rootsField k.identifier category.text)
            ("tier path " ++ String.ofList q ++ " is used by more than one tier") := by
  refine ⟨validate_eq_ok_iff, fun hc camera subcategory =>
    ⟨nodup_root_chain hc camera subcategory, fun x hx => ?_⟩, fun e he hnames hnodup hroots => ?_⟩
  · obtain ⟨t, ht, rfl⟩ := (mem_keepers hc).1 (Keepers.mem_chain.1 hx).1
    obtain ⟨k, hk, ht⟩ := List.mem_flatMap.1 ht
    obtain ⟨-, -, r, -, hroot, -⟩ := CameraSpec.roots_of_mem_tiers ht
    refine ⟨hroot ▸ normalRoot_ne_nil r, fun h p hp hcollision => ?_⟩
    obtain ⟨-, n, hnext, hn⟩ := Holdings.evict_eq_collision_iff.1 hcollision
    rcases hn with rfl | hnot
    · exact CameraSpec.next_ne_root (validate_camera hc hk).2 ht hnext
    · exact hnot hp.isInfix
  · obtain ⟨k, hk, he⟩ := exists_validate_of_checkCameras he
      (fun k hk => ⟨hnames k hk, List.not_mem_nil⟩) hnodup
    obtain ⟨category, he⟩ := CameraSpec.exists_checkRoots_of_validate he
    obtain ⟨j, q, hq, he, hshared⟩ := exists_shared_of_checkRoots he (hroots k hk category)
    rcases hshared with hnil | ⟨i, hi, p, hp, heq⟩
    · cases hnil
    · exact ⟨k, hk, category, i, j, p, q, hi, hp, hq, heq, he⟩

/-- Three roots of which the last one is the first one with slashes behind it. -/
def returningRoots : Config where
  storage := { cameras := [{
    identifier := "porch"
    recorder := { tiers := [{ root := "/".toList }, { root := "/slow".toList },
      { root := "///".toList }] } }] }

theorem accepts_iff_roots_apart_returningRoots :
    twoCameras.validate = .ok () ∧
      (((Keepers.ofTiers twoCameras.storage.tiers).chain "porch" segmentsName).map
        (·.tier.root)).Nodup ∧
      (({} : Holdings).evict "/fast/segments/porch/1.m4s".toList "/fast".toList "/fast".toList
        (some "/slow".toList)).1 ≠ .collision ∧
      returningRoots.validate ≠ .ok () ∧
      ∀ e, returningRoots.validate = .error e →
        ∃ k ∈ returningRoots.storage.cameras, ∃ category, ∃ i j : Nat, ∃ p q : Path, i < j ∧
          (k.roots category)[i]? = some p ∧ (k.roots category)[j]? = some q ∧
          normalRoot p = normalRoot q ∧
          e = .invalidValue (rootsField k.identifier category.text)
            ("tier path " ++ String.ofList q ++ " is used by more than one tier") := by
  have haccepted : twoCameras.validate = .ok () := rfl
  have hrejected : returningRoots.validate ≠ .ok () := by decide
  obtain ⟨hnodup, hchain⟩ := (accepts_iff_roots_apart twoCameras).2.1 haccepted "porch" segmentsName
  have hfirst : Keepers.fresh (twoRootsTier "porch" "/fast" 0 (some "/slow")) ∈
      (Keepers.ofTiers twoCameras.storage.tiers).chain "porch" segmentsName :=
    Keepers.mem_chain.2 ⟨(mem_keepers haccepted).2 ⟨_, by decide, rfl⟩, rfl, rfl⟩
  refine ⟨haccepted, hnodup, (hchain _ hfirst).2 _ _ (by decide), hrejected, fun e he => ?_⟩
  refine (accepts_iff_roots_apart returningRoots).2.2 e he (by decide) (by decide) ?_
  intro k hk category
  obtain rfl := List.mem_singleton.1 hk
  cases category <;> decide

end Config

end TieredFootage
