import TieredFootage.Proofs.Chain.Neighbours
import TieredFootage.Tier.Eviction

/-!
# Where an evicted file arrives

The directory of a tier is put together by joining names to its root, and the
destination of an evicted file by replacing the root in the text of its path.
The two agree on a root that ends in no slash: one slash follows it on either
side. They disagree as soon as one of the roots is `/`, which brings its slash
along, and they can disagree for a camera whose identifier is an absolute path:
its directory is that path under every root, so a destination is right only if
the root occurs nowhere in the path.
-/

namespace TieredFootage

namespace Path

/-- A text in which `old` occurs has `new` in place of one occurrence. -/
theorem exists_replaceFirst_eq {old text : Path} (h : old <:+: text) (new : Path) :
    ∃ before after, text = before ++ old ++ after ∧
      replaceFirst old new text = before ++ new ++ after := by
  induction text with
  | nil =>
    obtain rfl := List.infix_nil.1 h
    exact ⟨[], [], rfl, by simp [replaceFirst]⟩
  | cons c cs ih =>
    by_cases hstart : old.isPrefixOf (c :: cs) = true
    · obtain ⟨after, hafter⟩ := List.isPrefixOf_iff_prefix.1 hstart
      refine ⟨[], after, hafter.symm, ?_⟩
      rw [← hafter, replaceFirst_append]
      rfl
    · have hrest : old <:+: cs := by
        rcases List.infix_cons_iff.1 h with hstart' | hrest
        · exact absurd (List.isPrefixOf_iff_prefix.2 hstart') hstart
        · exact hrest
      obtain ⟨before, after, hcs, hreplaced⟩ := ih hrest
      refine ⟨c :: before, after, ?_, ?_⟩
      · rw [hcs]
        rfl
      · rw [replaceFirst, if_neg hstart, hreplaced]
        rfl

/-- A replacement leaves a text alone exactly if there is nothing to replace, or
nothing else to put in its place. -/
theorem replaceFirst_eq_self_iff {old new text : Path} :
    replaceFirst old new text = text ↔ new = old ∨ ¬ old <:+: text := by
  constructor
  · intro h
    by_cases hold : old <:+: text
    · obtain ⟨before, after, htext, hreplaced⟩ := exists_replaceFirst_eq hold new
      rw [hreplaced, htext] at h
      exact Or.inl (List.append_cancel_left (List.append_cancel_right h))
    · exact Or.inr hold
  · rintro (rfl | hnot)
    · by_cases hnew : new <:+: text
      · obtain ⟨before, after, htext, hreplaced⟩ := exists_replaceFirst_eq hnew new
        rw [hreplaced, ← htext]
      · exact replaceFirst_of_not_infix new hnew
    · exact replaceFirst_of_not_infix new hnot

/-- What stands in front of a name leaves alone how a path is joined to it. -/
theorem join_append_left {q p : Path} (base : Path) (hq : q ≠ []) (hp : p.isAbsolute = false) :
    join (base ++ q) p = base ++ join q p := by
  have hlast : (base ++ q).getLast? = q.getLast? := by
    rw [List.getLast?_append]
    cases h : q.getLast? with
    | none => exact absurd (List.getLast?_eq_none_iff.1 h) hq
    | some c => rfl
  unfold join
  rw [hp, hlast]
  simp only [Bool.false_eq_true, if_false]
  split <;> simp

theorem join_ne_nil_left {q : Path} (p : Path) (hq : q ≠ []) : join q p ≠ [] := by
  unfold join
  split
  · rename_i hp
    rintro rfl
    simp [isAbsolute] at hp
  · split <;> simp [hq]

end Path

/-- A root with the one slash behind it that separates it from what lies below. -/
def slashed (root : Path) : Path := if root = ['/'] then root else root ++ ['/']

/-- A relative path is joined to a root by one slash. -/
theorem normalRoot_join (r : Path) {p : Path} (hp : p.isAbsolute = false) :
    (normalRoot r).join p = slashed (normalRoot r) ++ p := by
  rcases normalRoot_eq_slash_or r with hr | ⟨c, hlast, hc⟩
  · rw [hr]
    simp [Path.join, hp, slashed]
  · rw [Path.join_of_getLast?_eq hp hlast hc, slashed, if_neg]
    · simp
    · intro hr
      rw [hr] at hlast
      exact hc (Option.some.inj hlast).symm

/-- The names below a root under which the files of a subcategory and a camera
are kept. -/
def filesPlace : Category → Path → Path → Path
  | .recorder, subcategory, camera => subcategory.join camera
  | .snapshots, subcategory, camera =>
    (Path.join Category.snapshots.text.toList subcategory).join camera

/-- Below a root lie the same names, whatever the root is. -/
theorem filesDirectory_of_relative (r : Path) (k : Category) {subcategory camera : String}
    (hs : subcategory.toList ≠ []) (hs' : Path.isAbsolute subcategory.toList = false)
    (hc : Path.isAbsolute camera.toList = false) :
    filesDirectory (normalRoot r) k subcategory camera =
      slashed (normalRoot r) ++ filesPlace k subcategory.toList camera.toList := by
  cases k with
  | recorder =>
    rw [filesDirectory, normalRoot_join r hs', Path.join_append_left _ hs hc]
    rfl
  | snapshots =>
    have hne : Category.snapshots.text.toList ≠ [] := by decide
    have hrel : Path.isAbsolute Category.snapshots.text.toList = false := by decide
    have hne' : Path.join Category.snapshots.text.toList subcategory.toList ≠ [] :=
      Path.join_ne_nil_left _ hne
    simp only [filesDirectory]
    rw [normalRoot_join r hrel, Path.join_append_left _ hne hs', Path.join_append_left _ hne' hc]
    rfl

/-- The directory of a camera with an absolute path for an identifier is that
path. -/
theorem filesDirectory_of_absolute (root : Path) (k : Category) (subcategory : String)
    {camera : String} (hc : Path.isAbsolute camera.toList = true) :
    filesDirectory root k subcategory camera = camera.toList := by
  cases k <;> exact Path.join_of_isAbsolute _ hc

/-- Every subcategory is a plain name. -/
theorem subcategory_relative {k : Category} {s : String} (h : s ∈ CameraSpec.subcategories k) :
    s.toList ≠ [] ∧ Path.isAbsolute s.toList = false := by
  revert s
  cases k <;> decide

/-- Replacing one root by another in a path below it gives the path below the
other root exactly if neither brings its slash along. -/
theorem replaceFirst_slashed_iff {root next : Path} (hne : next ≠ root) (place : Path) :
    Path.replaceFirst root next (slashed root ++ place) = slashed next ++ place ↔
      root ≠ ['/'] ∧ next ≠ ['/'] := by
  by_cases hroot : root = ['/']
  · have hnext : next ≠ ['/'] := fun h => hne (h.trans hroot.symm)
    have hleft : Path.replaceFirst root next (slashed root ++ place) = next ++ place := by
      rw [slashed, if_pos hroot, Path.replaceFirst_append]
    rw [hleft, slashed, if_neg hnext, List.append_cancel_right_eq]
    simp [hroot]
  · have hleft : Path.replaceFirst root next (slashed root ++ place) = next ++ '/' :: place := by
      rw [slashed, if_neg hroot, List.append_assoc, Path.replaceFirst_append]
      rfl
    rw [hleft]
    by_cases hnext : next = ['/']
    · simp [slashed, hnext]
    · simp [slashed, hnext, hroot]

theorem filesPlace_ne_nil {k : Category} {subcategory : Path} (camera : Path)
    (hs : subcategory ≠ []) : filesPlace k subcategory camera ≠ [] := by
  cases k with
  | recorder => exact Path.join_ne_nil_left camera hs
  | snapshots =>
    have hname : Category.snapshots.text.toList ≠ [] := by decide
    exact Path.join_ne_nil_left camera (Path.join_ne_nil_left subcategory hname)

/-- An evicted file arrives at the same place below the directory of the next
tier exactly if neither root is `/`, or, for a camera named by an absolute path,
exactly if its root does not occur in its path. -/
theorem Config.destination_eq_iff {c : Config} (hc : c.validate = .ok ()) {k : CameraSpec}
    (hk : k ∈ c.storage.cameras) {t t' : Tier} (ht : t ∈ k.tiers) (ht' : t' ∈ k.tiers)
    (hnext : t'.Follows t) {rel : Path} (hrel : rel.isAbsolute = false) :
    t.next = some t'.root ∧
      (Holdings.destination (t.directory.join rel) t.root t'.root = t'.directory.join rel ↔
        if Path.isAbsolute k.identifier.toList = true then ¬ t.root <:+: t.directory.join rel
        else t.root ≠ ['/'] ∧ t'.root ≠ ['/']) := by
  refine ⟨hnext.next_eq ht ht', ?_⟩
  have hne : t'.root ≠ t.root := (hnext.root_ne ht ht' (validate_camera hc hk).2).symm
  obtain ⟨hcamera, hname, r, -, hroot, -⟩ := CameraSpec.roots_of_mem_tiers ht
  obtain ⟨hcamera', -, r', -, hroot', -⟩ := CameraSpec.roots_of_mem_tiers ht'
  obtain ⟨hs, hs'⟩ := subcategory_relative hname
  have hdirectory' : t'.directory =
      filesDirectory t'.root t.category t.subcategory k.identifier := by
    rw [Tier.directory, hnext.category_eq, hnext.subcategory_eq, hcamera']
  rw [hdirectory', Tier.directory, hcamera, Holdings.destination]
  by_cases habsolute : Path.isAbsolute k.identifier.toList = true
  · rw [if_pos habsolute, filesDirectory_of_absolute _ _ _ habsolute,
      filesDirectory_of_absolute _ _ _ habsolute, Path.replaceFirst_eq_self_iff]
    simp [hne]
  · have hrelative : Path.isAbsolute k.identifier.toList = false := Bool.not_eq_true _ ▸ habsolute
    have hplace : filesPlace t.category t.subcategory.toList k.identifier.toList ≠ [] :=
      filesPlace_ne_nil _ hs
    rw [if_neg habsolute, ← replaceFirst_slashed_iff hne, hroot, hroot',
      filesDirectory_of_relative r t.category hs hs' hrelative,
      filesDirectory_of_relative r' t.category hs hs' hrelative,
      Path.join_append_left _ hplace hrel, Path.join_append_left _ hplace hrel]

/-- One camera whose segments go from one root to another. -/
def twoRoots (camera first second : String) : Config where
  storage := { cameras := [{
    identifier := camera
    recorder := { tiers := [{ root := first.toList }, { root := second.toList }] } }] }

/-- The tier of segments at a place of that chain. -/
def twoRootsTier (camera root : String) (index : Nat) (next : Option String) : Tier where
  camera := camera
  category := .recorder
  subcategory := segmentsName
  index := index
  root := root.toList
  next := next.map String.toList
  polled := false
  drainsOnStop := false
  cameraFailed := false
  role := .segments {} {}

theorem destination_eq_iff_twoRoots :
    (twoRoots "cam1" "/a" "/b").validate = .ok () ∧
      (twoRootsTier "cam1" "/a" 0 (some "/b")).next =
        some (twoRootsTier "cam1" "/b" 1 none).root ∧
      (Holdings.destination
          ((twoRootsTier "cam1" "/a" 0 (some "/b")).directory.join "1.m4s".toList)
          (twoRootsTier "cam1" "/a" 0 (some "/b")).root (twoRootsTier "cam1" "/b" 1 none).root =
        (twoRootsTier "cam1" "/b" 1 none).directory.join "1.m4s".toList ↔
      if Path.isAbsolute "cam1".toList = true then
        ¬ (twoRootsTier "cam1" "/a" 0 (some "/b")).root <:+:
          (twoRootsTier "cam1" "/a" 0 (some "/b")).directory.join "1.m4s".toList
      else (twoRootsTier "cam1" "/a" 0 (some "/b")).root ≠ ['/'] ∧
        (twoRootsTier "cam1" "/b" 1 none).root ≠ ['/']) :=
  have haccepted : (twoRoots "cam1" "/a" "/b").validate = .ok () := rfl
  have hnext : (twoRootsTier "cam1" "/b" 1 none).Follows
      (twoRootsTier "cam1" "/a" 0 (some "/b")) := ⟨rfl, rfl, rfl⟩
  ⟨haccepted, Config.destination_eq_iff haccepted (List.mem_singleton.2 rfl) (by decide)
    (by decide) hnext rfl⟩

/-- From the root `/` a file arrives beside the next root and not below it. -/
theorem not_forall_destination_eq :
    ¬ ∀ (c : Config), c.validate = .ok () → ∀ k ∈ c.storage.cameras, ∀ t ∈ k.tiers,
      ∀ t' ∈ k.tiers, t'.Follows t → ∀ rel : Path, rel ≠ [] → rel.isAbsolute = false →
        Holdings.destination (t.directory.join rel) t.root t'.root = t'.directory.join rel := by
  intro h
  have heq := h (twoRoots "cam1" "/" "/b") rfl _ (List.mem_singleton.2 rfl)
    (twoRootsTier "cam1" "/" 0 (some "/b")) (by decide) (twoRootsTier "cam1" "/b" 1 none)
    (by decide) ⟨rfl, rfl, rfl⟩ "1.m4s".toList (by decide) rfl
  exact absurd heq (by decide)

end TieredFootage
