import TieredFootage.Archive.Watching
import TieredFootage.Proofs.Chain.Roster
import TieredFootage.Proofs.Path.Lexical
import TieredFootage.Proofs.Watch.Naming

/-!
# Directories around directories

The directory of a tier lies a few names below its root: a folder for the
subcategory, behind one for all snapshots if it keeps these, and one for the
camera. Settings are accepted whatever the roots of different chains have to do
with each other, and only the texts of the roots of one chain are compared. So a
root may lie in the directory of another tier, and then so does all that is kept
below it, where two keepers watch it.

If cameras are named by plain names and no chain comes back to a place, this is
the only way but one for a directory to enclose another one: a root right around
a directory, with the camera of that directory named as the first folder below
the root. Either way the one root lies below the other.
-/

namespace TieredFootage

/-- The folders between a root and those of the subcategories. -/
def Category.folders : Category → List Path
  | .recorder => []
  | .snapshots => [Category.snapshots.text.toList]

namespace Tier

/-- The folders between a root and the directories of the cameras. -/
def folders (t : Tier) : List Path := t.category.folders ++ [t.subcategory.toList]

/-- The folder right below a root. -/
def topFolder (t : Tier) : Path := t.category.folders.headD t.subcategory.toList

variable (home : Location) (t t' : Tier)

/-- Where the root of a tier is. -/
def rootSpot : Location := Path.spot home t.root

/-- Where the directory of a tier is. -/
def directorySpot : Location := Path.spot home t.directory

/-- The directory of the second tier is that of the first one or lies in it. -/
def Encloses : Prop := t.directorySpot home <+: t'.directorySpot home

/-- The root of the second tier lies in the directory of the first one, or right
around it while the camera of the first one is named as the folder below the
root. -/
def Harbours : Prop :=
  t.directorySpot home <+: t'.rootSpot home ∨
    t'.rootSpot home = (t.directorySpot home).dropLast ∧ t.camera.toList = t'.topFolder

instance : Decidable (t.Encloses home t') := inferInstanceAs (Decidable (_ <+: _))

instance : Decidable (t.Harbours home t') := inferInstanceAs (Decidable (_ ∨ _))

end Tier

/-- Every camera is named by a plain name. -/
def StorageConfig.PlainNames (s : StorageConfig) : Prop :=
  ∀ c ∈ s.cameras, Path.IsName c.identifier.toList ∧ '/' ∉ c.identifier.toList

/-- No chain has two roots at one place. -/
def StorageConfig.ApartRoots (s : StorageConfig) (home : Location) : Prop :=
  ∀ c ∈ s.cameras, ∀ k, ((c.roots k).map fun r => Path.spot home (normalRoot r)).Nodup

theorem folder_plain {k : Category} {s : String} (h : s ∈ CameraSpec.subcategories k) :
    Path.IsName s.toList ∧ '/' ∉ s.toList := by
  revert s
  cases k <;> decide

theorem isName_of_mem_folders {k : Category} {n : Path} (h : n ∈ k.folders) : Path.IsName n := by
  revert n
  cases k <;> decide

theorem notMem_folders {k : Category} {s : String} (h : s ∈ CameraSpec.subcategories k)
    (k' : Category) : s.toList ∉ k'.folders := by
  revert s
  cases k <;> cases k' <;> decide

namespace Path

/-- Two plain names are joined by a slash. -/
theorem join_plain {m n : Path} (hm : m ≠ []) (hslash : '/' ∉ m) (hn : '/' ∉ n) :
    m.join n = m ++ '/' :: n := by
  obtain ⟨b, rfl | rfl, hjoin⟩ := exists_join_eq hm hn
  · exact hjoin
  · exact absurd (by simp) hslash

theorem isAbsolute_eq_false {n : Path} (h : '/' ∉ n) : n.isAbsolute = false := by
  cases n with
  | nil => rfl
  | cons c cs =>
    have hc : c ≠ '/' := fun hc => h (hc ▸ List.mem_cons_self)
    simpa [isAbsolute] using hc

/-- Names below a root are added to its spot. -/
theorem spot_slashed {root rest : Path} (home : Location) (hroot : root ≠ [])
    (hrest : ∀ n ∈ pieces rest, IsName n) :
    spot home (slashed root ++ rest) = spot home root ++ pieces rest := by
  by_cases h : root = ['/']
  · have hdouble : spot home (['/'] ++ '/' :: rest) = spot home ('/' :: rest) := by
      simp [spot, isAbsolute, LexicalPlace.follow, pieces, LexicalPlace.enter_of_isIdle, isIdle]
    rw [h, slashed, if_pos rfl, List.singleton_append, ← hdouble,
      spot_append_slash (List.cons_ne_nil _ _) hrest]
  · rw [slashed, if_neg h, List.append_assoc]
    exact spot_append_slash hroot hrest

end Path

namespace Tier

variable {home : Location} {t t' : Tier} {c c' : CameraSpec}

/-- The names that the directory of a tier has below its root. -/
theorem pieces_filesPlace (t : Tier)
    (hs : Path.IsName t.subcategory.toList ∧ '/' ∉ t.subcategory.toList)
    (hc : '/' ∉ t.camera.toList) :
    Path.pieces (filesPlace t.category t.subcategory.toList t.camera.toList) =
      t.folders ++ [t.camera.toList] := by
  obtain ⟨hname, hslash⟩ := hs
  unfold filesPlace folders
  cases t.category with
  | recorder =>
    simp only [Path.join_plain hname.1 hslash hc, Path.pieces_append_slash,
      Path.pieces_of_slash_notMem hslash, Path.pieces_of_slash_notMem hc]
    rfl
  | snapshots =>
    have htop : '/' ∉ Category.snapshots.text.toList := by decide
    have htop' : Category.snapshots.text.toList ≠ [] := by decide
    simp only [Path.join_plain htop' htop hslash]
    rw [← List.singleton_append, ← List.append_assoc, Path.join_append_left _ hname.1
      (Path.isAbsolute_eq_false hc), Path.join_plain hname.1 hslash hc,
      List.append_assoc, List.singleton_append, Path.pieces_append_slash,
      Path.pieces_append_slash, Path.pieces_of_slash_notMem htop,
      Path.pieces_of_slash_notMem hslash, Path.pieces_of_slash_notMem hc]
    rfl

theorem isName_place (t : Tier) (hs : Path.IsName t.subcategory.toList)
    (hc : Path.IsName t.camera.toList) : ∀ n ∈ t.folders ++ [t.camera.toList], Path.IsName n := by
  unfold folders
  intro n hn
  rcases List.mem_append.1 hn with hn | hn
  · rcases List.mem_append.1 hn with hn | hn
    · exact isName_of_mem_folders hn
    · exact List.mem_singleton.1 hn ▸ hs
  · exact List.mem_singleton.1 hn ▸ hc

/-- The directory of a tier lies below its root by its folders and its camera. -/
theorem directorySpot_eq (home : Location) (ht : t ∈ c.tiers)
    (hc : Path.IsName c.identifier.toList ∧ '/' ∉ c.identifier.toList) :
    t.directorySpot home = t.rootSpot home ++ t.folders ++ [t.camera.toList] := by
  obtain ⟨hcamera, hsubcategory, r, -, hroot, -⟩ := CameraSpec.roots_of_mem_tiers ht
  obtain ⟨hname, hslash⟩ := folder_plain hsubcategory
  rw [← hcamera] at hc
  have hplace := pieces_filesPlace t ⟨hname, hslash⟩ hc.2
  have hnames := isName_place t hname hc.1
  rw [← hplace] at hnames
  rw [directorySpot, rootSpot, directory, hroot, filesDirectory_of_relative r t.category hname.1
    (Path.isAbsolute_eq_false hslash) (Path.isAbsolute_eq_false hc.2),
    Path.spot_slashed home (normalRoot_ne_nil r) hnames, hplace, List.append_assoc]

/-- Folders below two places end in the same one exactly if places and folders are
the same. -/
theorem append_folders_inj {l m : Location}
    (ht : t.subcategory ∈ CameraSpec.subcategories t.category)
    (ht' : t'.subcategory ∈ CameraSpec.subcategories t'.category) :
    l ++ t.folders = m ++ t'.folders ↔ l = m ∧ t.subcategory = t'.subcategory := by
  unfold folders
  rw [← List.append_assoc, ← List.append_assoc, List.append_singleton_inj, String.toList_inj]
  refine and_congr_left fun hsubcategory => ?_
  rw [CameraSpec.category_eq_of_subcategory ht (hsubcategory ▸ ht'), List.append_left_inj]

/-- A directory below one place leads to a directory below another place, or
around it. -/
theorem folders_prefix_iff {l m : Location} {n n' : Path}
    (ht : t.subcategory ∈ CameraSpec.subcategories t.category)
    (ht' : t'.subcategory ∈ CameraSpec.subcategories t'.category) :
    l ++ t.folders ++ [n] <+: m ++ t'.folders ++ [n'] ↔
      l ++ t.folders ++ [n] <+: m ∨ (m = l ++ t.folders ∧ n = t'.topFolder) ∨
        (l = m ∧ t.subcategory = t'.subcategory ∧ n = n') := by
  rw [List.prefix_concat_iff, List.append_singleton_inj, append_folders_inj ht ht', and_assoc,
    or_comm, ← or_assoc]
  refine or_congr_left ?_
  -- What is left ends in one of the folders below `m`, or leads there.
  unfold topFolder
  cases hk : t'.category with
  | recorder =>
    have hfolders : t'.folders = [t'.subcategory.toList] := by simp [folders, hk, Category.folders]
    rw [hfolders, List.prefix_concat_iff, List.append_singleton_inj, or_comm,
      eq_comm (a := m)]
    rfl
  | snapshots =>
    have hfolders : m ++ t'.folders =
        m ++ [Category.snapshots.text.toList] ++ [t'.subcategory.toList] := by
      simp [folders, hk, Category.folders]
    have hlast : l ++ t.folders ≠ m ++ [Category.snapshots.text.toList] := by
      unfold folders
      rw [← List.append_assoc, Ne, List.append_singleton_inj]
      rintro ⟨-, heq⟩
      exact notMem_folders ht .snapshots (heq ▸ List.mem_singleton.2 rfl)
    rw [hfolders, List.prefix_concat_iff, List.append_singleton_inj, List.prefix_concat_iff,
      List.append_singleton_inj, eq_comm (a := m)]
    simp only [hlast, false_and, false_or, or_comm]
    rfl

/-- A root below which a directory is enclosed lies below the root of the directory
that encloses it. -/
theorem Harbours.rootSpot_prefix (h : t.Harbours home t') (ht : t ∈ c.tiers)
    (hc : Path.IsName c.identifier.toList ∧ '/' ∉ c.identifier.toList) :
    t.rootSpot home <+: t'.rootSpot home ∧ t.rootSpot home ≠ t'.rootSpot home := by
  have hfolders : t.rootSpot home ++ t.folders <+: t'.rootSpot home := by
    unfold Harbours at h
    rw [directorySpot_eq home ht hc, List.dropLast_concat] at h
    rcases h with h | ⟨h, -⟩
    · exact (List.prefix_append _ _).trans h
    · exact h ▸ List.prefix_refl _
  refine ⟨(List.prefix_append _ _).trans hfolders, fun heq => ?_⟩
  have hlength := hfolders.length_le
  rw [heq, folders, List.length_append, List.length_append, List.length_singleton] at hlength
  omega

end Tier

namespace Watch

variable {w w' : Watch}

theorem isSome_textOf?_iff {l : Location} :
    (w.textOf? l).isSome = true ↔ w.location <+: l ∧ w.location.length < l.length := by
  unfold textOf?
  split <;> simp_all

/-- Two watchers see one place exactly if the directory of one is in that of the
other. -/
theorem exists_both_iff : (∃ l, (w.textOf? l).isSome = true ∧ (w'.textOf? l).isSome = true) ↔
    w.location <+: w'.location ∨ w'.location <+: w.location := by
  simp only [isSome_textOf?_iff]
  constructor
  · rintro ⟨l, ⟨h, -⟩, h', -⟩
    exact List.prefix_or_prefix_of_prefix h h'
  · have hbelow : ∀ m : Location, m.length < (m ++ [[]]).length := by simp
    rintro (h | h)
    · exact ⟨w'.location ++ [[]],
        ⟨h.trans (List.prefix_append _ _), h.length_le.trans_lt (hbelow _)⟩,
        List.prefix_append _ _, hbelow _⟩
    · exact ⟨w.location ++ [[]], ⟨List.prefix_append _ _, hbelow _⟩,
        h.trans (List.prefix_append _ _), h.length_le.trans_lt (hbelow _)⟩

end Watch

namespace Config

variable {c : Config} {home : Location} {k k' : Keeper}

/-- Tiers of one camera and one subcategory whose roots are at one place are the same. -/
theorem address_eq_of_rootSpot_eq (hc : c.validate = .ok ()) (hroots : c.storage.ApartRoots home)
    {t t' : Tier} (ht : t ∈ c.storage.tiers) (ht' : t' ∈ c.storage.tiers)
    (hcamera : t.camera = t'.camera) (hsubcategory : t.subcategory = t'.subcategory)
    (hspot : t.rootSpot home = t'.rootSpot home) : t.address = t'.address := by
  obtain ⟨x, hx, ht⟩ := List.mem_flatMap.1 ht
  obtain ⟨x', hx', ht'⟩ := List.mem_flatMap.1 ht'
  obtain ⟨hname, hs, p, hp, hroot, -⟩ := CameraSpec.roots_of_mem_tiers ht
  obtain ⟨hname', hs', q, hq, hroot', -⟩ := CameraSpec.roots_of_mem_tiers ht'
  obtain rfl : x = x' :=
    camera_eq_of_identifier_eq hc hx hx' (hname.symm.trans (hcamera.trans hname'))
  have hcategory : t.category = t'.category :=
    CameraSpec.category_eq_of_subcategory hs (hsubcategory ▸ hs')
  rw [← hcategory] at hq
  have hindex : t.index = t'.index := by
    have hi : t.index <
        ((x.roots t.category).map fun r => Path.spot home (normalRoot r)).length := by
      rw [List.length_map]
      exact (List.getElem?_eq_some_iff.1 hp).1
    apply (List.getElem?_inj hi (hroots x hx t.category)).1
    rw [List.getElem?_map, List.getElem?_map, hp, hq]
    simpa [Tier.rootSpot, hroot, hroot'] using hspot
  rw [Tier.address, Tier.address, hcamera, hsubcategory, hindex]

theorem encloses_iff (hc : c.validate = .ok ()) (hnames : c.storage.PlainNames)
    (hroots : c.storage.ApartRoots home) {t t' : Tier} (ht : t ∈ c.storage.tiers)
    (ht' : t' ∈ c.storage.tiers) (hne : t.address ≠ t'.address) :
    t.Encloses home t' ↔ t.Harbours home t' := by
  have hsame : ¬ (t.rootSpot home = t'.rootSpot home ∧ t.subcategory = t'.subcategory ∧
      t.camera.toList = t'.camera.toList) := by
    rintro ⟨hspot, hsubcategory, hcamera⟩
    exact hne (address_eq_of_rootSpot_eq hc hroots ht ht' (String.toList_inj.1 hcamera)
      hsubcategory hspot)
  obtain ⟨x, hx, htx⟩ := List.mem_flatMap.1 ht
  obtain ⟨x', hx', htx'⟩ := List.mem_flatMap.1 ht'
  rw [Tier.Encloses, Tier.Harbours, Tier.directorySpot_eq home htx (hnames x hx),
    Tier.directorySpot_eq home htx' (hnames x' hx'), List.dropLast_concat,
    Tier.folders_prefix_iff (CameraSpec.roots_of_mem_tiers htx).2.1
      (CameraSpec.roots_of_mem_tiers htx').2.1]
  simp only [hsame, or_false]

/-- Of two keepers of accepted settings, with plain names and no chain that comes
back to a place, one encloses the other exactly if it harbours the other, which it
can only do if the other root lies below its own. A place is watched by both
exactly if one of them harbours the other. -/
theorem encloses_iff_harbours (hc : c.validate = .ok ()) (hnames : c.storage.PlainNames)
    (hroots : c.storage.ApartRoots home) (hk : k ∈ Keepers.ofTiers c.storage.tiers)
    (hk' : k' ∈ Keepers.ofTiers c.storage.tiers) (hne : k.address ≠ k'.address) :
    (k.tier.Encloses home k'.tier ↔ k.tier.Harbours home k'.tier) ∧
      (k.tier.Harbours home k'.tier → k.tier.rootSpot home <+: k'.tier.rootSpot home ∧
        k.tier.rootSpot home ≠ k'.tier.rootSpot home) ∧
      ∀ d : Disk, d.home = home → ∀ l l', d.resolve k.tier.directory = .ok l →
        d.resolve k'.tier.directory = .ok l' →
          ((∃ x, (Watch.textOf? ⟨k.tier.directory, l⟩ x).isSome = true ∧
              (Watch.textOf? ⟨k'.tier.directory, l'⟩ x).isSome = true) ↔
            k.tier.Harbours home k'.tier ∨ k'.tier.Harbours home k.tier) := by
  obtain ⟨t, ht, rfl⟩ := (mem_keepers hc).1 hk
  obtain ⟨t', ht', rfl⟩ := (mem_keepers hc).1 hk'
  have hiff := encloses_iff hc hnames hroots ht ht' hne
  have hiff' := encloses_iff hc hnames hroots ht' ht (Ne.symm hne)
  obtain ⟨x, hx, htx⟩ := List.mem_flatMap.1 ht
  refine ⟨hiff, fun h => h.rootSpot_prefix htx (hnames x hx), ?_⟩
  rintro d rfl l l' hl hl'
  obtain rfl : l = t.directorySpot d.home := Disk.spot_of_resolve hl
  obtain rfl : l' = t'.directorySpot d.home := Disk.spot_of_resolve hl'
  exact Watch.exists_both_iff.trans (or_congr hiff hiff')

/-- A camera named as the folder of its segments, whose second root is the folder
around its first directory. -/
def nestedRoots : Config := twoRoots "segments" "/a" "/a/segments"

theorem encloses_iff_harbours_nestedRoots :
    nestedRoots.validate = .ok () ∧
      ((twoRootsTier "segments" "/a" 0 (some "/a/segments")).Encloses []
          (twoRootsTier "segments" "/a/segments" 1 none) ↔
        (twoRootsTier "segments" "/a" 0 (some "/a/segments")).Harbours []
          (twoRootsTier "segments" "/a/segments" 1 none)) ∧
      (twoRootsTier "segments" "/a" 0 (some "/a/segments")).Harbours []
        (twoRootsTier "segments" "/a/segments" 1 none) := by
  have haccepted : nestedRoots.validate = .ok () := rfl
  have hnames : nestedRoots.storage.PlainNames := by
    intro c hc
    obtain rfl := List.mem_singleton.1 hc
    decide
  have hroots : nestedRoots.storage.ApartRoots [] := by
    intro c hc k
    obtain rfl := List.mem_singleton.1 hc
    cases k <;> decide
  refine ⟨haccepted, (encloses_iff_harbours haccepted hnames hroots
    ((mem_keepers haccepted).2 ⟨_, ?_, rfl⟩) ((mem_keepers haccepted).2 ⟨_, ?_, rfl⟩) ?_).1, ?_⟩ <;>
  decide

/-- The directory of one keeper encloses that of another one. -/
def Overlaps (c : Config) (home : Location) : Prop :=
  ∃ k ∈ Keepers.ofTiers c.storage.tiers, ∃ k' ∈ Keepers.ofTiers c.storage.tiers,
    k.address ≠ k'.address ∧ k.tier.Encloses home k'.tier

/-- Cameras that share one root. -/
def sharedRoot (root : String) (cameras : List String) : Config where
  storage := { cameras := cameras.map fun camera =>
    { identifier := camera, recorder := { tiers := [{ root := root.toList }] } } }

theorem overlaps_of_tiers {c : Config} {home : Location} (hc : c.validate = .ok ()) (t t' : Tier)
    (ht : t ∈ c.storage.tiers) (ht' : t' ∈ c.storage.tiers) (hne : t.address ≠ t'.address)
    (h : t.Encloses home t') : c.Overlaps home :=
  ⟨_, (mem_keepers hc).2 ⟨t, ht, rfl⟩, _, (mem_keepers hc).2 ⟨t', ht', rfl⟩, hne, h⟩

/-- Accepted settings can have directories in one another: below a root that lies in a
directory, for a camera named by a path below another one's name, and for one named by
an absolute path, which has all its files in that one place. -/
theorem accepted_overlaps :
    ((twoRoots "cam1" "/a" "/a/segments/cam1").validate = .ok () ∧
        (twoRoots "cam1" "/a" "/a/segments/cam1").Overlaps []) ∧
      ((sharedRoot "/a" ["yard", "yard/gate"]).validate = .ok () ∧
        (sharedRoot "/a" ["yard", "yard/gate"]).Overlaps []) ∧
      (sharedRoot "/a" ["/yard"]).validate = .ok () ∧ (sharedRoot "/a" ["/yard"]).Overlaps [] := by
  refine ⟨⟨rfl, ?_⟩, ⟨rfl, ?_⟩, rfl, ?_⟩
  · exact overlaps_of_tiers rfl (twoRootsTier "cam1" "/a" 0 (some "/a/segments/cam1"))
      (twoRootsTier "cam1" "/a/segments/cam1" 1 none) (by decide) (by decide) (by decide)
      (by decide)
  · exact overlaps_of_tiers rfl (twoRootsTier "yard" "/a" 0 none)
      (twoRootsTier "yard/gate" "/a" 0 none) (by decide) (by decide) (by decide) (by decide)
  · exact overlaps_of_tiers rfl (twoRootsTier "/yard" "/a" 0 none)
      { twoRootsTier "/yard" "/a" 0 none with subcategory := thumbnailsName, role := .thumbnails }
      (by decide) (by decide) (by decide) (by decide)

end Config

end TieredFootage
