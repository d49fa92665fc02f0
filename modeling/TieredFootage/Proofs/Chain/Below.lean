import TieredFootage.Proofs.Chain.Enclosure
import TieredFootage.Proofs.Disk.Making

/-!
# Files below a root

A normal path below a normal root is the root continued by names. Putting the next
root in its place continues that one by the same names, so two files of one tier go
to two places, and these lie to each other as the files did.

The directory of a tier continues its root by its place: its folders and its camera.
The places of segments, thumbnails and clips differ at the name of the subcategory, so
no file of one of these tiers lies at or below a file of another one.
-/

namespace TieredFootage

open Disk

namespace Path

variable {root next : Path} {ms ns : List Path}

/-- A root continued by names. -/
def under (root : Path) (ns : List Path) : Path := root ++ '/' :: glue ns

theorem under_append (root : Path) (hms : ms ≠ []) (hns : ns ≠ []) :
    root.under (ms ++ ns) = (root.under ms).under ns := by
  simp [under, glue_append hms hns]

theorem exists_cons_of_isNormal (h : root.IsNormal) :
    ∃ r, root = '/' :: r ∧ r ≠ [] ∧ r.getLast? ≠ some '/' := by
  obtain ⟨r, rfl⟩ := exists_cons_of_isAbsolute h.1
  refine ⟨r, rfl, ?_, fun hlast => ?_⟩
  · rintro rfl
    exact (h.2 [] (List.mem_singleton.2 rfl)).1 rfl
  · obtain ⟨b, rfl⟩ := List.getLast?_eq_some_iff.1 hlast
    refine (h.2 [] ?_).1 rfl
    rw [List.tail_cons, pieces_append_slash]
    exact List.mem_append_right _ (List.mem_singleton.2 rfl)

theorem pieces_under (hroot : root.IsNormal) (hns : IsNamed ns) (hne : ns ≠ []) :
    pieces (root.under ns).tail = pieces root.tail ++ ns := by
  obtain ⟨r, rfl, -⟩ := exists_cons_of_isNormal hroot
  rw [under, List.cons_append, List.tail_cons, List.tail_cons, pieces_append_slash,
    pieces_glue hne fun n hn => (hns n hn).2]

theorem isNormal_under (hroot : root.IsNormal) (hns : IsNamed ns) (hne : ns ≠ []) :
    (root.under ns).IsNormal := by
  refine ⟨?_, fun n hn => ?_⟩
  · obtain ⟨r, rfl, -⟩ := exists_cons_of_isNormal hroot
    rfl
  · rw [pieces_under hroot hns hne] at hn
    rcases List.mem_append.1 hn with hn | hn
    · exact hroot.2 n hn
    · exact (hns n hn).1

/-- A file below a root goes to the next root by the same names. -/
theorem destination_under (root next : Path) (ns : List Path) :
    Holdings.destination (root.under ns) root next = next.under ns :=
  replaceFirst_append root next ('/' :: glue ns)

/-- Names that lead on from others lead to the same path or below it. -/
theorem under_of_prefix (root : Path) (hms : ms ≠ []) (h : ms <+: ns) :
    root.under ms = root.under ns ∨ root.under ms ++ ['/'] <+: root.under ns := by
  obtain ⟨ks, rfl⟩ := h
  by_cases hks : ks = []
  · exact Or.inl (by rw [hks, List.append_nil])
  · right
    rw [under_append root hms hks]
    exact ⟨glue ks, by simp [under]⟩

theorem normalRoot_of_isNormal (h : root.IsNormal) : normalRoot root = root := by
  obtain ⟨r, rfl, hne, hlast⟩ := exists_cons_of_isNormal h
  have htrim : trimSlashes ('/' :: r) = '/' :: r := by
    obtain ⟨b, c, rfl⟩ := (List.eq_nil_or_concat r).resolve_left hne
    rw [List.concat_eq_append] at hlast ⊢
    have hc : c ≠ '/' := fun hc => hlast (by simp [hc])
    simp [trimSlashes, hc]
  rw [normalRoot, htrim, if_neg (List.cons_ne_nil _ _)]

theorem slashed_of_isNormal (h : root.IsNormal) : slashed root = root ++ ['/'] := by
  obtain ⟨r, rfl, hne, -⟩ := exists_cons_of_isNormal h
  exact if_neg (by simp [hne])

end Path

namespace Tier

open TieredFootage.Path

variable {t u : Tier} {p : Path}

/-- The names that lead from the root of a tier to its directory. -/
def place (t : Tier) : List Path := t.folders ++ [t.camera.toList]

/-- The subcategory and the camera are plain names. -/
def IsPlain (t : Tier) : Prop :=
  (IsName t.subcategory.toList ∧ '/' ∉ t.subcategory.toList) ∧
    IsName t.camera.toList ∧ '/' ∉ t.camera.toList

/-- The path is that of a file in the directory of the tier, in normal form. -/
def Keeps (t : Tier) (p : Path) : Prop :=
  ∃ ns, ns ≠ [] ∧ IsNamed ns ∧ p = t.directory.under ns

theorem place_ne_nil (t : Tier) : t.place ≠ [] := by simp [place]

/-- A file below the directory of a tier has two names below the root, or more. -/
theorem exists_last_two (t : Tier) {ns : List Path} (hns : ns ≠ []) :
    ∃ l m n, t.place ++ ns = l ++ [m] ++ [n] := by
  obtain ⟨ms, n, rfl⟩ := (List.eq_nil_or_concat ns).resolve_left hns
  obtain ⟨l, m, hlast⟩ := (List.eq_nil_or_concat (t.place ++ ms)).resolve_left (by simp [place])
  refine ⟨l, m, n, ?_⟩
  rw [List.concat_eq_append] at hlast ⊢
  rw [← List.append_assoc, hlast]

theorem IsPlain.isNamed_place (h : t.IsPlain) : IsNamed t.place := by
  have hpieces := pieces_filesPlace t h.1 h.2.2
  intro n hn
  refine ⟨isName_place t h.1.1 h.2.1 n hn, ?_⟩
  rw [place, ← hpieces] at hn
  exact slash_notMem_of_mem_pieces hn

theorem IsPlain.directory_eq (h : t.IsPlain) (hroot : t.root.IsNormal) :
    t.directory = t.root.under t.place := by
  obtain ⟨⟨hname, hslash⟩, -, hc⟩ := h
  have hdirectory := filesDirectory_of_relative t.root t.category hname.1
    (isAbsolute_eq_false hslash) (isAbsolute_eq_false hc)
  rw [normalRoot_of_isNormal hroot, slashed_of_isNormal hroot] at hdirectory
  rw [directory, hdirectory, under, place, ← pieces_filesPlace t ⟨hname, hslash⟩ hc, glue_pieces,
    List.append_assoc]
  rfl

/-- A file of a tier continues the root by the place of the tier and more names. -/
theorem Keeps.exists_under (hp : t.Keeps p) (h : t.IsPlain) (hroot : t.root.IsNormal) :
    ∃ ns, ns ≠ [] ∧ IsNamed (t.place ++ ns) ∧ p = t.root.under (t.place ++ ns) := by
  obtain ⟨ns, hne, hns, rfl⟩ := hp
  refine ⟨ns, hne, fun n hn => ?_, ?_⟩
  · exact (List.mem_append.1 hn).elim (h.isNamed_place n) (hns n)
  · rw [under_append t.root t.place_ne_nil hne, h.directory_eq hroot]

/-- Files of two subcategories are not in each other's way. -/
theorem place_not_below (ht : t.subcategory ∈ CameraSpec.subcategories .recorder)
    (hu : u.subcategory ∈ CameraSpec.subcategories .recorder)
    (hne : t.subcategory ≠ u.subcategory) (ms ns : List Path) :
    ¬ t.place ++ ms <+: u.place ++ ns := by
  have hne' : t.subcategory.toList ≠ u.subcategory.toList := fun h => hne (String.toList_inj.1 h)
  have htop : ∀ s ∈ CameraSpec.subcategories .recorder,
      s.toList ≠ Category.snapshots.text.toList := by decide
  unfold place folders
  cases t.category <;> cases u.category <;>
    simp [Category.folders, List.cons_prefix_cons, hne', htop _ ht, (htop _ hu).symm]

end Tier

end TieredFootage
