import TieredFootage.Proofs.Disk.Ways
import TieredFootage.Proofs.Watch.Naming

/-!
# Room for a file

The text of a location is followed name by name, so it passes by the directories that the
location lies in, one after the other. On a disk that is a tree it leads there as soon as
the last of them is there, and it can be made, with all those above it, exactly if no
file stands on the way.

So a file can be written to a location whose text can be followed unless a file
stands on the way or a directory in its place (`accepts_iff_hasRoom`), and a move to
such a location goes through.
-/

namespace TieredFootage

theorem IsFileName.isName {n : Path} (h : IsFileName n) : Path.IsName n :=
  ⟨h.nonempty, h.isPlain.1, h.isPlain.2.1⟩

namespace Disk

open TieredFootage.Path

variable {d d' : Disk} {p q : Path} {l m : Location} {n : Path} {ns : List Path}
  {content : String}

/-- Every name of a location is one piece of a path that leads on. -/
def IsNamed (l : Location) : Prop := ∀ n ∈ l, IsName n ∧ '/' ∉ n

instance (l : Location) : Decidable (IsNamed l) := inferInstanceAs (Decidable (∀ n ∈ l, _))

/-- A location whose text can be followed as a path. -/
structure IsSpelled (l : Location) : Prop where
  isFileName : ∀ n ∈ l, IsFileName n
  short : byteCount (locationText l) < maxPathBytes

theorem IsNamed.isName (h : IsNamed l) : ∀ n ∈ l, IsName n := fun n hn => (h n hn).1

theorem IsNamed.slash (h : IsNamed l) : ∀ n ∈ l, '/' ∉ n := fun n hn => (h n hn).2

theorem IsNamed.of_concat (h : IsNamed (l ++ [n])) : IsNamed l :=
  fun k hk => h k (List.mem_append_left _ hk)

theorem isNamed_pieces (hp : p.IsNormal) : IsNamed (pieces p.tail) :=
  fun n hn => ⟨hp.2 n hn, slash_notMem_of_mem_pieces hn⟩

/-- A location can be followed if its pieces can be read and each of them is a name. -/
theorem isSpelled_iff : IsSpelled l ↔ IsReadable l ∧ ∀ n ∈ l, IsName n := by
  constructor
  · intro h
    exact ⟨⟨fun n hn => (h.isFileName n hn).slash, fun n hn => (h.isFileName n hn).zero,
      fun n hn => (h.isFileName n hn).isPlain.2.2, h.short⟩,
      fun n hn => (h.isFileName n hn).isName⟩
  · rintro ⟨h, hnames⟩
    refine ⟨fun n hn => ⟨h.slash n hn, h.zero n hn, (hnames n hn).1, ?_⟩, h.bytes⟩
    exact ⟨(hnames n hn).2.1, (hnames n hn).2.2, h.short n hn⟩

theorem IsSpelled.isName (h : IsSpelled l) : ∀ n ∈ l, IsName n := (isSpelled_iff.1 h).2

theorem IsSpelled.of_concat (h : IsSpelled (l ++ [n])) : IsSpelled l := by
  obtain ⟨hreadable, hnames⟩ := isSpelled_iff.1 h
  exact isSpelled_iff.2 ⟨hreadable.of_append, fun k hk => hnames k (List.mem_append_left _ hk)⟩

theorem IsSpelled.areShort (h : IsSpelled l) : AreShort l := by
  obtain ⟨hreadable, hnames⟩ := isSpelled_iff.1 h
  have hshort := areShort_filter hreadable
  rwa [filter_of_isName hnames] at hshort

/-- The directory that the text of a location lies in. -/
theorem parent?_locationText (h : IsNamed (l ++ [n])) :
    (locationText (l ++ [n])).parent? = some (locationText l) := by
  have htrim : trimIdle l = l := by
    rcases List.eq_nil_or_concat l with rfl | ⟨init, k, rfl⟩
    · rfl
    · rw [List.concat_eq_append] at h ⊢
      exact trimIdle_concat (h.of_concat.isName k (by simp)).not_isIdle init
  rw [parent?_locationText_concat h.slash (h.isName n (by simp)).not_isIdle, htrim]

theorem fileName?_locationText (h : IsNamed (l ++ [n])) :
    (locationText (l ++ [n])).fileName? = some n := by
  have hn := h.isName n (by simp)
  rw [fileName?, bodyPieces_locationText h.slash hn.not_isIdle, List.getLast?_concat]
  exact if_neg hn.2.2

/-- The text of a location passes by the directories that it lies in. -/
theorem IsSpelled.leadsBy (h : IsSpelled (l ++ [n])) : (locationText (l ++ [n])).LeadsBy l n := by
  have hleads := leadsBy_locationText (isSpelled_iff.1 h).1 (h.isName n (by simp))
  rwa [filter_of_isName h.of_concat.isName] at hleads

/-- A normal path that can be followed spells a location, name by name. -/
theorem isSpelled_of_leadsBy (hp : p.IsNormal) (h : p.LeadsBy ns n) :
    pieces p.tail = ns ++ [n] ∧ IsSpelled (ns ++ [n]) := by
  obtain ⟨cs, rfl, rfl, hreadable⟩ := h.exists_pieces
  have hpieces : pieces (locationText (cs ++ [n])).tail = cs ++ [n] :=
    pieces_glue (by simp) hreadable.slash
  have hnames := hp.2
  rw [hpieces] at hnames ⊢
  rw [filter_of_isName fun k hk => hnames k (List.mem_append_left _ hk)]
  exact ⟨rfl, isSpelled_iff.2 ⟨hreadable, hnames⟩⟩

/-- On a tree there is a way to every directory. -/
theorem hasWay_of_directory (hd : d.IsTree) (h : IsSpelled l) (hl : d.node? l = some .directory) :
    d.HasWay l := by
  have habove : ∀ m, m <+: l → d.node? (place [] m) = some .directory := by
    intro m hm
    rw [place_of_isName fun n hn => h.isName n (hm.subset hn), List.nil_append]
    by_cases hml : m = l
    · rw [hml, hl]
    · exact IsTree.directory_of_prefix hd hm hml (by simp [hl])
  refine (hasWay_or_absent hd (fun m hm c hc => ?_) h.areShort).resolve_right ?_
  · rw [habove m hm] at hc
    cases hc
  · rintro ⟨-, m, hm, hnone⟩
    rw [habove m hm] at hnone
    cases hnone

/-- A normal path has its slot where its text says, once the directory on the way is
there. -/
theorem slot_of_isSpelled (hd : d.IsTree) (hp : p.IsNormal) (h : IsSpelled (pieces p.tail))
    (hparent : d.node? (pieces p.tail).dropLast = some .directory) :
    d.slot p = .ok (pieces p.tail, false) := by
  obtain ⟨l, n, hsplit⟩ := exists_concat_pieces p.tail
  have htext := locationText_pieces hp
  rw [hsplit] at h hparent htext ⊢
  rw [List.dropLast_concat] at hparent
  rw [← htext, h.leadsBy.slot_eq (hasWay_of_directory hd h.of_concat hparent),
    place_of_isName h.isName, List.nil_append]

/-- The slot of a normal path is where its text says. -/
theorem slot_isNormal (hp : p.IsNormal) (h : d.slot p = .ok (l, false)) :
    l = pieces p.tail ∧ IsSpelled l := by
  obtain ⟨ns, n, hleads, -, rfl⟩ := exists_leadsBy_of_slot hp.1 h
  obtain ⟨hpieces, hspelled⟩ := isSpelled_of_leadsBy hp hleads
  rw [place_of_isName hspelled.isName, List.nil_append]
  exact ⟨hpieces.symm, hspelled⟩

/-- No file is at a location or on the way there. -/
def IsPassable (d : Disk) (l : Location) : Prop :=
  ∀ m, m <+: l → ∀ content, d.node? m ≠ some (.file content)

theorem isOpen_iff_isPassable (h : ∀ n ∈ l, IsName n) : d.IsOpen l ↔ d.IsPassable l := by
  refine forall₂_congr fun m hm => ?_
  rw [place_of_isName fun n hn => h n (hm.subset hn), List.nil_append]

/-- A file can be written to a path once its directory is made. -/
def Accepts (d : Disk) (p : Path) : Prop :=
  (d.makeParent p).1 = .ok () ∧ ∃ l, (d.makeParent p).2.slot p = .ok (l, false) ∧
    (d.makeParent p).2.node? l ≠ some .directory

/-- There is room for a file at a location: its text can be followed, no file is on
the way, and no directory is there. -/
structure HasRoom (d : Disk) (l : Location) : Prop where
  isSpelled : IsSpelled l
  isPassable : d.IsPassable l.dropLast
  free : d.node? l ≠ some .directory

/-- A path that accepts a file has no file on the way, and no directory in its place. -/
theorem exists_leadsBy_of_accepts (hp : p.isAbsolute = true) (h : d.Accepts p) :
    ∃ ns n, p.LeadsBy ns n ∧ d.IsOpen ns ∧ d.node? (place [] (ns ++ [n])) ≠ some .directory := by
  obtain ⟨-, l, hslot, hfree⟩ := h
  have hgrown := grown_makeParent d p
  obtain ⟨ns, n, hleads, hway, rfl⟩ := exists_leadsBy_of_slot hp hslot
  exact ⟨ns, n, hleads, hgrown.isOpen_iff.1 (hway.isOpen hleads.areShort.1),
    fun hdir => hfree (hgrown.keepsDirectories.directory _ hdir)⟩

/-- A normal path accepts a file exactly if there is room where it leads. -/
theorem accepts_iff_hasRoom (hd : d.IsTree) (hp : p.IsNormal) :
    d.Accepts p ↔ d.HasRoom (pieces p.tail) := by
  constructor
  · intro h
    obtain ⟨ns, n, hleads, hopen, hfree⟩ := exists_leadsBy_of_accepts hp.1 h
    obtain ⟨hpieces, hspelled⟩ := isSpelled_of_leadsBy hp hleads
    rw [place_of_isName hspelled.isName, List.nil_append] at hfree
    rw [hpieces]
    refine ⟨hspelled, ?_, hfree⟩
    rwa [List.dropLast_concat, ← isOpen_iff_isPassable hspelled.of_concat.isName]
  · obtain ⟨l, n, hsplit⟩ := exists_concat_pieces p.tail
    have htext := locationText_pieces hp
    rw [hsplit] at htext ⊢
    rintro ⟨hspelled, hway, hfree⟩
    have hleads : p.LeadsBy l n := htext ▸ hspelled.leadsBy
    rw [List.dropLast_concat, ← isOpen_iff_isPassable hspelled.of_concat.isName] at hway
    obtain ⟨hok, hmade⟩ := hleads.makeParent_of_isOpen hd hway
    refine ⟨hok, _, hleads.slot_eq hmade, ?_⟩
    rw [place_of_isName hspelled.isName, List.nil_append]
    rcases hleads.node?_makeParent d (l ++ [n]) with heq | ⟨-, -, m, hm, hbeyond⟩
    · rwa [heq]
    · -- What is made is on the way, and the file lies beyond it.
      rw [place_of_isName fun k hk => hspelled.of_concat.isName k (hm.subset hk),
        List.nil_append] at hbeyond
      have hlength := hm.length_le
      rw [← hbeyond, List.length_append, List.length_singleton] at hlength
      omega

/-- What has a slot and is no directory can be opened for writing. -/
theorem truncate_of_slot {t : Location} (h : d.slot q = .ok (t, false))
    (ht : d.node? t ≠ some .directory) : (d.truncate q).1 = .ok t := by
  unfold truncate
  rw [resolve_of_slot h]
  cases hnode : d.node? t with
  | none =>
    rw [if_pos rfl]
    dsimp only
    rw [h]
    rfl
  | some x =>
    cases x with
    | directory => exact absurd hnode ht
    | file c =>
      rw [if_neg (by simp)]
      dsimp only
      rw [hnode]

theorem exists_copyFile_eq_ok {t : Location} (hd : d.IsTree) (hp : d.resolve p = .ok l)
    (hl : d.node? l = some (.file content)) (hq : d.slot q = .ok (t, false))
    (ht : d.node? t ≠ some .directory) : ∃ bytes, (d.copyFile p q).1 = .ok bytes := by
  have hopened := truncate_of_slot hq ht
  rcases truncate_cases hd q with ⟨e, herror⟩ | ⟨t', -, -, -, hwrote⟩
  · rw [herror] at hopened
    cases hopened
  unfold copyFile
  rw [hp]
  dsimp only
  rw [hl]
  dsimp only
  cases hresult : d.truncate q with
  | mk answer d' =>
    rw [hresult] at hopened hwrote
    obtain rfl : answer = .ok t := hopened
    -- The source is a file still, be it an empty one.
    obtain ⟨c, hc⟩ : ∃ c, d'.node? l = some (.file c) := by
      rw [hwrote.node?_eq]
      split_ifs
      · exact ⟨_, rfl⟩
      · exact ⟨_, hl⟩
    dsimp only
    rw [hc]
    exact ⟨_, rfl⟩

/-- A file that is there is moved to a path that accepts one. -/
theorem exists_moveFile_eq_ok (hd : d.IsTree) (hp : d.slot p = .ok (l, false))
    (hl : d.node? l = some (.file content)) (hq : d.Accepts q) :
    ∃ bytes, (d.moveFile p q).1 = .ok bytes := by
  obtain ⟨hmade, t, hslot, hfree⟩ := hq
  have hgrown := grown_makeParent d q
  have htree := hd.makeParent q
  unfold moveFile
  cases hmk : d.makeParent q with
  | mk answer d₁ =>
    rw [hmk] at hmade hslot hfree hgrown htree
    obtain rfl : answer = .ok () := hmade
    dsimp only at hslot hfree hgrown htree ⊢
    have hl₁ := hgrown.node?_eq_file_iff.2 hl
    have hp₁ := hgrown.keepsDirectories.slot_eq hp
    have hresolve : d₁.resolve p = .ok l := by
      rw [resolve_of_slot hp₁, if_neg (by simp [hl₁])]
    obtain ⟨bytes, hcopied⟩ := exists_copyFile_eq_ok htree hresolve hl₁ hslot hfree
    rcases copyFile_cases htree hresolve hl₁ q with ⟨e, herror⟩ | ⟨t', -, -, -, hnode, hwrote⟩
    · rw [herror] at hcopied
      cases hcopied
    have hremoved := (hwrote.removeFile hnode hp₁ hl₁).1
    cases hcp : d₁.copyFile p q with
    | mk answer d₂ =>
      rw [hcp] at hcopied hremoved
      obtain rfl : answer = .ok bytes := hcopied
      cases hrm : d₂.removeFile p with
      | mk answer d₃ =>
        dsimp only at hremoved ⊢
        rw [hrm] at hremoved ⊢
        obtain rfl : answer = .ok () := hremoved
        exact ⟨bytes, rfl⟩

end Disk

end TieredFootage
