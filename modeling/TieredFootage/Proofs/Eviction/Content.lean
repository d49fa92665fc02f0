import TieredFootage.Proofs.Catalog.Keys
import TieredFootage.Proofs.Chain.Destination
import TieredFootage.Proofs.Disk.Moving

/-!
# What becomes of content

A file that is taken out of a tier with a tier behind it should not lose its
content, and no other file should lose its own. The paths of source and
destination are compared as texts, but the disk follows them as names, and
whatever stands at the destination is written over. So content is kept exactly
if the destination leads to no file yet, or to another file of the same content.
It can lead back to the source under accepted settings: the roots `/t0` and
`/t0/.` differ as texts.
-/

namespace TieredFootage

open Disk

/-- The file that a path leads to once its directory is made. -/
def Disk.standing? (d : Disk) (p : Path) : Option (Location × String) :=
  match (d.makeParent p).2.resolve p with
  | .error _ => none
  | .ok t =>
    match (d.makeParent p).2.node? t with
    | some (.file content) => some (t, content)
    | _ => none

/-- What stands in the place for a file was there before its directory was made. -/
theorem Disk.standing?_eq_some_iff {d : Disk} {p : Path} {t t' : Location} {c : String}
    (h : (d.makeParent p).2.slot p = .ok (t, false)) :
    d.standing? p = some (t', c) ↔ t' = t ∧ d.node? t = some (.file c) := by
  rw [← (grown_makeParent d p).node?_eq_file_iff]
  unfold standing?
  rw [resolve_of_slot h]
  cases hnode : (d.makeParent p).2.node? t with
  | none => simp
  | some n => cases n <;> simp [hnode, eq_comm]

/-- What an eviction owes to the content of files: a moved file is at its
destination and no longer in its place, any other outcome leaves it there, and
no other file changes. -/
structure ContentKept (d d' : Disk) (p : Path) (outcome : Eviction) : Prop where
  moved : ∀ q, outcome = .moved q → d'.stat q = d.stat p ∧ ∀ c, d'.stat p ≠ .ok (.file c)
  stayed : (∀ q, outcome ≠ .moved q) → d'.stat p = d.stat p
  others : ∀ l c, d.node? l = some (.file c) → d.resolve p ≠ .ok l → d'.node? l = some (.file c)

namespace Holdings

/-- A move answers that it moved the file exactly if the disk did. -/
theorem move_spec (h : Holdings) (source target : Path) :
    (h.move source target).2.disk = (h.disk.moveFile source target).2 ∧
      ∀ q, (h.move source target).1 = .moved q ↔
        q = target ∧ ∃ bytes, (h.disk.moveFile source target).1 = .ok bytes := by
  unfold move
  dsimp only
  cases hmoved : h.disk.moveFile source target with
  | mk answer d =>
    cases answer with
    | ok bytes => simp [eq_comm]
    | error e => cases e <;> simp [dropRow]

/-- An eviction to a next tier leaves the disk alone or moves the file there. -/
theorem evict_next_cases (h : Holdings) (p fileRoot root next : Path) :
    ((h.evict p fileRoot root (some next)).2.disk = h.disk ∧
        ∀ q, (h.evict p fileRoot root (some next)).1 ≠ .moved q) ∨
      (h.evict p fileRoot root (some next)).2.disk =
          (h.disk.moveFile p (destination p fileRoot next)).2 ∧
        ∀ q, (h.evict p fileRoot root (some next)).1 = .moved q ↔
          q = destination p fileRoot next ∧
            ∃ bytes, (h.disk.moveFile p (destination p fileRoot next)).1 = .ok bytes := by
  unfold evict
  cases hserved : h.served.contains h.now p with
  | mk held served =>
    cases held with
    | true => exact Or.inl ⟨rfl, fun q hq => Eviction.noConfusion hq⟩
    | false =>
      dsimp only [evictUnserved]
      by_cases hsame : destination p fileRoot next = p
      · rw [if_pos hsame]
        left
        refine ⟨?_, fun q hq => Eviction.noConfusion hq⟩
        split <;> rfl
      · rw [if_neg hsame]
        right
        obtain ⟨hdisk, houtcome⟩ :=
          move_spec { h with served := served } p (destination p fileRoot next)
        refine ⟨?_, houtcome⟩
        split
        · exact hdisk
        · exact hdisk

theorem discard_disk (h : Holdings) (p : Path) :
    (h.discard p).2.disk = (h.disk.removeFile p).2 := by
  unfold discard
  dsimp only [dropRow]
  cases hremoved : h.disk.removeFile p with
  | mk answer d =>
    cases answer with
    | ok u => rfl
    | error e => cases e <;> rfl

/-- Whatever becomes of a file, the disk stays a tree. -/
theorem isTree_evict {h : Holdings} (hd : h.disk.IsTree) (p fileRoot root : Path)
    (next : Option Path) : (h.evict p fileRoot root next).2.disk.IsTree := by
  cases next with
  | some next =>
    rcases h.evict_next_cases p fileRoot root next with ⟨hdisk, -⟩ | ⟨hdisk, -⟩
    · rw [hdisk]
      exact hd
    · rw [hdisk]
      exact hd.moveFile p _
  | none =>
    unfold evict
    cases hserved : h.served.contains h.now p with
    | mk held served =>
      cases held with
      | true => exact hd
      | false =>
        have hdisk := discard_disk { h with served := served } p
        have hremoved := hd.removeFile p
        rw [← hdisk] at hremoved
        dsimp only [evictUnserved]
        split <;> exact hremoved

end Holdings

/-- A failed move, and anything else that only makes directories, keeps content. -/
theorem contentKept_of_grown {d d' : Disk} (hgrown : Grown d d') (hd : d.IsTree) {p : Path}
    {content : String} (hp : d.stat p = .ok (.file content)) {outcome : Eviction}
    (houtcome : ∀ q, outcome ≠ .moved q) : ContentKept d d' p outcome := by
  obtain ⟨l, -, hslot, hl⟩ := exists_slot_of_stat hd hp
  refine ⟨fun q hq => absurd hq (houtcome q), fun _ => ?_, fun k c hk _ => ?_⟩
  · rw [stat_of_slot hslot, stat_of_slot (hgrown.keepsDirectories.slot_eq hslot),
      hgrown.node?_eq l (by simp [hl])]
  · exact hgrown.node?_eq_file_iff.2 hk

/-- A move that goes through keeps content exactly if nothing else than the same
content stood at its target, and not the file itself. -/
theorem contentKept_moveFile_iff {d : Disk} (hd : d.IsTree) {p q : Path} {content : String}
    (hp : d.stat p = .ok (.file content)) {bytes : Nat} (hok : (d.moveFile p q).1 = .ok bytes) :
    ContentKept d (d.moveFile p q).2 p (.moved q) ↔
      ∀ t c, d.standing? q = some (t, c) → d.resolve p ≠ .ok t ∧ c = content := by
  obtain ⟨l, hresolve, hslot, hl⟩ := exists_slot_of_stat hd hp
  have hgrown := grown_makeParent d q
  rcases moveFile_cases hd hslot hl q with
    ⟨e, herror, -⟩ | ⟨t, -, -, hslot', hnode, hkeeps, hafter⟩
  · rw [hok] at herror
    cases herror
  have hq := stat_of_slot (hkeeps.slot_eq hslot')
  have hp' := stat_of_slot (hkeeps.slot_eq (hgrown.keepsDirectories.slot_eq hslot))
  rw [hafter, if_pos rfl] at hp'
  constructor
  · intro hkept t' c hstanding
    obtain ⟨rfl, hc⟩ := (standing?_eq_some_iff hslot').1 hstanding
    have htl : t' ≠ l := by
      rintro rfl
      have hmoved := (hkept.moved q rfl).1
      rw [hq, hafter, if_pos rfl, hp] at hmoved
      cases hmoved
    have hother : d.resolve p ≠ .ok t' := by
      rw [hresolve]
      exact fun heq => htl (Except.ok.inj heq).symm
    refine ⟨hother, ?_⟩
    have hsame := hkept.others t' c hc hother
    rw [hafter, if_neg htl, if_pos rfl] at hsame
    cases hsame
    rfl
  · intro hfree
    have htl : t ≠ l := by
      rintro rfl
      exact (hfree t content ((standing?_eq_some_iff hslot').2 ⟨rfl, hl⟩)).1 hresolve
    refine ⟨?_, fun hstayed => absurd rfl (hstayed q), ?_⟩
    · rintro q' ⟨⟩
      constructor
      · rw [hq, hafter, if_neg htl, if_pos rfl, hp]
      · rw [hp']
        exact fun c hc => nomatch hc
    · intro m c hm hother
      have hml : m ≠ l := by
        rintro rfl
        exact hother hresolve
      rw [hafter, if_neg hml]
      by_cases hmt : m = t
      · subst hmt
        rw [if_pos rfl, (hfree m c ((standing?_eq_some_iff hslot').2 ⟨rfl, hm⟩)).2]
      · rw [if_neg hmt, hgrown.node?_eq_file_iff.2 hm]

/-- An eviction to a next tier keeps content exactly if the destination of a
move leads to no file, or to another file of the same content. -/
theorem Holdings.contentKept_evict_iff (h : Holdings) (hd : h.disk.IsTree) {p : Path}
    {content : String} (hp : h.disk.stat p = .ok (.file content)) (fileRoot root next : Path) :
    ContentKept h.disk (h.evict p fileRoot root (some next)).2.disk p
        (h.evict p fileRoot root (some next)).1 ↔
      ∀ q, (h.evict p fileRoot root (some next)).1 = .moved q →
        ∀ t c, h.disk.standing? q = some (t, c) → h.disk.resolve p ≠ .ok t ∧ c = content := by
  rcases h.evict_next_cases p fileRoot root next with ⟨hdisk, hmoved⟩ | ⟨hdisk, hmoved⟩
  · rw [hdisk]
    constructor
    · intro _ q hq
      exact absurd hq (hmoved q)
    · intro _
      exact contentKept_of_grown (Grown.refl _) hd hp hmoved
  · rw [hdisk]
    cases hanswer : (h.disk.moveFile p (destination p fileRoot next)).1 with
    | ok bytes =>
      have houtcome := (hmoved _).2 ⟨rfl, bytes, hanswer⟩
      rw [houtcome, contentKept_moveFile_iff hd hp hanswer]
      constructor
      · rintro hfree q ⟨⟩
        exact hfree
      · exact fun hfree => hfree _ rfl
    | error e =>
      have hnot : ∀ q, (h.evict p fileRoot root (some next)).1 ≠ .moved q := by
        intro q hq
        obtain ⟨-, bytes, hok⟩ := (hmoved q).1 hq
        rw [hanswer] at hok
        cases hok
      have hgrown : Grown h.disk (h.disk.moveFile p (destination p fileRoot next)).2 := by
        obtain ⟨l, -, hslot, hl⟩ := exists_slot_of_stat hd hp
        rcases moveFile_cases hd hslot hl (destination p fileRoot next) with
          ⟨-, -, hsame⟩ | ⟨-, bytes, hok, -⟩
        · rw [hsame]
          exact grown_makeParent h.disk _
        · rw [hanswer] at hok
          cases hok
      constructor
      · intro _ q hq
        exact absurd hq (hnot q)
      · intro _
        exact contentKept_of_grown hgrown hd hp hnot

/-- One file in the first tier of a chain. -/
def singleFile : Holdings where
  disk := { nodes := [
    (["t0".toList], .directory),
    (["t0".toList, "1".toList], .file "footage")] }

theorem isTree_singleFile : singleFile.disk.IsTree :=
  isTree_of_nodes (by decide)

theorem contentKept_evict_iff_singleFile :
    singleFile.disk.IsTree ∧ singleFile.disk.stat "/t0/1".toList = .ok (.file "footage") ∧
      (ContentKept singleFile.disk
          (singleFile.evict "/t0/1".toList "/t0".toList "/t0".toList (some "/t1".toList)).2.disk
          "/t0/1".toList
          (singleFile.evict "/t0/1".toList "/t0".toList "/t0".toList (some "/t1".toList)).1 ↔
        ∀ q, (singleFile.evict "/t0/1".toList "/t0".toList "/t0".toList
            (some "/t1".toList)).1 = .moved q →
          ∀ t c, singleFile.disk.standing? q = some (t, c) →
            singleFile.disk.resolve "/t0/1".toList ≠ .ok t ∧ c = "footage") :=
  ⟨isTree_singleFile, rfl,
    singleFile.contentKept_evict_iff isTree_singleFile rfl "/t0".toList "/t0".toList "/t1".toList⟩

/-- From `/t0` to `/t0/.` a file is moved onto itself, and its content is lost. -/
theorem not_forall_contentKept_evict :
    ¬ ∀ (c : Config), c.validate = .ok () → ∀ k ∈ c.storage.cameras, ∀ t ∈ k.tiers,
      ∀ next, t.next = some next → ∀ h : Holdings, h.disk.IsTree → h.catalog.Keyed →
        ∀ p content, t.root <+: p → h.disk.stat p = .ok (.file content) →
          ContentKept h.disk (h.evict p t.root t.root (some next)).2.disk p
            (h.evict p t.root t.root (some next)).1 := by
  intro hall
  have hkept := hall (twoRoots "cam1" "/t0" "/t0/.") rfl _ (List.mem_singleton.2 rfl)
    (twoRootsTier "cam1" "/t0" 0 (some "/t0/.")) (by decide) "/t0/.".toList rfl singleFile
    isTree_singleFile Catalog.keyed_empty "/t0/1".toList "footage" (by decide) rfl
  have hmoved := (hkept.moved "/t0/./1".toList rfl).1
  cases hmoved

end TieredFootage
