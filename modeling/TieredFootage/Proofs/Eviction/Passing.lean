import TieredFootage.Proofs.Disk.Making
import TieredFootage.Proofs.Eviction.Reach

/-!
# What a move passes by

A move between normal paths that is tried can empty the place of its source, fill
that of its target, and make directories on the way to it. Every other place is as it
was (`shifted_moveFile`).

Files of one tier go to the next one by the same names: from `R ++ r` to `N ++ r`,
where neither root lies in the other. Then a move by other names leaves alone a file
that waits to be moved by `r`, with the room for it, and one that has arrived, unless
these names lead on from `r`: to a file and beyond, where the move would make a
directory in the place of the file.
-/

namespace TieredFootage

namespace Disk

open TieredFootage.Path

variable {d d' : Disk} {p q : Path} {s s' t t' : Location} {content : String}

/-- The disk after a move from one place to another was tried. -/
structure Shifted (d d' : Disk) (s t : Location) : Prop where
  keepsDirectories : KeepsDirectories d d'
  node?_cases : ∀ m, d'.node? m = d.node? m ∨ (m = s ∧ d.HasFile s ∧ d'.node? m = none) ∨
    (m = t ∧ d.HasFile s ∧ d'.HasFile m) ∨
    (m <+: t.dropLast ∧ d.node? m = none ∧ d'.node? m = some .directory)

/-- Making directories leads a normal path to no file that it did not lead to before. -/
theorem LeadsTo.of_grown {l : Location} (h : d'.LeadsTo p l) (hd : d.IsTree) (hd' : d'.IsTree)
    (hgrown : Grown d d') (hp : p.IsNormal) : d.LeadsTo p l := by
  obtain ⟨hslot, content, hl⟩ := (leadsTo_iff hd').1 h
  have hfile := hgrown.node?_eq_file_iff.1 hl
  obtain ⟨rfl, hspelled⟩ := slot_isNormal hp hslot
  have hslot' := slot_of_isSpelled hd hp hspelled (hd _ (by simp [hfile]))
  exact (leadsTo_iff hd).2 ⟨hslot', content, hfile⟩

/-- Making the directory of a target makes directories on the way there. -/
theorem shifted_makeParent (hq : q.IsNormal) (d : Disk) (s : Location) :
    Shifted d (d.makeParent q).2 s (pieces q.tail) := by
  obtain ⟨l, n, hsplit⟩ := exists_concat_pieces q.tail
  have htext := locationText_pieces hq
  have hnamed := isNamed_pieces hq
  rw [hsplit] at htext hnamed ⊢
  refine ⟨(grown_makeParent d q).keepsDirectories, fun m => ?_⟩
  rw [List.dropLast_concat, ← htext]
  rcases node?_makeParent_locationText hnamed.slash (hnamed.isName n (by simp)).not_isIdle d m with
    heq | ⟨hnone, hmade, ms, hms, hplace⟩
  · exact Or.inl heq
  · rw [filter_of_isName hnamed.of_concat.isName] at hms
    rw [place_of_isName fun k hk => hnamed.of_concat.isName k (hms.subset hk),
      List.nil_append] at hplace
    exact Or.inr (Or.inr (Or.inr ⟨hplace ▸ hms, hnone, hmade⟩))

/-- Without a file to move the directory of the target is made at most. -/
theorem moveFile_of_not_leadsTo (hd : d.IsTree) (hp : p.IsNormal) (h : ∀ l, ¬ d.LeadsTo p l)
    (q : Path) : (d.moveFile p q).2 = (d.makeParent q).2 := by
  have hgrown := grown_makeParent d q
  have htree := hd.makeParent q
  unfold moveFile
  cases hmade : d.makeParent q with
  | mk answer d₁ =>
    rw [hmade] at hgrown htree
    cases answer with
    | error e => rfl
    | ok u =>
      dsimp only at hgrown htree ⊢
      have hnot : ∀ l, ¬ d₁.LeadsTo p l :=
        fun l hl => h l (hl.of_grown hd htree hgrown hp)
      obtain ⟨e, hcopied⟩ := copyFile_of_not_leadsTo hnot q
      rw [hcopied]

theorem shifted_moveFile (hd : d.IsTree) (hp : p.IsNormal) (hq : q.IsNormal) :
    Shifted d (d.moveFile p q).2 (pieces p.tail) (pieces q.tail) := by
  have hmade := shifted_makeParent hq d (pieces p.tail)
  by_cases hleads : ∃ l, d.LeadsTo p l
  · obtain ⟨l, hl⟩ := hleads
    obtain ⟨hslot, content, hfile⟩ := (leadsTo_iff hd).1 hl
    obtain ⟨rfl, -⟩ := slot_isNormal hp hslot
    rcases moveFile_cases hd hslot hfile q with
      ⟨e, -, hsame⟩ | ⟨t, -, -, hslot', -, hkeeps, hafter⟩
    · rw [hsame]
      exact hmade
    · obtain ⟨rfl, -⟩ := slot_isNormal hq hslot'
      refine ⟨hmade.keepsDirectories.trans hkeeps, fun m => ?_⟩
      have hm := hafter m
      split_ifs at hm with hms hmt
      · exact Or.inr (Or.inl ⟨hms, ⟨content, hfile⟩, hm⟩)
      · exact Or.inr (Or.inr (Or.inl ⟨hmt, ⟨content, hfile⟩, content, hm⟩))
      · rw [hm]
        rcases hmade.node?_cases m with h | ⟨h, -⟩ | ⟨h, -⟩ | h
        · exact Or.inl h
        · exact absurd h hms
        · exact absurd h hmt
        · exact Or.inr (Or.inr (Or.inr h))
  · rw [moveFile_of_not_leadsTo hd hp (fun l hl => hleads ⟨l, hl⟩)]
    exact hmade

/-- A file is in its place, and there is room for it in another one. -/
structure Awaits (d : Disk) (s t : Location) (content : String) : Prop where
  source : d.node? s = some (.file content)
  room : d.HasRoom t

/-- A file has left one place for another one. -/
structure Arrived (d : Disk) (s t : Location) (content : String) : Prop where
  directory : d.node? s.dropLast = some .directory
  source : d.node? s = none
  target : d.node? t = some (.file content)

/-- A file that waits arrives when it is moved. -/
theorem Awaits.moveFile (hd : d.IsTree) (hp : p.IsNormal) (hq : q.IsNormal)
    (hs : IsSpelled (pieces p.tail)) (hne : pieces p.tail ≠ pieces q.tail)
    (h : d.Awaits (pieces p.tail) (pieces q.tail) content) :
    (∃ bytes, (d.moveFile p q).1 = .ok bytes) ∧
      (d.moveFile p q).2.Arrived (pieces p.tail) (pieces q.tail) content := by
  have hparent := hd _ (show d.node? (pieces p.tail) ≠ none by simp [h.source])
  have hslot := slot_of_isSpelled hd hp hs hparent
  have hmoved := exists_moveFile_eq_ok hd hslot h.source ((accepts_iff_hasRoom hd hq).2 h.room)
  refine ⟨hmoved, ?_⟩
  obtain ⟨bytes, hok⟩ := hmoved
  rcases moveFile_cases hd hslot h.source q with
    ⟨e, herror, -⟩ | ⟨t, -, -, hslot', -, hkeeps, hafter⟩
  · rw [hok] at herror
    cases herror
  · obtain ⟨rfl, -⟩ := slot_isNormal hq hslot'
    refine ⟨?_, ?_, ?_⟩
    · exact hkeeps.directory _ ((grown_makeParent d q).keepsDirectories.directory _ hparent)
    · rw [hafter, if_pos rfl]
    · rw [hafter, if_neg (Ne.symm hne), if_pos rfl]

theorem Awaits.of_shifted (h : d.Awaits s t content) (hshift : Shifted d d' s' t') (hs : s ≠ s')
    (hst : s ≠ t') (hbelow : ¬ t <+: t'.dropLast) (habove : t' <+: t.dropLast → ¬ d.HasFile s') :
    d'.Awaits s t content := by
  refine ⟨?_, h.room.isSpelled, fun m hm c hc => ?_, fun hdir => ?_⟩
  · rcases hshift.node?_cases s with heq | ⟨heq, -⟩ | ⟨heq, -⟩ | ⟨-, hnone, -⟩
    · rw [heq, h.source]
    · exact absurd heq hs
    · exact absurd heq hst
    · rw [h.source] at hnone
      cases hnone
  · rcases hshift.node?_cases m with heq | ⟨-, -, hnone⟩ | ⟨heq, hfile, -⟩ | ⟨-, -, hdir⟩
    · exact h.room.isPassable m hm c (heq ▸ hc)
    · rw [hc] at hnone
      cases hnone
    · exact habove (heq ▸ hm) hfile
    · rw [hc] at hdir
      cases hdir
  · rcases hshift.node?_cases t with heq | ⟨-, -, hnone⟩ | ⟨-, -, c, hc⟩ | ⟨hle, -⟩
    · exact h.room.free (heq ▸ hdir)
    · rw [hdir] at hnone
      cases hnone
    · rw [hdir] at hc
      cases hc
    · exact hbelow hle

theorem Arrived.of_shifted (h : d.Arrived s t content) (hshift : Shifted d d' s' t')
    (hst : s ≠ t') (hbelow : ¬ s <+: t'.dropLast) (hts : t ≠ s') (ht : t ≠ t') :
    d'.Arrived s t content := by
  refine ⟨hshift.keepsDirectories.directory _ h.directory, ?_, ?_⟩
  · rcases hshift.node?_cases s with heq | ⟨-, -, hnone⟩ | ⟨heq, -⟩ | ⟨hle, -⟩
    · rw [heq, h.source]
    · exact hnone
    · exact absurd heq hst
    · exact absurd hle hbelow
  · rcases hshift.node?_cases t with heq | ⟨heq, -⟩ | ⟨heq, -⟩ | ⟨-, hnone, -⟩
    · rw [heq, h.target]
    · exact absurd heq hts
    · exact absurd heq ht
    · rw [h.target] at hnone
      cases hnone

/-- Neither location is the other one or lies in it. -/
def AreApart (l m : Location) : Prop := ¬ l <+: m ∧ ¬ m <+: l

instance (l m : Location) : Decidable (AreApart l m) := inferInstanceAs (Decidable (_ ∧ _))

section Names

variable {R N : Location} {r r' : List Path}

/-- What lies in one of two locations apart is not around anything in the other. -/
theorem AreApart.not_below (h : AreApart R N) (r r' : List Path) : ¬ R ++ r <+: N ++ r' := by
  intro hle
  rcases List.prefix_or_prefix_of_prefix ((List.prefix_append R r).trans hle)
    (List.prefix_append N r') with hRN | hNR
  · exact h.1 hRN
  · exact h.2 hNR

theorem AreApart.append_ne (h : AreApart R N) (r r' : List Path) : R ++ r ≠ N ++ r' :=
  fun heq => h.not_below r r' (heq ▸ List.prefix_refl _)

theorem append_ne_of_not_below (hr : ¬ r <+: r') (l : Location) : l ++ r ≠ l ++ r' :=
  fun heq => hr (List.append_cancel_left heq ▸ List.prefix_refl r)

/-- A file still waits after another move, by names that do not lead on from its own. -/
theorem Awaits.pass (h : d.Awaits (R ++ r) (N ++ r) content) (hd : d.IsTree) (hRN : AreApart R N)
    (hr : ¬ r <+: r') (hshift : Shifted d d' (R ++ r') (N ++ r')) :
    d'.Awaits (R ++ r) (N ++ r) content := by
  refine h.of_shifted hshift (append_ne_of_not_below hr R) (hRN.append_ne r r') ?_ ?_
  · exact fun hle => hr ((List.prefix_append_right_inj N).1 (hle.trans (List.dropLast_prefix _)))
  · rintro hle ⟨c, hc⟩
    -- The other move would be that of a directory around the file.
    have habove : r' <+: r :=
      (List.prefix_append_right_inj N).1 (hle.trans (List.dropLast_prefix _))
    have hdirectory := IsTree.directory_of_prefix hd ((List.prefix_append_right_inj R).2 habove)
      (append_ne_of_not_below hr R).symm (by simp [h.source])
    rw [hc] at hdirectory
    cases hdirectory

/-- A file that has arrived stays there over another move, by other names. -/
theorem Arrived.pass (h : d.Arrived (R ++ r) (N ++ r) content) (hRN : AreApart R N)
    (hr : ¬ r <+: r') (hshift : Shifted d d' (R ++ r') (N ++ r')) :
    d'.Arrived (R ++ r) (N ++ r) content := by
  have hNR : AreApart N R := ⟨hRN.2, hRN.1⟩
  refine h.of_shifted hshift (hRN.append_ne r r') ?_ (hNR.append_ne r r')
    (append_ne_of_not_below hr N)
  exact fun hle => hRN.not_below r r' (hle.trans (List.dropLast_prefix _))

end Names

end Disk

namespace Holdings

open Disk

variable {p fileRoot next : Path} {content : String}

/-- An eviction to a next tier tries one move at most. -/
theorem shifted_evict (h : Holdings) (root : Path) (hd : h.disk.IsTree) (hp : p.IsNormal)
    (hq : (destination p fileRoot next).IsNormal) :
    Shifted h.disk (h.evict p fileRoot root (some next)).2.disk (Path.pieces p.tail)
      (Path.pieces (destination p fileRoot next).tail) := by
  have hsame : Shifted h.disk h.disk (Path.pieces p.tail)
      (Path.pieces (destination p fileRoot next).tail) :=
    ⟨KeepsDirectories.refl _, fun _ => Or.inl rfl⟩
  rw [disk_evict]
  dsimp only
  split_ifs
  · exact hsame
  · exact hsame
  · exact shifted_moveFile hd hp hq

/-- A file that waits and that nobody reads is moved. -/
theorem evict_of_awaits (h : Holdings) (root : Path) (hd : h.disk.IsTree) (hp : p.IsNormal)
    (hq : (destination p fileRoot next).IsNormal) (hs : IsSpelled (Path.pieces p.tail))
    (hne : Path.pieces p.tail ≠ Path.pieces (destination p fileRoot next).tail)
    (hfree : h.served.protects h.now p = false)
    (hwait : h.disk.Awaits (Path.pieces p.tail)
      (Path.pieces (destination p fileRoot next).tail) content) :
    (h.evict p fileRoot root (some next)).1 = .moved (destination p fileRoot next) ∧
      (h.evict p fileRoot root (some next)).2.disk.Arrived (Path.pieces p.tail)
        (Path.pieces (destination p fileRoot next).tail) content := by
  obtain ⟨hmoved, harrived⟩ := hwait.moveFile hd hp hq hs hne
  have hdest : destination p fileRoot next ≠ p := fun heq => hne (by rw [heq])
  constructor
  · have hspec := (move_spec { h with served := (h.served.contains h.now p).2 } p
      (destination p fileRoot next)).2 (destination p fileRoot next)
    have houtcome := hspec.2 ⟨rfl, hmoved⟩
    unfold evict
    simp only [Served.contains, hfree, evictUnserved, if_neg hdest] at houtcome ⊢
    exact houtcome
  · rw [disk_evict, if_neg (by simp [hfree])]
    dsimp only
    rw [if_neg hdest]
    exact harrived

end Holdings

end TieredFootage
