import TieredFootage.Proofs.Disk.Ways
import TieredFootage.Proofs.Eviction.Passing

/-!
# Files that leave one root for another

What lies below one root goes to another one by the same names, and the names may go
back up as long as they stay below. On its own a move needs no more than that: no file on
the way. But many files leave one after the other, and each makes directories and a file
below the other root.

None of them is in another one's way. A file at the other root came by its names from the
first one, so it stands where another one passes only if it did so below the first root as
well, and there no file was on the way (`Departure.Stands.of_handed`). Once its turn has
come the source is gone, and its own directory at the other root is there for good.
-/

namespace TieredFootage

open Disk

namespace Path

variable {l m : Location} {n : Path} {ns ms : List Path}

/-- Names that never lead above where they start. -/
def StayDown (ns : List Path) : Prop :=
  (ns.foldl LexicalPlace.enter { absolute := false }).climbs = 0

instance (ns : List Path) : Decidable (StayDown ns) := inferInstanceAs (Decidable (_ = _))

/-- Where names lead, seen from where they start. -/
def down (ns : List Path) : Location := (ns.foldl LexicalPlace.enter { absolute := false }).names

@[simp] theorem down_nil : down [] = [] := rfl

theorem climbs_le_foldl (ns : List Path) (r : LexicalPlace) :
    r.climbs ≤ (ns.foldl LexicalPlace.enter r).climbs := by
  induction ns generalizing r with
  | nil => exact Nat.le_refl _
  | cons n ns ih =>
    refine Nat.le_trans ?_ (ih (r.enter n))
    unfold LexicalPlace.enter
    split_ifs
    · exact Nat.le_refl _
    · exact Nat.le_refl _
    · exact Nat.le_refl _
    · exact Nat.le_succ _
    · exact Nat.le_refl _

theorem StayDown.of_isPrefix (h : StayDown ns) (hms : ms <+: ns) : StayDown ms := by
  obtain ⟨ks, rfl⟩ := hms
  rw [StayDown, List.foldl_append] at h
  exact Nat.le_zero.1 (Nat.le_trans (climbs_le_foldl ks _) (Nat.le_of_eq h))

theorem StayDown.concat (h : StayDown ns) (hn : IsName n) :
    StayDown (ns ++ [n]) ∧ down (ns ++ [n]) = down ns ++ [n] := by
  have hlast : (ns ++ [n]).foldl LexicalPlace.enter { absolute := false } =
      { ns.foldl LexicalPlace.enter { absolute := false } with names := down ns ++ [n] } := by
    rw [List.foldl_append, List.foldl_cons, List.foldl_nil,
      LexicalPlace.enter_name hn.not_isIdle hn.2.2, down]
  rw [StayDown, down, hlast]
  exact ⟨h, rfl⟩

theorem StayDown.place_eq (h : StayDown ns) (l : Location) : place l ns = l ++ down ns := by
  have hfold := LexicalPlace.foldl_enter_descend (l := { absolute := true, names := l })
    (r := { absolute := false }) ns rfl
  rw [LexicalPlace.descend_empty] at hfold
  rw [StayDown] at h
  rw [place, hfold, LexicalPlace.descend, h, Nat.sub_zero, List.take_length, down]

/-- A place on the way from the root to a location and on by names. -/
def OnWay (l : Location) (ns : List Path) (m : Location) : Prop :=
  m <+: l ∨ ∃ ms, ms <+: ns ∧ m = l ++ down ms

theorem exists_place_iff (hl : ∀ n ∈ l, IsName n) (hns : StayDown ns) :
    (∃ ms, ms <+: l ++ ns ∧ m = place [] ms) ↔ OnWay l ns m := by
  have hbelow : ∀ ms, ms <+: ns → place [] (l ++ ms) = l ++ down ms := by
    intro ms hms
    rw [place_append, place_of_isName hl, (hns.of_isPrefix hms).place_eq, List.nil_append]
  constructor
  · rintro ⟨ms, hms, rfl⟩
    rcases List.prefix_or_prefix_of_prefix hms (List.prefix_append l ns) with hle | ⟨ks, rfl⟩
    · rw [place_of_isName fun n hn => hl n (hle.subset hn)]
      exact Or.inl hle
    · have hks := (List.prefix_append_right_inj l).1 hms
      exact Or.inr ⟨ks, hks, hbelow ks hks⟩
  · rintro (hle | ⟨ms, hms, rfl⟩)
    · refine ⟨m, hle.trans (List.prefix_append l ns), ?_⟩
      rw [place_of_isName fun n hn => hl n (hle.subset hn)]
      rfl
    · exact ⟨l ++ ms, (List.prefix_append_right_inj l).2 hms, (hbelow ms hms).symm⟩

theorem place_of_stayDown (hl : ∀ n ∈ l, IsName n) (hns : StayDown ns) (hn : IsName n) :
    place [] (l ++ ns ++ [n]) = l ++ (down ns ++ [n]) := by
  rw [place_append, place_append, place_of_isName hl, hns.place_eq, place_name hn, List.nil_append,
    List.append_assoc]

end Path

namespace Disk

open TieredFootage.Path

variable {d d' : Disk} {l m s t R N : Location} {r : List Path} {ns : List Path} {content : String}

theorem isOpen_iff (hl : ∀ n ∈ l, IsName n) (hns : StayDown ns) :
    d.IsOpen (l ++ ns) ↔ ∀ m, OnWay l ns m → ∀ content, d.node? m ≠ some (.file content) := by
  constructor
  · intro h m hm content
    obtain ⟨ms, hms, rfl⟩ := (exists_place_iff hl hns).2 hm
    exact h ms hms content
  · exact fun h ms hms content => h _ ((exists_place_iff hl hns).1 ⟨ms, hms, rfl⟩) content

/-- What lies in one of two locations apart is not on a way into the other. -/
theorem AreApart.not_onWay (h : AreApart R N) (r : List Path) : ¬ OnWay N ns (R ++ r) := by
  rintro (hle | ⟨ms, -, heq⟩)
  · exact h.1 ((List.prefix_append R r).trans hle)
  · exact h.append_ne r _ heq

theorem AreApart.symm (h : AreApart R N) : AreApart N R := ⟨h.2, h.1⟩

/-- What is on the way below one location is so below every other. -/
theorem onWay_append (h : OnWay N ns (N ++ r)) (R : Location) : OnWay R ns (R ++ r) := by
  rcases h with hle | ⟨ms, hms, heq⟩
  · have hr : r = [] := List.prefix_nil.1 ((List.prefix_append_right_inj N).1 (by simpa using hle))
    exact Or.inl (by simp [hr])
  · exact Or.inr ⟨ms, hms, by rw [List.append_cancel_left heq]⟩

/-- A file is in its place, and could be written to another one, or has gone there. -/
def Carries (d : Disk) (s t : Location) (content : String) : Prop :=
  (d.node? s = some (.file content) ∧ d.node? t ≠ some .directory) ∨
    (d.node? s = none ∧ d.node? t = some (.file content))

end Disk

open TieredFootage.Path

/-- A path that leaves one root for another: the names by which it continues the root,
the last of them, and the content of the file if there is one. -/
structure Departure where
  names : List Path
  last : Path
  content : Option String

namespace Departure

variable {x y : Departure} {R N : Location} {d d' : Disk} {p q : Path} {m : Location}

/-- The place below either root. -/
def place (x : Departure) : Location := down x.names ++ [x.last]

/-- The paths that lead there from the one root and from the other one. -/
structure Leads (x : Departure) (R N : Location) (p q : Path) : Prop where
  source : p.LeadsBy (R ++ x.names) x.last
  target : q.LeadsBy (N ++ x.names) x.last
  stayDown : StayDown x.names

/-- Something is missing on the way below the first root, if not the file itself. -/
def IsGone (x : Departure) (R : Location) (d : Disk) : Prop :=
  ∃ ms, ms <+: x.names ++ [x.last] ∧ d.node? (R ++ down ms) = none

/-- No file is on the ways below the two roots, and the file is where it belongs before
or after it leaves. -/
structure Stands (x : Departure) (R N : Location) (d : Disk) : Prop where
  source : ∀ m, OnWay R x.names m → ∀ content, d.node? m ≠ some (.file content)
  target : ∀ m, OnWay N x.names m → ∀ content, d.node? m ≠ some (.file content)
  found : ∀ content, x.content = some content →
    d.HasWay (R ++ x.names) ∧ d.Carries (R ++ x.place) (N ++ x.place) content
  missing : x.content = none → x.IsGone R d

/-- The turn has been taken. -/
structure IsDone (x : Departure) (R N : Location) (d : Disk) : Prop where
  gone : x.IsGone R d
  hasWay : d.HasWay (N ++ x.names)

/-- The disk after the turn was taken: the file is carried over, and the directories on
its way are made. -/
structure Handed (x : Departure) (R N : Location) (d d' : Disk) : Prop where
  keepsDirectories : KeepsDirectories d d'
  node?_cases : ∀ m, d'.node? m = d.node? m ∨
    (m = R ++ x.place ∧ d'.node? m = none ∧
      ∃ content, d.node? m = some (.file content) ∧
        d'.node? (N ++ x.place) = some (.file content)) ∨
    (m = N ++ x.place ∧ ∃ content, d.node? (R ++ x.place) = some (.file content) ∧
      d'.node? m = some (.file content)) ∨
    (OnWay N x.names m ∧ d.node? m = none ∧ d'.node? m = some .directory)

section Others

variable (h : x.Handed R N d d') (hRN : AreApart R N)

include h hRN

/-- Nothing appears below the first root. -/
theorem Handed.node?_eq_none {r : List Path} (hr : d.node? (R ++ r) = none) :
    d'.node? (R ++ r) = none := by
  rcases h.node?_cases (R ++ r) with heq | ⟨-, hnone, -⟩ | ⟨heq, -⟩ | ⟨hway, -⟩
  · rw [heq, hr]
  · exact hnone
  · exact absurd heq (hRN.append_ne r x.place)
  · exact absurd hway (hRN.not_onWay r)

theorem Handed.isGone (hy : y.IsGone R d) : y.IsGone R d' := by
  obtain ⟨ms, hms, hnone⟩ := hy
  exact ⟨ms, hms, h.node?_eq_none hRN hnone⟩

theorem Handed.isDone (hy : y.IsDone R N d) : y.IsDone R N d' :=
  ⟨h.isGone hRN hy.gone, hy.hasWay.of_keeps h.keepsDirectories⟩

theorem Handed.carries {r : List Path} {content : String}
    (hx : ∀ m, OnWay R x.names m → ∀ content, d.node? m ≠ some (.file content))
    (hr : d.Carries (R ++ r) (N ++ r) content) : d'.Carries (R ++ r) (N ++ r) content := by
  rcases hr with ⟨hsource, htarget⟩ | ⟨hsource, htarget⟩
  · rcases h.node?_cases (R ++ r) with heq | ⟨heq, hnone, c, hc, hthere⟩ | ⟨heq, -⟩ | ⟨-, hnone, -⟩
    · refine Or.inl ⟨heq.trans hsource, fun hdir => ?_⟩
      rcases h.node?_cases (N ++ r) with heq' | ⟨heq', -⟩ | ⟨-, c, -, hc⟩ | ⟨hway, -⟩
      · exact htarget (heq' ▸ hdir)
      · exact hRN.symm.append_ne r x.place heq'
      · rw [hdir] at hc
        cases hc
      -- A directory there is passed on the way, and so is the file below the first root.
      · exact hx _ (onWay_append hway R) content hsource
    · obtain rfl : content = c := by
        rw [hsource] at hc
        cases hc
        rfl
      rw [← List.append_cancel_left heq] at hthere
      exact Or.inr ⟨hnone, hthere⟩
    · exact absurd heq (hRN.append_ne r x.place)
    · rw [hsource] at hnone
      cases hnone
  · refine Or.inr ⟨h.node?_eq_none hRN hsource, ?_⟩
    rcases h.node?_cases (N ++ r) with heq | ⟨heq, -⟩ | ⟨heq, c, hc, -⟩ | ⟨-, hnone, -⟩
    · rw [heq, htarget]
    · exact absurd heq (hRN.symm.append_ne r x.place)
    · rw [← List.append_cancel_left heq, hsource] at hc
      cases hc
    · rw [htarget] at hnone
      cases hnone

/-- The turn of one leaves every other one where it stands. -/
theorem Stands.of_handed (hx : x.Stands R N d) (hy : y.Stands R N d) : y.Stands R N d' where
  source := by
    intro m hm c hc
    rcases h.node?_cases m with heq | ⟨-, hnone, -⟩ | ⟨rfl, -⟩ | ⟨-, -, hdir⟩
    · exact hy.source m hm c (heq ▸ hc)
    · rw [hnone] at hc
      cases hc
    · exact hRN.symm.not_onWay _ hm
    · rw [hdir] at hc
      cases hc
  target := by
    intro m hm c hc
    rcases h.node?_cases m with heq | ⟨-, hnone, -⟩ | ⟨rfl, c', hfile, -⟩ | ⟨-, -, hdir⟩
    · exact hy.target m hm c (heq ▸ hc)
    · rw [hnone] at hc
      cases hc
    · exact hy.source _ (onWay_append hm R) c' hfile
    · rw [hdir] at hc
      cases hc
  found := by
    intro content hcontent
    obtain ⟨hway, hcarries⟩ := hy.found content hcontent
    exact ⟨hway.of_keeps h.keepsDirectories, h.carries hRN hx.source hcarries⟩
  missing := fun hnone => h.isGone hRN (hy.missing hnone)

end Others

section Turn

variable (hR : ∀ n ∈ R, IsName n) (hN : ∀ n ∈ N, IsName n) (hRN : AreApart R N)
  (hl : x.Leads R N p q) (hd : d.IsTree) (hx : x.Stands R N d)

include hN hl

theorem Leads.handed_makeParent (d : Disk) : x.Handed R N d (d.makeParent q).2 where
  keepsDirectories := (grown_makeParent d q).keepsDirectories
  node?_cases := by
    intro m
    rcases hl.target.node?_makeParent d m with heq | ⟨hnone, hmade, hm⟩
    · exact Or.inl heq
    · exact Or.inr (Or.inr (Or.inr ⟨(exists_place_iff hN hl.stayDown).1 hm, hnone, hmade⟩))

include hR hRN hd hx

/-- Where the file is gone, its directory below the other root is made all the same. -/
theorem Stands.moveFile_of_isGone (hgone : x.IsGone R d) :
    d.moveFile p q = (.error .absent, (d.makeParent q).2) ∧
      (d.makeParent q).2.HasWay (N ++ x.names) := by
  obtain ⟨hmade, hway⟩ := hl.target.makeParent_of_isOpen hd
    ((isOpen_iff hN hl.stayDown).2 hx.target)
  refine ⟨?_, hway⟩
  have hhanded := hl.handed_makeParent hN d
  have hx₁ := hx.of_handed hhanded hRN hx
  obtain ⟨ms, hms, hnone⟩ := hhanded.isGone hRN hgone
  have hstay : StayDown (x.names ++ [x.last]) := (hl.stayDown.concat hl.source.isName).1
  have hresolve : (d.makeParent q).2.resolve p = .error .absent := by
    refine hl.source.resolve_eq_absent (hd.makeParent q)
      ((isOpen_iff hR hl.stayDown).2 hx₁.source) ⟨R ++ ms, ?_, ?_⟩
    · rw [List.append_assoc]
      exact (List.prefix_append_right_inj R).2 hms
    · rwa [place_append, place_of_isName hR, (hstay.of_isPrefix hms).place_eq, List.nil_append]
  unfold Disk.moveFile
  cases hmk : d.makeParent q with
  | mk answer d₁ =>
    rw [hmk] at hmade hresolve
    obtain rfl : answer = .ok () := hmade
    dsimp only at hresolve ⊢
    rw [copyFile, hresolve]

/-- A file that is there is carried over. -/
theorem Stands.moveFile_of_not_isGone (hgone : ¬ x.IsGone R d) :
    x.Handed R N d (d.moveFile p q).2 ∧ x.IsDone R N (d.moveFile p q).2 := by
  have hsourcePlace := place_of_stayDown hR hl.stayDown hl.source.isName
  have htargetPlace := place_of_stayDown hN hl.stayDown hl.source.isName
  have hdown := (hl.stayDown.concat hl.source.isName).2
  have hgoneOf : ∀ d' : Disk, d'.node? (R ++ x.place) = none → x.IsGone R d' :=
    fun d' hnone => ⟨_, List.prefix_refl _, by rwa [hdown]⟩
  cases hcontent : x.content with
  | none => exact absurd (hx.missing hcontent) hgone
  | some content =>
    obtain ⟨hway, hcarries⟩ := hx.found content hcontent
    have hfile : d.node? (R ++ x.place) = some (.file content) :=
      hcarries.elim And.left fun hleft => absurd (hgoneOf d hleft.1) hgone
    have hslot : d.slot p = .ok (R ++ x.place, false) := hsourcePlace ▸ hl.source.slot_eq hway
    -- Making the directory of the target leaves room for the file there.
    have hhanded := hl.handed_makeParent hN d
    obtain ⟨hmade, hmadeWay⟩ := hl.target.makeParent_of_isOpen hd
      ((isOpen_iff hN hl.stayDown).2 hx.target)
    have hslot' : (d.makeParent q).2.slot q = .ok (N ++ x.place, false) :=
      htargetPlace ▸ hl.target.slot_eq hmadeWay
    have hfree : (d.makeParent q).2.node? (N ++ x.place) ≠ some .directory := by
      have hfile₁ := (grown_makeParent d q).node?_eq_file_iff.2 hfile
      rcases hhanded.carries hRN hx.source hcarries with ⟨-, hfree⟩ | ⟨hnone, -⟩
      · exact hfree
      · rw [hfile₁] at hnone
        cases hnone
    obtain ⟨bytes, hok⟩ := exists_moveFile_eq_ok hd hslot hfile ⟨hmade, _, hslot', hfree⟩
    rcases moveFile_cases hd hslot hfile q with
      ⟨e, herror, -⟩ | ⟨t, -, -, hslotTarget, -, hkeeps, hafter⟩
    · rw [hok] at herror
      cases herror
    obtain ⟨rfl, -⟩ := Prod.mk.inj (Except.ok.inj (hslotTarget.symm.trans hslot'))
    refine ⟨⟨hhanded.keepsDirectories.trans hkeeps, fun m => ?_⟩, hgoneOf _ ?_,
      hmadeWay.of_keeps hkeeps⟩
    · have hm := hafter m
      split_ifs at hm with hms hmt
      · refine Or.inr (Or.inl ⟨hms, hm, content, hms ▸ hfile, ?_⟩)
        rw [hafter, if_neg (hRN.symm.append_ne _ _), if_pos rfl]
      · exact Or.inr (Or.inr (Or.inl ⟨hmt, content, hfile, hm⟩))
      · rw [hm]
        rcases hhanded.node?_cases m with heq | ⟨heq, -⟩ | ⟨heq, -⟩ | hmadeThere
        · exact Or.inl heq
        · exact absurd heq hms
        · exact absurd heq hmt
        · exact Or.inr (Or.inr (Or.inr hmadeThere))
    · rw [hafter, if_pos rfl]

/-- Whether or not the file is there, its turn is done after one move. -/
theorem Stands.moveFile : x.Handed R N d (d.moveFile p q).2 ∧ x.IsDone R N (d.moveFile p q).2 ∧
    (x.IsGone R d → (d.moveFile p q).1 = .error .absent) := by
  by_cases hgone : x.IsGone R d
  · obtain ⟨hmoved, hway⟩ := hx.moveFile_of_isGone hR hN hRN hl hd hgone
    have hhanded := hl.handed_makeParent hN d
    rw [hmoved]
    exact ⟨hhanded, ⟨hhanded.isGone hRN hgone, hway⟩, fun _ => rfl⟩
  · obtain ⟨hhanded, hdone⟩ := hx.moveFile_of_not_isGone hR hN hRN hl hd hgone
    exact ⟨hhanded, hdone, fun hgone' => absurd hgone' hgone⟩

end Turn

/-- Once its turn has come a file that was there is gone, and is below the other root. -/
theorem Stands.stat_of_isDone (hx : x.Stands R N d) (hR : ∀ n ∈ R, IsName n)
    (hN : ∀ n ∈ N, IsName n) (hl : x.Leads R N p q) (hdone : x.IsDone R N d) {content : String}
    (hcontent : x.content = some content) :
    d.stat p = .error .absent ∧ d.stat q = .ok (.file content) := by
  obtain ⟨hway, hcarries⟩ := hx.found content hcontent
  have hslot : d.slot p = .ok (R ++ x.place, false) :=
    place_of_stayDown hR hl.stayDown hl.source.isName ▸ hl.source.slot_eq hway
  have hslot' : d.slot q = .ok (N ++ x.place, false) :=
    place_of_stayDown hN hl.stayDown hl.source.isName ▸ hl.target.slot_eq hdone.hasWay
  have hnone : d.node? (R ++ x.place) = none := by
    obtain ⟨ms, hms, hnone⟩ := hdone.gone
    rcases List.prefix_concat_iff.1 hms with rfl | hms
    · rwa [(hl.stayDown.concat hl.source.isName).2] at hnone
    -- All of the way is there, so only the file can be missing.
    · have hthere := (hway.of_isPrefix hl.source.areShort.1
        ((List.prefix_append_right_inj R).2 hms)).directory
      rw [place_append, place_of_isName hR, (hl.stayDown.of_isPrefix hms).place_eq,
        List.nil_append, hnone] at hthere
      cases hthere
  have hfile : d.node? (N ++ x.place) = some (.file content) := by
    rcases hcarries with ⟨hthere, -⟩ | ⟨-, hfile⟩
    · rw [hnone] at hthere
      cases hthere
    · exact hfile
  exact ⟨by rw [stat_of_slot hslot, hnone], by rw [stat_of_slot hslot', hfile]⟩

end Departure

namespace Path

variable {p q root next rest n : Path} {ns ms : List Path} {d : Disk}

/-- A path continues another one by names that never lead above it. -/
def LiesBelow (p directory : Path) : Prop :=
  ∃ rest, p = directory ++ '/' :: rest ∧ StayDown (names rest)

theorem names_append_slash (p q : Path) : names (p ++ '/' :: q) = names p ++ names q := by
  simp [names, pieces_append_slash]

theorem names_of_isNormal (h : p.IsNormal) : names p = pieces p.tail := by
  obtain ⟨q, rfl⟩ := exists_cons_of_isAbsolute h.1
  rw [names, pieces, if_pos rfl, List.filter_cons_of_neg (by simp), List.tail_cons]
  exact filter_of_isName h.2

theorem isAbsolute_append (h : root.IsNormal) (rest : Path) :
    (root ++ rest).isAbsolute = true := by
  obtain ⟨r, rfl⟩ := exists_cons_of_isAbsolute h.1
  rfl

/-- A text that can be read ends below a root as it does below any other. -/
theorem LeadsBy.exists_names (h : (next ++ '/' :: rest).LeadsBy ns n) (hnext : next.IsNormal) :
    ∃ ms, names rest = ms ++ [n] ∧ ns = pieces next.tail ++ ms := by
  obtain ⟨-, -, -, hr⟩ := route_eq_ok_iff.1 (h.route {})
  have hslash : ('/' :: rest).getLast? ≠ some '/' := by
    have hlast := (Route.mk.inj hr).2.2
    rw [List.getLast?_append_cons] at hlast
    simpa using hlast.symm
  have hne : rest ≠ [] := by
    rintro rfl
    exact hslash rfl
  rw [List.getLast?_cons_of_ne_nil hne] at hslash
  obtain ⟨cs, k, hpieces, hk⟩ := exists_pieces_eq_concat hne hslash
  have hrest : names rest = cs.filter (· ≠ []) ++ [k] := by
    rw [names, hpieces, List.filter_append, List.filter_singleton]
    simp [hk]
  have hnames := h.names_eq
  rw [names_append_slash, names_of_isNormal hnext, hrest, ← List.append_assoc] at hnames
  obtain ⟨hns, hkn⟩ := List.append_inj' hnames rfl
  obtain rfl := List.singleton_inj.1 hkn
  exact ⟨_, hrest, hns.symm⟩

/-- What is read below one root is read below another one, if its text and its names are
short enough there. -/
theorem LeadsBy.of_root (h : (next ++ '/' :: rest).LeadsBy (pieces next.tail ++ ms) n)
    (hnext : next.IsNormal) (hroot : root.IsNormal)
    (hshort : AreShort (names (root ++ '/' :: rest)))
    (hread : ∃ r, d.route (root ++ '/' :: rest) = .ok r) :
    (root ++ '/' :: rest).LeadsBy (pieces root.tail ++ ms) n := by
  obtain ⟨r, hread⟩ := hread
  obtain ⟨ks, hrest, hks⟩ := h.exists_names hnext
  obtain rfl := List.append_cancel_left hks
  have hnames : names (root ++ '/' :: rest) = pieces root.tail ++ ms ++ [n] := by
    rw [names_append_slash, names_of_isNormal hroot, hrest, List.append_assoc]
  obtain ⟨-, -, -, hr⟩ := route_eq_ok_iff.1 hread
  obtain ⟨-, -, -, hr'⟩ := route_eq_ok_iff.1 (h.route d)
  have hslash := (Route.mk.inj hr').2.2
  rw [List.getLast?_append_cons] at hslash
  rw [hnames] at hshort
  refine leadsBy_of_route (isAbsolute_append hroot _) hread ?_ ?_
    (hshort.of_isPrefix (List.prefix_append _ [n])) h.isPlain
  · rw [hr]
    dsimp only
    rw [List.getLast?_append_cons, ← hslash]
  · rw [hr, ← hnames]

/-- The names of a path that leads to a file are followed. -/
theorem areShort_of_stat {content : String} (hp : p.isAbsolute = true) (hd : d.IsTree)
    (h : d.stat p = .ok (.file content)) : AreShort (names p) := by
  obtain ⟨l, -, hslot, -⟩ := exists_slot_of_stat hd h
  obtain ⟨ns, n, hleads, -⟩ := exists_leadsBy_of_slot hp hslot
  rw [hleads.names_eq]
  exact hleads.areShort.append hleads.areShort_last

end Path

namespace Departure

variable {x : Departure} {R N : Location} {p q root next : Path} {d : Disk} {content : String}

/-- The file that a path leads to is at its place. -/
theorem Leads.hasWay_of_stat (h : x.Leads R N p q) (hR : ∀ n ∈ R, IsName n) (hd : d.IsTree)
    (hp : d.stat p = .ok (.file content)) :
    d.HasWay (R ++ x.names) ∧ d.node? (R ++ x.place) = some (.file content) := by
  obtain ⟨l, -, hslot, hfile⟩ := exists_slot_of_stat hd hp
  obtain ⟨ns, n, hleads, hway, rfl⟩ := exists_leadsBy_of_slot h.source.isAbsolute hslot
  obtain ⟨rfl, hn⟩ := List.append_inj' (hleads.names_eq.symm.trans h.source.names_eq) rfl
  rw [hn, place_of_stayDown hR h.stayDown h.source.isName] at hfile
  exact ⟨hway, hfile⟩

/-- A path that leads to nothing misses something below the root. -/
theorem Leads.isGone_of_stat (h : x.Leads R N p q) (hR : ∀ n ∈ R, IsName n) (hd : d.IsTree)
    (hopen : d.IsOpen (R ++ x.names)) (hp : d.stat p = .error .absent) : x.IsGone R d := by
  rcases hasWay_or_absent hd hopen h.source.areShort with hway | ⟨-, hgone⟩
  · have hslot := h.source.slot_eq hway
    rw [place_of_stayDown hR h.stayDown h.source.isName] at hslot
    rw [stat_of_slot hslot] at hp
    refine ⟨_, List.prefix_refl _, ?_⟩
    rw [(h.stayDown.concat h.source.isName).2]
    split at hp
    · cases hp
    · assumption
  · obtain ⟨ms, hms, hnone⟩ := hgone
    rcases (exists_place_iff hR h.stayDown).1 ⟨ms, hms, rfl⟩ with hle | ⟨ks, hks, heq⟩
    · -- What is missing above the root leaves the root missing.
      refine ⟨[], List.nil_prefix, ?_⟩
      rw [down_nil, List.append_nil]
      by_contra hthere
      by_cases hsame : Path.place [] ms = R
      · exact hthere (hsame ▸ hnone)
      · rw [IsTree.directory_of_prefix hd hle hsame hthere] at hnone
        cases hnone
    · exact ⟨ks, hks.trans (List.prefix_append x.names [x.last]), heq ▸ hnone⟩

/-- A path below a root departs for the next one if no file is on its way and it can be
written there. -/
theorem exists_leads (hroot : root.IsNormal) (hnext : next.IsNormal) (hd : d.IsTree)
    (hp : p.LiesBelow root) (hopen : d.IsOpen (Path.names p).dropLast)
    (hfound : (∃ content, d.stat p = .ok (.file content)) ∨ d.IsAbsent p)
    (hq : d.Accepts (Holdings.destination p root next)) :
    ∃ x : Departure, x.Leads (pieces root.tail) (pieces next.tail) p
        (Holdings.destination p root next) ∧
      x.Stands (pieces root.tail) (pieces next.tail) d ∧
      ∀ content, d.stat p = .ok (.file content) → x.content = some content := by
  obtain ⟨rest, rfl, hstay⟩ := hp
  have hR := hroot.2
  have hN := hnext.2
  rw [Holdings.destination, replaceFirst_append] at hq ⊢
  obtain ⟨ns, n, htarget, hopen', hfree⟩ :=
    exists_leadsBy_of_accepts (isAbsolute_append hnext _) hq
  obtain ⟨ms, hrest, rfl⟩ := htarget.exists_names hnext
  have hms : StayDown ms := (hrest ▸ hstay).of_isPrefix (List.prefix_append ms [n])
  have hread : AreShort (Path.names (root ++ '/' :: rest)) ∧
      ∃ r, d.route (root ++ '/' :: rest) = .ok r := by
    rcases hfound with ⟨content, hstat⟩ | ⟨hstat, hshort⟩
    · exact ⟨areShort_of_stat (isAbsolute_append hroot _) hd hstat,
        exists_route_of_stat (by simp) (Or.inl ⟨_, hstat⟩)⟩
    · exact ⟨hshort, exists_route_of_stat (by simp) (Or.inr hstat)⟩
  have hsource := htarget.of_root hnext hroot hread.1 hread.2
  have hleads : ∀ content, Leads ⟨ms, n, content⟩ (pieces root.tail) (pieces next.tail)
      (root ++ '/' :: rest) (next ++ '/' :: rest) := fun _ => ⟨hsource, htarget, hms⟩
  rw [hsource.names_eq, List.dropLast_concat] at hopen
  rcases hfound with ⟨content, hstat⟩ | ⟨hstat, -⟩
  · refine ⟨⟨ms, n, some content⟩, hleads _, ⟨(isOpen_iff hR hms).1 hopen,
      (isOpen_iff hN hms).1 hopen', fun c hc => ?_, by simp⟩, fun c hc => ?_⟩
    · obtain rfl := Option.some.inj hc
      obtain ⟨hway, hfile⟩ := (hleads (some content)).hasWay_of_stat hR hd hstat
      rw [place_of_stayDown hN hms hsource.isName] at hfree
      exact ⟨hway, Or.inl ⟨hfile, hfree⟩⟩
    · rw [hstat] at hc
      cases hc
      rfl
  · refine ⟨⟨ms, n, none⟩, hleads _, ⟨(isOpen_iff hR hms).1 hopen, (isOpen_iff hN hms).1 hopen',
      by simp, fun _ => (hleads none).isGone_of_stat hR hd hopen hstat⟩,
      fun c hc => ?_⟩
    rw [hstat] at hc
    cases hc

end Departure

end TieredFootage
