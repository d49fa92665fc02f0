import TieredFootage.Proofs.Path.Normal

/-!
# Paths resolved by their text

A path can be resolved without asking the disk: an empty piece or `.` stays, `..`
gives up the last name, and every other piece is added. There is nothing above the
root. A relative path that gives up more names than it has climbs out of where it
starts, once for each.

Reading on from a directory (`LexicalPlace.descend`) first gives up as many of its
names as the rest of the path climbs, and then adds the names of the rest. So a path
stays below a directory exactly if it returns by the names it has given up.

On a disk a path that leads anywhere leads to its spot (`Disk.spot_of_resolve`), which
is its place seen from the working directory.
-/

namespace TieredFootage

/-- Where a text leads: whether it starts at the root, how often it climbs out of
where it starts, and the names it goes down after that. -/
structure LexicalPlace where
  absolute : Bool
  climbs : Nat := 0
  names : List Path := []
  deriving DecidableEq, Repr

namespace LexicalPlace

variable {l r : LexicalPlace} {n : Path}

/-- Goes on by one piece. -/
def enter (l : LexicalPlace) (n : Path) : LexicalPlace :=
  if Path.isIdle n then l
  else if n = ['.', '.'] then
    if l.names ≠ [] then { l with names := l.names.dropLast }
    else if l.absolute then l
    else { l with climbs := l.climbs + 1 }
  else { l with names := l.names ++ [n] }

def follow (l : LexicalPlace) (p : Path) : LexicalPlace := (Path.pieces p).foldl enter l

/-- The place that a relative one leads to, seen from another place. -/
def descend (l r : LexicalPlace) : LexicalPlace :=
  { l with
    climbs := if l.absolute then l.climbs else l.climbs + (r.climbs - l.names.length)
    names := l.names.take (l.names.length - r.climbs) ++ r.names }

theorem absolute_enter (l : LexicalPlace) (n : Path) : (l.enter n).absolute = l.absolute := by
  unfold enter
  split_ifs <;> rfl

theorem enter_of_isIdle (h : Path.isIdle n = true) (l : LexicalPlace) : l.enter n = l := if_pos h

theorem enter_name (hidle : ¬ Path.isIdle n = true) (hup : n ≠ ['.', '.']) (l : LexicalPlace) :
    l.enter n = { l with names := l.names ++ [n] } := by
  rw [enter, if_neg hidle, if_neg hup]

theorem enter_up_of_ne_nil (h : l.names ≠ []) :
    l.enter ['.', '.'] = { l with names := l.names.dropLast } := if_pos h

theorem enter_up_of_root (h : l.names = []) (hl : l.absolute = true) : l.enter ['.', '.'] = l :=
  (if_neg (not_not_intro h)).trans (if_pos hl)

theorem enter_up_of_relative (h : l.names = []) (hl : l.absolute = false) :
    l.enter ['.', '.'] = { l with climbs := l.climbs + 1 } :=
  (if_neg (not_not_intro h)).trans (if_neg (by simp [hl]))

/-- Giving up a name takes it from the relative place while that has one, then from
where it starts. -/
theorem enter_descend_up (hr : r.absolute = false) :
    (l.descend r).enter ['.', '.'] = l.descend (r.enter ['.', '.']) := by
  by_cases hnames : r.names = []
  · rw [enter_up_of_relative hnames hr]
    by_cases hout : l.names.length ≤ r.climbs
    · have hnone : (l.descend r).names = [] := by
        simp [descend, hnames, Nat.sub_eq_zero_of_le hout]
      have hnext : l.names.length - (r.climbs + 1) = 0 := by omega
      have hcount : r.climbs + 1 - l.names.length = r.climbs - l.names.length + 1 := by omega
      cases habs : l.absolute with
      | true =>
        rw [enter_up_of_root hnone habs]
        simp [descend, hnames, habs, hnext, Nat.sub_eq_zero_of_le hout]
      | false =>
        rw [enter_up_of_relative hnone habs]
        simp [descend, hnames, habs, hnext, hcount, Nat.sub_eq_zero_of_le hout, Nat.add_assoc]
    · have hleft : (l.descend r).names ≠ [] := by
        rw [← List.length_pos_iff]
        simp only [descend, hnames, List.append_nil, List.length_take]
        omega
      have hstays : r.climbs + 1 - l.names.length = r.climbs - l.names.length := by omega
      have hone : (l.names.take (l.names.length - r.climbs)).dropLast =
          l.names.take (l.names.length - (r.climbs + 1)) := by
        rw [List.dropLast_eq_take, List.take_take, List.length_take]
        congr 1
        omega
      rw [enter_up_of_ne_nil hleft]
      simp [descend, hnames, hstays, hone]
  · have hleft : (l.descend r).names ≠ [] := by simp [descend, hnames]
    rw [enter_up_of_ne_nil hleft, enter_up_of_ne_nil hnames]
    simp [descend, List.dropLast_append_of_ne_nil hnames]

/-- Going on by a piece is the same before and after the relative place is seen from
where it starts. -/
theorem enter_descend (hr : r.absolute = false) (n : Path) :
    (l.descend r).enter n = l.descend (r.enter n) := by
  by_cases hidle : Path.isIdle n = true
  · rw [enter_of_isIdle hidle, enter_of_isIdle hidle]
  by_cases hup : n = ['.', '.']
  · rw [hup]
    exact enter_descend_up hr
  · rw [enter_name hidle hup, enter_name hidle hup]
    simp [descend]

theorem foldl_enter_descend (ns : List Path) (hr : r.absolute = false) :
    ns.foldl enter (l.descend r) = l.descend (ns.foldl enter r) := by
  induction ns generalizing r with
  | nil => rfl
  | cons n ns ih =>
    rw [List.foldl_cons, enter_descend hr, ih ((absolute_enter r n).trans hr)]
    rfl

/-- Without `..` every piece that names something is added. -/
theorem foldl_enter_of_not_mem {ns : List Path} (hns : ['.', '.'] ∉ ns) (l : LexicalPlace) :
    ns.foldl enter l = { l with names := l.names ++ ns.filter fun n => !Path.isIdle n } := by
  induction ns generalizing l with
  | nil => simp
  | cons n ns ih =>
    rw [List.mem_cons, not_or] at hns
    obtain ⟨hup, hns⟩ := hns
    rw [List.foldl_cons, ih hns]
    by_cases hidle : Path.isIdle n = true
    · rw [enter_of_isIdle hidle]
      simp [hidle]
    · rw [enter_name hidle (Ne.symm hup)]
      simp [hidle]

@[simp] theorem descend_empty (l : LexicalPlace) : l.descend { absolute := false } = l := by
  simp [descend]

/-- Following a path from a place is descending to where the path leads on its own. -/
theorem follow_eq_descend (l : LexicalPlace) (p : Path) :
    l.follow p = l.descend (follow { absolute := false } p) := by
  have hfold := foldl_enter_descend (l := l) (r := { absolute := false }) (Path.pieces p) rfl
  rwa [descend_empty] at hfold

end LexicalPlace

namespace Path

variable {dir rest : Path}

/-- The place a path leads to. -/
def lexical (p : Path) : LexicalPlace := LexicalPlace.follow { absolute := p.isAbsolute } p

/-- The place of a directory; with nothing before its slash it is the root. -/
def lexicalDirectory (dir : Path) : LexicalPlace := lexical (dir ++ ['/'])

/-- A file lies below a directory: going on from there by one name or more leads to
it. -/
def IsBelow (file dir : Path) : Prop :=
  ∃ n ns, lexical file =
    { lexicalDirectory dir with names := (lexicalDirectory dir).names ++ n :: ns }

/-- The rest of a path returns into a directory: as often as it climbs, it comes
back by the names that it has given up, and then it goes on. -/
def ReturnsInto (rest dir : Path) : Prop :=
  let l := lexicalDirectory dir
  let r := LexicalPlace.follow { absolute := false } rest
  (l.absolute = true ∨ r.climbs ≤ l.names.length) ∧
    ∃ n ns, r.names = l.names.drop (l.names.length - r.climbs) ++ n :: ns

/-- A path that never climbs and names something stays below every directory. -/
theorem returnsInto_of_not_mem (hup : ['.', '.'] ∉ pieces rest)
    (hname : ∃ n ∈ pieces rest, isIdle n = false) (dir : Path) : ReturnsInto rest dir := by
  simp only [ReturnsInto, LexicalPlace.follow, LexicalPlace.foldl_enter_of_not_mem hup]
  refine ⟨.inr (Nat.zero_le _), ?_⟩
  obtain ⟨n, hn, hidle⟩ := hname
  have hmem : n ∈ (pieces rest).filter fun n => !isIdle n := by simp [hn, hidle]
  obtain ⟨k, ks, hnames⟩ := List.exists_cons_of_ne_nil (List.ne_nil_of_mem hmem)
  exact ⟨k, ks, by simp [hnames]⟩

theorem lexical_append_slash (dir rest : Path) :
    lexical (dir ++ '/' :: rest) = (lexicalDirectory dir).follow rest := by
  have habs : isAbsolute (dir ++ '/' :: rest) = isAbsolute (dir ++ ['/']) := by
    cases dir <;> rfl
  rw [lexicalDirectory, lexical, lexical, habs]
  simp only [LexicalPlace.follow, pieces_append_slash, List.foldl_append]
  rfl

theorem isBelow_iff_returnsInto : IsBelow (dir ++ '/' :: rest) dir ↔ ReturnsInto rest dir := by
  simp only [IsBelow, ReturnsInto]
  rw [lexical_append_slash, LexicalPlace.follow_eq_descend]
  generalize lexicalDirectory dir = l
  generalize LexicalPlace.follow { absolute := false } rest = r
  have hnames : ∀ ms, l.names.take (l.names.length - r.climbs) ++ r.names = l.names ++ ms ↔
      r.names = l.names.drop (l.names.length - r.climbs) ++ ms := by
    intro ms
    have hsplit : l.names ++ ms = l.names.take (l.names.length - r.climbs) ++
        (l.names.drop (l.names.length - r.climbs) ++ ms) := by
      rw [← List.append_assoc, List.take_append_drop]
    rw [hsplit, List.append_right_inj]
  have hclimbs :
      (if l.absolute then l.climbs else l.climbs + (r.climbs - l.names.length)) = l.climbs ↔
        l.absolute = true ∨ r.climbs ≤ l.names.length := by
    cases l.absolute with
    | true => simp
    | false => simp; omega
  rw [← exists_and_left]
  refine exists_congr fun n => ?_
  rw [← exists_and_left]
  refine exists_congr fun ns => ?_
  rw [← hnames, ← hclimbs, LexicalPlace.descend, LexicalPlace.mk.injEq]
  simp

/-- The location that the text of a path spells, seen from a working directory. -/
def spot (home : Location) (p : Path) : Location :=
  (LexicalPlace.follow { absolute := true, names := if p.isAbsolute then [] else home } p).names

/-- Names behind a slash are added to the spot of what stands before it. -/
theorem spot_append_slash {home : Location} (hdir : dir ≠ [])
    (hrest : ∀ n ∈ pieces rest, IsName n) :
    spot home (dir ++ '/' :: rest) = spot home dir ++ pieces rest := by
  have habsolute : isAbsolute (dir ++ '/' :: rest) = isAbsolute dir := by
    obtain ⟨c, cs, rfl⟩ := List.exists_cons_of_ne_nil hdir
    rfl
  have hup : ['.', '.'] ∉ pieces rest := fun h => (hrest _ h).2.2 rfl
  have hfilter : (pieces rest).filter (fun n => !isIdle n) = pieces rest := by
    refine List.filter_eq_self.2 fun n hn => ?_
    obtain ⟨hnil, hdot, -⟩ := hrest n hn
    simp [isIdle, hnil, hdot]
  rw [spot, spot, habsolute, LexicalPlace.follow, LexicalPlace.follow, pieces_append_slash,
    List.foldl_append, LexicalPlace.foldl_enter_of_not_mem hup, hfilter]

end Path

namespace Disk

variable {d : Disk} {l m : Location}

/-- A walk goes from place to place as the text does: at the root `..` stays. -/
theorem eq_of_walk {ns : List Path} (h : d.walk l ns = .ok m) (hns : [] ∉ ns) :
    m = (ns.foldl LexicalPlace.enter { absolute := true, names := l }).names := by
  induction ns generalizing l with
  | nil => exact (Except.ok.inj h).symm
  | cons n ns ih =>
    rw [List.mem_cons, not_or] at hns
    obtain ⟨hn, hns⟩ := hns
    rw [walk, node?_of_walk_cons h] at h
    dsimp only at h
    rw [List.foldl_cons]
    split_ifs at h with hdot hdots
    · rw [LexicalPlace.enter_of_isIdle (by simp [Path.isIdle, hdot])]
      exact ih h hns
    · rw [hdots]
      by_cases hl : l = []
      · rw [LexicalPlace.enter_up_of_root hl rfl]
        rw [hl] at h ⊢
        exact ih h hns
      · rw [LexicalPlace.enter_up_of_ne_nil hl]
        exact ih h hns
    · rw [LexicalPlace.enter_name (by simp [Path.isIdle, Ne.symm hn, hdot]) hdots]
      exact ih h hns

/-- Pieces that are empty lead nowhere. -/
theorem foldl_enter_filter (ns : List Path) (l : LexicalPlace) :
    (ns.filter (· ≠ [])).foldl LexicalPlace.enter l = ns.foldl LexicalPlace.enter l := by
  induction ns generalizing l with
  | nil => rfl
  | cons n ns ih =>
    by_cases hn : n = []
    · rw [List.filter_cons_of_neg (by simp [hn]), ih, List.foldl_cons,
        LexicalPlace.enter_of_isIdle (by simp [Path.isIdle, hn])]
    · rw [List.filter_cons_of_pos (by simp [hn]), List.foldl_cons, ih, List.foldl_cons]

/-- A path that leads anywhere leads to its spot. -/
theorem spot_of_resolve {p : Path} (h : d.resolve p = .ok l) : l = Path.spot d.home p := by
  obtain ⟨r, hroute, hwalk⟩ := exists_walk_of_resolve h
  unfold route at hroute
  split_ifs at hroute with _ _ _ habs
  · obtain rfl := Except.ok.inj hroute
    rw [eq_of_walk hwalk (by simp), foldl_enter_filter, Path.spot, if_pos habs]
    rfl
  · obtain rfl := Except.ok.inj hroute
    rw [eq_of_walk hwalk (by simp), foldl_enter_filter, Path.spot, if_neg habs]
    rfl

end Disk

end TieredFootage
