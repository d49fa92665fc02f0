import Mathlib.Tactic.SplitIfs
import TieredFootage.Disk

/-!
# Where paths lead

Two operations follow a path: `Disk.resolve` needs all of it to exist, and
`Disk.slot` all but the last name. On a disk whose nodes lie in directories a
path that leads to a file has a slot, and the slot is the file's location: the
last name can neither stay nor go back up, since that would end at a directory.
A slot depends on directories only, so whatever keeps the directories keeps it.
-/

namespace TieredFootage

/-- What goes on after a first part answers only if that part does. -/
theorem exists_ok_of_bind {ε α β : Type} {x : Except ε α} {f : α → Except ε β} {r : β}
    (h : x >>= f = .ok r) : ∃ a, x = .ok a ∧ f a = .ok r := by
  cases x with
  | error e => cases h
  | ok a => exact ⟨a, rfl, h⟩

namespace Disk

variable {d d' : Disk} {p : Path} {l m : Location}

/-- Every node lies in a directory. -/
def IsTree (d : Disk) : Prop := ∀ l, d.node? l ≠ none → d.node? l.dropLast = some .directory

theorem isTree_of_nodes (h : ∀ x ∈ d.nodes, d.node? x.1.dropLast = some .directory) :
    d.IsTree := by
  intro l hl
  by_cases hnil : l = []
  · rw [hnil]
    rfl
  · rw [node?_of_ne_nil d hnil, Ne, Option.map_eq_none_iff, ← Ne, Option.ne_none_iff_exists'] at hl
    obtain ⟨x, hx⟩ := hl
    have hname : x.1 = l := by simpa using List.find?_some hx
    rw [← hname]
    exact h x (List.mem_of_find?_eq_some hx)

theorem IsTree.put (hd : d.IsTree) (hl : l ≠ []) {n : Node}
    (hparent : d.node? l.dropLast = some .directory)
    (hn : n = .directory ∨ d.node? l ≠ some .directory) : (d.put l n).IsTree := by
  intro m hm
  have hkept : ∀ k, d.node? k = some .directory → (d.put l n).node? k = some .directory := by
    intro k hk
    rw [node?_put d n k hl]
    split
    · rename_i hkl
      rcases hn with rfl | hn
      · rfl
      · exact absurd (hkl ▸ hk) hn
    · exact hk
  apply hkept
  by_cases hml : m = l
  · rw [hml]
    exact hparent
  · rw [node?_put d n m hl, if_neg hml] at hm
    exact hd m hm

theorem IsTree.drop (hd : d.IsTree) (hl : l ≠ []) (hn : d.node? l ≠ some .directory) :
    (d.drop l).IsTree := by
  intro m hm
  rw [node?_drop d m hl] at hm
  split at hm
  · exact absurd rfl hm
  · have hparent := hd m hm
    rw [node?_drop d m.dropLast hl, if_neg, hparent]
    intro hml
    exact hn (hml ▸ hparent)

theorem IsTree.note (hd : d.IsTree) (c : Change) : (d.note c).IsTree := hd

/-- A path without names leads to the root. -/
theorem start_of_names_eq_nil {r : Route} (h : d.route p = .ok r) (hr : r.names = []) :
    r.start = [] := by
  unfold route at h
  split_ifs at h with hzero hnil hlong habsolute
  · obtain rfl := Except.ok.inj h
    rfl
  · obtain rfl := Except.ok.inj h
    cases p with
    | nil => exact absurd rfl hnil
    | cons c cs =>
      have hc : c ≠ '/' := by simpa [Path.isAbsolute] using habsolute
      obtain ⟨q, qs, hpieces⟩ := List.exists_cons_of_ne_nil (Path.pieces_ne_nil cs)
      simp [Path.pieces, hc, hpieces] at hr

theorem walk_append (d : Disk) (l : Location) (ns ms : List Path) :
    d.walk l (ns ++ ms) = d.walk l ns >>= fun m => d.walk m ms := by
  induction ns generalizing l with
  | nil => rfl
  | cons n ns ih =>
    rw [List.cons_append, walk, walk]
    cases hnode : d.node? l with
    | none => rfl
    | some x =>
      cases x with
      | file c => rfl
      | directory =>
        dsimp only
        rw [ih l, ih l.dropLast, ih (l ++ [n])]
        split_ifs <;> rfl

/-- A walk that takes one step more. -/
theorem walk_concat {ns : List Path} (h : d.walk l ns = .ok m) (n : Path) :
    d.walk l (ns ++ [n]) = d.walk m [n] := by
  rw [walk_append, h]
  rfl

theorem exists_walk_of_walk_concat {ns : List Path} {n : Path}
    (h : d.walk l (ns ++ [n]) = .ok m) :
    ∃ parent, d.walk l ns = .ok parent ∧ d.walk parent [n] = .ok m := by
  rw [walk_append] at h
  exact exists_ok_of_bind h

/-- Every name is looked up in a directory. -/
theorem node?_of_walk_cons {n : Path} {ns : List Path} (h : d.walk l (n :: ns) = .ok m) :
    d.node? l = some .directory := by
  rw [walk] at h
  split at h
  · cases h
  · cases h
  · assumption

/-- A walk to a directory starts at one. -/
theorem node?_of_walk {ns : List Path} (h : d.walk l ns = .ok m)
    (hm : d.node? m = some .directory) : d.node? l = some .directory := by
  cases ns with
  | nil =>
    obtain rfl := Except.ok.inj h
    exact hm
  | cons n ns => exact node?_of_walk_cons h

/-- A name that leads on, and is neither of the two that every directory has. -/
def IsPlain (n : Path) : Prop := n ≠ ['.'] ∧ n ≠ ['.', '.'] ∧ byteCount n ≤ maxNameBytes

/-- A plain name leads from a directory to what it names there. -/
theorem walk_plain {n : Path} (hl : d.node? l = some .directory) (hn : IsPlain n) :
    d.walk l [n] = if d.node? (l ++ [n]) = none then .error .absent else .ok (l ++ [n]) := by
  obtain ⟨hdot, hdots, hshort⟩ := hn
  rw [walk, hl]
  dsimp only
  rw [if_neg hdot, if_neg hdots, if_neg (Nat.not_lt.2 hshort)]
  simp only [walk, Option.isNone_iff_eq_none]

/-- Only a plain name leads to a file. -/
theorem isPlain_of_walk (hd : d.IsTree) {parent : Location} {n : Path} {content : String}
    (h : d.walk parent [n] = .ok l) (hl : d.node? l = some (.file content)) :
    d.node? parent = some .directory ∧ IsPlain n ∧ l = parent ++ [n] := by
  have hparent := node?_of_walk_cons h
  rw [walk, hparent] at h
  dsimp only [walk] at h
  split_ifs at h with hdot hdots hlong hnone
  · obtain rfl := Except.ok.inj h
    rw [hparent] at hl
    cases hl
  · obtain rfl := Except.ok.inj h
    have hup : d.node? parent.dropLast = some .directory := hd parent (by simp [hparent])
    rw [hup] at hl
    cases hl
  · exact ⟨hparent, ⟨hdot, hdots, Nat.not_lt.1 hlong⟩, (Except.ok.inj h).symm⟩

/-- What it takes for a path to have a slot. -/
theorem slot_eq_ok_iff {slash : Bool} :
    d.slot p = .ok (l, slash) ↔
      ∃ r parent n, d.route p = .ok r ∧ r.slash = slash ∧ r.names.getLast? = some n ∧
        d.walk r.start r.names.dropLast = .ok parent ∧ d.node? parent = some .directory ∧
        IsPlain n ∧ l = parent ++ [n] := by
  constructor
  · intro h
    obtain ⟨r, hroute, h⟩ := exists_ok_of_bind h
    obtain ⟨parent, hwalk, h⟩ := exists_ok_of_bind h
    split at h
    · cases h
    · rename_i n hlast
      split at h
      · rename_i hparent
        split_ifs at h with hdots hlong
        obtain ⟨rfl, rfl⟩ := Prod.mk.inj (Except.ok.inj h)
        obtain ⟨hdot, hdots⟩ := not_or.1 hdots
        exact ⟨r, parent, n, hroute, rfl, hlast, hwalk, hparent,
          ⟨hdot, hdots, Nat.not_lt.1 hlong⟩, rfl⟩
      · cases h
      · cases h
  · rintro ⟨r, parent, n, hroute, rfl, hlast, hwalk, hparent, ⟨hdot, hdots, hshort⟩, rfl⟩
    simp only [slot, hroute, hwalk, hlast, hparent, bind, Except.bind, hdot, hdots, or_self,
      if_false, if_neg (Nat.not_lt.2 hshort)]

theorem slot_ne_nil {slash : Bool} (h : d.slot p = .ok (l, slash)) : l ≠ [] := by
  obtain ⟨-, parent, n, -, -, -, -, -, -, rfl⟩ := slot_eq_ok_iff.1 h
  simp

theorem node?_dropLast_of_slot {slash : Bool} (h : d.slot p = .ok (l, slash)) :
    d.node? l.dropLast = some .directory := by
  obtain ⟨-, parent, n, -, -, -, -, hparent, -, rfl⟩ := slot_eq_ok_iff.1 h
  rw [List.dropLast_concat, hparent]

/-- A path that has a slot leads to what is there. -/
theorem resolve_of_slot (h : d.slot p = .ok (l, false)) :
    d.resolve p = if d.node? l = none then .error .absent else .ok l := by
  obtain ⟨r, parent, n, hroute, hslash, hlast, hwalk, hparent, hplain, rfl⟩ := slot_eq_ok_iff.1 h
  have hnames : r.names = r.names.dropLast ++ [n] := by
    obtain ⟨init, hinit⟩ := List.getLast?_eq_some_iff.1 hlast
    rw [hinit, List.dropLast_concat]
  have hall : d.walk r.start r.names =
      if d.node? (parent ++ [n]) = none then .error .absent else .ok (parent ++ [n]) := by
    rw [hnames, walk_concat hwalk, walk_plain hparent hplain]
  simp only [resolve, hroute, bind, Except.bind, hall]
  cases hnode : d.node? (parent ++ [n]) with
  | none => rfl
  | some x =>
    cases x with
    | directory => simp [hnode]
    | file c => simp [hnode, hslash]

/-- A path leads where its names lead. -/
theorem exists_walk_of_resolve (h : d.resolve p = .ok l) :
    ∃ r, d.route p = .ok r ∧ d.walk r.start r.names = .ok l := by
  obtain ⟨r, hroute, h⟩ := exists_ok_of_bind h
  obtain ⟨k, hwalk, h⟩ := exists_ok_of_bind h
  refine ⟨r, hroute, ?_⟩
  split at h
  · split_ifs at h
    exact Except.ok.inj h ▸ hwalk
  · exact Except.ok.inj h ▸ hwalk

/-- A path that leads to a file has a slot. -/
theorem slot_of_resolve (hd : d.IsTree) {content : String} (h : d.resolve p = .ok l)
    (hl : d.node? l = some (.file content)) : d.slot p = .ok (l, false) := by
  obtain ⟨r, hroute, h⟩ := exists_ok_of_bind h
  obtain ⟨k, hwalk, h⟩ := exists_ok_of_bind h
  obtain ⟨hslash, rfl⟩ : r.slash = false ∧ k = l := by
    split at h
    · split_ifs at h with hslash
      exact ⟨Bool.not_eq_true _ ▸ hslash, Except.ok.inj h⟩
    · rename_i hfile
      obtain rfl := Except.ok.inj h
      exact absurd hl (hfile content)
  have hne : r.names ≠ [] := by
    intro hnil
    rw [hnil, start_of_names_eq_nil hroute hnil] at hwalk
    obtain rfl := Except.ok.inj hwalk
    cases hl
  obtain ⟨n, hlast⟩ := Option.ne_none_iff_exists'.1 (mt List.getLast?_eq_none_iff.1 hne)
  obtain ⟨init, hinit⟩ := List.getLast?_eq_some_iff.1 hlast
  rw [hinit] at hwalk
  obtain ⟨parent, hparent, hstep⟩ := exists_walk_of_walk_concat hwalk
  obtain ⟨hdirectory, hplain, rfl⟩ := isPlain_of_walk hd hstep hl
  refine slot_eq_ok_iff.2 ⟨r, parent, n, hroute, hslash, hlast, ?_, hdirectory, hplain, rfl⟩
  rw [hinit, List.dropLast_concat, hparent]

theorem stat_of_slot (h : d.slot p = .ok (l, false)) :
    d.stat p = match d.node? l with
      | some n => .ok n
      | none => .error .absent := by
  simp only [stat, resolve_of_slot h, bind, Except.bind]
  cases hnode : d.node? l with
  | none => rfl
  | some n => simp [hnode]

/-- A path that leads to a file leads there by its slot. -/
theorem exists_slot_of_stat (hd : d.IsTree) {content : String}
    (h : d.stat p = .ok (.file content)) :
    ∃ l, d.resolve p = .ok l ∧ d.slot p = .ok (l, false) ∧
      d.node? l = some (.file content) := by
  obtain ⟨l, hresolve, h⟩ := exists_ok_of_bind h
  cases hnode : d.node? l with
  | none =>
    rw [hnode] at h
    cases h
  | some n =>
    rw [hnode] at h
    obtain rfl := Except.ok.inj h
    exact ⟨l, hresolve, slot_of_resolve hd hresolve hnode, hnode⟩

/-- A later disk on which every directory is still there. -/
structure KeepsDirectories (d d' : Disk) : Prop where
  home_eq : d'.home = d.home
  directory : ∀ l, d.node? l = some .directory → d'.node? l = some .directory

namespace KeepsDirectories

theorem refl (d : Disk) : KeepsDirectories d d := ⟨rfl, fun _ h => h⟩

theorem trans {d₁ d₂ d₃ : Disk} (h : KeepsDirectories d₁ d₂) (h' : KeepsDirectories d₂ d₃) :
    KeepsDirectories d₁ d₃ :=
  ⟨h'.home_eq.trans h.home_eq, fun l hl => h'.directory l (h.directory l hl)⟩

/-- A walk to a directory leads to the same directory later. -/
theorem walk_eq (h : KeepsDirectories d d') {ns : List Path} (hw : d.walk l ns = .ok m)
    (hm : d.node? m = some .directory) : d'.walk l ns = .ok m := by
  induction ns generalizing l with
  | nil => exact hw
  | cons n ns ih =>
    have hl := node?_of_walk_cons hw
    rw [walk, hl] at hw
    rw [walk, h.directory l hl]
    dsimp only at hw ⊢
    split_ifs at hw with hdot hdots hlong hnone
    · rw [if_pos hdot]
      exact ih hw
    · rw [if_neg hdot, if_pos hdots]
      exact ih hw
    · have hnext := h.directory _ (node?_of_walk hw hm)
      rw [if_neg hdot, if_neg hdots, if_neg hlong, if_neg (by simp [hnext])]
      exact ih hw

theorem route_eq (h : KeepsDirectories d d') (p : Path) : d'.route p = d.route p := by
  simp only [route, h.home_eq]

theorem slot_eq (h : KeepsDirectories d d') {slash : Bool} (hs : d.slot p = .ok (l, slash)) :
    d'.slot p = .ok (l, slash) := by
  obtain ⟨r, parent, n, hroute, hslash, hlast, hwalk, hparent, hplain, rfl⟩ := slot_eq_ok_iff.1 hs
  exact slot_eq_ok_iff.2 ⟨r, parent, n, (h.route_eq p).trans hroute, hslash, hlast,
    h.walk_eq hwalk hparent, h.directory parent hparent, hplain, rfl⟩

/-- A path to a directory leads to the same directory later. -/
theorem resolve_eq (h : KeepsDirectories d d') (hp : d.resolve p = .ok l)
    (hl : d.node? l = some .directory) : d'.resolve p = .ok l := by
  obtain ⟨r, hroute, hwalk⟩ := exists_walk_of_resolve hp
  simp only [resolve, h.route_eq p, hroute, h.walk_eq hwalk hl, bind, Except.bind,
    h.directory l hl]

end KeepsDirectories

end Disk

end TieredFootage
