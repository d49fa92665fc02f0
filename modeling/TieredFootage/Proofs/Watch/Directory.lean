import Mathlib.Data.List.Induction
import TieredFootage.Archive.Watching
import TieredFootage.Proofs.Disk.Moving

/-!
# Files of a watched directory

Files are created, written, removed and renamed directly inside a directory, each
under a name that the directory can have. Such an action does one of four things:
it changes nothing, one place becomes a file, one file is gone, or one file takes
the place of another. It leaves every directory where it is, so paths lead where
they led before.

What the watcher is told about these files are few kinds of events, and what it
makes of them does not depend on when it does so: only a directory would make a
difference.
-/

namespace TieredFootage

namespace Disk

variable {d d' : Disk} {l m s t : Location} {p q : Path} {content : String}

/-- Puts other content into a file that is there. -/
def overwrite (d : Disk) (p : Path) (content : String) : Disk :=
  match d.resolve p with
  | .ok l =>
    match d.node? l with
    | some (.file _) => (d.put l (.file content)).note (.modified l)
    | _ => d
  | .error _ => d

/-- A place that has something below it is a directory. -/
theorem IsTree.directory_of_prefix (hd : d.IsTree) (hpre : l <+: m) (hne : l ≠ m)
    (hm : d.node? m ≠ none) : d.node? l = some .directory := by
  obtain ⟨r, rfl⟩ := hpre
  induction r using List.reverseRecOn with
  | nil => simp at hne
  | append_singleton r n ih =>
    have hparent : d.node? (l ++ r) = some .directory := by
      have hlast := hd _ hm
      rwa [← List.append_assoc, List.dropLast_concat] at hlast
    by_cases hr : r = []
    · rwa [hr, List.append_nil] at hparent
    · exact ih (by simpa using hr) (by simp [hparent])

/-- A disk on which all directories are kept, and whose nodes lie where there were
nodes or directories around them, is a tree again. -/
theorem IsTree.of_keepsDirectories (hd : d.IsTree) (h : KeepsDirectories d d')
    (hnodes : ∀ k, d'.node? k ≠ none →
      d.node? k ≠ none ∨ d.node? k.dropLast = some .directory) : d'.IsTree := by
  intro k hk
  rcases hnodes k hk with hold | hparent
  · exact h.directory _ (hd k hold)
  · exact h.directory _ hparent

/-- A later disk on which one file took the place of another name and nothing else
has changed. -/
structure Renamed (d d' : Disk) (s t : Location) (content : String) : Prop where
  home_eq : d'.home = d.home
  node?_eq : ∀ k, d'.node? k =
    if k = t then some (.file content) else if k = s then none else d.node? k

theorem Renamed.note (h : Renamed d d' s t content) (c : Change) :
    Renamed d (d'.note c) s t content := ⟨h.home_eq, h.node?_eq⟩

theorem Renamed.keepsDirectories (h : Renamed d d' s t content)
    (hs : d.node? s = some (.file content)) (ht : d.node? t ≠ some .directory) :
    KeepsDirectories d d' where
  home_eq := h.home_eq
  directory := by
    intro k hk
    have hks : k ≠ s := by
      rintro rfl
      rw [hs] at hk
      cases hk
    have hkt : k ≠ t := fun hkt => ht (hkt ▸ hk)
    rw [h.node?_eq, if_neg hkt, if_neg hks, hk]

theorem find?_cons_location (x : Location × Node) (xs : List (Location × Node)) (k : Location) :
    ((x :: xs).find? (·.1 == k)).map (·.2) =
      if x.1 = k then some x.2 else (xs.find? (·.1 == k)).map (·.2) := by
  rw [List.find?_cons]
  by_cases hx : x.1 = k
  · rw [if_pos hx, beq_iff_eq.2 hx]
    rfl
  · rw [if_neg hx, beq_eq_false_iff_ne.2 hx]

/-- Nodes of one place that are put at another one, where nothing was, are found
there and no longer where they were. -/
theorem find?_map_moved {xs : List (Location × Node)} (ht : ∀ x ∈ xs, x.1 ≠ t)
    (k : Location) :
    ((xs.map fun x => if x.1 = s then (t, x.2) else x).find? (·.1 == k)).map (·.2) =
      if k = t then (xs.find? (·.1 == s)).map (·.2)
      else if k = s then none else (xs.find? (·.1 == k)).map (·.2) := by
  induction xs with
  | nil => simp
  | cons x xs ih =>
    have ih' := ih fun y hy => ht y (List.mem_cons_of_mem x hy)
    have hxt := ht x List.mem_cons_self
    rw [List.map_cons, find?_cons_location, find?_cons_location, find?_cons_location, ih']
    by_cases hxs : x.1 = s
    · have hsk : ∀ h : ¬ k = s, ¬ x.1 = k := fun h hxk => h (hxk.symm.trans hxs)
      rw [if_pos hxs, if_pos hxs]
      split_ifs with htk hkt hks hks' <;> simp_all
    · rw [if_neg hxs, if_neg hxs]
      split_ifs with hxk hkt hks <;> simp_all

/-- A file that is renamed is the only node that moves. -/
theorem renamed_of_map (hd : d.IsTree) (hs : d.node? s = some (.file content)) (hne : s ≠ t)
    (ht : t ≠ []) :
    Renamed d
      { d with
        nodes := (d.drop t).nodes.map fun x =>
          if s.isPrefixOf x.1 then (t ++ x.1.drop s.length, x.2) else x } s t content := by
  have hs' : s ≠ [] := by
    rintro rfl
    rw [node?_nil] at hs
    cases hs
  -- Nothing lies below a file, so of the nodes only the file itself is moved.
  have honly : ∀ x ∈ (d.drop t).nodes,
      (if s.isPrefixOf x.1 then (t ++ x.1.drop s.length, x.2) else x) =
        if x.1 = s then (t, x.2) else x := by
    intro x hx
    by_cases hxs : x.1 = s
    · rw [if_pos hxs, hxs, if_pos (List.isPrefixOf_iff_prefix.2 (List.prefix_refl s)),
        List.drop_length, List.append_nil]
    · rw [if_neg hxs, if_neg]
      intro hpre
      have hpre' := List.isPrefixOf_iff_prefix.1 hpre
      have hx1 : x.1 ≠ [] := fun hnil => hs' (List.prefix_nil.1 (hnil ▸ hpre'))
      have hnode : d.node? x.1 ≠ none := by
        rw [node?_of_ne_nil d hx1, Ne, Option.map_eq_none_iff, List.find?_eq_none]
        exact fun hnone => hnone x (List.mem_filter.1 hx).1 (by simp)
      rw [hd.directory_of_prefix hpre' (Ne.symm hxs) hnode] at hs
      cases hs
  have hfree : ∀ x ∈ (d.drop t).nodes, x.1 ≠ t := by
    intro x hx
    simpa using (List.mem_filter.1 hx).2
  have hdropped : ∀ k, k ≠ [] → k ≠ t →
      ((d.drop t).nodes.find? (·.1 == k)).map (·.2) = d.node? k := by
    intro k hk hkt
    rw [← node?_of_ne_nil _ hk, node?_drop d k ht, if_neg hkt]
  rw [List.map_congr_left honly]
  refine ⟨rfl, fun k => ?_⟩
  by_cases hk : k = []
  · subst hk
    rw [if_neg (Ne.symm ht), if_neg (Ne.symm hs')]
    rfl
  · rw [node?_of_ne_nil _ hk, find?_map_moved hfree, hdropped s hs' hne, hs]
    split_ifs with hkt hks
    · rfl
    · rfl
    · exact hdropped k hk hkt

end Disk

/-- What somebody does to the files of a directory, by their names there. -/
inductive FileAction
  /-- Opens a file for writing: it is made if it is not there, and emptied. -/
  | create (n : Path)
  /-- Changes the content of a file that is there. -/
  | write (n : Path) (content : String)
  | remove (n : Path)
  | rename (n m : Path)
  deriving DecidableEq, Repr

namespace FileAction

def names : FileAction → List Path
  | create n | write n _ | remove n => [n]
  | rename n m => [n, m]

/-- The disk after an action in the directory with the given path. An action that
fails does nothing. -/
def run (base : Path) (d : Disk) : FileAction → Disk
  | create n => (d.truncate (base.join n)).2
  | write n content => d.overwrite (base.join n) content
  | remove n => (d.removeFile (base.join n)).2
  | rename n m => (d.rename (base.join n) (base.join m)).2

end FileAction

namespace Watch

variable {w : Watch} {d d' : Disk} {n m : Path} {ok : Path → Prop}

/-- Where the file of a name is, directly inside the watched directory. -/
def place (w : Watch) (n : Path) : Location := w.location ++ [n]

/-- A name that the watched directory can have: its path leads there. -/
def Names (w : Watch) (d : Disk) (n : Path) : Prop :=
  d.slot (w.base.join n) = .ok (w.place n, false)

theorem Names.slot_eq (h : w.Names d n) : d.slot (w.base.join n) = .ok (w.place n, false) := h

theorem place_injective : Function.Injective w.place := by
  intro n m h
  simpa [place] using h

theorem Names.of_keepsDirectories (h : w.Names d n) (hd : Disk.KeepsDirectories d d') :
    w.Names d' n := hd.slot_eq h

theorem place_ne_nil (w : Watch) (n : Path) : w.place n ≠ [] := by simp [place]

/-- Names are told apart by their paths. -/
theorem Names.eq_of_join_eq (hn : w.Names d n) (hm : w.Names d m)
    (h : w.base.join n = w.base.join m) : n = m := by
  unfold Names at hn hm
  rw [h, hm] at hn
  exact (place_injective (Prod.mk.inj (Except.ok.inj hn)).1).symm

theorem Names.stat_eq (h : w.Names d n) :
    d.stat (w.base.join n) = match d.node? (w.place n) with
      | some x => .ok x
      | none => .error .absent := Disk.stat_of_slot h

theorem Names.isDirectory_eq_false (h : w.Names d n)
    (hn : d.node? (w.place n) ≠ some .directory) : d.isDirectory (w.base.join n) = false := by
  rw [Disk.isDirectory, h.stat_eq]
  cases hx : d.node? (w.place n) with
  | none => rfl
  | some x =>
    cases x with
    | directory => exact absurd hx hn
    | file content => rfl

/-- A file of the watched directory is reported by its path there. -/
theorem textOf?_place (w : Watch) (n : Path) : w.textOf? (w.place n) = some (w.base.join n) := by
  simp [textOf?, place]

/-- What an action on files with names of some kind did, and how it is noted in the
journal. -/
inductive Effect (w : Watch) (ok : Path → Prop) (d : Disk) : Disk → List Change → Prop
  | nothing {d' : Disk} (hhome : d'.home = d.home) (hnode : ∀ k, d'.node? k = d.node? k) :
      Effect w ok d d' []
  | wrote {d' : Disk} {n : Path} {content : String} (hok : ok n) (hn : w.Names d n)
      (hfree : d.node? (w.place n) ≠ some .directory)
      (hwrote : Disk.Wrote d d' (w.place n) content) :
      Effect w ok d d'
        ((if d.node? (w.place n) = none then [.made (w.place n) false] else []) ++
          [.modified (w.place n)])
  | removed {d' : Disk} {n : Path} {content : String} (hok : ok n) (hn : w.Names d n)
      (hfile : d.node? (w.place n) = some (.file content)) (hhome : d'.home = d.home)
      (hnode : ∀ k, d'.node? k = if k = w.place n then none else d.node? k) :
      Effect w ok d d' [.removed (w.place n) false]
  | renamed {d' : Disk} {n m : Path} {content : String} (hok : ok n) (hok' : ok m)
      (hn : w.Names d n) (hm : w.Names d m) (hne : n ≠ m)
      (hfile : d.node? (w.place n) = some (.file content))
      (hfree : d.node? (w.place m) ≠ some .directory)
      (hrenamed : Disk.Renamed d d' (w.place n) (w.place m) content) :
      Effect w ok d d' [.renamed (w.place n) (w.place m)]

theorem Effect.keepsDirectories {changes : List Change} (h : w.Effect ok d d' changes) :
    Disk.KeepsDirectories d d' := by
  cases h with
  | nothing hhome hnode => exact ⟨hhome, fun l hl => (hnode l).trans hl⟩
  | wrote hok hn hfree hwrote => exact hwrote.keepsDirectories hfree
  | @removed n content hok hn hfile hhome hnode =>
    refine ⟨hhome, fun l hl => ?_⟩
    have hne : l ≠ w.place n := by
      rintro rfl
      rw [hfile] at hl
      cases hl
    rw [hnode, if_neg hne, hl]
  | renamed hok hok' hn hm hne hfile hfree hrenamed => exact hrenamed.keepsDirectories hfile hfree

theorem Effect.isTree {changes : List Change} (h : w.Effect ok d d' changes) (hd : d.IsTree) :
    d'.IsTree := by
  refine hd.of_keepsDirectories h.keepsDirectories fun k hk => ?_
  cases h with
  | nothing hhome hnode => exact Or.inl (hnode k ▸ hk)
  | wrote hok hn hfree hwrote =>
    rw [hwrote.node?_eq] at hk
    split_ifs at hk with hkn
    · exact Or.inr (hkn ▸ Disk.node?_dropLast_of_slot hn)
    · exact Or.inl hk
  | removed hok hn hfile hhome hnode =>
    rw [hnode] at hk
    split_ifs at hk with hkn
    · exact absurd rfl hk
    · exact Or.inl hk
  | renamed hok hok' hn hm hne hfile hfree hrenamed =>
    rw [hrenamed.node?_eq] at hk
    split_ifs at hk with hkm hkn
    · exact Or.inr (hkm ▸ Disk.node?_dropLast_of_slot hm)
    · exact absurd rfl hk
    · exact Or.inl hk

/-- Taking the journal away changes nothing else. -/
theorem Effect.clearJournal {changes : List Change} (h : w.Effect ok d d' changes) :
    w.Effect ok d { d' with journal := [] } changes := by
  cases h with
  | nothing hhome hnode => exact .nothing hhome hnode
  | wrote hok hn hfree hwrote => exact .wrote hok hn hfree ⟨hwrote.home_eq, hwrote.node?_eq⟩
  | removed hok hn hfile hhome hnode => exact .removed hok hn hfile hhome hnode
  | renamed hok hok' hn hm hne hfile hfree hrenamed =>
    exact .renamed hok hok' hn hm hne hfile hfree ⟨hrenamed.home_eq, hrenamed.node?_eq⟩

theorem effect_create (hd : d.IsTree) (hok : ok n) (hn : w.Names d n) :
    ∃ changes, (d.truncate (w.base.join n)).2.journal = d.journal ++ changes ∧
      w.Effect ok d (d.truncate (w.base.join n)).2 changes := by
  rcases Disk.truncate_cases hd (w.base.join n) with ⟨e, h⟩ | ⟨t, -, hslot, hfree, hwrote⟩
  · rw [h]
    exact ⟨[], by simp, .nothing rfl fun _ => rfl⟩
  · obtain rfl : w.place n = t := (Prod.mk.inj (Except.ok.inj (hn.symm.trans hslot))).1
    refine ⟨_, ?_, .wrote hok hn hfree hwrote⟩
    have hresolve := Disk.resolve_of_slot hn
    unfold Disk.truncate
    by_cases hnone : d.node? (w.place n) = none
    · rw [if_pos hnone] at hresolve
      simp [hresolve, hn.slot_eq, hnone, Disk.note, Disk.put, Disk.drop]
    · rw [if_neg hnone] at hresolve
      rw [hresolve]
      dsimp only
      split
      · simp [hnone, Disk.note, Disk.put, Disk.drop]
      · rename_i hfile
        cases hx : d.node? (w.place n) with
        | none => exact absurd hx hnone
        | some x =>
          cases x with
          | directory => exact absurd hx hfree
          | file c => exact absurd hx (hfile c)

theorem effect_write (hok : ok n) (hn : w.Names d n) (content : String) :
    ∃ changes, (d.overwrite (w.base.join n) content).journal = d.journal ++ changes ∧
      w.Effect ok d (d.overwrite (w.base.join n) content) changes := by
  unfold Disk.overwrite
  rw [Disk.resolve_of_slot hn]
  cases hx : d.node? (w.place n) with
  | none => exact ⟨[], by simp, .nothing rfl fun _ => rfl⟩
  | some x =>
    rw [if_neg (by simp)]
    dsimp only
    rw [hx]
    cases x with
    | directory => exact ⟨[], by simp, .nothing rfl fun _ => rfl⟩
    | file c =>
      have hwrote : Disk.Wrote d ((d.put (w.place n) (.file content)).note
          (.modified (w.place n))) (w.place n) content :=
        ⟨rfl, fun m => Disk.node?_put d _ m (w.place_ne_nil n)⟩
      have heffect := Effect.wrote hok hn (by simp [hx]) hwrote
      rw [if_neg (by simp [hx])] at heffect
      exact ⟨_, rfl, heffect⟩

theorem effect_remove (hok : ok n) (hn : w.Names d n) :
    ∃ changes, (d.removeFile (w.base.join n)).2.journal = d.journal ++ changes ∧
      w.Effect ok d (d.removeFile (w.base.join n)).2 changes := by
  cases hx : d.node? (w.place n) with
  | none =>
    have hsame : (d.removeFile (w.base.join n)).2 = d := by simp [Disk.removeFile, hn.slot_eq, hx]
    rw [hsame]
    exact ⟨[], by simp, .nothing rfl fun _ => rfl⟩
  | some x =>
    cases x with
    | directory =>
      have hsame : (d.removeFile (w.base.join n)).2 = d := by simp [Disk.removeFile, hn.slot_eq, hx]
      rw [hsame]
      exact ⟨[], by simp, .nothing rfl fun _ => rfl⟩
    | file c =>
      rw [Disk.removeFile_of_slot hn hx]
      exact ⟨_, rfl, .removed hok hn hx rfl fun k => Disk.node?_drop d k (w.place_ne_nil n)⟩

theorem effect_rename (hd : d.IsTree) (hok : ok n) (hok' : ok m) (hn : w.Names d n)
    (hm : w.Names d m)
    (hsource : d.node? (w.place n) ≠ some .directory)
    (htarget : d.node? (w.place m) ≠ some .directory) :
    ∃ changes, (d.rename (w.base.join n) (w.base.join m)).2.journal = d.journal ++ changes ∧
      w.Effect ok d (d.rename (w.base.join n) (w.base.join m)).2 changes := by
  have hnothing : ∃ changes, d.journal = d.journal ++ changes ∧ w.Effect ok d d changes :=
    ⟨[], by simp, .nothing rfl fun _ => rfl⟩
  unfold Disk.rename
  rw [hn.slot_eq]
  dsimp only
  split
  · exact hnothing
  · rename_i x hx
    cases x with
    | directory => exact absurd hx hsource
    | file content =>
      rw [hm.slot_eq]
      dsimp only
      by_cases hplace : w.place n = w.place m
      · simpa [hplace] using hnothing
      · have hpre : (w.place n).isPrefixOf (w.place m) = false := by
          rw [Bool.eq_false_iff, Ne, List.isPrefixOf_iff_prefix]
          exact fun hpre => hplace (hpre.eq_of_length (by simp [place]))
        have hne : n ≠ m := fun hnm => hplace (hnm ▸ rfl)
        have hrenamed := Disk.renamed_of_map hd hx hplace (w.place_ne_nil m)
        have heffect := Effect.renamed hok hok' hn hm hne hx htarget
          (hrenamed.note (.renamed (w.place n) (w.place m)))
        rw [if_neg (by simp), if_neg hplace, hpre]
        simp only [Bool.false_eq_true, if_false, reduceCtorEq, decide_false]
        cases hy : d.node? (w.place m) with
        | none => exact ⟨_, rfl, heffect⟩
        | some y =>
          cases y with
          | directory => exact absurd hy htarget
          | file c => exact ⟨_, rfl, heffect⟩

/-- Where there are no directories inside, every action has one of the effects. -/
theorem effect_run (hd : d.IsTree) (f : FileAction) (hok : ∀ n ∈ f.names, ok n)
    (hnames : ∀ n, ok n → w.Names d n) (hfiles : ∀ n, d.node? (w.place n) ≠ some .directory) :
    ∃ changes, (f.run w.base d).journal = d.journal ++ changes ∧
      w.Effect ok d (f.run w.base d) changes := by
  cases f with
  | create n =>
    have hn : ok n := hok n List.mem_cons_self
    exact effect_create hd hn (hnames n hn)
  | write n content =>
    have hn : ok n := hok n List.mem_cons_self
    exact effect_write hn (hnames n hn) content
  | remove n =>
    have hn : ok n := hok n List.mem_cons_self
    exact effect_remove hn (hnames n hn)
  | rename n m =>
    have hn : ok n := hok n List.mem_cons_self
    have hm : ok m := hok m (List.mem_cons_of_mem n List.mem_cons_self)
    exact effect_rename hd hn hm (hnames n hn) (hnames m hm) (hfiles n) (hfiles m)

section Events

variable {ignored : IgnoredNames} {p q : Path}

theorem eventsOf_made (w : Watch) (n : Path) :
    w.eventsOf (.made (w.place n) false) = [⟨.create .file, [w.base.join n], none⟩] := by
  simp [eventsOf, textOf?_place]

theorem eventsOf_modified (w : Watch) (n : Path) :
    w.eventsOf (.modified (w.place n)) = [⟨.modify, [w.base.join n], none⟩] := by
  simp [eventsOf, textOf?_place]

theorem eventsOf_removed (w : Watch) (n : Path) :
    w.eventsOf (.removed (w.place n) false) = [⟨.remove .file, [w.base.join n], none⟩] := by
  simp [eventsOf, textOf?_place]

theorem eventsOf_renamed (w : Watch) (n m : Path) :
    w.eventsOf (.renamed (w.place n) (w.place m)) =
      [⟨.rename .source, [w.base.join n], some renameTracker⟩,
        ⟨.rename .target, [w.base.join m], some renameTracker⟩,
        ⟨.rename .both, [w.base.join n, w.base.join m], some renameTracker⟩] := by
  simp [eventsOf, textOf?_place]

/-- An event that is about no directory and no ignored name says these things,
whenever it is looked at. -/
structure Says (w : Watch) (ignored : IgnoredNames) (ok : Path → Prop) (e : FileEvent)
    (ns : List Notification) : Prop where
  notifications_eq : ∀ d : Disk, (∀ n, ok n → d.isDirectory (w.base.join n) = false) →
    e.notifications d ignored = ns
  about : ∀ x ∈ ns, ∃ n, ok n ∧ x.path = w.base.join n

theorem says_create (hn : ok n) (hok : ∀ n, ok n → ignored.covers (w.base.join n) = false) :
    w.Says ignored ok ⟨.create .file, [w.base.join n], none⟩ [⟨.created, w.base.join n⟩] where
  notifications_eq := fun d hd => by
    simp [FileEvent.notifications, FileEvent.report, notifyUnlessDirectory, hd n hn, hok n hn]
  about := by simpa using ⟨n, hn, rfl⟩

theorem says_modify (hn : ok n) (hok : ∀ n, ok n → ignored.covers (w.base.join n) = false) :
    w.Says ignored ok ⟨.modify, [w.base.join n], none⟩ [⟨.modified, w.base.join n⟩] where
  notifications_eq := fun d hd => by
    simp [FileEvent.notifications, FileEvent.report, notifyUnlessDirectory, hd n hn, hok n hn]
  about := by simpa using ⟨n, hn, rfl⟩

theorem says_remove (hn : ok n) (hok : ∀ n, ok n → ignored.covers (w.base.join n) = false) :
    w.Says ignored ok ⟨.remove .file, [w.base.join n], none⟩ [⟨.deleted, w.base.join n⟩] where
  notifications_eq := fun d hd => by
    simp [FileEvent.notifications, FileEvent.report, hok n hn]
  about := by simpa using ⟨n, hn, rfl⟩

theorem says_source (hn : ok n) (hok : ∀ n, ok n → ignored.covers (w.base.join n) = false)
    (tracker : Option Nat) :
    w.Says ignored ok ⟨.rename .source, [w.base.join n], tracker⟩
      [⟨.deleted, w.base.join n⟩] where
  notifications_eq := fun d hd => by
    simp [FileEvent.notifications, FileEvent.report, hok n hn]
  about := by simpa using ⟨n, hn, rfl⟩

theorem says_target (hn : ok n) (hok : ∀ n, ok n → ignored.covers (w.base.join n) = false)
    (tracker : Option Nat) :
    w.Says ignored ok ⟨.rename .target, [w.base.join n], tracker⟩
      [⟨.created, w.base.join n⟩] where
  notifications_eq := fun d hd => by
    simp [FileEvent.notifications, FileEvent.report, notifyUnlessDirectory, hd n hn, hok n hn]
  about := by simpa using ⟨n, hn, rfl⟩

theorem says_both (w : Watch) (ignored : IgnoredNames) (ok : Path → Prop) (ps : List Path)
    (tracker : Nat) : w.Says ignored ok ⟨.rename .both, ps, some tracker⟩ [] where
  notifications_eq := fun d _ => by
    rw [FileEvent.notifications, report_both_tracked]
    rfl
  about := by simp

/-- What a change to a file comes to, once the watcher is told of it. -/
def told (w : Watch) : Change → List Notification
  | .made l _ | .arrived l => (w.textOf? l).toList.map (Notification.mk .created)
  | .modified l => (w.textOf? l).toList.map (Notification.mk .modified)
  | .removed l _ => (w.textOf? l).toList.map (Notification.mk .deleted)
  | .renamed s t =>
    (w.textOf? s).toList.map (Notification.mk .deleted) ++
      (w.textOf? t).toList.map (Notification.mk .created)

@[simp] theorem told_made (w : Watch) (n : Path) (isDirectory : Bool) :
    w.told (.made (w.place n) isDirectory) = [⟨.created, w.base.join n⟩] := by
  simp [told, textOf?_place]

@[simp] theorem told_modified (w : Watch) (n : Path) :
    w.told (.modified (w.place n)) = [⟨.modified, w.base.join n⟩] := by
  simp [told, textOf?_place]

@[simp] theorem told_removed (w : Watch) (n : Path) (isDirectory : Bool) :
    w.told (.removed (w.place n) isDirectory) = [⟨.deleted, w.base.join n⟩] := by
  simp [told, textOf?_place]

@[simp] theorem told_renamed (w : Watch) (n m : Path) :
    w.told (.renamed (w.place n) (w.place m)) =
      [⟨.deleted, w.base.join n⟩, ⟨.created, w.base.join m⟩] := by
  simp [told, textOf?_place]

/-- What an action is reported by says what it comes to. -/
theorem Effect.reported {changes : List Change} (h : w.Effect ok d d' changes)
    (hok : ∀ n, ok n → ignored.covers (w.base.join n) = false) :
    (∀ e ∈ changes.flatMap w.eventsOf, ∃ ns, w.Says ignored ok e ns) ∧
      ∀ d'' : Disk, (∀ n, ok n → d''.isDirectory (w.base.join n) = false) →
        (changes.flatMap w.eventsOf).flatMap (·.notifications d'' ignored) =
          changes.flatMap w.told := by
  cases h with
  | nothing hhome hnode => exact ⟨by simp, by simp⟩
  | @wrote n content hn hnames hfree hwrote =>
    have hcreate := says_create hn hok
    have hmodify := says_modify hn hok
    constructor
    · intro e he
      split at he
      · simp only [List.flatMap_append, List.flatMap_singleton, eventsOf_made, eventsOf_modified,
          List.mem_append, List.mem_singleton] at he
        rcases he with rfl | rfl
        · exact ⟨_, hcreate⟩
        · exact ⟨_, hmodify⟩
      · simp only [List.nil_append, List.flatMap_singleton, eventsOf_modified,
          List.mem_singleton] at he
        subst he
        exact ⟨_, hmodify⟩
    · intro d'' hd''
      split <;> simp [eventsOf_made, eventsOf_modified,
        hcreate.notifications_eq d'' hd'', hmodify.notifications_eq d'' hd'']
  | @removed n content hn hnames hfile hhome hnode =>
    have hremove := says_remove hn hok
    constructor
    · intro e he
      simp only [List.flatMap_singleton, eventsOf_removed, List.mem_singleton] at he
      subst he
      exact ⟨_, hremove⟩
    · intro d'' hd''
      simp [eventsOf_removed, hremove.notifications_eq d'' hd'']
  | @renamed n m content hn hm hnames hnames' hne hfile hfree hrenamed =>
    have hsource := says_source hn hok (some renameTracker)
    have htarget := says_target hm hok (some renameTracker)
    have hboth := says_both w ignored ok [w.base.join n, w.base.join m] renameTracker
    constructor
    · intro e he
      simp only [List.flatMap_singleton, eventsOf_renamed, List.mem_cons, List.not_mem_nil,
        or_false] at he
      rcases he with rfl | rfl | rfl
      · exact ⟨_, hsource⟩
      · exact ⟨_, htarget⟩
      · exact ⟨_, hboth⟩
    · intro d'' hd''
      simp [eventsOf_renamed, hsource.notifications_eq d'' hd'',
        htarget.notifications_eq d'' hd'', hboth.notifications_eq d'' hd'']

end Events

end Watch

end TieredFootage
