import Mathlib.Data.List.Induction
import Mathlib.Tactic.ByContra
import TieredFootage.Proofs.Disk.Touching

/-!
# The way to a path

A path is followed name by name, and on its way it passes by one place after the other.
Where these places are is told by the text alone, also if there are names in it that stay
or go back up (`Path.place`). So a walk goes through if a directory is at every place that
it passes, and finds something missing if one of them is empty and no file is at any.

Making the directory of a path makes those above it first, and these are spelled by the
text with names taken off its end. No file on the way is all it takes for that to go
through, and whatever is made is on the way.
-/

namespace TieredFootage

open Disk

namespace Path

variable {p : Path} {l : Location} {n : Path} {ns ms : List Path}

/-- The names of a path, as a disk follows them. -/
def names (p : Path) : List Path := (pieces p).filter (· ≠ [])

/-- The place that names lead to from another place. There is nothing above the root. -/
def place (l : Location) (ns : List Path) : Location :=
  (ns.foldl LexicalPlace.enter { absolute := true, names := l }).names

@[simp] theorem place_nil (l : Location) : place l [] = l := rfl

theorem foldl_enter_absolute (l : Location) (ns : List Path) :
    ns.foldl LexicalPlace.enter { absolute := true, names := l } =
      { absolute := true, names := place l ns } := by
  induction ns generalizing l with
  | nil => rfl
  | cons n ns ih =>
    have henter : LexicalPlace.enter { absolute := true, names := l } n =
        { absolute := true, names := place l [n] } := by
      simp only [place, List.foldl_cons, List.foldl_nil, LexicalPlace.enter]
      split_ifs <;> rfl
    have hcons : place l (n :: ns) = place (place l [n]) ns := by
      rw [place, List.foldl_cons, henter]
      rfl
    rw [List.foldl_cons, henter, ih, hcons]

theorem place_append (l : Location) (ns ms : List Path) :
    place l (ns ++ ms) = place (place l ns) ms := by
  rw [place, List.foldl_append, foldl_enter_absolute, ← place]

theorem place_idle (h : isIdle n = true) (l : Location) : place l [n] = l :=
  congrArg LexicalPlace.names (LexicalPlace.enter_of_isIdle h _)

theorem place_up (l : Location) : place l [['.', '.']] = l.dropLast := by
  by_cases hl : l = []
  · rw [hl]
    rfl
  · exact congrArg LexicalPlace.names (LexicalPlace.enter_up_of_ne_nil hl)

theorem place_name (h : IsName n) (l : Location) : place l [n] = l ++ [n] :=
  congrArg LexicalPlace.names (LexicalPlace.enter_name h.not_isIdle h.2.2 _)

theorem place_of_isName (h : ∀ n ∈ ns, IsName n) (l : Location) : place l ns = l ++ ns := by
  induction ns generalizing l with
  | nil => simp
  | cons n ns ih =>
    rw [← List.singleton_append, place_append, place_name (h n List.mem_cons_self),
      ih fun k hk => h k (List.mem_cons_of_mem n hk), List.append_assoc]

theorem nil_notMem_names (p : Path) : [] ∉ names p := by simp [names]

/-- An absolute path spells the place of its names. -/
theorem spot_eq_place (hp : p.isAbsolute = true) (home : Location) :
    spot home p = place [] (names p) := by
  rw [spot, if_pos hp, place, names, foldl_enter_filter]
  rfl

end Path

namespace Disk

open TieredFootage.Path

variable {d d' : Disk} {p q : Path} {l m : Location} {n : Path} {ns ms : List Path}

/-- What it takes for a text to be read. -/
theorem route_eq_ok_iff {r : Route} :
    d.route p = .ok r ↔ Char.ofNat 0 ∉ p ∧ p ≠ [] ∧ byteCount p < maxPathBytes ∧
      r = ⟨if p.isAbsolute then [] else d.home, names p, p.getLast? == some '/'⟩ := by
  by_cases hzero : Char.ofNat 0 ∈ p
  · simp [route, hzero]
  by_cases hnil : p = []
  · simp [route, hnil]
  by_cases hlong : maxPathBytes ≤ byteCount p
  · simp [route, hzero, hnil, hlong, Nat.not_lt.2 hlong]
  · simp only [route, hzero, hnil, hlong, if_false, Except.ok.injEq, not_false_eq_true, ne_eq,
      Nat.not_le.1 hlong, true_and, names, eq_comm]

/-- Names that are followed from the root lead to their place. -/
theorem eq_place_of_walk (h : d.walk l ns = .ok m) (hns : [] ∉ ns) : m = place l ns :=
  eq_of_walk h hns

/-- Names that can be followed. -/
def AreShort (ns : List Path) : Prop := [] ∉ ns ∧ ∀ n ∈ ns, byteCount n ≤ maxNameBytes

theorem AreShort.of_isPrefix (h : AreShort ns) (hms : ms <+: ns) : AreShort ms :=
  ⟨fun hnil => h.1 (hms.subset hnil), fun n hn => h.2 n (hms.subset hn)⟩

theorem AreShort.append (h : AreShort ns) (h' : AreShort ms) : AreShort (ns ++ ms) :=
  ⟨fun hnil => (List.mem_append.1 hnil).elim h.1 h'.1,
    fun n hn => (List.mem_append.1 hn).elim (h.2 n) (h'.2 n)⟩

/-- A path that could be followed leads to nothing. -/
structure IsAbsent (d : Disk) (p : Path) : Prop where
  stat_eq : d.stat p = .error .absent
  areShort : AreShort (names p)

/-- All that names pass by on their way from the root is there, and they lead to a
directory. -/
structure HasWay (d : Disk) (ns : List Path) : Prop where
  walk : d.walk [] ns = .ok (place [] ns)
  directory : d.node? (place [] ns) = some .directory

theorem hasWay_nil (d : Disk) : d.HasWay [] := ⟨rfl, rfl⟩

theorem hasWay_of_walk (h : d.walk [] ns = .ok l) (hl : d.node? l = some .directory)
    (hns : [] ∉ ns) : d.HasWay ns := by
  obtain rfl := eq_place_of_walk h hns
  exact ⟨h, hl⟩

theorem HasWay.of_isPrefix (h : d.HasWay ns) (hns : [] ∉ ns) (hms : ms <+: ns) : d.HasWay ms := by
  obtain ⟨ks, rfl⟩ := hms
  have hwalk := h.walk
  rw [walk_append] at hwalk
  obtain ⟨m, hm, hrest⟩ := exists_ok_of_bind hwalk
  exact hasWay_of_walk hm (node?_of_walk hrest h.directory)
    fun hnil => hns (List.mem_append_left _ hnil)

theorem HasWay.of_keeps (h : d.HasWay ns) (hkeeps : KeepsDirectories d d') : d'.HasWay ns :=
  ⟨hkeeps.walk_eq h.walk h.directory, hkeeps.directory _ h.directory⟩

/-- One name more leads on if something is at its place. -/
theorem HasWay.walk_concat (h : d.HasWay ns) (hd : d.IsTree) (hn : AreShort [n]) :
    d.walk [] (ns ++ [n]) =
      if d.node? (place [] (ns ++ [n])) = none then .error .absent
      else .ok (place [] (ns ++ [n])) := by
  rw [Disk.walk_concat h.walk, place_append]
  by_cases hdot : n = ['.']
  · rw [place_idle (by simp [isIdle, hdot]), if_neg (by simp [h.directory])]
    rw [hdot, Disk.walk, h.directory]
    rfl
  by_cases hup : n = ['.', '.']
  · have hparent := hd _ (show d.node? (place [] ns) ≠ none by simp [h.directory])
    rw [hup, place_up, if_neg (by simp [hparent]), Disk.walk, h.directory]
    rfl
  · rw [place_name ⟨fun hnil => hn.1 (by simp [hnil]), hdot, hup⟩]
    exact walk_plain h.directory ⟨hdot, hup, hn.2 n (by simp)⟩

theorem HasWay.concat (h : d.HasWay ns) (hd : d.IsTree) (hn : AreShort [n])
    (hdir : d.node? (place [] (ns ++ [n])) = some .directory) : d.HasWay (ns ++ [n]) :=
  ⟨by rw [h.walk_concat hd hn, if_neg (by simp [hdir])], hdir⟩

/-- Names that stay where they are lengthen every way. -/
theorem HasWay.append_of_isIdle (h : d.HasWay ns) (hd : d.IsTree)
    (hms : ∀ n ∈ ms, isIdle n = true) (hnil : [] ∉ ms) : d.HasWay (ns ++ ms) := by
  induction ms using List.reverseRecOn with
  | nil => rwa [List.append_nil]
  | append_singleton ms n ih =>
    have hprevious := ih (fun k hk => hms k (List.mem_append_left _ hk))
      fun hn => hnil (List.mem_append_left _ hn)
    have hidle := hms n (by simp)
    have hdot : n = ['.'] := by
      have hn : n ≠ [] := fun hn => hnil (by simp [hn])
      simpa [isIdle, hn] using hidle
    rw [← List.append_assoc]
    refine hprevious.concat hd (by rw [hdot]; exact ⟨by decide, by decide⟩) ?_
    rw [place_append, place_idle hidle, hprevious.directory]

/-- No file is at any place that names pass by on their way from the root, nor where
they lead. -/
def IsOpen (d : Disk) (ns : List Path) : Prop :=
  ∀ ms, ms <+: ns → ∀ content, d.node? (place [] ms) ≠ some (.file content)

theorem IsOpen.of_isPrefix (h : d.IsOpen ns) (hms : ms <+: ns) : d.IsOpen ms :=
  fun ks hks => h ks (hks.trans hms)

theorem Grown.isOpen_iff (h : Grown d d') : d'.IsOpen ns ↔ d.IsOpen ns := by
  simp only [IsOpen, ne_eq, h.node?_eq_file_iff]

theorem HasWay.isOpen (h : d.HasWay ns) (hns : [] ∉ ns) : d.IsOpen ns := by
  intro ms hms c hc
  rw [(h.of_isPrefix hns hms).directory] at hc
  cases hc

/-- Where no file is on the way, all of it is there or something is missing. -/
theorem hasWay_or_absent (hd : d.IsTree) (hopen : d.IsOpen ns) (hns : AreShort ns) :
    d.HasWay ns ∨ (d.walk [] ns = .error .absent ∧
      ∃ ms, ms <+: ns ∧ d.node? (place [] ms) = none) := by
  induction ns using List.reverseRecOn with
  | nil => exact Or.inl (hasWay_nil d)
  | append_singleton ns n ih =>
    have hle : ns <+: ns ++ [n] := List.prefix_append ns [n]
    have hn : AreShort [n] := ⟨fun hnil => hns.1 (by simp [List.mem_singleton.1 hnil]),
      fun k hk => hns.2 k (List.mem_append_right _ hk)⟩
    rcases ih (hopen.of_isPrefix hle) (hns.of_isPrefix hle) with
      hway | ⟨hwalk, ms, hms, hnone⟩
    · cases hnode : d.node? (place [] (ns ++ [n])) with
      | none =>
        exact Or.inr ⟨by rw [hway.walk_concat hd hn, if_pos hnode], _, List.prefix_refl _, hnode⟩
      | some x =>
        cases x with
        | directory => exact Or.inl (hway.concat hd hn hnode)
        | file c => exact absurd hnode (hopen _ (List.prefix_refl _) c)
    · refine Or.inr ⟨?_, ms, hms.trans hle, hnone⟩
      rw [walk_append, hwalk]
      rfl

/-- Names that are followed are short enough. -/
theorem areShort_of_walk (h : d.walk l ns = .ok m) (hnil : [] ∉ ns) : AreShort ns := by
  refine ⟨hnil, ?_⟩
  induction ns generalizing l with
  | nil => simp
  | cons n ns ih =>
    rw [walk, node?_of_walk_cons h] at h
    dsimp only at h
    have hrest : ∀ k, d.walk k ns = .ok m → ∀ x ∈ ns, byteCount x ≤ maxNameBytes :=
      fun k hk => ih hk fun hn => hnil (List.mem_cons_of_mem n hn)
    split_ifs at h with hdot hup hlong
    · exact List.forall_mem_cons.2 ⟨by rw [hdot]; decide, hrest _ h⟩
    · exact List.forall_mem_cons.2 ⟨by rw [hup]; decide, hrest _ h⟩
    · exact List.forall_mem_cons.2 ⟨Nat.not_lt.1 hlong, hrest _ h⟩

end Disk

/-- An absolute path that is followed by names and, last, by a plain one. -/
structure Path.LeadsBy (p : Path) (ns : List Path) (n : Path) : Prop where
  route : ∀ d : Disk, d.route p = .ok ⟨[], ns ++ [n], false⟩
  areShort : AreShort ns
  isPlain : IsPlain n

namespace Path.LeadsBy

variable {d : Disk} {p : Path} {l : Location} {ns : List Path} {n : Path}

theorem names_eq (h : p.LeadsBy ns n) : names p = ns ++ [n] :=
  (Route.mk.inj (route_eq_ok_iff.1 (h.route {})).2.2.2).2.1.symm

theorem isName (h : p.LeadsBy ns n) : IsName n := by
  refine ⟨fun hnil => nil_notMem_names p ?_, h.isPlain.1, h.isPlain.2.1⟩
  simp [h.names_eq, hnil]

theorem areShort_last (h : p.LeadsBy ns n) : AreShort [n] :=
  ⟨fun hnil => h.isName.1 (List.mem_singleton.1 hnil).symm,
    fun _ hk => List.mem_singleton.1 hk ▸ h.isPlain.2.2⟩

theorem place_concat (h : p.LeadsBy ns n) : place [] (ns ++ [n]) = place [] ns ++ [n] := by
  rw [place_append, place_name h.isName]

theorem slot_eq (h : p.LeadsBy ns n) (hway : d.HasWay ns) :
    d.slot p = .ok (place [] (ns ++ [n]), false) := by
  rw [h.place_concat]
  refine slot_eq_ok_iff.2 ⟨_, _, n, h.route d, rfl, List.getLast?_concat, ?_, hway.directory,
    h.isPlain, rfl⟩
  rw [List.dropLast_concat]
  exact hway.walk

/-- Where something on the way is missing, and no file is there, the path leads to nothing. -/
theorem resolve_eq_absent (h : p.LeadsBy ns n) (hd : d.IsTree) (hopen : d.IsOpen ns)
    (hgone : ∃ ms, ms <+: ns ++ [n] ∧ d.node? (place [] ms) = none) :
    d.resolve p = .error .absent := by
  have hwalk : d.walk [] (ns ++ [n]) = .error .absent := by
    rcases hasWay_or_absent hd hopen h.areShort with hway | ⟨hwalk, -⟩
    · obtain ⟨ms, hms, hnone⟩ := hgone
      rcases List.prefix_concat_iff.1 hms with rfl | hms
      · rw [hway.walk_concat hd h.areShort_last, if_pos hnone]
      · rw [(hway.of_isPrefix h.areShort.1 hms).directory] at hnone
        cases hnone
    · rw [walk_append, hwalk]
      rfl
  simp only [resolve, h.route d, hwalk, bind, Except.bind]

end Path.LeadsBy

namespace Path

variable {p : Path} {n : Path} {cs ks : List Path}

theorem trimIdle_concat_of_isIdle (h : isIdle n = true) (cs : List Path) :
    trimIdle (cs ++ [n]) = trimIdle cs := by
  rw [trimIdle, List.reverse_concat, List.dropWhile_cons_of_pos h, trimIdle]

theorem trimIdle_concat (h : ¬ isIdle n = true) (cs : List Path) :
    trimIdle (cs ++ [n]) = cs ++ [n] := by
  rw [trimIdle, List.reverse_concat, List.dropWhile_cons_of_neg h, List.reverse_cons,
    List.reverse_reverse]

/-- What is trimmed off names nothing. -/
theorem exists_trimIdle_append (cs : List Path) :
    ∃ ks, cs = trimIdle cs ++ ks ∧ ∀ n ∈ ks, isIdle n = true := by
  induction cs using List.reverseRecOn with
  | nil => exact ⟨[], rfl, by simp⟩
  | append_singleton cs n ih =>
    by_cases hn : isIdle n = true
    · obtain ⟨ks, hcs, hks⟩ := ih
      refine ⟨ks ++ [n], ?_, fun k hk => ?_⟩
      · rw [trimIdle_concat_of_isIdle hn, ← List.append_assoc, ← hcs]
      · rcases List.mem_append.1 hk with hk | hk
        · exact hks k hk
        · exact List.mem_singleton.1 hk ▸ hn
    · exact ⟨[], by rw [trimIdle_concat hn, List.append_nil], by simp⟩

theorem trimIdle_trimIdle (cs : List Path) : trimIdle (trimIdle cs) = trimIdle cs := by
  induction cs using List.reverseRecOn with
  | nil => rfl
  | append_singleton cs n ih =>
    by_cases hn : isIdle n = true
    · rw [trimIdle_concat_of_isIdle hn, ih]
    · rw [trimIdle_concat hn, trimIdle_concat hn]

theorem not_isIdle_of_trimIdle (h : trimIdle (cs ++ [n]) = cs ++ [n]) : ¬ isIdle n = true := by
  intro hn
  obtain ⟨ks, hks, -⟩ := exists_trimIdle_append cs
  have hlength := congrArg List.length hks
  have hsame := congrArg List.length h
  rw [trimIdle_concat_of_isIdle hn] at hsame
  simp only [List.length_append, List.length_singleton] at hlength hsame
  omega

/-- A text that does not end with a slash ends with a name. -/
theorem exists_pieces_eq_concat (hne : p ≠ []) (hp : p.getLast? ≠ some '/') :
    ∃ cs n, pieces p = cs ++ [n] ∧ n ≠ [] := by
  obtain ⟨cs, n, h⟩ := exists_concat_pieces p
  refine ⟨cs, n, h, ?_⟩
  rintro rfl
  have hglue := glue_pieces p
  rw [h] at hglue
  by_cases hcs : cs = []
  · rw [hcs] at hglue
    exact hne hglue.symm
  · rw [glue_append hcs (List.cons_ne_nil _ _)] at hglue
    exact hp (by simp [← hglue, glue])

end Path

namespace Disk

open TieredFootage.Path

variable {d d' : Disk} {p q : Path} {l m : Location} {n : Path} {ns ms cs ks : List Path}

/-- The pieces of a text that can be followed from the root. -/
structure IsReadable (cs : List Path) : Prop where
  slash : ∀ n ∈ cs, '/' ∉ n
  zero : ∀ n ∈ cs, Char.ofNat 0 ∉ n
  short : ∀ n ∈ cs, byteCount n ≤ maxNameBytes
  bytes : byteCount (locationText cs) < maxPathBytes

theorem byteCount_append (p q : Path) : byteCount (p ++ q) = byteCount p + byteCount q := by
  simp [byteCount]

theorem length_le_locationText (l : Location) : l.length ≤ (locationText l).length := by
  unfold locationText
  induction l with
  | nil => simp
  | cons n ns ih =>
    cases ns with
    | nil => simp
    | cons m ms =>
      simp only [glue, List.length_cons, List.length_append] at ih ⊢
      omega

theorem byteCount_locationText_append (cs ks : List Path) :
    byteCount (locationText cs) ≤ byteCount (locationText (cs ++ ks)) := by
  by_cases hks : ks = []
  · simp [hks]
  by_cases hcs : cs = []
  · rw [hcs, List.nil_append, locationText, locationText, ← List.singleton_append,
      ← List.singleton_append, byteCount_append, byteCount_append]
    simp [glue, byteCount]
  · rw [locationText, locationText, glue_append hcs hks, ← List.cons_append, byteCount_append]
    exact Nat.le_add_right _ _

theorem IsReadable.of_append (h : IsReadable (cs ++ ks)) : IsReadable cs where
  slash := fun n hn => h.slash n (List.mem_append_left _ hn)
  zero := fun n hn => h.zero n (List.mem_append_left _ hn)
  short := fun n hn => h.short n (List.mem_append_left _ hn)
  bytes := Nat.lt_of_le_of_lt (byteCount_locationText_append cs ks) h.bytes

theorem IsReadable.trimIdle (h : IsReadable cs) : IsReadable (trimIdle cs) := by
  obtain ⟨ks, hcs, -⟩ := exists_trimIdle_append cs
  rw [hcs] at h
  exact h.of_append

theorem areShort_filter (h : IsReadable cs) : AreShort (cs.filter (· ≠ [])) :=
  ⟨by simp, fun n hn => h.short n (List.mem_filter.1 hn).1⟩

theorem names_locationText (h : ∀ n ∈ cs, '/' ∉ n) :
    names (locationText cs) = cs.filter (· ≠ []) := by
  rw [names, locationText, pieces, if_pos rfl, List.filter_cons_of_neg (by simp)]
  by_cases hcs : cs = []
  · rw [hcs]
    rfl
  · rw [pieces_glue hcs h]

theorem route_locationText (h : IsReadable cs) (d : Disk) :
    d.route (locationText cs) =
      .ok ⟨[], cs.filter (· ≠ []), (locationText cs).getLast? == some '/'⟩ := by
  have hzero : Char.ofNat 0 ∉ locationText cs := by
    rw [locationText, List.mem_cons, not_or]
    refine ⟨by decide, fun hmem => ?_⟩
    rcases mem_glue hmem with heq | ⟨n, hn, hmem⟩
    · exact absurd heq (by decide)
    · exact h.zero n hn hmem
  rw [route, if_neg hzero, if_neg (by simp [locationText]), if_neg (Nat.not_le.2 h.bytes), ← names,
    names_locationText h.slash]
  rfl

theorem exists_locationText_concat (cs : List Path) (n : Path) :
    ∃ b, locationText (cs ++ [n]) = b ++ '/' :: n := by
  by_cases hcs : cs = []
  · exact ⟨[], by rw [hcs]; rfl⟩
  · exact ⟨locationText cs, by rw [locationText, glue_append hcs (List.cons_ne_nil _ _)]; rfl⟩

theorem bodyPieces_locationText (h : ∀ k ∈ cs ++ [n], '/' ∉ k) (hn : ¬ isIdle n = true) :
    bodyPieces (locationText (cs ++ [n])) = cs ++ [n] := by
  have hpieces : pieces (locationText (cs ++ [n])).tail = cs ++ [n] := pieces_glue (by simp) h
  exact (congrArg Path.trimIdle hpieces).trans (trimIdle_concat hn cs)

/-- The directory above the last piece, if that names something. -/
theorem parent?_locationText_concat (h : ∀ k ∈ cs ++ [n], '/' ∉ k) (hn : ¬ isIdle n = true) :
    (locationText (cs ++ [n])).parent? = some (locationText (trimIdle cs)) := by
  obtain ⟨k, ks, hcons⟩ := List.exists_cons_of_ne_nil (show cs ++ [n] ≠ [] by simp)
  rw [parent?, bodyPieces_locationText h hn, hcons]
  dsimp only
  rw [← hcons, List.dropLast_concat]
  rfl

/-- With pieces taken off its end a text spells a place on the way of the pieces. -/
theorem exists_prefix_of_isAbove (h : ∀ k ∈ cs ++ [n], '/' ∉ k) (hn : ¬ isIdle n = true)
    (hx : q.IsAbove (locationText (cs ++ [n]))) (home : Location) :
    ∃ ms, ms <+: cs.filter (· ≠ []) ∧ spot home q = place [] ms := by
  have htrimmed : ∀ ds : List Path,
      (trimIdle ds).filter (· ≠ []) <+: ds.filter (· ≠ []) ∧ trimIdle ds ⊆ ds := by
    intro ds
    obtain ⟨ks, hks, -⟩ := exists_trimIdle_append ds
    have hle : trimIdle ds <+: ds := ⟨ks, hks.symm⟩
    exact ⟨hle.filter _, hle.subset⟩
  have hpieces : ∃ ds, q = locationText ds ∧ (∀ k ∈ ds, '/' ∉ k) ∧ trimIdle ds = ds ∧
      ds.filter (· ≠ []) <+: cs.filter (· ≠ []) := by
    induction hx with
    | single hx =>
      rw [parent?_locationText_concat h hn] at hx
      obtain rfl := Option.some.inj hx
      exact ⟨trimIdle cs, rfl, fun k hk => h k (List.mem_append_left _ ((htrimmed cs).2 hk)),
        trimIdle_trimIdle cs, (htrimmed cs).1⟩
    | tail _ hx ih =>
      obtain ⟨ds, rfl, hslash, htrim, hle⟩ := ih
      rcases List.eq_nil_or_concat ds with rfl | ⟨es, k, rfl⟩
      · cases hx
      rw [List.concat_eq_append] at hx hslash htrim hle
      rw [parent?_locationText_concat hslash (not_isIdle_of_trimIdle htrim)] at hx
      obtain rfl := Option.some.inj hx
      refine ⟨trimIdle es, rfl,
        fun k hk => hslash k (List.mem_append_left _ ((htrimmed es).2 hk)), trimIdle_trimIdle es,
        ((htrimmed es).1.trans ?_).trans hle⟩
      rw [List.filter_append]
      exact List.prefix_append _ _
  obtain ⟨ds, rfl, hslash, -, hle⟩ := hpieces
  refine ⟨_, hle, ?_⟩
  rw [spot_eq_place rfl, names_locationText hslash]

/-- Making the directory of a path makes directories on the way at most. -/
theorem node?_makeParent_locationText (h : ∀ k ∈ cs ++ [n], '/' ∉ k) (hn : ¬ isIdle n = true)
    (d : Disk) (m : Location) :
    (d.makeParent (locationText (cs ++ [n]))).2.node? m = d.node? m ∨
      (d.node? m = none ∧
        (d.makeParent (locationText (cs ++ [n]))).2.node? m = some .directory ∧
        ∃ ms, ms <+: cs.filter (· ≠ []) ∧ m = place [] ms) := by
  have htouched := touched_makeParent (P := fun _ => False) (q := locationText (cs ++ [n])) d
    fun x hx => hx
  rcases htouched.node?_cases m with hsame | ⟨_, hnot, -⟩ | ⟨hnone, hmade, x, hx, rfl⟩
  · exact Or.inl hsame
  · exact absurd hnot id
  · obtain ⟨ms, hms, hspot⟩ := exists_prefix_of_isAbove h hn hx d.home
    exact Or.inr ⟨hnone, hmade, ms, hms, hspot⟩

/-- Readable pieces, the last of which is a name, are followed by their text. -/
theorem leadsBy_locationText (h : IsReadable (cs ++ [n])) (hn : IsName n) :
    (locationText (cs ++ [n])).LeadsBy (cs.filter (· ≠ [])) n := by
  refine ⟨fun d => ?_, areShort_filter h.of_append, hn.2.1, hn.2.2, h.short n (by simp)⟩
  obtain ⟨b, htext⟩ := exists_locationText_concat cs n
  have hlast : (locationText (cs ++ [n])).getLast? ≠ some '/' := by
    intro hslash
    rw [htext, List.getLast?_append, List.getLast?_cons_of_ne_nil hn.1,
      Option.or_eq_some_iff] at hslash
    rcases hslash with hslash | ⟨hnone, -⟩
    · exact h.slash n (by simp) (List.mem_of_getLast? hslash)
    · exact hn.1 (List.getLast?_eq_none_iff.1 hnone)
  rw [route_locationText h, List.filter_append, beq_eq_false_iff_ne.2 hlast]
  simp [hn.1]

theorem isDirectory_of_hasWay {slash : Bool} (hp : d.route p = .ok ⟨[], ns, slash⟩)
    (h : d.HasWay ns) : d.isDirectory p = true := by
  have hstat : d.stat p = .ok .directory := by
    simp only [stat, resolve, hp, h.walk, bind, Except.bind, h.directory]
  rw [isDirectory, hstat]

/-- At the end of a way a directory is there or can be made, where no file is. -/
theorem makeDirectory_of_hasWay {slash : Bool} (hd : d.IsTree)
    (hp : ∀ d : Disk, d.route p = .ok ⟨[], ns ++ [n], slash⟩) (hway : d.HasWay ns)
    (hn : AreShort [n]) (hdot : n ≠ ['.'])
    (hfree : ∀ content, d.node? (place [] (ns ++ [n])) ≠ some (.file content)) :
    ∃ d', d'.HasWay (ns ++ [n]) ∧ (d.makeDirectory p = (.ok (), d') ∨
      d.makeDirectory p = (.error .occupied, d') ∧ d'.isDirectory p = true) := by
  have hstay : d.node? (place [] (ns ++ [n])) = some .directory →
      d.makeDirectory p = (.error .occupied, d) → ∃ d', d'.HasWay (ns ++ [n]) ∧
        (d.makeDirectory p = (.ok (), d') ∨
          d.makeDirectory p = (.error .occupied, d') ∧ d'.isDirectory p = true) := by
    intro hdir hmade
    have hlonger := hway.concat hd hn hdir
    exact ⟨d, hlonger, Or.inr ⟨hmade, isDirectory_of_hasWay (hp d) hlonger⟩⟩
  by_cases hup : n = ['.', '.']
  · have hparent := hd _ (show d.node? (place [] ns) ≠ none by simp [hway.directory])
    refine hstay (by rw [place_append, hup, place_up, hparent]) ?_
    simp [makeDirectory, slot, hp, bind, Except.bind, hway.walk, hway.directory, hup]
  · have hplace : place [] (ns ++ [n]) = place [] ns ++ [n] := by
      rw [place_append, place_name ⟨fun hnil => hn.1 (by simp [hnil]), hdot, hup⟩]
    have hslot : d.slot p = .ok (place [] (ns ++ [n]), slash) := by
      rw [hplace]
      refine slot_eq_ok_iff.2 ⟨_, _, n, hp d, rfl, List.getLast?_concat, ?_, hway.directory,
        ⟨hdot, hup, hn.2 n (by simp)⟩, rfl⟩
      rw [List.dropLast_concat]
      exact hway.walk
    cases hnode : d.node? (place [] (ns ++ [n])) with
    | none =>
      have hmade : d.makeDirectory p = (.ok (), (d.put (place [] (ns ++ [n])) .directory).note
          (.made (place [] (ns ++ [n])) true)) := by
        rw [makeDirectory, hslot]
        dsimp only
        rw [hnode]
      have hgrown := grown_makeDirectory d p
      have htree := hd.makeDirectory p
      rw [hmade] at hgrown htree
      refine ⟨_, (hway.of_keeps hgrown.keepsDirectories).concat htree hn ?_, Or.inl hmade⟩
      rw [node?_note, node?_put d _ _ (slot_ne_nil hslot), if_pos rfl]
    | some x =>
      cases x with
      | file c => exact absurd hnode (hfree c)
      | directory =>
        refine hstay hnode ?_
        rw [makeDirectory, hslot]
        dsimp only
        rw [hnode]

/-- Making the directory that a readable text spells makes its whole way, where no file is
on it. -/
theorem makeDirectoriesWithin_of_isOpen (fuel : Nat) (hd : d.IsTree) (h : IsReadable cs)
    (htrim : trimIdle cs = cs) (hopen : d.IsOpen (cs.filter (· ≠ []))) (hfuel : cs.length < fuel) :
    (makeDirectoriesWithin fuel d (locationText cs)).1 = .ok () ∧
      (makeDirectoriesWithin fuel d (locationText cs)).2.HasWay (cs.filter (· ≠ [])) := by
  induction fuel generalizing cs with
  | zero => omega
  | succ fuel ih =>
    rcases List.eq_nil_or_concat cs with rfl | ⟨ds, n, rfl⟩
    · exact ⟨rfl, rfl, rfl⟩
    rw [List.concat_eq_append] at h htrim hopen hfuel ⊢
    have hidle := not_isIdle_of_trimIdle htrim
    have hn : n ≠ [] ∧ n ≠ ['.'] := by simpa [isIdle] using hidle
    have hnames : (ds ++ [n]).filter (· ≠ []) = ds.filter (· ≠ []) ++ [n] := by
      simp [List.filter_append, hn.1]
    have hroute := route_locationText h
    have hshort := areShort_filter h
    rw [hnames] at hopen hroute hshort ⊢
    have hup := List.prefix_append (ds.filter (· ≠ [])) [n]
    have hlast : AreShort [n] := ⟨fun hnil => hn.1 (List.mem_singleton.1 hnil).symm,
      fun k hk => hshort.2 k (List.mem_append_right _ hk)⟩
    rw [makeDirectoriesWithin, if_neg (by simp [locationText])]
    rcases hasWay_or_absent hd (hopen.of_isPrefix hup) (hshort.of_isPrefix hup) with
      hway | ⟨hwalk, -⟩
    · obtain ⟨d', hway', hmade | ⟨hmade, hthere⟩⟩ :=
        makeDirectory_of_hasWay hd hroute hway hlast hn.2 (hopen _ (List.prefix_refl _))
      · rw [hmade]
        exact ⟨rfl, hway'⟩
      · rw [hmade]
        dsimp only
        rw [if_pos hthere]
        exact ⟨rfl, hway'⟩
    · -- Those above are made first, and then this one below them.
      have habsent : d.makeDirectory (locationText (ds ++ [n])) = (.error .absent, d) := by
        simp only [makeDirectory, slot, hroute, List.dropLast_concat, hwalk, bind, Except.bind]
      obtain ⟨ks, hds, hks⟩ := exists_trimIdle_append ds
      have hsplit : ds.filter (· ≠ []) =
          (trimIdle ds).filter (· ≠ []) ++ ks.filter (· ≠ []) := by
        rw [← List.filter_append, ← hds]
      have hopenUp : d.IsOpen ((trimIdle ds).filter (· ≠ [])) :=
        hopen.of_isPrefix ((hsplit ▸ List.prefix_append _ _).trans hup)
      have hlength := congrArg List.length hds
      simp only [List.length_append, List.length_singleton] at hlength hfuel
      obtain ⟨hok, hway⟩ := ih h.of_append.trimIdle (trimIdle_trimIdle ds) hopenUp (by omega)
      have hgrown := makeDirectoriesWithin_preserves (P := Grown d)
        (fun d' p hg => hg.trans (grown_makeDirectory d' p)) fuel (Grown.refl d)
        (locationText (trimIdle ds))
      have htree := makeDirectoriesWithin_preserves (fun _ p hg => hg.makeDirectory p) fuel hd
        (locationText (trimIdle ds))
      rw [habsent, parent?_locationText_concat h.slash hidle]
      dsimp only
      cases hmk : makeDirectoriesWithin fuel d (locationText (trimIdle ds)) with
      | mk answer d₁ =>
        rw [hmk] at hok hway hgrown htree
        obtain rfl : answer = .ok () := hok
        have hway₁ : d₁.HasWay (ds.filter (· ≠ [])) := by
          rw [hsplit]
          exact hway.append_of_isIdle htree
            (fun k hk => hks k (List.mem_filter.1 hk).1) (by simp)
        obtain ⟨d', hway', hmade | ⟨hmade, hthere⟩⟩ :=
          makeDirectory_of_hasWay htree hroute hway₁ hlast hn.2
            (hgrown.isOpen_iff.2 hopen _ (List.prefix_refl _))
        · dsimp only
          rw [hmade]
          exact ⟨rfl, hway'⟩
        · dsimp only
          rw [hmade]
          dsimp only
          rw [if_pos hthere]
          exact ⟨rfl, hway'⟩

end Disk

namespace Path

open Disk

variable {d : Disk} {p x : Path} {l m : Location} {n : Path} {ns ms : List Path}

/-- An absolute text is read in the same way on every disk. -/
theorem leadsBy_of_route {r : Route} (hp : p.isAbsolute = true) (h : d.route p = .ok r)
    (hslash : r.slash = false) (hnames : r.names = ns ++ [n]) (hns : AreShort ns)
    (hn : IsPlain n) : p.LeadsBy ns n := by
  obtain ⟨hzero, hne, hbytes, rfl⟩ := route_eq_ok_iff.1 h
  refine ⟨fun d' => route_eq_ok_iff.2 ⟨hzero, hne, hbytes, ?_⟩, hns, hn⟩
  dsimp only at hslash hnames
  rw [if_pos hp, hslash, hnames]

/-- An absolute path that has a slot has it behind a way that is all there. -/
theorem exists_leadsBy_of_slot (hp : p.isAbsolute = true) (h : d.slot p = .ok (l, false)) :
    ∃ ns n, p.LeadsBy ns n ∧ d.HasWay ns ∧ l = place [] (ns ++ [n]) := by
  obtain ⟨r, parent, n, hroute, hslash, hlast, hwalk, hparent, hplain, rfl⟩ := slot_eq_ok_iff.1 h
  obtain ⟨ns, hnames⟩ := List.getLast?_eq_some_iff.1 hlast
  obtain ⟨-, -, -, hr⟩ := route_eq_ok_iff.1 hroute
  have hnil : [] ∉ ns := by
    intro hmem
    refine nil_notMem_names p ?_
    have hsame : r.names = names p := by rw [hr]
    rw [← hsame, hnames]
    exact List.mem_append_left _ hmem
  rw [hnames, List.dropLast_concat, hr, if_pos hp] at hwalk
  have hleads := leadsBy_of_route hp hroute hslash hnames (areShort_of_walk hwalk hnil) hplain
  have hway := hasWay_of_walk hwalk hparent hnil
  refine ⟨ns, n, hleads, hway, ?_⟩
  rw [hleads.place_concat, eq_place_of_walk hwalk hnil]

/-- A path that leads to something, or to nothing, is one that can be read. -/
theorem exists_route_of_stat (hp : p ≠ [])
    (h : (∃ node, d.stat p = .ok node) ∨ d.stat p = .error .absent) :
    ∃ r, d.route p = .ok r := by
  cases hroute : d.route p with
  | ok r => exact ⟨r, rfl⟩
  | error e =>
    have hstat : d.stat p = .error e := by simp only [stat, resolve, hroute, bind, Except.bind]
    rw [hstat] at h
    obtain ⟨node, hnode⟩ | habsent := h
    · cases hnode
    · cases habsent
      unfold route at hroute
      split_ifs at hroute <;> cases hroute

namespace LeadsBy

theorem isAbsolute (h : p.LeadsBy ns n) : p.isAbsolute = true := by
  -- Read from another working directory, a relative path would start there.
  obtain ⟨-, -, -, hr⟩ := route_eq_ok_iff.1 (h.route { home := [[]] })
  have hstart := (Route.mk.inj hr).1
  by_contra hrelative
  rw [if_neg hrelative] at hstart
  cases hstart

/-- The text is that of readable pieces, the last of which is the last name. -/
theorem exists_pieces (h : p.LeadsBy ns n) :
    ∃ cs, p = locationText (cs ++ [n]) ∧ ns = cs.filter (· ≠ []) ∧ IsReadable (cs ++ [n]) := by
  obtain ⟨hzero, -, hbytes, hr⟩ := route_eq_ok_iff.1 (h.route {})
  obtain ⟨-, hnames, hslash⟩ := Route.mk.inj hr
  obtain ⟨q, rfl⟩ := exists_cons_of_isAbsolute h.isAbsolute
  have hlast : ('/' :: q).getLast? ≠ some '/' := by simpa using hslash.symm
  have hne : q ≠ [] := by
    rintro rfl
    exact hlast rfl
  rw [List.getLast?_cons_of_ne_nil hne] at hlast
  obtain ⟨cs, k, hpieces, hk⟩ := exists_pieces_eq_concat hne hlast
  rw [names, pieces, if_pos rfl, hpieces, List.filter_cons_of_neg (by simp), List.filter_append,
    List.filter_cons_of_pos (by simpa using hk), List.filter_nil] at hnames
  obtain ⟨rfl, hn⟩ := List.append_inj' hnames rfl
  obtain rfl := List.singleton_inj.1 hn
  have htext : locationText (cs ++ [n]) = '/' :: q := by rw [locationText, ← hpieces, glue_pieces]
  refine ⟨cs, htext.symm, rfl, fun k hk => ?_, fun k hk hc => ?_, fun k hk => ?_, ?_⟩
  · exact slash_notMem_of_mem_pieces (hpieces ▸ hk)
  · exact hzero (List.mem_cons_of_mem _ (mem_of_mem_pieces (hpieces ▸ hk) hc))
  · by_cases hnil : k = []
    · rw [hnil]
      exact Nat.zero_le _
    · rcases List.mem_append.1 hk with hk | hk
      · exact h.areShort.2 k (List.mem_filter.2 ⟨hk, by simpa using hnil⟩)
      · exact List.mem_singleton.1 hk ▸ h.isPlain.2.2
  · rwa [htext]

/-- The directory of a path can be made where no file is on the way, and then the path has
its slot. -/
theorem makeParent_of_isOpen (h : p.LeadsBy ns n) (hd : d.IsTree) (hopen : d.IsOpen ns) :
    (d.makeParent p).1 = .ok () ∧ (d.makeParent p).2.HasWay ns := by
  obtain ⟨cs, rfl, rfl, hreadable⟩ := h.exists_pieces
  obtain ⟨ks, hcs, hks⟩ := exists_trimIdle_append cs
  have hsplit : cs.filter (· ≠ []) = (trimIdle cs).filter (· ≠ []) ++ ks.filter (· ≠ []) := by
    rw [← List.filter_append, ← hcs]
  have htree := hd.makeParent (locationText (cs ++ [n]))
  rw [makeParent, parent?_locationText_concat hreadable.slash h.isName.not_isIdle] at htree ⊢
  obtain ⟨hok, hway⟩ := makeDirectoriesWithin_of_isOpen
    ((locationText (trimIdle cs)).length + 1) hd hreadable.of_append.trimIdle (trimIdle_trimIdle cs)
    (hopen.of_isPrefix (hsplit ▸ List.prefix_append _ _))
    (Nat.lt_succ_of_le (length_le_locationText _))
  refine ⟨hok, ?_⟩
  rw [hsplit]
  exact hway.append_of_isIdle htree (fun k hk => hks k (List.mem_filter.1 hk).1) (by simp)

theorem node?_makeParent (h : p.LeadsBy ns n) (d : Disk) (m : Location) :
    (d.makeParent p).2.node? m = d.node? m ∨
      (d.node? m = none ∧ (d.makeParent p).2.node? m = some .directory ∧
        ∃ ms, ms <+: ns ∧ m = place [] ms) := by
  obtain ⟨cs, rfl, rfl, hreadable⟩ := h.exists_pieces
  exact node?_makeParent_locationText hreadable.slash h.isName.not_isIdle d m

end LeadsBy

end Path

end TieredFootage
