import TieredFootage.Proofs.Evaluation.Guarding
import TieredFootage.Proofs.Evaluation.Pointers
import TieredFootage.Proofs.Eviction.Departing

/-!
# Draining

A drain hands over every catalogued file of a tier, one after the other. With a next
tier the rows stay behind, since it is the watcher who drops the row of a file that has
gone. A second drain finds the files missing and drops their rows itself, and then there is
nothing left to drain. Off a last tier the row goes first, and one drain is enough.

What a path needs for that is said of each path on its own (`Archive.MayLeave`): that it
lies below the root, that nobody reads it, and that no file is on its way, here and below
the next root. The paths may share directories, or lead to the same file. That they are not
in each other's way is shown for single turns, and carried along the list by
`Archive.SettingOut.evictAll`.
-/

namespace TieredFootage

open Disk

namespace Catalog

/-- A catalog that answers drops every row of the path. -/
theorem path_ne_of_deleteFile {c : Catalog} {p : Path} (h : c.answers .deleteFile = true) :
    ∀ r ∈ (c.deleteFile p).2.files, r.path ≠ p := by
  rw [deleteFile, if_pos h]
  intro r hr
  simpa using (List.mem_filter.1 hr).2

end Catalog

namespace Holdings

variable {h : Holdings} {p q root next : Path}

/-- The row of a file that is not there is dropped. -/
theorem move_of_absent (hp : (h.disk.moveFile p q).1 = .error .absent) :
    (h.move p q).2.catalog = ((h.catalog.copyNote p q).2.deleteFile p).2 := by
  unfold move
  dsimp only
  cases hmoved : h.disk.moveFile p q with
  | mk answer d =>
    rw [hmoved] at hp
    obtain rfl : answer = .error .absent := hp
    rfl

theorem evict_eq_move (hfree : h.served.protects h.now p = false)
    (hne : destination p root next ≠ p) :
    h.evict p root root (some next) =
      { h with served := (h.served.contains h.now p).2 }.move p (destination p root next) := by
  simp [evict, Served.contains, hfree, evictUnserved, hne]

theorem evict_eq_discard (root : Path) (hfree : h.served.protects h.now p = false) :
    h.evict p root root none =
      { h with served := (h.served.contains h.now p).2 }.discard p := by
  simp [evict, Served.contains, hfree, evictUnserved]

end Holdings

namespace Archive

variable {a b : Archive} {t : Tier} {next p : Path} {f : TierFile} {files : List (Path × Path)}

/-- The path of a row is below the root that it is catalogued under, nobody reads it, a file
or nothing is there, and no file is where it passes. -/
structure MayLeave (a : Archive) (root : Path) (f : TierFile) : Prop where
  tierPath_eq : f.tierPath = root
  below : f.path.LiesBelow root
  unserved : a.served.protects a.now f.path = false
  found : (∃ content, a.disk.stat f.path = .ok (.file content)) ∨ a.disk.IsAbsent f.path
  isOpen : a.disk.IsOpen (Path.names f.path).dropLast

/-- The archive after a drain. -/
abbrev drained (a : Archive) (t : Tier) : Archive := (a.drain t).2

/-- No row of the tier is left, and a drain reports nothing and changes nothing. -/
def IsDrained (a : Archive) (t : Tier) : Prop := a.segments t = [] ∧ a.drain t = (.ok {}, a)

/-- A drain answers, and hands over every file of the tier once. -/
def DrainsOnce (a : Archive) (t : Tier) : Prop :=
  ∃ report, (a.drain t).1 = .ok report ∧
    report.outcomes.map (·.1) = (a.segments t).map (·.path) ∧ (report.outcomes.map (·.1)).Nodup

/-- What a drain hands over: paths, and the roots that they are catalogued under. -/
def leaving (a : Archive) (t : Tier) : List (Path × Path) :=
  (a.segments t).map fun f => (f.path, f.tierPath)

theorem map_fst_leaving (a : Archive) (t : Tier) :
    (a.leaving t).map (·.1) = (a.segments t).map (·.path) := by
  rw [leaving, List.map_map]
  rfl

theorem drain_of_answers (ha : ∀ q, a.catalog.answers q = true) (t : Tier) :
    a.drain t = (.ok { outcomes := (a.evictAll t (a.leaving t)).1 },
      (a.evictAll t (a.leaving t)).2) := by
  simp [drain, Catalog.selectFiles, ha, leaving]

theorem drained_of_answers (ha : ∀ q, a.catalog.answers q = true) (t : Tier) :
    a.drained t = (a.evictAll t (a.leaving t)).2 := by
  rw [drained, drain_of_answers ha]

theorem drainsOnce (hk : a.catalog.Keyed) (ha : ∀ q, a.catalog.answers q = true) (t : Tier) :
    a.DrainsOnce t := by
  have hpaths : (a.evictAll t (a.leaving t)).1.map (·.1) = (a.segments t).map (·.path) := by
    rw [map_fst_evictAll, map_fst_leaving]
  rw [DrainsOnce, drain_of_answers ha]
  exact ⟨_, rfl, hpaths, hpaths ▸ hk.nodup_populationPaths t.population⟩

theorem isDrained_of_segments_eq_nil (ha : ∀ q, a.catalog.answers q = true)
    (h : a.segments t = []) : a.IsDrained t := by
  refine ⟨h, ?_⟩
  rw [drain_of_answers ha, leaving, h]
  rfl

theorem keyed_evictAll (hk : a.catalog.Keyed) (t : Tier) (files : List (Path × Path)) :
    (a.evictAll t files).2.catalog.Keyed := by
  induction files generalizing a with
  | nil => exact hk
  | cons x files ih =>
    obtain ⟨p, fileRoot⟩ := x
    exact ih (a := (a.evictFrom t p fileRoot).2) (Holdings.catalog_evict
      (fun c hc => hc.deleteFile p) (fun c target hc => hc.copyNote p target) hk)

theorem keyed_drained (hk : a.catalog.Keyed) (t : Tier) : (a.drained t).catalog.Keyed := by
  unfold drained drain
  split
  · exact hk
  · exact keyed_evictAll hk t _

theorem files_drained_sublist (a : Archive) (t : Tier) :
    (a.drained t).catalog.files.Sublist a.catalog.files := by
  unfold drained drain
  split
  · exact List.Sublist.refl _
  · exact files_evictAll_sublist a t _

/-- What is in a tier later was in it before, if no rows were added. -/
theorem exists_segment_of_sublist (h : b.catalog.files.Sublist a.catalog.files)
    (hf : f ∈ b.segments t) : ∃ g ∈ a.segments t, g.path = f.path ∧ g.tierPath = f.tierPath := by
  obtain ⟨r, hr, hrow, rfl⟩ := Catalog.mem_population.1 hf
  exact ⟨_, Catalog.mem_population.2 ⟨r, h.subset hr, hrow, rfl⟩, rfl, rfl⟩

theorem segments_eq_nil (h : b.catalog.files.Sublist a.catalog.files)
    (hgone : ∀ f ∈ a.segments t, ∀ r ∈ b.catalog.files, r.path ≠ f.path) : b.segments t = [] := by
  refine List.eq_nil_iff_forall_not_mem.2 fun f hf => ?_
  obtain ⟨g, hg, hpath, -⟩ := exists_segment_of_sublist h hf
  obtain ⟨r, hr, -, rfl⟩ := Catalog.mem_population.1 hf
  exact hgone g hg r hr hpath.symm

/-- Paths that leave one root for the next one, none of which is being read. -/
structure SettingOut (a : Archive) (t : Tier) (next : Path) (departure : Path → Departure)
    (ps : List Path) : Prop where
  isTree : a.disk.IsTree
  answers : ∀ q, a.catalog.answers q = true
  unserved : ∀ p ∈ ps, a.served.protects a.now p = false
  leads : ∀ p ∈ ps, (departure p).Leads (Path.pieces t.root.tail) (Path.pieces next.tail) p
    (Holdings.destination p t.root next)
  stands : ∀ p ∈ ps, (departure p).Stands (Path.pieces t.root.tail) (Path.pieces next.tail) a.disk

/-- Later paths have set out as before, and those whose turn has come are done. -/
structure WentOn (a b : Archive) (t : Tier) (next : Path) (departure : Path → Departure)
    (ps turns : List Path) : Prop where
  settingOut : b.SettingOut t next departure ps
  gone : ∀ p ∈ ps, (departure p).IsGone (Path.pieces t.root.tail) a.disk →
    (departure p).IsGone (Path.pieces t.root.tail) b.disk
  done : ∀ p ∈ ps,
    p ∈ turns ∨ (departure p).IsDone (Path.pieces t.root.tail) (Path.pieces next.tail) a.disk →
    (departure p).IsDone (Path.pieces t.root.tail) (Path.pieces next.tail) b.disk
  dropped : ∀ p ∈ turns, (departure p).IsGone (Path.pieces t.root.tail) a.disk →
    ∀ r ∈ b.catalog.files, r.path ≠ p

section Next

variable {departure : Path → Departure} {ps : List Path} (hroots : Path.AreRoots t.root next)
  (hnext : t.next = some next) (h : a.SettingOut t next departure ps)

include hroots h

theorem SettingOut.destination_ne (hp : p ∈ ps) : Holdings.destination p t.root next ≠ p := by
  intro heq
  have hnames := (h.leads p hp).target.names_eq
  rw [heq, (h.leads p hp).source.names_eq, List.append_assoc, List.append_assoc] at hnames
  exact hroots.apart.append_ne _ _ hnames

include hnext

/-- In its turn a file is moved if it is there, and its row is dropped if it is not. -/
theorem SettingOut.evictFrom (hp : p ∈ ps) :
    WentOn a (a.evictFrom t p t.root).2 t next departure ps [p] := by
  have hworked := worked_evictFrom h.isTree t p t.root
  have hevict : (a.evictFrom t p t.root).2.toHoldings = _ := congrArg Prod.snd (hnext ▸
    Holdings.evict_eq_move (h.unserved p hp) (h.destination_ne hroots hp))
  have hdisk : (a.evictFrom t p t.root).2.disk =
      (a.disk.moveFile p (Holdings.destination p t.root next)).2 := by
    rw [hevict]
    exact (Holdings.move_spec _ _ _).1
  obtain ⟨hhanded, hdone, habsent⟩ := (h.stands p hp).moveFile hroots.isNormal_root.2
    hroots.isNormal_next.2 hroots.apart (h.leads p hp) h.isTree
  rw [← hdisk] at hhanded hdone
  refine ⟨⟨hworked.isTree, hworked.answers h.answers, fun q hq => ?_, h.leads, fun q hq => ?_⟩,
    fun q _ hgone => hhanded.isGone hroots.apart hgone, fun q _ hq => ?_, fun q hq hgone r hr => ?_⟩
  · rw [hworked.now_eq, hworked.protects_eq, h.unserved q hq]
  · exact (h.stands p hp).of_handed hhanded hroots.apart (h.stands q hq)
  · rcases hq with hq | hq
    · exact List.mem_singleton.1 hq ▸ hdone
    · exact hhanded.isDone hroots.apart hq
  · obtain rfl := List.mem_singleton.1 hq
    have hcatalog : (a.evictFrom t q t.root).2.catalog =
        ((a.catalog.copyNote q (Holdings.destination q t.root next)).2.deleteFile q).2 := by
      rw [hevict]
      exact Holdings.move_of_absent (habsent hgone)
    rw [hcatalog] at hr
    exact Catalog.path_ne_of_deleteFile (by rw [Catalog.answers_copyNote, h.answers]) r hr

/-- One turn after the other. -/
theorem SettingOut.evictAll (files : List (Path × Path))
    (hfiles : ∀ x ∈ files, x.2 = t.root ∧ x.1 ∈ ps) :
    WentOn a (a.evictAll t files).2 t next departure ps (files.map (·.1)) := by
  induction files generalizing a with
  | nil => exact ⟨h, fun _ _ hgone => hgone, fun q hq => by simp, by simp⟩
  | cons x files ih =>
    obtain ⟨p, fileRoot⟩ := x
    obtain ⟨rfl, hp⟩ := hfiles _ List.mem_cons_self
    have hfirst := h.evictFrom hroots hnext hp
    have hrest := ih hfirst.settingOut fun x hx => hfiles x (List.mem_cons_of_mem _ hx)
    rw [evictAll_cons]
    refine ⟨hrest.settingOut, fun q hq hgone => hrest.gone q hq (hfirst.gone q hq hgone),
      fun q hq hturn => hrest.done q hq ?_, fun q hq hgone r hr => ?_⟩
    · rcases hturn with hturn | hdone
      · rcases List.mem_cons.1 hturn with rfl | hturn
        · exact Or.inr (hfirst.done q hq (Or.inl (List.mem_singleton.2 rfl)))
        · exact Or.inl hturn
      · exact Or.inr (hfirst.done q hq (Or.inr hdone))
    · rcases List.mem_cons.1 hq with rfl | hq
      · exact hfirst.dropped q (List.mem_singleton.2 rfl) hgone r
          ((files_evictAll_sublist _ t files).subset hr)
      · obtain ⟨x, hx, rfl⟩ := List.mem_map.1 hq
        exact hrest.dropped x.1 hq (hfirst.gone x.1 (hfiles x (List.mem_cons_of_mem _ hx)).2 hgone)
          r hr

end Next

/-- Paths that may leave, and that can be written below the next root, set out. -/
theorem exists_settingOut (ha : ∀ q, a.catalog.answers q = true) (hd : a.disk.IsTree)
    (hroots : Path.AreRoots t.root next)
    (hrows : ∀ f ∈ a.segments t, a.MayLeave t.root f)
    (htargets : ∀ f ∈ a.segments t, a.disk.Accepts (Holdings.destination f.path t.root next)) :
    ∃ departure : Path → Departure,
      a.SettingOut t next departure ((a.segments t).map (·.path)) ∧
        ∀ f ∈ a.segments t, ∀ content, a.disk.stat f.path = .ok (.file content) →
          (departure f.path).content = some content := by
  have hall : ∀ p, ∃ x : Departure, p ∈ (a.segments t).map (·.path) →
      x.Leads (Path.pieces t.root.tail) (Path.pieces next.tail) p
          (Holdings.destination p t.root next) ∧
        x.Stands (Path.pieces t.root.tail) (Path.pieces next.tail) a.disk ∧
        ∀ content, a.disk.stat p = .ok (.file content) → x.content = some content := by
    intro p
    by_cases hp : p ∈ (a.segments t).map (·.path)
    · obtain ⟨f, hf, rfl⟩ := List.mem_map.1 hp
      have hrow := hrows f hf
      obtain ⟨x, hx⟩ := Departure.exists_leads hroots.isNormal_root hroots.isNormal_next hd
        hrow.below hrow.isOpen hrow.found (htargets f hf)
      exact ⟨x, fun _ => hx⟩
    · exact ⟨⟨[], [], none⟩, fun hp' => absurd hp' hp⟩
  choose departure hdeparture using hall
  refine ⟨departure, ⟨hd, ha, fun p hp => ?_, fun p hp => (hdeparture p hp).1,
    fun p hp => (hdeparture p hp).2.1⟩,
    fun f hf => (hdeparture f.path (List.mem_map_of_mem hf)).2.2⟩
  obtain ⟨f, hf, rfl⟩ := List.mem_map.1 hp
  exact (hrows f hf).unserved

/-- With a next tier two drains take away every row, and move every file. -/
theorem isDrained_of_next (hk : a.catalog.Keyed) (ha : ∀ q, a.catalog.answers q = true)
    (hd : a.disk.IsTree) (hrows : ∀ f ∈ a.segments t, a.MayLeave t.root f)
    (hnext : t.next = some next) (hroots : Path.AreRoots t.root next)
    (htargets : ∀ f ∈ a.segments t, a.disk.Accepts (Holdings.destination f.path t.root next)) :
    (a.drained t).DrainsOnce t ∧ ((a.drained t).drained t).IsDrained t ∧
      ∀ f ∈ a.segments t, ∀ content, a.disk.stat f.path = .ok (.file content) →
        ((a.drained t).drained t).HasMoved f.path (Holdings.destination f.path t.root next)
          content := by
  obtain ⟨departure, hout, hcontent⟩ := exists_settingOut ha hd hroots hrows htargets
  have hfirst := hout.evictAll hroots hnext (a.leaving t) fun x hx => by
    obtain ⟨f, hf, rfl⟩ := List.mem_map.1 hx
    exact ⟨(hrows f hf).tierPath_eq, List.mem_map_of_mem hf⟩
  rw [map_fst_leaving, ← drained_of_answers ha] at hfirst
  have hanswers := hfirst.settingOut.answers
  have hrows' : ∀ f ∈ (a.drained t).segments t,
      f.tierPath = t.root ∧ f.path ∈ (a.segments t).map (·.path) := by
    intro f hf
    obtain ⟨g, hg, hpath, hroot⟩ := exists_segment_of_sublist (files_drained_sublist a t) hf
    exact ⟨hroot ▸ (hrows g hg).tierPath_eq, hpath ▸ List.mem_map_of_mem hg⟩
  have hsecond := hfirst.settingOut.evictAll hroots hnext ((a.drained t).leaving t)
    fun x hx => by
      obtain ⟨f, hf, rfl⟩ := List.mem_map.1 hx
      exact hrows' f hf
  rw [map_fst_leaving, ← drained_of_answers hanswers] at hsecond
  refine ⟨drainsOnce (keyed_drained hk t) hanswers t,
    isDrained_of_segments_eq_nil hsecond.settingOut.answers
      (segments_eq_nil (files_drained_sublist _ t) fun f hf => ?_), fun f hf content hc => ?_⟩
  · exact hsecond.dropped f.path (List.mem_map_of_mem hf)
      (hfirst.done f.path (hrows' f hf).2 (Or.inl (hrows' f hf).2)).gone
  · have hp : f.path ∈ (a.segments t).map (·.path) := List.mem_map_of_mem hf
    have hdone := hsecond.done f.path hp (Or.inr (hfirst.done f.path hp (Or.inl hp)))
    obtain ⟨hsource, htarget⟩ := (hsecond.settingOut.stands f.path hp).stat_of_isDone
      hroots.isNormal_root.2 hroots.isNormal_next.2 (hout.leads f.path hp) hdone
      (hcontent f hf content hc)
    exact ⟨hsource, htarget⟩

section Last

variable (hnext : t.next = none)

include hnext

/-- Off a last tier the rows of what is handed over are dropped. -/
theorem path_ne_of_evictAll (hd : a.disk.IsTree) (ha : ∀ q, a.catalog.answers q = true)
    (files : List (Path × Path))
    (hfiles : ∀ x ∈ files, x.2 = t.root ∧ a.served.protects a.now x.1 = false) :
    ∀ x ∈ files, ∀ r ∈ (a.evictAll t files).2.catalog.files, r.path ≠ x.1 := by
  induction files generalizing a with
  | nil => simp
  | cons x files ih =>
    obtain ⟨p, fileRoot⟩ := x
    obtain ⟨rfl, hfree⟩ := hfiles _ List.mem_cons_self
    have hworked := worked_evictFrom hd t p t.root
    have hrest := ih hworked.isTree (hworked.answers ha) fun x hx => by
      rw [hworked.now_eq, hworked.protects_eq]
      exact hfiles x (List.mem_cons_of_mem _ hx)
    rw [evictAll_cons]
    intro x hx r hr
    rcases List.mem_cons.1 hx with rfl | hx
    · have hevict : (a.evictFrom t p t.root).2.toHoldings = _ :=
        congrArg Prod.snd (hnext ▸ Holdings.evict_eq_discard t.root hfree)
      have hcatalog : (a.evictFrom t p t.root).2.catalog = (a.catalog.deleteFile p).2 := by
        rw [hevict]
        exact Holdings.catalog_discard _ p
      have hkept := (files_evictAll_sublist (a.evictFrom t p t.root).2 t files).subset hr
      rw [hcatalog] at hkept
      exact Catalog.path_ne_of_deleteFile (ha _) r hkept
    · exact hrest x hx r hr

/-- Off a last tier one drain takes away every row and every file. -/
theorem isDrained_of_last (ha : ∀ q, a.catalog.answers q = true) (hd : a.disk.IsTree)
    (hrows : ∀ f ∈ a.segments t, a.MayLeave t.root f) :
    (a.drained t).IsDrained t ∧ ∀ f ∈ a.segments t, (a.drained t).disk.isFile f.path = false := by
  have hswept := swept_evictAll hd hnext (a.leaving t)
  have hgone := path_ne_of_evictAll hnext hd ha (a.leaving t) fun x hx => by
    obtain ⟨f, hf, rfl⟩ := List.mem_map.1 hx
    exact ⟨(hrows f hf).tierPath_eq, (hrows f hf).unserved⟩
  have hworked := worked_evictAll hd t (a.leaving t)
  rw [map_fst_leaving] at hswept
  rw [← drained_of_answers ha] at hswept hgone hworked
  refine ⟨isDrained_of_segments_eq_nil (hworked.answers ha)
    (segments_eq_nil (files_drained_sublist a t) fun f hf => hgone _ (List.mem_map_of_mem hf)),
    fun f hf => ?_⟩
  rw [← Bool.not_eq_true, hswept.cleared.isFile_iff hd]
  rintro ⟨-, hother⟩
  exact hother f.path
    (List.mem_filter.2 ⟨List.mem_map_of_mem hf, by simp [(hrows f hf).unserved]⟩) rfl

end Last

/-- Draining settles: the files of a tier that may leave it, and that can be written below
the next root, are all there after two drains, and nothing is left to drain. Off a last tier
nothing is left of them after one drain. Every drain hands over each file once. -/
theorem drain_settles (hk : a.catalog.Keyed) (ha : ∀ q, a.catalog.answers q = true)
    (hd : a.disk.IsTree) (hrows : ∀ f ∈ a.segments t, a.MayLeave t.root f) :
    (∀ next, t.next = some next → Path.AreRoots t.root next →
      (∀ f ∈ a.segments t, a.disk.Accepts (Holdings.destination f.path t.root next)) →
      a.DrainsOnce t ∧ (a.drained t).DrainsOnce t ∧ ((a.drained t).drained t).IsDrained t ∧
        ∀ f ∈ a.segments t, ∀ content, a.disk.stat f.path = .ok (.file content) →
          ((a.drained t).drained t).HasMoved f.path (Holdings.destination f.path t.root next)
            content) ∧
    (t.next = none →
      a.DrainsOnce t ∧ (a.drained t).IsDrained t ∧
        ∀ f ∈ a.segments t, (a.drained t).disk.isFile f.path = false) :=
  ⟨fun _ hnext hroots htargets =>
    ⟨drainsOnce hk ha t, isDrained_of_next hk ha hd hrows hnext hroots htargets⟩,
    fun hnext => ⟨drainsOnce hk ha t, isDrained_of_last hnext ha hd hrows⟩⟩

end Archive

/-- A segment that is there, and one that is only in the catalog. -/
def halfGone : Archive where
  disk := eventDisk
  catalog := {
    files := [⟨handingOnSegments.entry "/t0/segments/cam1/1.m4s".toList 7 0, 1⟩,
      ⟨handingOnSegments.entry "/t0/segments/cam1/2.m4s".toList 7 0, 2⟩]
    lastFileId := 2 }

/-- The tier without one behind it. -/
def keepingSegments : Tier := { handingOnSegments with next := none }

theorem keyed_halfGone : halfGone.catalog.Keyed where
  fileIds := by decide
  filePaths := by decide
  notePaths := by decide
  recordingIds := by decide
  fileId_le := by decide
  recordingId_le := by decide

theorem mayLeave_halfGone :
    ∀ f ∈ halfGone.segments handingOnSegments, halfGone.MayLeave handingOnSegments.root f := by
  have hway : halfGone.disk.IsOpen ["t0".toList, "segments".toList, "cam1".toList] :=
    HasWay.isOpen ⟨rfl, rfl⟩ (by decide)
  intro f hf
  obtain ⟨row, hrow, -, rfl⟩ := Catalog.mem_population.1 hf
  rcases List.mem_cons.1 hrow with rfl | hrow
  · exact ⟨rfl, ⟨"segments/cam1/1.m4s".toList, rfl, by decide⟩, rfl, Or.inl ⟨_, rfl⟩, hway⟩
  · obtain rfl := List.mem_singleton.1 hrow
    exact ⟨rfl, ⟨"segments/cam1/2.m4s".toList, rfl, by decide⟩, rfl,
      Or.inr ⟨rfl, by decide, by decide⟩, hway⟩

theorem accepts_halfGone : ∀ f ∈ halfGone.segments handingOnSegments,
    halfGone.disk.Accepts (Holdings.destination f.path handingOnSegments.root "/t1".toList) := by
  intro f hf
  obtain ⟨row, hrow, -, rfl⟩ := Catalog.mem_population.1 hf
  rcases List.mem_cons.1 hrow with rfl | hrow
  · exact ⟨rfl, ["t1".toList, "segments".toList, "cam1".toList, "1.m4s".toList], rfl, by decide⟩
  · obtain rfl := List.mem_singleton.1 hrow
    exact ⟨rfl, ["t1".toList, "segments".toList, "cam1".toList, "2.m4s".toList], rfl, by decide⟩

/-- After two drains the segment is in the next tier; without one it is gone after the
first. -/
theorem drain_settles_halfGone :
    halfGone.catalog.Keyed ∧ (∀ q, halfGone.catalog.answers q = true) ∧ halfGone.disk.IsTree ∧
      (∀ f ∈ halfGone.segments handingOnSegments, halfGone.MayLeave handingOnSegments.root f) ∧
      ((halfGone.drained handingOnSegments).drained handingOnSegments).IsDrained
        handingOnSegments ∧
      ((halfGone.drained handingOnSegments).drained handingOnSegments).HasMoved
        "/t0/segments/cam1/1.m4s".toList "/t1/segments/cam1/1.m4s".toList "footage" ∧
      (halfGone.drained keepingSegments).IsDrained keepingSegments ∧
      (halfGone.drained keepingSegments).disk.isFile "/t0/segments/cam1/1.m4s".toList = false := by
  have hanswers : ∀ q, halfGone.catalog.answers q = true := fun q => by cases q <;> rfl
  have hmember : ∃ f ∈ halfGone.segments handingOnSegments,
      f.path = "/t0/segments/cam1/1.m4s".toList :=
    ⟨_, Catalog.mem_population.2 ⟨_, List.mem_cons_self, rfl, rfl⟩, rfl⟩
  obtain ⟨f, hf, hpath⟩ := hmember
  obtain ⟨-, -, hdrained, hmoved⟩ := (Archive.drain_settles keyed_halfGone hanswers
    isTree_eventDisk mayLeave_halfGone).1 "/t1".toList rfl ⟨by decide, by decide, by decide⟩
    accepts_halfGone
  obtain ⟨-, hlast, hgone⟩ := (Archive.drain_settles (t := keepingSegments) keyed_halfGone hanswers
    isTree_eventDisk mayLeave_halfGone).2 rfl
  have hleft := hmoved f hf "footage" (by rw [hpath]; rfl)
  rw [hpath] at hleft
  exact ⟨keyed_halfGone, hanswers, isTree_eventDisk, mayLeave_halfGone, hdrained, hleft, hlast,
    hpath ▸ hgone f hf⟩

end TieredFootage
