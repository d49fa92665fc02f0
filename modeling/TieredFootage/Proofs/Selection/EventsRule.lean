import TieredFootage.Proofs.Selection.Attribution
import TieredFootage.Proofs.Selection.Rule

/-!
# The rule behind the events axis

The events axis walks over the recordings and then over their segments, and it
carries along a total, the ids that are linked, those that are retained and those
that have been seen. What it selects can be said without any of them: a closed
recording leaves by its own age, its own bytes and the bytes of the newer ones, and a
segment leaves with the newest recording linked to it if all that are linked leave.

So the order of neither list matters for what is selected. That of the recordings
does not show at all, since they are sorted and ids tell them apart; that of the files
shows only in the order of the rows of one recording, or of those without any.
-/

namespace TieredFootage

variable {recordings : List Recording} {files : List TierFile} {r : Retention} {now : Int}

namespace Retention

/-- The bytes linked to the closed recordings newer than a given one, cut. A file linked
to several of them counts once for each. -/
def newerFootage (recordings : List Recording) (files : List TierFile) (now : Int)
    (x : Recording) : Nat :=
  newerBytes Recording.rank (fun y => y.linkedBytes now files)
    (recordings.filter Recording.isClosed) x

/-- The rule by which a recording leaves: it is closed, its start has reached the least
age, and it is older than the largest age, or its bytes do not fit into the byte limit
together with those of the newer ones and those alone are as many as have to stay. -/
def Takes (r : Retention) (now : Int) (recordings : List Recording) (files : List TierFile)
    (x : Recording) : Prop :=
  x.isClosed = true ∧ r.minAge * 1000000000 ≤ age now x.startTime ∧
    (r.maxAge ≠ 0 ∧ r.maxAge * 1000000000 < age now x.startTime ∨
      r.maxBytes ≠ 0 ∧
        r.maxBytes < capped (newerFootage recordings files now x + x.linkedBytes now files) ∧
        r.minBytes ≤ newerFootage recordings files now x)

instance (r : Retention) (now : Int) (recordings : List Recording) (files : List TierFile)
    (x : Recording) : Decidable (r.Takes now recordings files x) :=
  inferInstanceAs (Decidable (_ ∧ _))

end Retention

theorem nodup_closedIds (hr : (recordings.map (·.id)).Nodup) :
    ((recordings.filter Recording.isClosed).map fun x => x.rank.id).Nodup :=
  (List.filter_sublist.map _).nodup hr

/-- The walk over the recordings selects those that the rule takes. -/
theorem leaves_iff_takes (hr : (recordings.map (·.id)).Nodup) {x : Recording} :
    Leaves recordings files r now x ↔ x ∈ recordings ∧ r.Takes now recordings files x := by
  have hsorted := pairwise_newer_newestFirst Recording.rank (nodup_closedIds hr)
  have hpassed : newerBytes Recording.rank (fun y => y.linkedBytes now files)
        (newestFirst Recording.rank (recordings.filter Recording.isClosed)) x =
      Retention.newerFootage recordings files now x :=
    newerBytes_perm (newestFirst_perm Recording.rank _) x
  have hmem : x ∈ newestFirst Recording.rank (recordings.filter Recording.isClosed) ↔
      x ∈ recordings ∧ x.isClosed = true := by
    rw [mem_newestFirst, List.mem_filter]
  rw [Leaves, judgedRecordings, judge_eq_map r r.minAge now hsorted, Retention.Takes,
    ← Retention.evicts_iff, ← and_assoc, ← hmem, ← hpassed]
  constructor
  · intro h
    obtain ⟨y, hy, heq⟩ := List.mem_map.1 h
    obtain ⟨rfl, hleaves⟩ := Prod.mk.inj heq
    exact ⟨hy, hleaves⟩
  · rintro ⟨hx, hleaves⟩
    exact List.mem_map.2 ⟨x, hx, by rw [hleaves]⟩

theorem departs_iff_takes (hr : (recordings.map (·.id)).Nodup) {f : TierFile} :
    Departs recordings files r now f ↔ f.isSettled now = true ∧
      ∀ x ∈ recordings, x.covers now f = true → r.Takes now recordings files x := by
  refine and_congr_right fun _ => forall₂_congr fun x hx => imp_congr_right fun _ => ?_
  rw [leaves_iff_takes hr, and_iff_right hx]

section Order

/-- The order of the recording ids of rows: none is behind that of an older recording, and
all are in front of the rows without any. -/
def Precedes (recordings : List Recording) : Option Int → Option Int → Prop
  | _, none => True
  | none, some _ => False
  | some i, some j => ∀ x ∈ recordings, ∀ y ∈ recordings, x.id = i → y.id = j →
      x.rank.atLeast y.rank = true

theorem precedes_of_atLeast (hr : (recordings.map (·.id)).Nodup) {x y : Recording}
    (hx : x ∈ recordings) (hy : y ∈ recordings) (h : x.rank.atLeast y.rank = true) :
    Precedes recordings (some x.id) (some y.id) := by
  intro x' hx' y' hy' hxid hyid
  obtain rfl := List.inj_on_of_nodup_map hr hx' hx hxid
  obtain rfl := List.inj_on_of_nodup_map hr hy' hy hyid
  exact h

theorem pairwise_precedes_recordingRows (hr : (recordings.map (·.id)).Nodup) :
    (recordingRows recordings files r now).Pairwise fun a b =>
      Precedes recordings a.recordingId b.recordingId := by
  rw [recordingRows_eq, List.pairwise_flatMap]
  refine ⟨fun x hx => ?_, ?_⟩
  · have hmem := (mem_leavingRecordings.1 hx).mem
    refine List.pairwise_map.2 (List.pairwise_of_forall fun f g => ?_)
    exact precedes_of_atLeast hr hmem hmem (Rank.atLeast_refl x.rank)
  · refine pairwise_leavingRecordings.imp_of_mem fun {x y} hx hy hxy a ha b hb => ?_
    obtain ⟨f, -, rfl⟩ := List.mem_map.1 ha
    obtain ⟨g, -, rfl⟩ := List.mem_map.1 hb
    exact precedes_of_atLeast hr (mem_leavingRecordings.1 hx).mem
      (mem_leavingRecordings.1 hy).mem hxy

/-- The rows of newer recordings come first, those without a recording last. -/
theorem pairwise_precedes_eventRows (hr : (recordings.map (·.id)).Nodup) :
    ((eventRows recordings files r now).map (·.recordingId)).Pairwise (Precedes recordings) := by
  have horphan : ∀ o, ∀ row ∈ orphanRows recordings files now,
      Precedes recordings o row.recordingId := by
    intro o row h
    obtain ⟨f, -, rfl⟩ := List.mem_map.1 h
    cases o <;> trivial
  refine List.pairwise_map.2 (List.Pairwise.sublist (distinctFrom_sublist _ _ _) ?_)
  refine List.pairwise_append.2 ⟨pairwise_precedes_recordingRows hr, ?_, fun a _ => horphan _⟩
  exact List.pairwise_of_forall_mem_list fun a _ => horphan _

theorem Precedes.antisymm {x y : Option Int}
    (hx : ∀ i, x = some i → i ∈ recordings.map (·.id))
    (hy : ∀ i, y = some i → i ∈ recordings.map (·.id)) (hxy : Precedes recordings x y)
    (hyx : Precedes recordings y x) : x = y := by
  cases x with
  | none =>
    cases y with
    | none => rfl
    | some j => exact hxy.elim
  | some i =>
    cases y with
    | none => exact hyx.elim
    | some j =>
      obtain ⟨u, hu, rfl⟩ := List.mem_map.1 (hx i rfl)
      obtain ⟨v, hv, rfl⟩ := List.mem_map.1 (hy j rfl)
      have hrank := Rank.atLeast_antisymm (hxy u hu v hv rfl rfl) (hyx v hv u hu rfl rfl)
      exact congrArg some (congrArg Rank.id hrank)

end Order

section Permuted

theorem newestFirst_eq_of_perm {α : Type} (rank : α → Rank) {xs ys : List α} (h : xs.Perm ys)
    (hids : (xs.map fun x => (rank x).id).Nodup) :
    newestFirst rank xs = newestFirst rank ys := by
  have hperm : (newestFirst rank xs).Perm (newestFirst rank ys) :=
    ((newestFirst_perm rank xs).trans h).trans (newestFirst_perm rank ys).symm
  refine List.Perm.eq_of_pairwise (fun x y hx hy hxy hyx => ?_) (newestFirst_pairwise rank xs)
    (newestFirst_pairwise rank ys) hperm
  refine List.inj_on_of_nodup_map hids ((mem_newestFirst rank).1 hx) ?_
    (congrArg Rank.id (Rank.atLeast_antisymm hxy hyx))
  exact h.mem_iff.2 ((mem_newestFirst rank).1 hy)

variable {others : List Recording}

theorem judgedRecordings_perm (hr : (recordings.map (·.id)).Nodup) (h : others.Perm recordings) :
    judgedRecordings others files r now = judgedRecordings recordings files r now := by
  rw [judgedRecordings, judgedRecordings,
    newestFirst_eq_of_perm Recording.rank (h.filter Recording.isClosed).symm (nodup_closedIds hr)]

/-- The order of the recordings does not show in the rows. -/
theorem eventRows_perm (hr : (recordings.map (·.id)).Nodup) (h : others.Perm recordings) :
    eventRows others files r now = eventRows recordings files r now := by
  have hjudged : judgedRecordings others files r now = judgedRecordings recordings files r now :=
    judgedRecordings_perm hr h
  have hretained : ∀ i, i ∈ retainedIds others files r now ↔
      i ∈ retainedIds recordings files r now := by
    intro i
    simp only [mem_retainedIds_iff, Stays, hjudged, h.mem_iff]
  have hlinked : ∀ i, (i ∈ others.flatMap fun x => (x.linked now files).map (·.id)) ↔
      i ∈ recordings.flatMap fun x => (x.linked now files).map (·.id) := by
    intro i
    simp only [List.mem_flatMap, h.mem_iff]
  have hrows : recordingRows others files r now = recordingRows recordings files r now := by
    simp only [recordingRows, hjudged, hretained]
  have horphans : orphanRows others files now = orphanRows recordings files now := by
    simp only [orphanRows, hlinked]
  rw [eventRows, eventRows, hrows, horphans]

theorem eventOverflow?_perm (h : others.Perm recordings)
    (hfits : eventOverflow? recordings files now = none) :
    eventOverflow? others files now = none := by
  simp only [eventOverflow?, List.findSome?_eq_none_iff] at hfits ⊢
  exact fun x hx => hfits x (h.mem_iff.1 hx)

variable {moved : List TierFile}

theorem Recording.linkedBytes_perm (x : Recording) (h : moved.Perm files) :
    x.linkedBytes now moved = x.linkedBytes now files :=
  total_perm ((h.filter _).map _)

theorem eventOverflow?_perm_files (h : moved.Perm files) :
    eventOverflow? recordings moved now = eventOverflow? recordings files now := by
  simp only [eventOverflow?, Recording.overflow?, Recording.linkedBytes_perm _ h]

theorem judgedRecordings_perm_files (h : moved.Perm files) :
    judgedRecordings recordings moved r now = judgedRecordings recordings files r now := by
  simp only [judgedRecordings, Recording.linkedBytes_perm _ h]

/-- The order of the files shows only in that of the rows of one recording, or of those
without any: the rows are the same ones, and so is the recording of each place. -/
theorem eventRows_perm_files (hf : (files.map (·.id)).Nodup) (hr : (recordings.map (·.id)).Nodup)
    (h : moved.Perm files) :
    (eventRows recordings moved r now).Perm (eventRows recordings files r now) ∧
      (eventRows recordings moved r now).map (·.recordingId) =
        (eventRows recordings files r now).map (·.recordingId) := by
  have hf' : (moved.map (·.id)).Nodup := (h.map _).nodup_iff.2 hf
  have hmem : ∀ row, row ∈ eventRows recordings moved r now ↔
      row ∈ eventRows recordings files r now := by
    intro row
    simp only [mem_eventRows_iff_isFree hf', mem_eventRows_iff_isFree hf, IsFree, Stays,
      judgedRecordings_perm_files h, h.mem_iff]
  have hnodup : ∀ fs, (eventRows recordings fs r now).Nodup := fun fs =>
    (nodup_map_distinctBy EventRow.fileId _).of_map
  have hperm : (eventRows recordings moved r now).Perm (eventRows recordings files r now) :=
    (List.perm_ext_iff_of_nodup (hnodup moved) (hnodup files)).2 hmem
  have hids : ∀ o ∈ (eventRows recordings files r now).map (·.recordingId), ∀ i, o = some i →
      i ∈ recordings.map (·.id) := by
    intro o ho i hi
    obtain ⟨row, hrow, rfl⟩ := List.mem_map.1 ho
    obtain ⟨f, -, -, ⟨x, hx, -, rfl⟩ | ⟨-, rfl⟩⟩ := (mem_eventRows_iff_isFree hf).1 hrow
    · exact Option.some.inj hi ▸ List.mem_map_of_mem hx
    · cases hi
  -- both lists of recording ids are sorted alike, so they are one list
  refine ⟨hperm, List.Perm.eq_of_pairwise (fun o o' ho ho' => ?_) (pairwise_precedes_eventRows hr)
    (pairwise_precedes_eventRows hr) (hperm.map _)⟩
  exact Precedes.antisymm (hids o ((hperm.map _).mem_iff.1 ho)) (hids o' ho')

end Permuted

/-- The events axis in full. A file has a row exactly if it has settled and every recording
linked to it is taken by the rule, and then a single one, of the newest recording linked to
it or of none. The rows of newer recordings come first. The order of the recordings makes no
difference, and that of the files none but to rows of one recording. -/
theorem recordingsToMove_follows_rule (hf : (files.map (·.id)).Nodup)
    (hr : (recordings.map (·.id)).Nodup) (hfits : eventOverflow? recordings files now = none) :
    ∃ rows, recordingsToMove recordings files r now = .ok rows ∧
      (∀ f ∈ files, (∃ row ∈ rows, row.fileId = f.id) ↔ f.isSettled now = true ∧
        ∀ x ∈ recordings, x.covers now f = true → r.Takes now recordings files x) ∧
      (rows.map (·.fileId)).Nodup ∧
      (∀ row ∈ rows, ∃ f ∈ files, IsRowOf recordings now f row) ∧
      (rows.map (·.recordingId)).Pairwise (Precedes recordings) ∧
      (∀ others : List Recording, others.Perm recordings →
        recordingsToMove others files r now = .ok rows) ∧
      ∀ moved : List TierFile, moved.Perm files →
        ∃ rows', recordingsToMove recordings moved r now = .ok rows' ∧ rows'.Perm rows ∧
          rows'.map (·.recordingId) = rows.map (·.recordingId) := by
  refine ⟨eventRows recordings files r now, recordingsToMove_eq_ok_iff.2 ⟨hfits, rfl⟩,
    fun f hmem => ?_,
    nodup_map_distinctBy EventRow.fileId _, fun row hrow => ?_, pairwise_precedes_eventRows hr,
    fun others h => ?_, fun moved h => ?_⟩
  · rw [← departs_iff_takes hr]
    constructor
    · rintro ⟨row, hrow, hid⟩
      obtain ⟨g, hg, hdep, hrowOf⟩ := (mem_eventRows_iff hf hr).1 hrow
      obtain rfl := List.inj_on_of_nodup_map hf hg hmem (hrowOf.fileId_eq.symm.trans hid)
      exact hdep
    · intro hdep
      obtain ⟨row, hrow⟩ := exists_isRowOf recordings now f
      exact ⟨row, (mem_eventRows_iff hf hr).2 ⟨f, hmem, hdep, hrow⟩, hrow.fileId_eq⟩
  · obtain ⟨f, hmem, -, hrowOf⟩ := (mem_eventRows_iff hf hr).1 hrow
    exact ⟨f, hmem, hrowOf⟩
  · exact recordingsToMove_eq_ok_iff.2 ⟨eventOverflow?_perm h hfits, eventRows_perm hr h⟩
  · exact ⟨eventRows recordings moved r now,
      recordingsToMove_eq_ok_iff.2 ⟨(eventOverflow?_perm_files h).trans hfits, rfl⟩,
      eventRows_perm_files hf hr h⟩

/-- Two recordings that share a segment, and one in progress since before the second one
ended. -/
def overlappingRecordings : List Recording :=
  [recordingOver 1 1000 (some 1100), recordingOver 2 1050 (some 1200), recordingOver 3 1150 none]

/-- Two segments of the first recording alone, one that it shares with the second, one that
the second shares with the one in progress, and one of no recording. -/
def overlappingSegments : List TierFile :=
  [segmentMadeAt 1 1010, segmentMadeAt 2 1060, segmentMadeAt 3 1160, segmentMadeAt 4 500,
    segmentMadeAt 5 1020]

/-- What two closed recordings share leaves with the newer one, what is shared with the one
in progress stays, and the order of the recordings makes no difference. -/
theorem recordingsToMove_follows_rule_overlapping :
    (overlappingSegments.map (·.id)).Nodup ∧ (overlappingRecordings.map (·.id)).Nodup ∧
      eventOverflow? overlappingRecordings overlappingSegments (10000 * second) = none ∧
      ∃ rows, recordingsToMove overlappingRecordings.reverse overlappingSegments
          { maxAge := 3600 } (10000 * second) = .ok rows ∧
        rows.map (fun row => (row.recordingId, row.fileId)) =
          [(some 2, 2), (some 1, 1), (some 1, 5), (none, 4)] := by
  have hf : (overlappingSegments.map (·.id)).Nodup := by decide
  have hr : (overlappingRecordings.map (·.id)).Nodup := by decide
  have hfits :
      eventOverflow? overlappingRecordings overlappingSegments (10000 * second) = none := by
    decide
  obtain ⟨rows, hrows, -, -, -, -, hreordered, -⟩ :=
    recordingsToMove_follows_rule (r := { maxAge := 3600 }) hf hr hfits
  refine ⟨hf, hr, hfits, rows, hreordered _ (List.reverse_perm _), ?_⟩
  obtain rfl := Except.ok.inj hrows
  decide

end TieredFootage
