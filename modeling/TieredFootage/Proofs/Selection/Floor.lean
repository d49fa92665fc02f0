import TieredFootage.Proofs.Selection.Cut
import TieredFootage.Proofs.Selection.EventsRule

/-!
# The floor of the events axis

The least number of bytes that has to stay is a floor under what leaves for its size:
before a recording leaves for its size, the recordings newer than it have to come to that
many bytes. The walk adds up the bytes linked to each of them, and windows overlap, so a
file linked to several of them is counted several times.

What the walk counts for the recordings that stay therefore comes to the floor, always.
What they hold is that less the bytes counted again, and nothing is counted again exactly
if no two of them share a file that has bytes.
-/

namespace TieredFootage

variable {recordings : List Recording} {files : List TierFile} {r : Retention} {now : Int}

section Counting

theorem total_map_add {α : Type} (f g : α → Nat) (xs : List α) :
    total (xs.map fun x => f x + g x) = total (xs.map f) + total (xs.map g) := by
  induction xs with
  | nil => rfl
  | cons x xs ih =>
    simp only [List.map_cons, total_cons, ih]
    omega

theorem total_map_ite {α : Type} (p : α → Bool) (f : α → Nat) (xs : List α) :
    total (xs.map fun x => if p x = true then f x else 0) = total ((xs.filter p).map f) := by
  induction xs with
  | nil => rfl
  | cons x xs ih =>
    cases hx : p x with
    | true => rw [List.filter_cons_of_pos hx, List.map_cons, List.map_cons, total_cons, total_cons,
        if_pos hx, ih]
    | false => simp [hx, ih]

theorem total_eq_zero_iff {ns : List Nat} : total ns = 0 ↔ ∀ n ∈ ns, n = 0 := by
  induction ns with
  | nil => simp
  | cons n ns ih => rw [total_cons, Nat.add_eq_zero_iff, ih, List.forall_mem_cons]

/-- How many of some recordings a file is linked to. -/
def linkCount (xs : List Recording) (now : Int) (f : TierFile) : Nat :=
  xs.countP fun x => x.covers now f

/-- The bytes of the files linked to any of some recordings, each file once. -/
def heldBytes (xs : List Recording) (files : List TierFile) (now : Int) : Nat :=
  total ((files.filter fun f => xs.any fun x => x.covers now f).map TierFile.bytes)

/-- The bytes that are counted again if those linked to each of some recordings are added
up. -/
def recountedBytes (xs : List Recording) (files : List TierFile) (now : Int) : Nat :=
  total (files.map fun f => (linkCount xs now f - 1) * f.bytes)

/-- Adding up by recording counts every file as often as it is linked. -/
theorem total_linkedBytes (xs : List Recording) (files : List TierFile) (now : Int) :
    total (xs.map fun x => x.linkedBytes now files) =
      total (files.map fun f => linkCount xs now f * f.bytes) := by
  induction xs with
  | nil => exact (total_eq_zero_iff.2 (by simp [linkCount])).symm
  | cons x xs ih =>
    have hcount : ∀ f, linkCount (x :: xs) now f * f.bytes =
        (if x.covers now f = true then f.bytes else 0) + linkCount xs now f * f.bytes := by
      intro f
      rw [linkCount, List.countP_cons]
      split
      · rw [Nat.add_mul, Nat.one_mul, Nat.add_comm]
        rfl
      · rw [Nat.add_zero, Nat.zero_add]
        rfl
    simp only [hcount]
    rw [List.map_cons, total_cons, ih, total_map_add, total_map_ite]
    rfl

theorem total_linkedBytes_eq_held_add_recounted (xs : List Recording) (files : List TierFile)
    (now : Int) : total (xs.map fun x => x.linkedBytes now files) =
      heldBytes xs files now + recountedBytes xs files now := by
  have hsplit : ∀ f : TierFile, linkCount xs now f * f.bytes =
      (if xs.any (fun x => x.covers now f) = true then f.bytes else 0) +
        (linkCount xs now f - 1) * f.bytes := by
    intro f
    have hany : xs.any (fun x => x.covers now f) = true ↔ 0 < linkCount xs now f := by
      rw [List.any_eq_true, linkCount, List.countP_pos_iff]
    rcases Nat.eq_zero_or_pos (linkCount xs now f) with hzero | hpos
    · rw [if_neg (by rw [hany]; omega), hzero, Nat.zero_sub, Nat.zero_mul]
    · rw [if_pos (hany.2 hpos)]
      calc linkCount xs now f * f.bytes
        _ = (1 + (linkCount xs now f - 1)) * f.bytes := by rw [Nat.add_sub_cancel' hpos]
        _ = f.bytes + (linkCount xs now f - 1) * f.bytes := by rw [Nat.add_mul, Nat.one_mul]
  rw [total_linkedBytes]
  simp only [hsplit]
  rw [total_map_add, total_map_ite]
  rfl

/-- Nothing is counted again exactly if no two of the recordings share a file that has
bytes. -/
theorem recountedBytes_eq_zero_iff {xs : List Recording} :
    recountedBytes xs files now = 0 ↔ ∀ f ∈ files, f.bytes ≠ 0 → linkCount xs now f ≤ 1 := by
  rw [recountedBytes, total_eq_zero_iff, List.forall_mem_map]
  refine forall₂_congr fun f _ => ?_
  rw [Nat.mul_eq_zero, Nat.sub_eq_zero_iff_le, or_comm, or_iff_not_imp_left]

end Counting

/-- The closed recordings that the rule does not take. -/
def keptRecordings (recordings : List Recording) (files : List TierFile) (r : Retention)
    (now : Int) : List Recording :=
  recordings.filter fun x => x.isClosed && !decide (r.Takes now recordings files x)

/-- If any recording leaves there is a newest one that does. -/
theorem exists_newest_leaving {x : Recording} (h : Leaves recordings files r now x) :
    ∃ y, Leaves recordings files r now y ∧
      ∀ z, Leaves recordings files r now z → y.rank.atLeast z.rank = true := by
  have hx := mem_leavingRecordings.2 h
  have hsorted : (leavingRecordings recordings files r now).Pairwise fun y z =>
    y.rank.atLeast z.rank = true := pairwise_leavingRecordings
  cases hleaving : leavingRecordings recordings files r now with
  | nil => simp [hleaving] at hx
  | cons y ys =>
    rw [hleaving, List.pairwise_cons] at hsorted
    have hy : y ∈ leavingRecordings recordings files r now := hleaving ▸ List.mem_cons_self
    refine ⟨y, mem_leavingRecordings.1 hy, fun z hz => ?_⟩
    have hz' := mem_leavingRecordings.2 hz
    rw [hleaving] at hz'
    rcases List.mem_cons.1 hz' with rfl | hz'
    · exact Rank.atLeast_refl _
    · exact hsorted.1 z hz'

/-- What the walk has passed before the newest recording that leaves are bytes of
recordings that stay. -/
theorem newerFootage_le_of_newest (hr : (recordings.map (·.id)).Nodup) {y : Recording}
    (h : ∀ z, Leaves recordings files r now z → y.rank.atLeast z.rank = true) :
    Retention.newerFootage recordings files now y ≤
      total ((keptRecordings recordings files r now).map fun z => z.linkedBytes now files) := by
  -- a recording newer than `y` does not leave, so those that are newer are all kept ones
  have hkept : (recordings.filter Recording.isClosed).filter
        (fun z => decide (z.rank.Newer y.rank)) =
      (keptRecordings recordings files r now).filter fun z => decide (z.rank.Newer y.rank) := by
    rw [keptRecordings, List.filter_filter, List.filter_filter]
    refine List.filter_congr fun z hz => ?_
    by_cases hnewer : z.rank.Newer y.rank
    · have hnot : ¬ r.Takes now recordings files z := fun htakes =>
        Rank.not_newer_of_atLeast (h z ((leaves_iff_takes hr).2 ⟨hz, htakes⟩)) hnewer
      simp [hnot]
    · simp [hnewer]
  rw [Retention.newerFootage, newerBytes, hkept]
  exact Nat.le_trans (capped_le_self _) (total_sublist (List.filter_sublist.map _))

/-- If a recording leaves that is not too old, the walk counts the floor for those that
stay. The newest recording that leaves is no older, so it leaves for its size as well, and
all that the walk has passed before it stays. -/
theorem minBytes_le_counted (hr : (recordings.map (·.id)).Nodup) {x : Recording}
    (hx : Leaves recordings files r now x)
    (hsize : r.maxAge = 0 ∨ age now x.startTime ≤ r.maxAge * 1000000000) :
    r.minBytes ≤
      total ((keptRecordings recordings files r now).map fun z => z.linkedBytes now files) := by
  obtain ⟨y, hy, hnewest⟩ := exists_newest_leaving hx
  have hage : age now y.startTime ≤ age now x.startTime :=
    age_anti (Rank.moment_le_of_atLeast (hnewest x hx))
  obtain ⟨-, -, ⟨hset, hold⟩ | ⟨-, -, hfloor⟩⟩ := ((leaves_iff_takes hr).1 hy).2
  · omega
  · exact Nat.le_trans hfloor (newerFootage_le_of_newest hr hnewest)

/-- If there is a row of a recording that leaves for its size, the bytes that the walk
counts for the recordings that stay come to the floor. What these recordings hold comes to
it exactly if the bytes counted again leave room for it, and none are counted again exactly
if no two of these recordings share a file that has bytes. -/
theorem floor_held_iff (hf : (files.map (·.id)).Nodup) (hr : (recordings.map (·.id)).Nodup)
    {rows : List EventRow} (hrows : recordingsToMove recordings files r now = .ok rows)
    {row : EventRow} (hrow : row ∈ rows) {x : Recording} (hx : x ∈ recordings)
    (hid : row.recordingId = some x.id)
    (hsize : r.maxAge = 0 ∨ age now x.startTime ≤ r.maxAge * 1000000000) :
    r.minBytes ≤
        total ((keptRecordings recordings files r now).map fun z => z.linkedBytes now files) ∧
      (r.minBytes ≤ heldBytes (keptRecordings recordings files r now) files now ↔
        r.minBytes + recountedBytes (keptRecordings recordings files r now) files now ≤
          total ((keptRecordings recordings files r now).map fun z => z.linkedBytes now files)) ∧
      (recountedBytes (keptRecordings recordings files r now) files now = 0 ↔
        ∀ f ∈ files, f.bytes ≠ 0 →
          linkCount (keptRecordings recordings files r now) now f ≤ 1) := by
  obtain ⟨-, rfl⟩ := recordingsToMove_eq_ok_iff.1 hrows
  obtain ⟨f, -, hdep, hrowOf⟩ := (mem_eventRows_iff hf hr).1 hrow
  have hspeaks : SpeaksFor recordings now x f := (hrowOf.recordingId_eq_some_iff hr hx).1 hid
  refine ⟨minBytes_le_counted hr (hdep.2 x hx hspeaks.1) hsize, ?_, recountedBytes_eq_zero_iff⟩
  rw [total_linkedBytes_eq_held_add_recounted]
  omega

/-- Two newer recordings that have one segment in common, and an older one with a segment
of its own. -/
def sharedRecordings : List Recording :=
  [recordingOver 1 1000 (some 1100), recordingOver 2 3000 (some 3100),
    recordingOver 3 3010 (some 3110)]

/-- The segment of the older recording and the one that the newer ones share. -/
def sharedSegments : List TierFile := [segmentMadeAt 1 1050, segmentMadeAt 2 3050]

/-- With a floor of four bytes the shared segment alone is enough, though it is counted
twice. -/
theorem floor_held_iff_shared :
    (sharedSegments.map (·.id)).Nodup ∧ (sharedRecordings.map (·.id)).Nodup ∧
    ∃ rows row, recordingsToMove sharedRecordings sharedSegments { maxBytes := 10, minBytes := 4 }
        (10000 * second) = .ok rows ∧ row ∈ rows ∧ row.recordingId = some 1 ∧
      recountedBytes (keptRecordings sharedRecordings sharedSegments
        { maxBytes := 10, minBytes := 4 } (10000 * second)) sharedSegments (10000 * second) = 4 ∧
      4 ≤ heldBytes (keptRecordings sharedRecordings sharedSegments
        { maxBytes := 10, minBytes := 4 } (10000 * second)) sharedSegments (10000 * second) := by
  have hrows : recordingsToMove sharedRecordings sharedSegments { maxBytes := 10, minBytes := 4 }
      (10000 * second) = .ok [(segmentMadeAt 1 1050).eventRow (some 1)] := by decide
  exact ⟨by decide, by decide, _, _, hrows, List.mem_cons_self, rfl, by decide,
    (floor_held_iff (by decide) (by decide) hrows List.mem_cons_self
      (x := recordingOver 1 1000 (some 1100)) List.mem_cons_self rfl (Or.inl rfl)).2.1.2
      (by decide)⟩

/-- With a floor of eight bytes the older recording leaves for its size, and the newer ones
that stay hold four bytes together. -/
theorem not_forall_floor_held :
    ¬ ∀ (recordings : List Recording) (files : List TierFile) (r : Retention) (now : Int)
        (rows : List EventRow) (row : EventRow) (x : Recording),
        (files.map (·.id)).Nodup → (recordings.map (·.id)).Nodup →
        recordingsToMove recordings files r now = .ok rows → row ∈ rows → x ∈ recordings →
        row.recordingId = some x.id →
        (r.maxAge = 0 ∨ age now x.startTime ≤ r.maxAge * 1000000000) →
        r.minBytes ≤ heldBytes (keptRecordings recordings files r now) files now := by
  intro hall
  have hheld := hall sharedRecordings sharedSegments { maxBytes := 10, minBytes := 8 }
    (10000 * second) [(segmentMadeAt 1 1050).eventRow (some 1)] _
    (recordingOver 1 1000 (some 1100)) (by decide) (by decide) (by decide) List.mem_cons_self
    List.mem_cons_self rfl (Or.inl rfl)
  exact absurd hheld (by decide)

end TieredFootage
