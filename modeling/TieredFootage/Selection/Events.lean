import TieredFootage.Catalog.Rows
import TieredFootage.Distinct
import TieredFootage.Retention

/-!
# Segments that leave with their recordings

The events axis judges closed recordings, not files: from the newest to the
oldest, each by its start and by the bytes of the segments in its window. A
segment leaves if every recording that has it in its window leaves, so one that
is shared with a recording that stays, or with one still in progress, stays as
well. Segments outside every recording leave too. None leaves before it has
settled: live viewers may still be reading it.

The window of a recording reaches back over its lookback and one segment. That
moment can lie outside the calendar, and the bytes of one recording can pass
the largest amount; then there is no selection at all, only `Overflow`.
-/

namespace TieredFootage

/-- The length of one segment, in seconds. -/
def segmentLength : Int := 5

/-- Segments have settled once they are older than this many seconds. -/
def settlingTime : Nat := 25

/-- A segment selected with a recording, or alone. -/
structure EventRow where
  recordingId : Option Int
  fileId : Int
  path : Path
  tierPath : Path
  deriving DecidableEq, Repr

/-- A moment, a span or a sum that cannot be represented. -/
inductive Overflow
  /-- The lookback is too long for a span of time. -/
  | span
  /-- A window opens before the calendar does. -/
  | moment
  /-- The segments of one recording have too many bytes. -/
  | bytes
  deriving DecidableEq, Repr

namespace Recording

/-- The seconds of footage before the start that belong to the recording. -/
def lead (r : Recording) : Int := max r.lookback 0 + segmentLength

def opensAt (r : Recording) : Int := r.startTime - r.lead * second

/-- When the window closes; that of a recording in progress is open until now. -/
def closesAt (r : Recording) (now : Int) : Int := r.endTime.getD now

/-- Whether a file is linked to the recording: it was made in the window. -/
def covers (r : Recording) (now : Int) (f : TierFile) : Bool :=
  decide (r.opensAt ≤ f.effective) && decide (f.effective ≤ r.closesAt now)

/-- The files linked to the recording, in the order of the population. -/
def linked (r : Recording) (now : Int) (files : List TierFile) : List TierFile :=
  files.filter (r.covers now)

def linkedBytes (r : Recording) (now : Int) (files : List TierFile) : Nat :=
  total ((r.linked now files).map TierFile.bytes)

/-- What cannot be represented about the recording, if anything. -/
def overflow? (r : Recording) (now : Int) (files : List TierFile) : Option Overflow :=
  if longestSpan < r.lead then some .span
  else if r.opensAt < earliest then some .moment
  else if r.isClosed && decide (maxAmount < r.linkedBytes now files) then some .bytes
  else none

theorem mem_linked {r : Recording} {now : Int} {files : List TierFile} {f : TierFile} :
    f ∈ r.linked now files ↔
      f ∈ files ∧ r.opensAt ≤ f.effective ∧ f.effective ≤ r.closesAt now := by
  simp [linked, covers]

end Recording

/-- Whether live viewers are done with a segment. -/
def TierFile.isSettled (f : TierFile) (now : Int) : Bool :=
  decide (settlingTime * 1000000000 < age now f.effective)

/-- The row of a segment, on behalf of a recording or of none. -/
def TierFile.eventRow (f : TierFile) (recordingId : Option Int) : EventRow :=
  ⟨recordingId, f.id, f.path, f.tierPath⟩

/-- The closed recordings, newest first, each with the verdict on it. -/
def judgedRecordings (recordings : List Recording) (files : List TierFile) (r : Retention)
    (now : Int) : List (Recording × Bool) :=
  r.judge r.minAge now (fun x => x.linkedBytes now files) (fun x => x.startTime) 0
    (newestFirst Recording.rank (recordings.filter Recording.isClosed))

/-- The ids of the segments that some recording keeps in the tier. -/
def retainedIds (recordings : List Recording) (files : List TierFile) (r : Retention) (now : Int) :
    List Int :=
  let inProgress := recordings.filter fun x => !x.isClosed
  let staying := (judgedRecordings recordings files r now).filter fun x => !x.2
  (inProgress ++ staying.map (·.1)).flatMap fun x => (x.linked now files).map (·.id)

/-- The rows of the segments that leave with a recording, before repeated
segments are dropped. -/
def recordingRows (recordings : List Recording) (files : List TierFile) (r : Retention)
    (now : Int) : List EventRow :=
  let leaving := (judgedRecordings recordings files r now).filter (·.2)
  let kept := retainedIds recordings files r now
  leaving.flatMap fun x =>
    ((x.1.linked now files).filter fun f => f.isSettled now && decide (f.id ∉ kept)).map
      (·.eventRow (some x.1.id))

/-- The rows of the settled segments that no recording has in its window. -/
def orphanRows (recordings : List Recording) (files : List TierFile) (now : Int) : List EventRow :=
  let linked := recordings.flatMap fun x => (x.linked now files).map (·.id)
  (files.filter fun f => decide (f.id ∉ linked) && f.isSettled now).map (·.eventRow none)

/-- The segments that leave, each once: those of recordings, the newest
recording first, and then those of none. -/
def eventRows (recordings : List Recording) (files : List TierFile) (r : Retention) (now : Int) :
    List EventRow :=
  distinctBy EventRow.fileId
    (recordingRows recordings files r now ++ orphanRows recordings files now)

/-- What cannot be represented in an evaluation of the events axis, if anything. -/
def eventOverflow? (recordings : List Recording) (files : List TierFile) (now : Int) :
    Option Overflow :=
  recordings.findSome? fun x => x.overflow? now files

/-- The segments that leave, unless something cannot be represented. -/
def recordingsToMove (recordings : List Recording) (files : List TierFile) (r : Retention)
    (now : Int) : Except Overflow (List EventRow) :=
  match eventOverflow? recordings files now with
  | some o => .error o
  | none => .ok (eventRows recordings files r now)

/-- There is no selection exactly if some recording cannot be represented. -/
theorem recordingsToMove_isOk_iff {recordings : List Recording} {files : List TierFile}
    {r : Retention} {now : Int} :
    (recordingsToMove recordings files r now).isOk = true ↔
      ∀ x ∈ recordings, x.overflow? now files = none := by
  rw [recordingsToMove]
  cases h : eventOverflow? recordings files now with
  | none => simpa [Except.isOk, Except.toBool, eventOverflow?] using h
  | some o =>
    simp only [Except.isOk, Except.toBool, Bool.false_eq_true, false_iff]
    intro hx
    have : eventOverflow? recordings files now = none := by simpa [eventOverflow?] using hx
    rw [this] at h
    exact absurd h (by simp)

end TieredFootage
