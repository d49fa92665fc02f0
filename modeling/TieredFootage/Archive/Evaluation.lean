import TieredFootage.Archive
import TieredFootage.Selection.Segments

/-!
# Evaluating a tier

An evaluation selects what leaves a tier and evicts it, one path after the other.
A recording follows its segments: once none of those selected with it has stayed
behind, its thumbnail and its clip are evicted by the keepers beside this one,
and on the last tier its row is deleted.

A selection that fails changes nothing. Whatever was evicted before a later
failure stays evicted.
-/

namespace TieredFootage

/-- Why an evaluation fails. -/
inductive EvaluationError
  | selectFiles
  | selectContinuous
  | selectEvents
  | deleteRecordings
  | listFiles
  /-- Something cannot be represented. -/
  | overflow (o : Overflow)
  deriving DecidableEq, Repr

def EvaluationError.message : EvaluationError → String
  | .selectFiles => "Failed to select files to move"
  | .selectContinuous => "Failed to select continuous segments"
  | .selectEvents => "Failed to select event segments"
  | .deleteRecordings => "Failed to delete recordings"
  | .listFiles => "Failed to list files to drain"
  | .overflow _ => "overflow"

/-- What an evaluation did: what became of each path, and the recordings whose
thumbnail and clip followed. -/
structure Report where
  outcomes : List (Path × Eviction) := []
  recordingIds : List Int := []
  deriving DecidableEq, Repr

namespace Archive

/-- Evicts a file from a tier and counts it. -/
def evictFrom (a : Archive) (t : Tier) (p fileRoot : Path) : Eviction × Archive :=
  let (outcome, h) := a.toHoldings.evict p fileRoot t.root t.next
  (outcome, { a with toHoldings := h }.update t.address (·.record outcome))

def evictAll (a : Archive) (t : Tier) : List (Path × Path) → List (Path × Eviction) × Archive
  | [] => ([], a)
  | (p, fileRoot) :: files =>
    let (outcome, a) := a.evictFrom t p fileRoot
    let (outcomes, a) := a.evictAll t files
    ((p, outcome) :: outcomes, a)

/-- Evicts the thumbnail of a recording from a tier and points the recording at
where it is now. -/
def moveThumbnail (a : Archive) (t : Tier) (id : Int) : Archive :=
  match a.catalog.getRecording id with
  | .ok (some r) =>
    match r.thumbnailPath with
    | none => a
    | some p =>
      match a.evictFrom t p t.root with
      | (.moved q, a) => a.withCatalog (a.catalog.updateThumbnail id q).2
      | (_, a) => a
  | _ => a

/-- Points the recordings of a camera at a clip: those whose clip has the same
last two names. -/
def repointClip (a : Archive) (camera : String) (p : Path) : Archive :=
  match clipSuffix? p with
  | none => a
  | some suffix => a.withCatalog (a.catalog.updateClip camera suffix p).2

/-- Evicts the clip of a recording from a tier and points its recording at where
it is now. -/
def moveClip (a : Archive) (t : Tier) (id : Int) : Archive :=
  match a.catalog.getRecording id with
  | .ok (some r) =>
    match r.clipPath with
    | none => a
    | some p =>
      match a.evictFrom t p t.root with
      | (.moved q, a) => a.repointClip t.camera q
      | (_, a) => a
  | _ => a

/-- Lets the thumbnails of recordings follow their segments. -/
def moveThumbnails (a : Archive) (t : Tier) (ids : List Int) : Archive :=
  match a.sibling? t thumbnailsName with
  | none => a
  | some k => ids.foldl (fun a id => a.moveThumbnail k.tier id) a

def moveClips (a : Archive) (t : Tier) (ids : List Int) : Archive :=
  match a.sibling? t clipsName with
  | none => a
  | some k => ids.foldl (fun a id => a.moveClip k.tier id) a

def moveSiblings (a : Archive) (t : Tier) (ids : List Int) : Archive :=
  (a.moveThumbnails t ids).moveClips t ids

def evaluatePlain (a : Archive) (t : Tier) (r : Retention) :
    Except EvaluationError Report × Archive :=
  if r.isConfigured then
    match a.catalog.selectFiles t.population with
    | .error _ => (.error .selectFiles, a)
    | .ok files =>
      let (outcomes, a) :=
        a.evictAll t ((filesToMove files r a.now).map fun f => (f.path, f.tierPath))
      (.ok { outcomes := outcomes }, a)
  else (.ok {}, a)

/-- What leaves on the plain axis of a segment tier; `none` if it is not configured. -/
def selectContinuous (a : Archive) (t : Tier) (r : Retention) :
    Except EvaluationError (Option (List TierFile)) :=
  if r.isConfigured then
    match a.catalog.selectFiles t.population with
    | .error _ => .error .selectContinuous
    | .ok files => .ok (some (filesToMove files r a.now))
  else .ok none

/-- What leaves on the events axis of a segment tier; `none` if it is not configured. -/
def selectEvents (a : Archive) (t : Tier) (r : Retention) :
    Except EvaluationError (Option (List EventRow)) :=
  if r.isConfigured then
    match a.catalog.selectFiles t.population, a.catalog.selectRecordings t.camera with
    | .ok files, .ok recordings =>
      match recordingsToMove recordings files r a.now with
      | .ok rows => .ok (some rows)
      | .error o => .error (.overflow o)
    | _, _ => .error .selectEvents
  else .ok none

def selectSegments (a : Archive) (t : Tier) (continuous events : Retention) :
    Except EvaluationError SegmentSelection := do
  let plain ← a.selectContinuous t continuous
  let rows ← a.selectEvents t events
  return combine plain rows

/-- The recordings that follow their segments, in the order of the rows: those
of which no row is about a path that stayed. -/
def followers (rows : List EventRow) (outcomes : List (Path × Eviction)) : List Int :=
  let stayed := (outcomes.filter fun x => !x.2.isGone).map (·.1)
  let blocked := (rows.filter fun row => decide (row.path ∈ stayed)).filterMap (·.recordingId)
  distinctBy id ((rows.filterMap (·.recordingId)).filter fun i => decide (i ∉ blocked))

/-- Evicts a selection from a segment tier, and what follows it. -/
def evictSelection (a : Archive) (t : Tier) (s : SegmentSelection) :
    Except EvaluationError Report × Archive :=
  let (outcomes, a) := a.evictAll t s.files
  let ids := followers s.events outcomes
  if ids.isEmpty then (.ok ⟨outcomes, []⟩, a)
  else
    -- What becomes of thumbnails and clips does not hold their recordings back.
    let a := a.moveSiblings t ids
    match t.next with
    | some _ => (.ok ⟨outcomes, ids⟩, a)
    | none =>
      match a.catalog.deleteRecordings ids with
      | (.ok _, c) => (.ok ⟨outcomes, ids⟩, a.withCatalog c)
      | (.error _, c) => (.error .deleteRecordings, a.withCatalog c)

/-- Evaluates a segment tier by its two axes. -/
def evaluateSegments (a : Archive) (t : Tier) (continuous events : Retention) :
    Except EvaluationError Report × Archive :=
  match a.selectSegments t continuous events with
  | .error e => (.error e, a)
  | .ok s => a.evictSelection t s

/-- Evaluates a tier as its role says. Thumbnails and clips only ever follow
segments. -/
def evaluate (a : Archive) (t : Tier) : Except EvaluationError Report × Archive :=
  match t.role with
  | .plain r => a.evaluatePlain t r
  | .segments continuous events => a.evaluateSegments t continuous events
  | .thumbnails | .clips => (.ok {}, a)

/-- Counts an evaluation of a tier and enters it. -/
def enterEvaluation (a : Archive) (t : Tier) : Archive :=
  { a with counters := { a.counters with evaluations := a.counters.evaluations + 1 } }.update
    t.address Keeper.enterEvaluation

def runPolicy (a : Archive) (t : Tier) : Except EvaluationError Report × Archive :=
  let before := a.phaseOf t.address
  let (result, a) := (a.enterEvaluation t).evaluate t
  (result, a.update t.address (Keeper.leaveEvaluation before))

/-- Evaluates a tier and keeps of the result only whether it overflowed. -/
def runPolicyQuietly (a : Archive) (t : Tier) : Archive :=
  match a.runPolicy t with
  | (.error (.overflow _), a) => { a with overflowed := true }
  | (_, a) => a

/-- Evaluates a tier unless it has been evaluated a short time ago, or is one
whose files only follow others. -/
def checkTier (a : Archive) (t : Tier) : Archive :=
  match t.role with
  | .thumbnails | .clips => a
  | .plain _ | .segments _ _ =>
    match a.keepers.get? t.address with
    | none => a
    | some k =>
      match k.throttle.acquire a.now with
      | (false, _) => a
      | (true, throttle) =>
        (a.update t.address fun k => { k with throttle := throttle }).runPolicyQuietly t

/-- Evicts every catalogued file of a tier. -/
def drain (a : Archive) (t : Tier) : Except EvaluationError Report × Archive :=
  match a.catalog.selectFiles t.population with
  | .error _ => (.error .listFiles, a)
  | .ok files =>
    let (outcomes, a) := a.evictAll t (files.map fun f => (f.path, f.tierPath))
    (.ok { outcomes := outcomes }, a)

@[simp] theorem evictAll_nil (a : Archive) (t : Tier) : a.evictAll t [] = ([], a) := rfl

theorem evictAll_cons (a : Archive) (t : Tier) (p fileRoot : Path) (files : List (Path × Path)) :
    a.evictAll t ((p, fileRoot) :: files) =
      ((p, (a.evictFrom t p fileRoot).1) :: ((a.evictFrom t p fileRoot).2.evictAll t files).1,
        ((a.evictFrom t p fileRoot).2.evictAll t files).2) := rfl

/-- Every path is handled once, in order. -/
theorem map_fst_evictAll (a : Archive) (t : Tier) (files : List (Path × Path)) :
    ((a.evictAll t files).1.map (·.1)) = files.map (·.1) := by
  induction files generalizing a with
  | nil => rfl
  | cons f files ih =>
    obtain ⟨p, fileRoot⟩ := f
    rw [evictAll_cons, List.map_cons, List.map_cons, ih]

/-- A selection that fails changes nothing. -/
theorem evaluateSegments_of_error {a : Archive} {t : Tier} {continuous events : Retention}
    {e : EvaluationError} (h : a.selectSegments t continuous events = .error e) :
    a.evaluateSegments t continuous events = (.error e, a) := by
  simp [evaluateSegments, h]

end Archive

end TieredFootage
