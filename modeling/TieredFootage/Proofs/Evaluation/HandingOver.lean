import TieredFootage.Archive.Evaluation

/-!
# An evaluation from its beginning to its end

An evaluation is entered, hands over files one after the other, lets recordings follow
them, and is left again. `evaluated` is the archive after that, and nothing else happens
on the way: also if the recordings that follow cannot be deleted in the end, and if there
is no selection, which is as if nothing had been selected.
-/

namespace TieredFootage

namespace Archive

/-- What becomes of the files that an evaluation hands over. -/
def handOver (a : Archive) (t : Tier) (files : List (Path × Path)) :
    List (Path × Eviction) × Archive :=
  (a.enterEvaluation t).evictAll t files

/-- Lets thumbnails and clips of recordings follow. On a last tier the recordings are deleted
then, if the catalog answers. -/
def followUp (a : Archive) (t : Tier) (ids : List Int) : Archive :=
  if ids.isEmpty then a
  else
    let a := a.moveSiblings t ids
    match t.next with
    | some _ => a
    | none => a.withCatalog (a.catalog.deleteRecordings ids).2

/-- The archive after an evaluation that hands over files and lets recordings follow. -/
def evaluated (a : Archive) (t : Tier) (files : List (Path × Path)) (ids : List Int) : Archive :=
  ((a.handOver t files).2.followUp t ids).update t.address
    (Keeper.leaveEvaluation (a.phaseOf t.address))

variable {a : Archive} {t : Tier} {r continuous events : Retention} {s : SegmentSelection}
  {e : EvaluationError}

@[simp] theorem followUp_nil (a : Archive) (t : Tier) : a.followUp t [] = a := rfl

theorem map_fst_handOver (a : Archive) (t : Tier) (files : List (Path × Path)) :
    (a.handOver t files).1.map (·.1) = files.map (·.1) :=
  map_fst_evictAll (a.enterEvaluation t) t files

/-- Whether it is deleted in the end or not, the recordings of a selection follow it. -/
theorem snd_evictSelection (a : Archive) (t : Tier) (s : SegmentSelection) :
    (a.evictSelection t s).2 =
      (a.evictAll t s.files).2.followUp t (followers s.events (a.evictAll t s.files).1) := by
  simp only [evictSelection, followUp]
  split
  · rfl
  · cases hnext : t.next with
    | some next => rfl
    | none => dsimp only; split <;> rename_i heq <;> rw [heq]

/-- After recordings have followed, nothing has happened because there were none, or
thumbnails and clips have followed, and recordings may have been deleted as well. -/
theorem followUp_cases {P : Archive → Prop} {ids : List Int} (hnone : ids = [] → P a)
    (hmoved : P (a.moveSiblings t ids))
    (hdeleted : P ((a.moveSiblings t ids).withCatalog
      ((a.moveSiblings t ids).catalog.deleteRecordings ids).2)) : P (a.followUp t ids) := by
  unfold followUp
  split
  · rename_i hempty
    exact hnone (List.isEmpty_iff.1 hempty)
  · dsimp only
    split
    · exact hmoved
    · exact hdeleted

/-- Leaving an evaluation changes nothing but a phase. -/
theorem toHoldings_runPolicy_of_segments (ht : t.role = .segments continuous events)
    (h : (a.enterEvaluation t).selectSegments t continuous events = .ok s) :
    (a.runPolicy t).2.toHoldings = ((a.enterEvaluation t).evictSelection t s).2.toHoldings := by
  simp [runPolicy, evaluate, ht, evaluateSegments, h]

/-- A segment tier hands over what is selected, and whoever follows it follows. -/
theorem snd_runPolicy_of_segments (ht : t.role = .segments continuous events)
    (h : a.selectSegments t continuous events = .ok s) :
    (a.runPolicy t).2 = a.evaluated t s.files (followers s.events (a.handOver t s.files).1) := by
  have hselect : (a.enterEvaluation t).selectSegments t continuous events = .ok s := h
  simp only [runPolicy, evaluate, ht, evaluateSegments, hselect, snd_evictSelection]
  rfl

theorem runPolicy_of_segments_error (ht : t.role = .segments continuous events)
    (h : a.selectSegments t continuous events = .error e) :
    a.runPolicy t = (.error e, a.evaluated t [] []) := by
  have hselect : (a.enterEvaluation t).selectSegments t continuous events = .error e := h
  simp only [runPolicy, evaluate, ht, evaluateSegments_of_error hselect]
  rfl

end Archive

end TieredFootage
