import TieredFootage.Archive.Evaluation
import TieredFootage.Proofs.Catalog.Frames

/-!
# What an evaluation does to the table of recordings

Evictions touch files and notes, never a recording. Moving a thumbnail or a clip
points recordings elsewhere, but takes none away. So the ids in the table stay
what they are through a whole evaluation, up to its last step: a last tier
deletes the recordings that it reports.
-/

namespace TieredFootage

namespace Catalog

/-- The ids in the table of recordings. -/
def recordingIds (c : Catalog) : List Int := c.recordings.map (·.id)

theorem recordingIds_congr {c c' : Catalog} (h : c'.recordings = c.recordings) :
    c'.recordingIds = c.recordingIds :=
  congrArg (List.map Recording.id) h

theorem recordingIds_map {c : Catalog} {f : Recording → Recording} (hf : ∀ r, (f r).id = r.id) :
    ({ c with recordings := c.recordings.map f } : Catalog).recordingIds = c.recordingIds := by
  simp [recordingIds, List.map_map, Function.comp_def, hf]

@[simp] theorem recordingIds_updateThumbnail (c : Catalog) (id : Int) (p : Path) :
    (c.updateThumbnail id p).2.recordingIds = c.recordingIds := by
  unfold updateThumbnail
  split
  · exact recordingIds_map fun r => by split <;> rfl
  · rfl

@[simp] theorem recordingIds_updateClip (c : Catalog) (camera : String) (suffix p : Path) :
    (c.updateClip camera suffix p).2.recordingIds = c.recordingIds := by
  unfold updateClip
  split
  · exact recordingIds_map fun r => by split <;> rfl
  · rfl

/-- A deletion that succeeds takes exactly the given ids away. -/
theorem recordingIds_deleteRecordings_of_ok {c c' : Catalog} {ids : List Int} {n : Nat}
    (h : c.deleteRecordings ids = (.ok n, c')) :
    c'.recordingIds = c.recordingIds.filter fun i => decide (i ∉ ids) := by
  unfold deleteRecordings at h
  split at h
  · simp at h
  · split at h
    · rename_i hempty
      obtain rfl := List.isEmpty_iff.1 hempty
      obtain ⟨-, rfl⟩ := Prod.mk.inj h
      exact (List.filter_eq_self.2 fun i _ => by simp).symm
    · split at h
      · obtain ⟨-, rfl⟩ := Prod.mk.inj h
        simp only [recordingIds, List.filter_map, Function.comp_def]
      · simp at h

theorem eq_of_deleteRecordings_error {c c' : Catalog} {ids : List Int} {e : CatalogError}
    (h : c.deleteRecordings ids = (.error e, c')) : c' = c := by
  unfold deleteRecordings at h
  split at h
  · exact (Prod.mk.inj h).2.symm
  · split at h
    · simp at h
    · split at h
      · simp at h
      · exact (Prod.mk.inj h).2.symm

end Catalog

namespace Holdings

@[simp] theorem recordings_dropRow (h : Holdings) (p : Path) :
    (h.dropRow p).catalog.recordings = h.catalog.recordings :=
  Catalog.recordings_deleteFile h.catalog p

theorem recordings_move (h : Holdings) (source target : Path) :
    (h.move source target).2.catalog.recordings = h.catalog.recordings := by
  have hcopy := Catalog.recordings_copyNote h.catalog source target
  simp only [move]
  split
  · exact hcopy
  · rw [recordings_dropRow]
    exact hcopy
  · exact hcopy

theorem recordings_discard (h : Holdings) (p : Path) :
    (h.discard p).2.catalog.recordings = h.catalog.recordings := by
  have hdrop := recordings_dropRow h p
  simp only [discard]
  split <;> exact hdrop

/-- No eviction touches a recording. -/
theorem recordings_evict (h : Holdings) (p fileRoot root : Path) (next : Option Path) :
    (h.evict p fileRoot root next).2.catalog.recordings = h.catalog.recordings := by
  have hunserved : ∀ g : Holdings,
      (g.evictUnserved p fileRoot next).2.catalog.recordings = g.catalog.recordings := by
    intro g
    cases next with
    | none => exact recordings_discard g p
    | some next =>
      simp only [evictUnserved]
      split
      · rfl
      · exact recordings_move g p _
  unfold evict
  split
  · rfl
  · rename_i served _
    have hg := hunserved { h with served := served }
    dsimp only
    split
    · exact hg
    · rw [recordings_dropRow]
      exact hg

end Holdings

namespace Archive

theorem recordings_evictFrom (a : Archive) (t : Tier) (p fileRoot : Path) :
    (a.evictFrom t p fileRoot).2.catalog.recordings = a.catalog.recordings :=
  Holdings.recordings_evict a.toHoldings p fileRoot t.root t.next

theorem recordings_evictAll (a : Archive) (t : Tier) (files : List (Path × Path)) :
    (a.evictAll t files).2.catalog.recordings = a.catalog.recordings := by
  induction files generalizing a with
  | nil => rfl
  | cons f files ih =>
    obtain ⟨p, fileRoot⟩ := f
    rw [evictAll_cons, ih, recordings_evictFrom]

theorem recordingIds_evictFrom (a : Archive) (t : Tier) (p fileRoot : Path) :
    (a.evictFrom t p fileRoot).2.catalog.recordingIds = a.catalog.recordingIds :=
  Catalog.recordingIds_congr (recordings_evictFrom a t p fileRoot)

theorem recordingIds_moveThumbnail (a : Archive) (t : Tier) (id : Int) :
    (a.moveThumbnail t id).catalog.recordingIds = a.catalog.recordingIds := by
  unfold moveThumbnail
  split
  · rename_i r _
    split
    · rfl
    · rename_i p _
      have hevict := recordingIds_evictFrom a t p t.root
      split
      · rename_i q b heq
        rw [heq] at hevict
        exact (Catalog.recordingIds_updateThumbnail b.catalog id q).trans hevict
      · rename_i b _ heq
        rw [heq] at hevict
        exact hevict
  · rfl

theorem recordingIds_repointClip (a : Archive) (camera : String) (p : Path) :
    (a.repointClip camera p).catalog.recordingIds = a.catalog.recordingIds := by
  unfold repointClip
  split
  · rfl
  · rename_i suffix _
    exact Catalog.recordingIds_updateClip a.catalog camera suffix p

theorem recordingIds_moveClip (a : Archive) (t : Tier) (id : Int) :
    (a.moveClip t id).catalog.recordingIds = a.catalog.recordingIds := by
  unfold moveClip
  split
  · rename_i r _
    split
    · rfl
    · rename_i p _
      have hevict := recordingIds_evictFrom a t p t.root
      split
      · rename_i q b heq
        rw [heq] at hevict
        exact (recordingIds_repointClip b t.camera q).trans hevict
      · rename_i b _ heq
        rw [heq] at hevict
        exact hevict
  · rfl

/-- Thumbnails and clips follow one after the other, and no recording is lost on
the way. -/
theorem recordingIds_moveSiblings (a : Archive) (t : Tier) (ids : List Int) :
    (a.moveSiblings t ids).catalog.recordingIds = a.catalog.recordingIds := by
  have hfold : ∀ (f : Archive → Int → Archive),
      (∀ b i, (f b i).catalog.recordingIds = b.catalog.recordingIds) →
      ∀ b : Archive, (ids.foldl f b).catalog.recordingIds = b.catalog.recordingIds := by
    intro f hf
    induction ids with
    | nil => exact fun b => rfl
    | cons i ids ih => exact fun b => (ih (f b i)).trans (hf b i)
  have hthumbnails : (a.moveThumbnails t ids).catalog.recordingIds = a.catalog.recordingIds := by
    unfold moveThumbnails
    split
    · rfl
    · exact hfold _ (fun b i => recordingIds_moveThumbnail b _ i) a
  rw [← hthumbnails, moveSiblings, moveClips]
  split
  · rfl
  · exact hfold _ (fun b i => recordingIds_moveClip b _ i) _

/-- What is left of the ids after an evaluation with this result. -/
def remainingIds (t : Tier) (ids : List Int) : Except EvaluationError Report → List Int
  | .ok report =>
    if t.next = none then ids.filter fun i => decide (i ∉ report.recordingIds) else ids
  | .error _ => ids

theorem remainingIds_of_nil (t : Tier) (ids : List Int) {report : Report}
    (h : report.recordingIds = []) : remainingIds t ids (.ok report) = ids := by
  simp [remainingIds, h]

theorem recordingIds_evictSelection (a : Archive) (t : Tier) (s : SegmentSelection) :
    (a.evictSelection t s).2.catalog.recordingIds =
      remainingIds t a.catalog.recordingIds (a.evictSelection t s).1 := by
  have hevict : (a.evictAll t s.files).2.catalog.recordingIds = a.catalog.recordingIds :=
    Catalog.recordingIds_congr (recordings_evictAll a t s.files)
  simp only [evictSelection]
  generalize hids : followers s.events (a.evictAll t s.files).1 = ids
  have hsiblings := recordingIds_moveSiblings (a.evictAll t s.files).2 t ids
  split
  · rw [remainingIds_of_nil t _ rfl]
    exact hevict
  · split
    · rename_i next hnext
      rw [remainingIds, if_neg (by simp [hnext])]
      exact hsiblings.trans hevict
    · rename_i hnext
      split
      · rename_i n c hdelete
        have hrest := Catalog.recordingIds_deleteRecordings_of_ok hdelete
        rw [remainingIds, if_pos hnext, ← hevict, ← hsiblings]
        exact hrest
      · rename_i e c hdelete
        obtain rfl := Catalog.eq_of_deleteRecordings_error hdelete
        exact hsiblings.trans hevict

/-- An evaluation leaves all recordings in the table, except that a last tier
deletes those it reports. -/
theorem recordingIds_runPolicy (a : Archive) (t : Tier) :
    (a.runPolicy t).2.catalog.recordingIds =
      remainingIds t a.catalog.recordingIds (a.runPolicy t).1 := by
  have heval : ∀ b : Archive, (b.evaluate t).2.catalog.recordingIds =
      remainingIds t b.catalog.recordingIds (b.evaluate t).1 := by
    intro b
    unfold evaluate
    split
    · rename_i r _
      unfold evaluatePlain
      split
      · split
        · rfl
        · rw [remainingIds_of_nil t _ rfl]
          exact Catalog.recordingIds_congr (recordings_evictAll b t _)
      · rw [remainingIds_of_nil t _ rfl]
    · unfold evaluateSegments
      split
      · rfl
      · exact recordingIds_evictSelection b t _
    · rw [remainingIds_of_nil t _ rfl]
    · rw [remainingIds_of_nil t _ rfl]
  exact heval (a.enterEvaluation t)

end Archive

end TieredFootage
