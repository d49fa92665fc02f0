import TieredFootage.Proofs.Evaluation.Changes

/-!
# Evaluations that fail

An evaluation asks the catalog first and acts only once it has been told all it
needs to know. So when one of its selections fails, nothing has happened yet:
the evaluation is counted, and the keeper is back in the phase it was in. Only the
deletion of recordings, the last step of all, can fail after something was done.
-/

namespace TieredFootage

namespace Archive

variable {a : Archive} {t : Tier} {s : SegmentSelection} {e : EvaluationError}

/-- An evaluation fails before anything was done, or while a selection is evicted. -/
theorem eq_or_exists_evictSelection (h : (a.evaluate t).1 = .error e) :
    (a.evaluate t).2 = a ∨ ∃ s, (a.evictSelection t s).1 = .error e := by
  revert h
  unfold evaluate
  split
  · unfold evaluatePlain
    split
    · split
      · exact fun _ => Or.inl rfl
      · exact fun h => nomatch h
    · exact fun h => nomatch h
  · unfold evaluateSegments
    split
    · exact fun _ => Or.inl rfl
    · exact fun h => Or.inr ⟨_, h⟩
  · exact fun h => nomatch h
  · exact fun h => nomatch h

end Archive

end TieredFootage
