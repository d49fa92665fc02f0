import Mathlib.Order.Basic
import Mathlib.Order.Monotone.Defs
import TieredFootage.Proofs.Chain.Roster

/-!
# Thresholds at the ceiling

A threshold is written down in units, and every step of the calculation stays below the
ceiling. Nothing of this shows in the end: the threshold is the exact total, cut once. So it
grows with each of its units, and there is no threshold only where no unit is given, or
where all of them are zero.

The days that a recorder is to retain take the place of one threshold, the largest age of
events in the first tier, and are cut in the same way.
-/

namespace TieredFootage

theorem maxAmount_eq : maxAmount = 2 ^ 64 - 1 := by decide

theorem capped_eq_min (n : Nat) : capped n = min n (2 ^ 64 - 1) := by
  rw [capped, maxAmount_eq]

namespace AgeSpec

/-- Ages are compared unit by unit; a unit that is left out is zero. -/
instance : Preorder AgeSpec :=
  Preorder.lift fun a => (a.days.getD 0, a.hours.getD 0, a.minutes.getD 0)

theorem le_iff {a b : AgeSpec} : a ≤ b ↔ a.days.getD 0 ≤ b.days.getD 0 ∧
    a.hours.getD 0 ≤ b.hours.getD 0 ∧ a.minutes.getD 0 ≤ b.minutes.getD 0 := Iff.rfl

theorem seconds_mono : Monotone seconds := by
  intro a b h
  obtain ⟨hdays, hhours, hminutes⟩ := le_iff.1 h
  rw [seconds_eq, seconds_eq]
  apply capped_mono
  omega

theorem seconds_eq_zero_iff (a : AgeSpec) : a.seconds = 0 ↔
    a.days.getD 0 = 0 ∧ a.hours.getD 0 = 0 ∧ a.minutes.getD 0 = 0 := by
  rw [seconds_eq, capped_eq_zero_iff]
  omega

end AgeSpec

namespace SizeSpec

/-- Sizes are compared unit by unit; a unit that is left out is zero. -/
instance : Preorder SizeSpec := Preorder.lift fun s => (s.mb.getD 0, s.gb.getD 0)

theorem le_iff {s t : SizeSpec} :
    s ≤ t ↔ s.mb.getD 0 ≤ t.mb.getD 0 ∧ s.gb.getD 0 ≤ t.gb.getD 0 := Iff.rfl

theorem bytes_mono : Monotone bytes := by
  intro s t h
  obtain ⟨hmb, hgb⟩ := le_iff.1 h
  rw [bytes_eq, bytes_eq]
  apply capped_mono
  omega

theorem bytes_eq_zero_iff (s : SizeSpec) : s.bytes = 0 ↔ s.mb.getD 0 = 0 ∧ s.gb.getD 0 = 0 := by
  rw [bytes_eq, capped_eq_zero_iff]
  omega

end SizeSpec

theorem secondsOfDays_eq (days : Nat) : secondsOfDays days = capped (86400 * days) := by
  rw [secondsOfDays, Nat.mul_comm]

theorem secondsOfDays_mono : Monotone secondsOfDays := by
  intro m n h
  rw [secondsOfDays_eq, secondsOfDays_eq]
  apply capped_mono
  omega

theorem secondsOfDays_eq_zero_iff (days : Nat) : secondsOfDays days = 0 ↔ days = 0 := by
  rw [secondsOfDays_eq, capped_eq_zero_iff]
  omega

namespace CameraSpec

variable {c : CameraSpec} {t : Tier} {days : Nat}

/-- A recorder with tiers keeps its segments in a first one. -/
theorem exists_first_of_segments (h : c.recorder.tiers ≠ []) :
    ∃ t ∈ c.recorderTiers, t.index = 0 ∧ t.subcategory = segmentsName := by
  obtain ⟨s, rest, hs⟩ := List.exists_cons_of_ne_nil h
  have hfirst : c.recorder.tiers[0]? = some s := by rw [hs, List.getElem?_cons_zero]
  exact ⟨_, mem_recorderTiers.2 ⟨0, s, hfirst, List.mem_cons_self⟩, rfl, rfl⟩

/-- There, the days to retain are the largest age of events. -/
theorem events_of_retainDays (hdays : c.recorder.retainDays = some days)
    (ht : t ∈ c.recorderTiers) (hindex : t.index = 0) (hname : t.subcategory = segmentsName) :
    ∃ continuous events, t.role = .segments continuous events ∧
      events.maxAge = secondsOfDays days := by
  obtain ⟨i, s, -, ht⟩ := mem_recorderTiers.1 ht
  simp only [recorderTiersAt, List.mem_cons, List.not_mem_nil, or_false] at ht
  rcases ht with rfl | rfl | rfl
  · obtain rfl : i = 0 := hindex
    refine ⟨s.continuous.resolve, c.eventRetention 0 s, rfl, ?_⟩
    simp only [eventRetention, hdays]
  · exact absurd hname (show thumbnailsName ≠ segmentsName by decide)
  · exact absurd hname (show clipsName ≠ segmentsName by decide)

end CameraSpec

/-- However the units of a threshold are added up below the ceiling, the result is the exact
total, cut once. So no threshold becomes smaller when a unit becomes larger, and none is unset
unless all its units are zero or left out. -/
theorem thresholds_exact :
    (∀ a : AgeSpec, a.seconds = min
      (60 * (1440 * a.days.getD 0 + 60 * a.hours.getD 0 + a.minutes.getD 0)) (2 ^ 64 - 1)) ∧
    (∀ s : SizeSpec, s.bytes = min (2 ^ 20 * s.mb.getD 0 + 2 ^ 30 * s.gb.getD 0) (2 ^ 64 - 1)) ∧
    (∀ (c : CameraSpec) (days : Nat), c.recorder.retainDays = some days →
      c.recorder.tiers ≠ [] →
        (∃ t ∈ c.recorderTiers, t.index = 0 ∧ t.subcategory = segmentsName) ∧
        ∀ t ∈ c.recorderTiers, t.index = 0 → t.subcategory = segmentsName →
          ∃ continuous events, t.role = .segments continuous events ∧
            events.maxAge = secondsOfDays days) ∧
    (∀ days, secondsOfDays days = min (86400 * days) (2 ^ 64 - 1)) ∧
    (Monotone AgeSpec.seconds ∧ Monotone SizeSpec.bytes ∧ Monotone secondsOfDays) ∧
    (∀ a : AgeSpec, a.seconds = 0 ↔
      a.days.getD 0 = 0 ∧ a.hours.getD 0 = 0 ∧ a.minutes.getD 0 = 0) ∧
    (∀ s : SizeSpec, s.bytes = 0 ↔ s.mb.getD 0 = 0 ∧ s.gb.getD 0 = 0) ∧
    ∀ days, secondsOfDays days = 0 ↔ days = 0 := by
  refine ⟨fun a => ?_, fun s => ?_, fun c days hdays htiers => ?_, fun days => ?_, ?_,
    AgeSpec.seconds_eq_zero_iff, SizeSpec.bytes_eq_zero_iff, secondsOfDays_eq_zero_iff⟩
  · rw [AgeSpec.seconds_eq, capped_eq_min]
  · rw [SizeSpec.bytes_eq, capped_eq_min]
    rfl
  · exact ⟨CameraSpec.exists_first_of_segments htiers, fun t ht hindex hname =>
      CameraSpec.events_of_retainDays hdays ht hindex hname⟩
  · rw [secondsOfDays_eq, capped_eq_min]
  · exact ⟨AgeSpec.seconds_mono, SizeSpec.bytes_mono, secondsOfDays_mono⟩

/-- Two tiers for segments, of which the first one keeps events for longer than can be said. -/
def endlessRetention : CameraSpec where
  identifier := "porch"
  recorder := {
    retainDays := some 213503982334602
    tiers := [{ root := "/fast".toList, events := { maxAge := { days := some 7 } } },
      { root := "/slow".toList }] }

/-- A day less would be less than the ceiling. -/
theorem thresholds_exact_endlessRetention :
    endlessRetention.recorder.retainDays = some 213503982334602 ∧
      endlessRetention.recorder.tiers ≠ [] ∧
      (∃ t ∈ endlessRetention.recorderTiers, t.index = 0 ∧ t.subcategory = segmentsName ∧
        ∃ continuous events, t.role = .segments continuous events ∧
          events.maxAge = 18446744073709551615) ∧
      secondsOfDays 213503982334601 ≤ secondsOfDays 213503982334602 ∧
      secondsOfDays 213503982334601 = 18446744073709526400 := by
  obtain ⟨-, -, hretained, hdays, ⟨-, -, hmono⟩, -⟩ := thresholds_exact
  have hset : endlessRetention.recorder.retainDays = some 213503982334602 := rfl
  have htiers : endlessRetention.recorder.tiers ≠ [] := by decide
  obtain ⟨⟨t, ht, hindex, hname⟩, hall⟩ := hretained endlessRetention _ hset htiers
  obtain ⟨continuous, events, hrole, hage⟩ := hall t ht hindex hname
  exact ⟨hset, htiers, ⟨t, ht, hindex, hname, continuous, events, hrole, hage.trans (hdays _)⟩,
    hmono (by decide), hdays _⟩

end TieredFootage
