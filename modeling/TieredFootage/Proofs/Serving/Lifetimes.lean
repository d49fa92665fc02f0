import Mathlib.Data.Finset.Card
import TieredFootage.Proofs.Serving.History

/-!
# Guards, touches and what the registry answers

All clones of a registry share one state, so what happens to any of them is one
sequence of events. Read off such a sequence alone: `guardsHeld` are the guards
that have been taken and not been given back, and a path is recently touched if
the window of one of its touches has not ended. The registry protects a path
exactly if one of the two holds for it, counts the guards that are held, and has,
once purged, an entry for each path that it protects.

It matters in no place of a sequence whether somebody looked a path up or purged
the registry there.
-/

namespace TieredFootage

namespace ServingEvent

/-- Whether an event starts the window of a path anew. -/
def touches (p : Path) : ServingEvent → Bool
  | .reference q | .guard q | .release q => decide (q = p)
  | .lookUp _ | .purge | .wait _ => false

/-- Whether an event only asks, or only drops what protects nothing. -/
def isHousekeeping : ServingEvent → Bool
  | .lookUp _ | .purge => true
  | .reference _ | .guard _ | .release _ | .wait _ => false

/-- The guards held after an event; a path stands there once for each guard. -/
def hold (ps : List Path) : ServingEvent → List Path
  | .guard p => p :: ps
  | .release p => ps.erase p
  | .reference _ | .lookUp _ | .purge | .wait _ => ps

end ServingEvent

/-- The time after events that begin at `now`. -/
def timeAfter (now : Int) (es : List ServingEvent) : Int := es.foldl (fun now e => e.elapse now) now

/-- The guards that are held after events. -/
def guardsHeld (es : List ServingEvent) : List Path := es.foldl ServingEvent.hold []

/-- Only guards that are held are given back, where `ps` are held beforehand. -/
def ReleasesHeld : List Path → List ServingEvent → Prop
  | _, [] => True
  | ps, .release p :: es => p ∈ ps ∧ ReleasesHeld (ps.erase p) es
  | ps, e :: es => ReleasesHeld (e.hold ps) es

/-- Some event touched the path, and the window it started has not ended by `now`. -/
def RecentlyTouched (window start : Int) (p : Path) (es : List ServingEvent) (now : Int) : Prop :=
  ∃ before e after, es = before ++ e :: after ∧ e.touches p = true ∧
    now < timeAfter start before + window

section History

variable {p : Path} {start now window : Int} {es fs : List ServingEvent} {e : ServingEvent}

theorem timeAfter_append (start : Int) (es fs : List ServingEvent) :
    timeAfter start (es ++ fs) = timeAfter (timeAfter start es) fs := List.foldl_append

theorem le_timeAfter (start : Int) (es : List ServingEvent) : start ≤ timeAfter start es := by
  induction es generalizing start with
  | nil => exact Int.le_refl start
  | cons e es ih => exact Int.le_trans (e.le_elapse start) (ih (e.elapse start))

theorem fst_history (p : Path) (start : Int) (es : List ServingEvent) :
    (history p start es).1 = timeAfter start es := by
  induction es using List.reverseRecOn with
  | nil => rfl
  | append_singleton es e ih =>
    rw [history_concat, timeAfter_append, ih]
    rfl

/-- The readers of a path are the guards held on it. -/
theorem readers_history (p : Path) (start : Int) (es : List ServingEvent) :
    (history p start es).2.readers = (guardsHeld es).count p := by
  induction es using List.reverseRecOn with
  | nil => rfl
  | append_singleton es e ih =>
    rw [history_concat, guardsHeld, List.foldl_concat, ← guardsHeld]
    cases e with
    | guard q =>
      simp only [Use.step, ServingEvent.hold, List.count_cons, ← ih]
      by_cases hq : q = p
      · simp [hq]
      · simp [hq]
    | release q =>
      simp only [Use.step, ServingEvent.hold]
      by_cases hq : q = p
      · rw [if_pos hq, hq, List.count_erase_self, ih]
      · rw [if_neg hq, List.count_erase_of_ne (Ne.symm hq), ih]
    | reference q =>
      simp only [Use.step, ServingEvent.hold]
      split <;> exact ih
    | lookUp q => exact ih
    | purge => exact ih
    | wait span => exact ih

theorem recentlyTouched_concat :
    RecentlyTouched window start p (es ++ [e]) now ↔
      RecentlyTouched window start p es now ∨
        e.touches p = true ∧ now < timeAfter start es + window := by
  constructor
  · rintro ⟨before, f, after, hsplit, htouches, hnow⟩
    rcases List.eq_nil_or_concat after with rfl | ⟨rest, last, rfl⟩
    · obtain ⟨rfl, hlast⟩ := List.append_inj' hsplit rfl
      obtain rfl : e = f := by simpa using hlast
      exact Or.inr ⟨htouches, hnow⟩
    · rw [List.concat_eq_append, ← List.cons_append, ← List.append_assoc] at hsplit
      exact Or.inl ⟨before, f, rest, (List.append_inj' hsplit rfl).1, htouches, hnow⟩
  · rintro (⟨before, f, after, rfl, htouches, hnow⟩ | ⟨htouches, hnow⟩)
    · exact ⟨before, f, after ++ [e], by simp, htouches, hnow⟩
    · exact ⟨es, e, [], rfl, htouches, hnow⟩

/-- Time does not go back, so no window ends later than that of the last touch. -/
theorem recentlyTouched_iff :
    RecentlyTouched window start p es now ↔
      ((history p start es).2.lastTouch.any fun touched => decide (now < touched + window)) =
        true := by
  induction es using List.reverseRecOn with
  | nil =>
    refine iff_of_false ?_ (by simp [history])
    rintro ⟨before, e, after, hsplit, -⟩
    simp at hsplit
  | append_singleton es e ih =>
    rw [recentlyTouched_concat, history_concat]
    cases htouches : e.touches p with
    | false =>
      have hsame : (history p start es).2.step p (history p start es).1 e =
          (history p start es).2 := by
        cases e with
        | reference q | guard q | release q =>
          simp only [ServingEvent.touches, decide_eq_false_iff_not] at htouches
          simp only [Use.step, if_neg htouches]
        | lookUp q | purge | wait span => rfl
      rw [hsame, ← ih]
      simp
    | true =>
      have hlast : ((history p start es).2.step p (history p start es).1 e).lastTouch =
          some (timeAfter start es) := by
        rw [← fst_history p]
        cases e with
        | reference q | guard q | release q =>
          simp only [ServingEvent.touches, decide_eq_true_eq] at htouches
          simp only [Use.step, if_pos htouches]
        | lookUp q | purge | wait span => simp [ServingEvent.touches] at htouches
      rw [hlast]
      simp only [true_and, Option.any_some, decide_eq_true_eq, or_iff_right_iff_imp]
      rintro ⟨before, f, after, rfl, -, hnow⟩
      have hle := le_timeAfter (timeAfter start before) (f :: after)
      rw [← timeAfter_append] at hle
      omega

/-- Housekeeping is no part of the history of a path. -/
theorem history_of_isHousekeeping (he : e.isHousekeeping = true) (p : Path) (start : Int)
    (es fs : List ServingEvent) : history p start (es ++ e :: fs) = history p start (es ++ fs) := by
  unfold history
  rw [List.foldl_append, List.foldl_append, List.foldl_cons]
  cases e with
  | lookUp q | purge => rfl
  | reference q | guard q | release q | wait span => simp [ServingEvent.isHousekeeping] at he

end History

namespace Served

/-- A registry that nothing has happened to. -/
def fresh (window : Int) : Served := { window := window }

/-- The registry after events that begin at `now`. -/
def serve : Int → Served → List ServingEvent → Served
  | _, s, [] => s
  | now, s, e :: es => serve (e.elapse now) (e.apply now s) es

variable {s : Served} {start now window : Int} {p : Path} {es : List ServingEvent}

theorem serve_concat (now : Int) (s : Served) (es : List ServingEvent) (e : ServingEvent) :
    serve now s (es ++ [e]) = e.apply (timeAfter now es) (serve now s es) := by
  induction es generalizing now s with
  | nil => rfl
  | cons f es ih => exact ih (f.elapse now) (f.apply now s)

theorem window_serve (now : Int) (s : Served) (es : List ServingEvent) :
    (serve now s es).window = s.window := by
  induction es generalizing now s with
  | nil => rfl
  | cons e es ih => exact (ih _ _).trans (window_apply e now s)

theorem distinct_serve (hs : s.Distinct) (now : Int) (es : List ServingEvent) :
    (serve now s es).Distinct := by
  induction es generalizing now s with
  | nil => exact hs
  | cons e es ih => exact ih (distinct_apply hs e now) (e.elapse now)

theorem distinct_fresh (window : Int) : (fresh window).Distinct := List.nodup_nil

/-- Whatever the registry has dropped meanwhile, it answers by its history. -/
theorem records_serve (window start : Int) (es : List ServingEvent) (p : Path) :
    (serve start (fresh window) es).Records (timeAfter start es) p (history p start es).2 := by
  induction es using List.reverseRecOn with
  | nil => exact records_empty rfl start p
  | append_singleton es e ih =>
    rw [serve_concat, timeAfter_append, history_concat, fst_history]
    exact ih.apply (distinct_serve (distinct_fresh window) start es) e

theorem fst_contains (s : Served) (now : Int) (p : Path) :
    (s.contains now p).1 = s.protects now p := by
  unfold contains
  split <;> rename_i h
  · exact h.symm
  · exact (eq_false_of_ne_true h).symm

theorem fst_contains_serve (window start : Int) (es : List ServingEvent) (p : Path) :
    ((serve start (fresh window) es).contains (timeAfter start es) p).1 =
      (history p start es).2.isLive window (timeAfter start es) := by
  rw [fst_contains, (records_serve window start es p).protects_eq _ (Int.le_refl _), window_serve]
  rfl

theorem contains_serve_iff (window start : Int) (es : List ServingEvent) (p : Path) :
    ((serve start (fresh window) es).contains (timeAfter start es) p).1 = true ↔
      p ∈ guardsHeld es ∨ RecentlyTouched window start p es (timeAfter start es) := by
  rw [fst_contains_serve, Use.isLive, Bool.or_eq_true, decide_eq_true_eq, readers_history,
    List.count_pos_iff, recentlyTouched_iff]

theorem inFlight_apply (e : ServingEvent) (now : Int) (s : Served) :
    (e.apply now s).inFlight =
      match e with
      | .guard _ => s.inFlight + 1
      | .release _ => s.inFlight - 1
      | _ => s.inFlight := by
  cases e with
  | reference p =>
    simp only [ServingEvent.apply, reference]
    split <;> rfl
  | lookUp p =>
    simp only [ServingEvent.apply, contains]
    split <;> rfl
  | guard p | release p | purge | wait span => rfl

/-- Every guard is counted as long as it is held. -/
theorem inFlight_serve {ps : List Path} (hps : s.inFlight = ps.length) (hes : ReleasesHeld ps es)
    (now : Int) : (serve now s es).inFlight = (es.foldl ServingEvent.hold ps).length := by
  induction es generalizing now s ps with
  | nil => exact hps
  | cons e es ih =>
    have happly := inFlight_apply e now s
    cases e with
    | release p =>
      obtain ⟨hp, hes⟩ := hes
      refine ih ?_ hes _
      rw [happly, hps, List.length_erase_of_mem hp]
    | guard p => exact ih (happly.trans (congrArg (· + 1) hps)) hes _
    | reference p | lookUp p | purge | wait span => exact ih (happly.trans hps) hes _

theorem lookup?_of_mem (hs : s.Distinct) {x : Path × ServedEntry} (hx : x ∈ s.entries) :
    s.lookup? x.1 = some x.2 := by
  cases hfound : s.entries.find? (·.1 == x.1) with
  | none => simpa using List.find?_eq_none.1 hfound x hx
  | some y =>
    have hy : y.1 = x.1 := by simpa using List.find?_some hfound
    obtain rfl := List.inj_on_of_nodup_map hs (List.mem_of_find?_eq_some hfound) hx hy
    rw [lookup?, hfound]
    rfl

/-- What is left after a purge are the protected paths, with one entry each. -/
theorem exists_protected_paths (hs : s.Distinct) (now : Int) :
    ∃ ps : Finset Path, (∀ p, p ∈ ps ↔ s.protects now p = true) ∧ (s.purge now).size = ps.card := by
  have hnodup : ((s.purge now).entries.map (·.1)).Nodup := (agree_purge hs now).distinct hs
  refine ⟨((s.purge now).entries.map (·.1)).toFinset, fun p => ?_, ?_⟩
  · rw [List.mem_toFinset, List.mem_map]
    constructor
    · rintro ⟨x, hx, rfl⟩
      obtain ⟨hx, hlive⟩ := List.mem_filter.1 hx
      rw [protects, lookup?_of_mem hs hx]
      exact hlive
    · intro hp
      unfold protects lookup? at hp
      cases hfound : s.entries.find? (·.1 == p) with
      | none => simp [hfound] at hp
      | some x =>
        rw [hfound] at hp
        refine ⟨x, List.mem_filter.2 ⟨List.mem_of_find?_eq_some hfound, hp⟩, ?_⟩
        simpa using List.find?_some hfound
  · rw [List.toFinset_card_of_nodup hnodup, List.length_map]
    rfl

/-- After any events the registry protects exactly the paths on which a guard is
held or that were touched less than a window ago; it counts the guards held; once
purged it has as many entries as it protects paths; and housekeeping, wherever it
is done, changes no later answer. -/
theorem serve_agrees_with_history (window start : Int) {es : List ServingEvent}
    (hes : ReleasesHeld [] es) :
    (∀ p, ((serve start (fresh window) es).contains (timeAfter start es) p).1 = true ↔
      p ∈ guardsHeld es ∨ RecentlyTouched window start p es (timeAfter start es)) ∧
    (serve start (fresh window) es).inFlight = (guardsHeld es).length ∧
    (∃ ps : Finset Path,
      (∀ p, p ∈ ps ↔ ((serve start (fresh window) es).contains (timeAfter start es) p).1 = true) ∧
      ((serve start (fresh window) es).purge (timeAfter start es)).size = ps.card) ∧
    ∀ e : ServingEvent, e.isHousekeeping = true → ∀ (later : List ServingEvent) (p : Path),
      ((serve start (fresh window) (es ++ e :: later)).contains
          (timeAfter start (es ++ later)) p).1 =
        ((serve start (fresh window) (es ++ later)).contains
          (timeAfter start (es ++ later)) p).1 := by
  refine ⟨contains_serve_iff window start es, inFlight_serve rfl hes start, ?_, ?_⟩
  · obtain ⟨ps, hps, hcard⟩ :=
      exists_protected_paths (distinct_serve (distinct_fresh window) start es) (timeAfter start es)
    refine ⟨ps, fun p => ?_, hcard⟩
    rw [fst_contains]
    exact hps p
  · intro e he later p
    have htime : timeAfter start (es ++ e :: later) = timeAfter start (es ++ later) := by
      rw [← fst_history p, ← fst_history p, history_of_isHousekeeping he]
    have hwith := fst_contains_serve window start (es ++ e :: later) p
    rw [htime, history_of_isHousekeeping he] at hwith
    rw [hwith, fst_contains_serve]

end Served

/-- One path is read twice and given back once, another one only referenced. Then
more than a window passes, and the registry is purged. -/
def nestedReaders : List ServingEvent :=
  [.guard "/a".toList, .reference "/b".toList, .guard "/a".toList, .release "/a".toList,
    .wait 3000000000, .purge, .lookUp "/b".toList]

/-- The path that is still read stays protected and counts as one guard. -/
theorem serve_agrees_with_history_nestedReaders :
    ReleasesHeld [] nestedReaders ∧
      ((Served.serve 0 (.fresh servingWindow) nestedReaders).contains
        3000000000 "/a".toList).1 = true ∧
      (Served.serve 0 (.fresh servingWindow) nestedReaders).inFlight = 1 := by
  have hreleases : ReleasesHeld [] nestedReaders := ⟨by decide, trivial⟩
  obtain ⟨hcontains, hinFlight, -, -⟩ :=
    Served.serve_agrees_with_history servingWindow 0 hreleases
  exact ⟨hreleases, (hcontains "/a".toList).2 (Or.inl (by decide)), hinFlight⟩

end TieredFootage
