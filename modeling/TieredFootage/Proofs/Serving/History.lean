import Mathlib.Data.List.Nodup
import TieredFootage.Serving.Registry

/-!
# What the registry remembers of its history

The registry drops entries whenever it is convenient, so what it holds at a
moment says little. What it answers depends on the history alone: how many
guards are held on a path, and when the path was last touched. `Use` counts the
two for one path, and `Served.Records` says that a registry answers accordingly,
now and at any later time. Every event keeps it so, looked up and purged entries
included, since only what protects nothing any more is dropped.
-/

namespace TieredFootage

/-- What happens to the registry, or that time passes by. -/
inductive ServingEvent
  | reference (p : Path)
  | guard (p : Path)
  | release (p : Path)
  | lookUp (p : Path)
  | purge
  | wait (span : Nat)
  deriving DecidableEq, Repr

namespace ServingEvent

/-- The time after an event. -/
def elapse : ServingEvent → Int → Int
  | .wait span, now => now + span
  | _, now => now

/-- The registry after an event. -/
def apply : ServingEvent → Int → Served → Served
  | .reference p, now, s => s.reference now p
  | .guard p, now, s => s.guard now p
  | .release p, now, s => s.release now p
  | .lookUp p, now, s => (s.contains now p).2
  | .purge, now, s => s.purge now
  | .wait _, _, s => s

theorem le_elapse (e : ServingEvent) (now : Int) : now ≤ e.elapse now := by
  cases e with
  | wait span => exact Int.le_add_of_nonneg_right (Int.natCast_nonneg span)
  | _ => exact Int.le_refl now

end ServingEvent

/-- The guards held on a path, and when it was last touched. -/
structure Use where
  readers : Nat := 0
  lastTouch : Option Int := none
  deriving DecidableEq, Repr

namespace Use

/-- Whether somebody reads the path, or its last touch is less than one window
ago. -/
def isLive (u : Use) (window now : Int) : Bool :=
  decide (0 < u.readers) || u.lastTouch.any fun touched => decide (now < touched + window)

/-- The use of a path after an event. -/
def step (u : Use) (p : Path) (now : Int) : ServingEvent → Use
  | .reference q => if q = p then ⟨u.readers, some now⟩ else u
  | .guard q => if q = p then ⟨u.readers + 1, some now⟩ else u
  | .release q => if q = p then ⟨u.readers - 1, some now⟩ else u
  | .lookUp _ | .purge | .wait _ => u

end Use

/-- The time and the use of a path after a history that began at `start` with no
use of it. -/
def history (p : Path) (start : Int) (es : List ServingEvent) : Int × Use :=
  es.foldl (fun x e => (e.elapse x.1, x.2.step p x.1 e)) (start, {})

/-- Whether a path is in use after a history. -/
def inUse (window start : Int) (es : List ServingEvent) (p : Path) : Bool :=
  (history p start es).2.isLive window (history p start es).1

theorem history_concat (p : Path) (start : Int) (es : List ServingEvent) (e : ServingEvent) :
    history p start (es ++ [e]) =
      (e.elapse (history p start es).1,
        (history p start es).2.step p (history p start es).1 e) := by
  rw [history, List.foldl_concat]
  rfl

namespace Served

variable {s s' s'' : Served} {now later : Int} {p q : Path} {u : Use}

/-- Paths have one entry each. -/
def Distinct (s : Served) : Prop := (s.entries.map (·.1)).Nodup

theorem distinct_filter (hs : s.Distinct) (f : Path × ServedEntry → Bool) :
    { s with entries := s.entries.filter f }.Distinct :=
  (List.filter_sublist.map _).nodup hs

theorem distinct_touch (hs : s.Distinct) (now : Int) (p : Path) (guards : Nat) :
    (s.touch now p guards).Distinct := by
  refine List.nodup_cons.2 ⟨?_, distinct_filter hs _⟩
  simp

/-- A registry that answers the same from `now` on, whatever it has dropped. -/
structure Agree (now : Int) (s s' : Served) : Prop where
  window_eq : s'.window = s.window
  distinct : s.Distinct → s'.Distinct
  guardsOn_eq : ∀ p, s'.guardsOn p = s.guardsOn p
  protects_eq : ∀ p later, now ≤ later → s'.protects later p = s.protects later p

theorem Agree.refl (now : Int) (s : Served) : Agree now s s :=
  ⟨rfl, id, fun _ => rfl, fun _ _ _ => rfl⟩

theorem Agree.trans (h : Agree now s s') (h' : Agree now s' s'') : Agree now s s'' where
  window_eq := h'.window_eq.trans h.window_eq
  distinct := fun hs => h'.distinct (h.distinct hs)
  guardsOn_eq := fun p => (h'.guardsOn_eq p).trans (h.guardsOn_eq p)
  protects_eq := fun p later hlater =>
    (h'.protects_eq p later hlater).trans (h.protects_eq p later hlater)

/-- What protects nothing now has no guards and will protect nothing. -/
theorem of_not_protects (h : s.protects now p = false) :
    s.guardsOn p = 0 ∧ ∀ later, now ≤ later → s.protects later p = false := by
  unfold protects guardsOn at *
  cases he : s.lookup? p with
  | none => exact ⟨rfl, fun _ _ => rfl⟩
  | some e =>
    rw [he] at h
    simp only [ServedEntry.isLive, Bool.or_eq_false_iff, decide_eq_false_iff_not] at h ⊢
    refine ⟨?_, fun later hlater => ⟨h.1, ?_⟩⟩
    · simpa using h.1
    · omega

/-- Dropping entries that protect nothing changes no answer. -/
theorem agree_of_lookup? (hwindow : s'.window = s.window) (hdistinct : s.Distinct → s'.Distinct)
    (h : ∀ p, s'.lookup? p = s.lookup? p ∨ s'.lookup? p = none ∧ s.protects now p = false) :
    Agree now s s' := by
  refine ⟨hwindow, hdistinct, fun p => ?_, fun p later hlater => ?_⟩
  · rcases h p with heq | ⟨hnone, hidle⟩
    · rw [guardsOn, heq, guardsOn]
    · rw [guardsOn, hnone, (of_not_protects hidle).1]
      rfl
  · rcases h p with heq | ⟨hnone, hidle⟩
    · rw [protects, heq, protects]
    · rw [protects, hnone, (of_not_protects hidle).2 later hlater]

theorem agree_of_entries_eq (hwindow : s'.window = s.window) (hentries : s'.entries = s.entries) :
    Agree now s s' := by
  refine agree_of_lookup? hwindow (fun hs => ?_) fun p => Or.inl ?_
  · rwa [Distinct, hentries]
  · rw [lookup?, hentries, lookup?]

theorem agree_contains (now : Int) (s : Served) (p : Path) : Agree now s (s.contains now p).2 := by
  unfold contains
  split
  · exact Agree.refl now s
  · rename_i hp
    refine agree_of_lookup? rfl (fun hs => distinct_filter hs _) fun q => ?_
    by_cases hq : q = p
    · right
      refine ⟨?_, hq ▸ eq_false_of_ne_true hp⟩
      simp [lookup?, List.find?_filter, hq]
    · exact Or.inl (lookup?_filter_ne s p q hq)

theorem lookup?_purge (hs : s.Distinct) (now : Int) (p : Path) :
    (s.purge now).lookup? p = (s.lookup? p).filter (·.isLive now) := by
  unfold Distinct at hs
  simp only [purge, lookup?]
  -- An entry that is dropped must not uncover another one of its path.
  generalize s.entries = entries at hs
  induction entries with
  | nil => rfl
  | cons x xs ih =>
    obtain ⟨hx, hxs⟩ := List.nodup_cons.1 hs
    rw [List.find?_cons, List.filter_cons]
    cases hxp : x.1 == p with
    | false =>
      rw [← ih hxs]
      split
      · rw [List.find?_cons, hxp]
      · rfl
    | true =>
      have hp : x.1 = p := by simpa using hxp
      cases hlive : x.2.isLive now with
      | true => simp [hp, Option.filter, hlive]
      | false =>
        have hnone : xs.find? (·.1 == p) = none := by
          rw [List.find?_eq_none]
          intro y hy hyp
          exact hx (List.mem_map.2 ⟨y, hy, by simpa [hp] using hyp⟩)
        have hrest := ih hxs
        rw [hnone] at hrest
        simpa [Option.filter, hlive] using hrest

theorem agree_purge (hs : s.Distinct) (now : Int) : Agree now s (s.purge now) := by
  refine agree_of_lookup? rfl (fun _ => distinct_filter hs _) fun p => ?_
  rw [lookup?_purge hs, protects]
  cases s.lookup? p with
  | none => exact Or.inl rfl
  | some e =>
    cases hlive : e.isLive now with
    | true => exact Or.inl (by simp [hlive])
    | false => exact Or.inr ⟨by simp [hlive], hlive⟩

/-- The registry answers about a path as its use says, from `now` on. -/
structure Records (s : Served) (now : Int) (p : Path) (u : Use) : Prop where
  guardsOn_eq : s.guardsOn p = u.readers
  protects_eq : ∀ later, now ≤ later → s.protects later p = u.isLive s.window later

theorem Records.of_agree (h : s.Records now p u) (hs : Agree now s s') : s'.Records now p u where
  guardsOn_eq := (hs.guardsOn_eq p).trans h.guardsOn_eq
  protects_eq := fun later hlater => by
    rw [hs.window_eq, hs.protects_eq p later hlater, h.protects_eq later hlater]

theorem records_empty (hs : s.entries = []) (now : Int) (p : Path) : s.Records now p {} := by
  have hnone : s.lookup? p = none := by simp [lookup?, hs]
  refine ⟨?_, fun later _ => ?_⟩
  · rw [guardsOn, hnone]
    rfl
  · rw [protects, hnone]
    rfl

/-- A touch starts the window anew and sets the guards; other paths are used as
before. -/
theorem Records.touch (h : s.Records now p u) (q : Path) (f : Nat → Nat) :
    (s.touch now q (f (s.guardsOn q))).Records now p
      (if q = p then ⟨f u.readers, some now⟩ else u) := by
  have hentry := lookup?_touch s now q p (f (s.guardsOn q))
  by_cases hq : p = q
  · subst hq
    rw [if_pos rfl] at hentry ⊢
    refine ⟨?_, fun later _ => ?_⟩
    · rw [guardsOn, hentry, ← h.guardsOn_eq]
      rfl
    · rw [protects, hentry, ← h.guardsOn_eq]
      rfl
  · rw [if_neg hq] at hentry
    rw [if_neg (Ne.symm hq)]
    refine ⟨?_, fun later hlater => ?_⟩
    · rw [guardsOn, hentry]
      exact h.guardsOn_eq
    · rw [protects, hentry]
      exact h.protects_eq later hlater

theorem window_apply (e : ServingEvent) (now : Int) (s : Served) :
    (e.apply now s).window = s.window := by
  cases e with
  | reference p =>
    simp only [ServingEvent.apply, reference]
    split <;> rfl
  | lookUp p =>
    simp only [ServingEvent.apply, contains]
    split <;> rfl
  | _ => rfl

theorem distinct_apply (hs : s.Distinct) (e : ServingEvent) (now : Int) :
    (e.apply now s).Distinct := by
  cases e with
  | reference p =>
    simp only [ServingEvent.apply, reference]
    split
    · exact distinct_filter (distinct_touch hs now p _) _
    · exact distinct_touch hs now p _
  | guard p => exact distinct_touch hs now p _
  | release p => exact distinct_touch hs now p _
  | lookUp p => exact (agree_contains now s p).distinct hs
  | purge => exact (agree_purge hs now).distinct hs
  | wait span => exact hs

/-- An event changes the answers about a path as it changes its use. -/
theorem Records.apply (h : s.Records now p u) (hs : s.Distinct) (e : ServingEvent) :
    (e.apply now s).Records (e.elapse now) p (u.step p now e) := by
  cases e with
  | reference q =>
    have hcounted : Agree now (s.touch now q (s.guardsOn q))
        { s.touch now q (s.guardsOn q) with references := s.references + 1 } :=
      agree_of_entries_eq rfl rfl
    have htouch := (h.touch q id).of_agree hcounted
    simp only [ServingEvent.apply, reference]
    -- Every so many references the registry is purged as well.
    split
    · exact htouch.of_agree (agree_purge (hcounted.distinct (distinct_touch hs now q _)) now)
    · exact htouch
  | guard q => exact (h.touch q (· + 1)).of_agree (agree_of_entries_eq rfl rfl)
  | release q => exact (h.touch q (· - 1)).of_agree (agree_of_entries_eq rfl rfl)
  | lookUp q => exact h.of_agree (agree_contains now s q)
  | purge => exact h.of_agree (agree_purge hs now)
  | wait span =>
    refine ⟨h.guardsOn_eq, fun later hlater => h.protects_eq later ?_⟩
    exact Int.le_trans (ServingEvent.le_elapse (.wait span) now) hlater

end Served

end TieredFootage
