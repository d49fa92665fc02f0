import TieredFootage.Proofs.Evaluation.Guarding

/-!
# Serving while tiers are evaluated

A run mixes calls to keepers with what happens to the registry and to the clock.
A path that was in use at every call of a run, by the history of the registry
alone, has the row that it had, or none as before. What it leads to is still
there, provided that the spelling of that location was in use at every call.

A normal path spells its own location, so for it the two are one condition. For
any other path they are not. A reader who asks for `/t//1` guards that text, and
the file `/t/1` is evicted from under them.
-/

namespace TieredFootage

open Disk

namespace Disk

variable {d d' : Disk} {p : Path} {l : Location}

/-- The absolute path that spells where a path leads. -/
def spelling (d : Disk) (p : Path) : Path :=
  match d.resolve p with
  | .ok l => locationText l
  | .error _ => p

theorem spelling_of_isNormal (d : Disk) (hp : p.IsNormal) : d.spelling p = p := by
  unfold spelling
  split
  · rename_i l hl
    exact locationText_of_resolve hp hl
  · rfl

theorem isPresent_iff :
    d.isPresent p = true ↔ ∃ l, d.resolve p = .ok l ∧ d.node? l ≠ none := by
  simp only [isPresent, stat]
  cases hresolve : d.resolve p with
  | error e => simp [bind, Except.bind, Except.isOk, Except.toBool]
  | ok l =>
    cases hnode : d.node? l with
    | none => simp [bind, Except.bind, hnode, Except.isOk, Except.toBool]
    | some n => simp [bind, Except.bind, hnode, Except.isOk, Except.toBool]

/-- What a path leads to is there as long as directories are kept, and the file
that it leads to, if it is one. -/
theorem isPresent_of_keepsDirectories (hd : d.IsTree) (hkeeps : KeepsDirectories d d')
    (hl : d.resolve p = .ok l) (hfile : d.HasFile l → d'.HasFile l)
    (hp : d.isPresent p = true) : d'.isPresent p = true := by
  obtain ⟨k, hk, hnode⟩ := isPresent_iff.1 hp
  obtain rfl : k = l := Except.ok.inj (hk.symm.trans hl)
  cases hn : d.node? k with
  | none => exact absurd hn hnode
  | some n =>
    cases n with
    | directory =>
      exact isPresent_iff.2 ⟨k, hkeeps.resolve_eq hk hn, by simp [hkeeps.directory k hn]⟩
    | file content =>
      obtain ⟨content', hlater⟩ := hfile ⟨content, hn⟩
      have hslot := hkeeps.slot_eq (slot_of_resolve hd hk hn)
      refine isPresent_iff.2 ⟨k, ?_, by simp [hlater]⟩
      rw [resolve_of_slot hslot, if_neg (by simp [hlater])]

end Disk

namespace Archive

/-- A call to a keeper, or something that happens to the registry. -/
inductive Action
  | call (x : Address) (c : Call)
  | serve (e : ServingEvent)
  deriving DecidableEq, Repr

/-- What an action is to the registry's history. -/
def Action.event? : Action → Option ServingEvent
  | .call _ _ => none
  | .serve e => some e

/-- The archive after an action. -/
def act (a : Archive) : Action → Archive
  | .call x c => a.perform x c
  | .serve e => { a with now := e.elapse a.now, served := e.apply a.now a.served }

def run (a : Archive) (actions : List Action) : Archive := actions.foldl act a

/-- At every call of the actions the path is in use, after a history that began
at `start`. -/
def UsedAtCalls (window start : Int) (p : Path) : List ServingEvent → List Action → Prop
  | _, [] => True
  | es, .call _ _ :: rest => inUse window start es p = true ∧ UsedAtCalls window start p es rest
  | es, .serve e :: rest => UsedAtCalls window start p (es ++ [e]) rest

variable {a b : Archive} {window start : Int} {p : Path} {es : List ServingEvent}

/-- A tidy archive with a registry that answers about a path by its history. -/
structure Tracks (a : Archive) (window start : Int) (p : Path) (es : List ServingEvent) :
    Prop where
  tidy : a.Tidy
  window_eq : a.served.window = window
  distinct : a.served.Distinct
  now_eq : a.now = (history p start es).1
  records : a.served.Records a.now p (history p start es).2

theorem tracks_nil (ha : a.Tidy) (hfresh : a.served.entries = []) (p : Path) :
    a.Tracks a.served.window a.now p [] where
  tidy := ha
  window_eq := rfl
  distinct := by simp [Served.Distinct, hfresh]
  now_eq := rfl
  records := Served.records_empty hfresh a.now p

namespace Tracks

theorem protects_eq (h : a.Tracks window start p es) :
    a.served.protects a.now p = inUse window start es p := by
  rw [h.records.protects_eq a.now (Int.le_refl _), h.window_eq, inUse, ← h.now_eq]

theorem of_guarded (h : a.Tracks window start p es) (hb : Guarded a b) :
    b.Tracks window start p es where
  tidy := hb.tidy
  window_eq := hb.agree.window_eq.trans h.window_eq
  distinct := hb.agree.distinct h.distinct
  now_eq := hb.now_eq.trans h.now_eq
  records := hb.now_eq ▸ h.records.of_agree hb.agree

theorem serve (h : a.Tracks window start p es) (e : ServingEvent) :
    (a.act (.serve e)).Tracks window start p (es ++ [e]) where
  tidy := ⟨h.tidy.disk, h.tidy.rows, h.tidy.recordings, h.tidy.tiers⟩
  window_eq := (Served.window_apply e a.now a.served).trans h.window_eq
  distinct := Served.distinct_apply h.distinct e a.now
  now_eq := by
    rw [history_concat, ← h.now_eq]
    rfl
  records := by
    rw [history_concat, ← h.now_eq]
    exact h.records.apply h.distinct e

theorem run (h : a.Tracks window start p es) (actions : List Action) :
    (a.run actions).Tracks window start p (es ++ actions.filterMap Action.event?) := by
  induction actions generalizing a es with
  | nil => simpa [Archive.run] using h
  | cons x actions ih =>
    cases x with
    | call x c => exact ih (h.of_guarded (guarded_perform h.tidy x c))
    | serve e =>
      have hrest := ih (h.serve e)
      rwa [List.append_assoc] at hrest

/-- What events of the registry keep, and guarded changes under a protected path,
a run keeps that finds the path in use at every call. -/
theorem run_keeps {K : Archive → Prop} (h : a.Tracks window start p es)
    (hserve : ∀ b e, K b → K (b.act (.serve e)))
    (hcall : ∀ b c, Guarded b c → b.served.protects b.now p = true → K b → K c)
    {actions : List Action} (hused : UsedAtCalls window start p es actions) (ha : K a) :
    K (a.run actions) := by
  -- A call keeps the history as it is, an event adds to it.
  induction actions generalizing a es with
  | nil => exact ha
  | cons x actions ih =>
    cases x with
    | call x c =>
      obtain ⟨hnow, hlater⟩ := hused
      have hguarded := guarded_perform h.tidy x c
      exact ih (h.of_guarded hguarded) hlater
        (hcall a _ hguarded (h.protects_eq.trans hnow) ha)
    | serve e => exact ih (h.serve e) hused (hserve a e ha)

end Tracks

/-- A path in use at every call keeps its row, and what it leads to is still
there if the spelling of that location is in use at every call. -/
theorem run_guards (ha : a.Tidy) (hfresh : a.served.entries = []) (before during : List Action)
    (p : Path) :
    (UsedAtCalls a.served.window a.now p (before.filterMap Action.event?) during →
      ((a.run before).run during).catalog.fileAt? p = (a.run before).catalog.fileAt? p) ∧
    (UsedAtCalls a.served.window a.now ((a.run before).disk.spelling p)
        (before.filterMap Action.event?) during →
      (a.run before).disk.isPresent p = true →
        ((a.run before).run during).disk.isPresent p = true) := by
  have htracks := fun q => (tracks_nil ha hfresh q).run before
  constructor
  · intro hused
    refine (htracks p).run_keeps
      (K := fun b => b.catalog.fileAt? p = (a.run before).catalog.fileAt? p) ?_ ?_ hused rfl
    · exact fun _ _ hb => hb
    · exact fun b c hguarded hp hb => (hguarded.row p hp).trans hb
  · intro hused hp
    obtain ⟨l, hl, -⟩ := isPresent_iff.1 hp
    have hspelling : (a.run before).disk.spelling p = locationText l := by
      rw [spelling, hl]
    rw [hspelling] at hused
    have hkept := (htracks (locationText l)).run_keeps
      (K := fun b => KeepsDirectories (a.run before).disk b.disk ∧
        ((a.run before).disk.HasFile l → b.disk.HasFile l))
      (fun _ _ hb => hb) (fun b c hguarded hlive hb => ⟨hb.1.trans hguarded.keepsDirectories,
        fun hfile => hguarded.hasFile l hlive (hb.2 hfile)⟩)
      hused ⟨KeepsDirectories.refl _, id⟩
    exact isPresent_of_keepsDirectories (htracks p).tidy.disk hkept.1 hl hkept.2 hp

end Archive

/-- One segment in the last tier, catalogued under a root that is no longer its
tier's. -/
def strandedSegment : Archive where
  now := 10000 * second
  disk := { nodes := [(["t".toList], .directory), (["t".toList, "1".toList], .file "segment")] }
  catalog := {
    files := [{ lastTierSegment 1 "/t/1" 2710 with tierPath := "/old".toList }]
    lastFileId := 1 }
  keepers := .ofTiers [lastTier]

theorem tidy_strandedSegment : strandedSegment.Tidy where
  disk := isTree_of_nodes (by decide)
  rows := by decide
  recordings := by simp [strandedSegment]
  tiers := by
    intro t ht
    obtain rfl : t = lastTier := List.mem_singleton.1 ht
    exact ⟨by decide, by simp [lastTier]⟩

/-- While the segment is read, and for less than one window after, neither an
evaluation nor a drain touches it. -/
theorem run_guards_strandedSegment :
    strandedSegment.Tidy ∧ strandedSegment.served.entries = [] ∧
      ((strandedSegment.run [.serve (.guard "/t/1".toList)]).run
        [.call lastTier.address .drain, .serve (.release "/t/1".toList), .serve (.wait 1999999999),
          .call lastTier.address .runPolicy]).disk.isPresent "/t/1".toList = true := by
  refine ⟨tidy_strandedSegment, rfl, ?_⟩
  refine (Archive.run_guards tidy_strandedSegment rfl [.serve (.guard "/t/1".toList)]
    [.call lastTier.address .drain, .serve (.release "/t/1".toList), .serve (.wait 1999999999),
      .call lastTier.address .runPolicy] "/t/1".toList).2 ?_ (by decide)
  rw [spelling_of_isNormal _ (by decide)]
  exact ⟨by decide, by decide, trivial⟩

/-- A path that is not normal can be guarded while its file is deleted. -/
theorem not_forall_run_guards :
    ¬ ∀ (a : Archive) (before during : List Archive.Action) (p : Path), a.Tidy →
      a.served.entries = [] →
      Archive.UsedAtCalls a.served.window a.now p (before.filterMap Archive.Action.event?) during →
      (a.run before).disk.isPresent p = true →
      ((a.run before).run during).disk.isPresent p = true ∧
        ((a.run before).run during).catalog.fileAt? p = (a.run before).catalog.fileAt? p := by
  intro h
  have hkept := h strandedSegment [.serve (.guard "/t//1".toList)]
    [.call lastTier.address .drain] "/t//1".toList tidy_strandedSegment rfl
    ⟨by decide, trivial⟩ (by decide)
  exact absurd hkept.1 (by decide)

end TieredFootage
