import TieredFootage.Tier
import TieredFootage.Tier.Eviction
import TieredFootage.Timer.Debouncer
import TieredFootage.Timer.Throttle
import TieredFootage.Watch.Intake

/-!
# Keepers

The keeper of a tier catalogues what appears in its directory and evicts from
it. Here is what it remembers between two events: the phase of its life, what it
has counted, when it last evaluated, which modified files it has still to look
at, and, while it runs, the messages that wait for it. A keeper that runs and
does not poll watches its directory.
-/

namespace TieredFootage

/-- The phases in the life of a keeper. -/
inductive Phase
  | starting
  | watching
  | processing
  | evaluating
  | shuttingDown
  | stopped
  deriving DecidableEq, Repr

/-- What a keeper has counted. -/
structure Tally where
  evaluations : Nat := 0
  moved : Nat := 0
  deleted : Nat := 0
  skipped : Nat := 0
  deriving DecidableEq, Repr, Inhabited

/-- The tally after one more file. -/
def Tally.record (t : Tally) : Eviction → Tally
  | .moved _ => { t with moved := t.moved + 1 }
  | .deleted | .missing => { t with deleted := t.deleted + 1 }
  | .skipped | .collision | .failed => { t with skipped := t.skipped + 1 }

/-- A directory that is watched: its text, as paths below it are reported, and
where it is. -/
structure Watch where
  base : Path
  location : Location
  deriving DecidableEq, Repr

structure Keeper where
  tier : Tier
  phase : Phase := .starting
  tally : Tally := {}
  throttle : Throttle := {}
  debouncer : Debouncer Path Unit := {}
  /-- The messages that wait, while the keeper runs. -/
  inbox : Option (List Message) := none
  watch : Option Watch := none
  deriving Repr

namespace Keeper

def address (k : Keeper) : Address := k.tier.address

def isRunning (k : Keeper) : Bool := k.inbox.isSome

/-- The keeper with a message behind those that wait; one that does not run gets
none. -/
def send (k : Keeper) (m : Message) : Keeper := { k with inbox := k.inbox.map (· ++ [m]) }

/-- The keeper with one more file counted. -/
def record (k : Keeper) (e : Eviction) : Keeper := { k with tally := k.tally.record e }

/-- Enters an event: a keeper that watches is processing from now on. -/
def enterEvent (k : Keeper) : Keeper :=
  if k.phase = .watching then { k with phase := .processing } else k

/-- Leaves an event: a keeper that is still processing returns to the phase it
was in before. -/
def leaveEvent (before : Phase) (k : Keeper) : Keeper :=
  if k.phase = .processing then { k with phase := before } else k

def enterEvaluation (k : Keeper) : Keeper :=
  { k with phase := .evaluating, tally := { k.tally with evaluations := k.tally.evaluations + 1 } }

/-- Leaves an evaluation: a keeper that is still evaluating returns to the phase
it was in before. -/
def leaveEvaluation (before : Phase) (k : Keeper) : Keeper :=
  if k.phase = .evaluating then { k with phase := before } else k

@[simp] theorem address_mk (t : Tier) (p : Phase) (y : Tally) (h : Throttle)
    (d : Debouncer Path Unit) (i : Option (List Message)) (w : Option Watch) :
    (Keeper.mk t p y h d i w).address = t.address := rfl

end Keeper

/-- The order of addresses: by camera, then subcategory, then place in the chain. -/
def Address.before (a b : Address) : Bool :=
  if a.camera = b.camera then
    if a.subcategory = b.subcategory then decide (a.index < b.index)
    else decide (a.subcategory < b.subcategory)
  else decide (a.camera < b.camera)

/-- All keepers, in the order of their addresses. -/
abbrev Keepers := List Keeper

namespace Keepers

/-- Puts a keeper in its place; it replaces a keeper with the same address. -/
def insert (k : Keeper) : Keepers → Keepers
  | [] => [k]
  | x :: xs =>
    if x.address = k.address then k :: xs
    else if k.address.before x.address then k :: x :: xs
    else x :: insert k xs

/-- The keepers of a list of tiers; of tiers with one address the last one counts. -/
def ofTiers (ts : List Tier) : Keepers :=
  ts.foldl (fun ks t => insert ⟨t, .starting, {}, {}, {}, none, none⟩ ks) []

def get? (ks : Keepers) (a : Address) : Option Keeper := List.find? (·.address == a) ks

/-- The keepers of one chain, the first tier first. -/
def chain (ks : Keepers) (camera subcategory : String) : Keepers :=
  ks.filter fun k => k.tier.camera == camera && k.tier.subcategory == subcategory

/-- The keeper of the tier after an address. -/
def next? (ks : Keepers) (a : Address) : Option Keeper := ks.get? { a with index := a.index + 1 }

/-- The keepers with the one at an address changed. -/
def update (ks : Keepers) (a : Address) (f : Keeper → Keeper) : Keepers :=
  ks.map fun k => if k.address = a then f k else k

theorem mem_update {ks : Keepers} {a : Address} {f : Keeper → Keeper} {k : Keeper} :
    k ∈ ks.update a f ↔ ∃ x ∈ ks, (if x.address = a then f x else x) = k := by
  simp [update]

theorem get?_update_ne (ks : Keepers) {a b : Address} (f : Keeper → Keeper)
    (hf : ∀ k, (f k).address = k.address) (h : b ≠ a) : (ks.update a f).get? b = ks.get? b := by
  induction ks with
  | nil => rfl
  | cons k ks ih =>
    simp only [get?, update, List.map_cons, List.find?_cons] at ih ⊢
    by_cases hk : k.address = a
    · have hb : (k.address == b) = false := by rw [hk]; simpa using fun h' => h h'.symm
      rw [if_pos hk, hf k, hb]
      exact ih
    · rw [if_neg hk]
      cases k.address == b
      · exact ih
      · rfl

theorem get?_update_self (ks : Keepers) (a : Address) (f : Keeper → Keeper)
    (hf : ∀ k, (f k).address = k.address) : (ks.update a f).get? a = (ks.get? a).map f := by
  induction ks with
  | nil => rfl
  | cons k ks ih =>
    simp only [get?, update, List.map_cons, List.find?_cons] at ih ⊢
    by_cases hk : k.address = a
    · have hb : (k.address == a) = true := by simpa using hk
      rw [if_pos hk, hf k, hb]
      rfl
    · have hb : (k.address == a) = false := by simpa using hk
      rw [if_neg hk, hb]
      exact ih

end Keepers

end TieredFootage
