import TieredFootage.Config
import TieredFootage.Tier

/-!
# Chains of tiers

The settings of a camera become tiers here. Every root of its recorder becomes
three tiers, for segments, thumbnails and clips; every root of its snapshots
becomes one tier for each domain. A tier knows its place in the chain and the
root of the tier behind it.
-/

namespace TieredFootage

/-- The members of a chain, counted from `i`, each with the one behind it. -/
def links {α : Type} (i : Nat) : List α → List (Nat × α × Option α)
  | [] => []
  | x :: xs => (i, x, xs.head?) :: links (i + 1) xs

@[simp] theorem links_nil {α : Type} (i : Nat) : links i ([] : List α) = [] := rfl

theorem links_cons {α : Type} (i : Nat) (x : α) (xs : List α) :
    links i (x :: xs) = (i, x, xs.head?) :: links (i + 1) xs := rfl

@[simp] theorem length_links {α : Type} (i : Nat) (xs : List α) :
    (links i xs).length = xs.length := by
  induction xs generalizing i with
  | nil => rfl
  | cons x xs ih => rw [links_cons, List.length_cons, ih, List.length_cons]

/-- The places of a chain are counted one by one. -/
theorem map_fst_links {α : Type} (i : Nat) (xs : List α) :
    (links i xs).map (·.1) = List.range' i xs.length := by
  induction xs generalizing i with
  | nil => rfl
  | cons x xs ih => rw [links_cons, List.map_cons, ih, List.length_cons, List.range'_succ]

/-- The member at a place, and the one behind it. -/
theorem mem_links {α : Type} {i j : Nat} {x : α} {y : Option α} {xs : List α} :
    (j, x, y) ∈ links i xs ↔ i ≤ j ∧ xs[j - i]? = some x ∧ y = xs[j - i + 1]? := by
  induction xs generalizing i with
  | nil => simp
  | cons z xs ih =>
    rw [links_cons, List.mem_cons, ih]
    by_cases h : j = i
    · subst h
      have hn : ¬ j + 1 ≤ j := by omega
      simp only [hn, false_and, or_false, Prod.mk.injEq, true_and, Nat.le_refl, Nat.sub_self,
        List.getElem?_cons_zero, Option.some.injEq, Nat.zero_add, List.getElem?_cons_succ,
        List.head?_eq_getElem?, eq_comm (a := x)]
    · by_cases hlt : i < j
      · have e : j - i = j - (i + 1) + 1 := by omega
        rw [e, List.getElem?_cons_succ, List.getElem?_cons_succ]
        simp [h]
        omega
      · simp [h]
        omega

namespace CameraSpec

/-- The retention of event segments in the first tier, where the camera may set
the age by itself, and in every other one. -/
def eventRetention (c : CameraSpec) (i : Nat) (s : SegmentTierSpec) : Retention :=
  match i, c.recorder.retainDays with
  | 0, some days => { s.events.resolve with maxAge := secondsOfDays days }
  | _, _ => s.events.resolve

def recorderTier (c : CameraSpec) (i : Nat) (s : SegmentTierSpec) (next : Option SegmentTierSpec)
    (subcategory : String) (role : Role) : Tier where
  camera := c.identifier
  category := .recorder
  subcategory := subcategory
  index := i
  root := normalRoot s.root
  next := next.map fun n => normalRoot n.root
  polled := s.polled
  drainsOnStop := s.drainsOnStop
  cameraFailed := c.failed
  role := role

/-- The three tiers below one root of the recorder. -/
def recorderTiersAt (c : CameraSpec) : Nat × SegmentTierSpec × Option SegmentTierSpec → List Tier
  | (i, s, next) =>
    [c.recorderTier i s next segmentsName
        (.segments s.continuous.resolve (c.eventRetention i s)),
      c.recorderTier i s next thumbnailsName .thumbnails,
      c.recorderTier i s next clipsName .clips]

def recorderTiers (c : CameraSpec) : List Tier :=
  (links 0 c.recorder.tiers).flatMap c.recorderTiersAt

/-- A tier of the snapshots of one domain. -/
def snapshotTier (c : CameraSpec) (d : Domain) :
    Nat × SnapshotTierSpec × Option SnapshotTierSpec → Tier
  | (i, s, next) =>
    { camera := c.identifier
      category := .snapshots
      subcategory := d.text
      index := i
      root := normalRoot s.root
      next := next.map fun n => normalRoot n.root
      polled := s.polled
      drainsOnStop := s.drainsOnStop
      cameraFailed := c.failed
      role := .plain s.retention.resolve }

def domainTiers (c : CameraSpec) (d : Domain) : List Tier :=
  (links 0 c.snapshots.tiers).map (c.snapshotTier d)

def snapshotTiers (c : CameraSpec) : List Tier := c.snapshots.domains.flatMap c.domainTiers

def tiers (c : CameraSpec) : List Tier := c.recorderTiers ++ c.snapshotTiers

end CameraSpec

def StorageConfig.tiers (s : StorageConfig) : List Tier := s.cameras.flatMap CameraSpec.tiers

end TieredFootage
