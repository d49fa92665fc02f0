import TieredFootage.Path
import TieredFootage.Threshold

/-!
# Settings of the service

Everything that can be set up: how the service names itself, where the catalog
is kept, and the chains of tiers of every camera. Recorded segments have two
retentions, continuous and event; snapshots have one, and their tiers are shared
by all domains that produce snapshots.

`Config.validate` accepts settings whose cameras can be told apart and whose
chains never lead back to a root they already passed. Roots are compared without
the slashes at their end.
-/

namespace TieredFootage

/-- The domains that produce snapshots. -/
inductive Domain
  | objectDetector
  | faceRecognition
  | licensePlateRecognition
  | motionDetector
  deriving DecidableEq, Repr

namespace Domain

def text : Domain → String
  | .objectDetector => "object_detector"
  | .faceRecognition => "face_recognition"
  | .licensePlateRecognition => "license_plate_recognition"
  | .motionDetector => "motion_detector"

def all : List Domain :=
  [.objectDetector, .faceRecognition, .licensePlateRecognition, .motionDetector]

def ofText? (s : String) : Option Domain := all.find? fun d => d.text == s

theorem mem_all (d : Domain) : d ∈ all := by cases d <;> simp [all]

theorem text_injective : Function.Injective text := by
  intro a b
  cases a <;> cases b <;> simp [text]

@[simp] theorem ofText?_text (d : Domain) : ofText? d.text = some d := by
  cases d <;> rfl

end Domain

/-- A tier of snapshots as it is set up. -/
structure SnapshotTierSpec where
  root : Path
  polled : Bool := false
  drainsOnStop : Bool := false
  retention : RetentionSpec := {}
  deriving DecidableEq, Repr, Inhabited

/-- A tier of recorded segments as it is set up. -/
structure SegmentTierSpec where
  root : Path
  polled : Bool := false
  drainsOnStop : Bool := false
  continuous : RetentionSpec := {}
  events : RetentionSpec := {}
  deriving DecidableEq, Repr, Inhabited

/-- The chain of recorded segments of one camera. -/
structure RecorderSpec where
  /-- How many days event recordings stay in the first tier; it takes the place
  of the age that the tier itself sets. -/
  retainDays : Option Nat := none
  tiers : List SegmentTierSpec := []
  deriving DecidableEq, Repr, Inhabited

/-- The chains of snapshots of one camera. -/
structure SnapshotSpec where
  domains : List Domain := Domain.all
  tiers : List SnapshotTierSpec := []
  deriving DecidableEq, Repr, Inhabited

/-- A camera as it is set up. -/
structure CameraSpec where
  identifier : String
  /-- The camera could not be opened; its files are kept and served all the same. -/
  failed : Bool := false
  recorder : RecorderSpec := {}
  snapshots : SnapshotSpec := {}
  deriving DecidableEq, Repr, Inhabited

/-- What is stored, and how often it is looked through. -/
structure StorageConfig where
  /-- The names of files that are still being written and never catalogued. -/
  ignoredFiles : List Path := []
  cameras : List CameraSpec := []
  /-- The seconds between two sweeps; zero is no sweep. -/
  sweepSeconds : Nat := 60
  deriving DecidableEq, Repr, Inhabited

/-- Where the catalog is kept. -/
structure DatabaseConfig where
  url : String := "sqlite:///var/lib/tiered-storage/catalog.db?mode=rwc"
  maxConnections : Nat := 8
  /-- The seconds to wait for a connection. -/
  connectTimeout : Nat := 30
  /-- Whether missing tables are made when the catalog is opened. -/
  runsMigrations : Bool := true
  deriving DecidableEq, Repr, Inhabited

/-- How the service presents itself. -/
structure ServiceConfig where
  name : String := "tiered-storage"
  logLevel : String := "info"
  logFormat : String := "json"
  metricsPort : Nat := 9090
  deriving DecidableEq, Repr, Inhabited

structure Config where
  service : ServiceConfig := {}
  database : DatabaseConfig := {}
  storage : StorageConfig := {}
  deriving DecidableEq, Repr, Inhabited

/-- The seconds between two sweeps, if there are any. -/
def StorageConfig.sweepEvery? (s : StorageConfig) : Option Nat :=
  if 0 < s.sweepSeconds then some s.sweepSeconds else none

inductive ConfigError
  | missingField (field : String)
  | invalidValue (field reason : String)
  deriving DecidableEq, Repr

def ConfigError.message : ConfigError → String
  | .missingField f => "Missing required field: " ++ f
  | .invalidValue f r => "Invalid value for " ++ f ++ ": " ++ r

/-- Checks the roots of one chain, of which `seen` came before: each is there,
and none leads to one that was seen. -/
def checkRoots (field : String) : List Path → List Path → Except ConfigError Unit
  | _, [] => .ok ()
  | seen, p :: ps =>
    if p = [] then .error (.missingField field)
    else if p.trimSlashes ∈ seen then
      .error (.invalidValue field
        ("tier path " ++ String.ofList p ++ " is used by more than one tier"))
    else checkRoots field (p.trimSlashes :: seen) ps

/-- The name of the setting that holds the roots of a chain. -/
def rootsField (camera chain : String) : String :=
  "storage.cameras." ++ camera ++ "." ++ chain ++ ".tiers.path"

def CameraSpec.validate (c : CameraSpec) : Except ConfigError Unit := do
  checkRoots (rootsField c.identifier "recorder") [] (c.recorder.tiers.map (·.root))
  checkRoots (rootsField c.identifier "snapshots") [] (c.snapshots.tiers.map (·.root))

/-- Checks cameras, of which those named in `seen` came before. -/
def checkCameras : List String → List CameraSpec → Except ConfigError Unit
  | _, [] => .ok ()
  | seen, c :: cs =>
    if c.identifier = "" then .error (.missingField "storage.cameras.identifier")
    else if c.identifier ∈ seen then
      .error (.invalidValue "storage.cameras.identifier"
        ("camera " ++ c.identifier ++ " is configured twice"))
    else do
      c.validate
      checkCameras (c.identifier :: seen) cs

/-- Checks the settings: the first thing that is wrong, in the order in which
they are written. -/
def Config.validate (c : Config) : Except ConfigError Unit := checkCameras [] c.storage.cameras

/-- A chain is accepted exactly when all its roots are there and no two of them,
nor one of them and a root seen before, are the same. -/
theorem checkRoots_eq_ok_iff (field : String) (seen ps : List Path) :
    checkRoots field seen ps = .ok () ↔
      (∀ p ∈ ps, p ≠ [] ∧ p.trimSlashes ∉ seen) ∧ (ps.map Path.trimSlashes).Nodup := by
  induction ps generalizing seen with
  | nil => simp [checkRoots]
  | cons p ps ih =>
    rw [checkRoots]
    split
    · rename_i h
      simp [h]
    · rename_i h
      split
      · rename_i hs
        simp only [reduceCtorEq, List.mem_cons, forall_eq_or_imp, false_iff]
        exact fun hc => hc.1.1.2 hs
      · rename_i hs
        rw [ih]
        simp only [List.mem_cons, forall_eq_or_imp, List.map_cons, List.nodup_cons, not_or]
        constructor
        · rintro ⟨hall, hnd⟩
          refine ⟨⟨⟨h, hs⟩, fun q hq => ⟨(hall q hq).1, (hall q hq).2.2⟩⟩, ?_, hnd⟩
          intro hmem
          obtain ⟨q, hq, he⟩ := List.mem_map.mp hmem
          exact (hall q hq).2.1 he
        · rintro ⟨⟨_, hall⟩, hnot, hnd⟩
          refine ⟨fun q hq => ⟨(hall q hq).1, ?_, (hall q hq).2⟩, hnd⟩
          intro he
          exact hnot (List.mem_map.mpr ⟨q, hq, he⟩)

/-- Cameras are accepted exactly when all are named, no two of them alike, and
both chains of each are accepted. -/
theorem checkCameras_eq_ok_iff (seen : List String) (cs : List CameraSpec) :
    checkCameras seen cs = .ok () ↔
      (∀ c ∈ cs, c.identifier ≠ "" ∧ c.identifier ∉ seen ∧ c.validate = .ok ()) ∧
        (cs.map (·.identifier)).Nodup := by
  induction cs generalizing seen with
  | nil => simp [checkCameras]
  | cons c cs ih =>
    rw [checkCameras]
    split
    · rename_i h
      simp [h]
    · rename_i h
      split
      · rename_i hs
        simp only [reduceCtorEq, List.mem_cons, forall_eq_or_imp, false_iff]
        exact fun hc => hc.1.1.2.1 hs
      · rename_i hs
        cases hv : c.validate with
        | error e =>
          simp only [List.mem_cons, forall_eq_or_imp, hv]
          constructor
          · intro hc
            exact absurd hc (by simp [bind, Except.bind])
          · intro hc
            exact absurd hc.1.1.2.2 (by simp)
        | ok u =>
          simp only [bind, Except.bind, ih, List.mem_cons, forall_eq_or_imp, List.map_cons,
            List.nodup_cons, not_or, hv, and_true]
          constructor
          · rintro ⟨hall, hnd⟩
            refine ⟨⟨⟨h, hs⟩, fun x hx => ⟨(hall x hx).1, (hall x hx).2.1.2, (hall x hx).2.2⟩⟩,
              ?_, hnd⟩
            intro hmem
            obtain ⟨x, hx, he⟩ := List.mem_map.mp hmem
            exact (hall x hx).2.1.1 he
          · rintro ⟨⟨_, hall⟩, hnot, hnd⟩
            refine ⟨fun x hx => ⟨(hall x hx).1, ⟨?_, (hall x hx).2.1⟩, (hall x hx).2.2⟩, hnd⟩
            intro he
            exact hnot (List.mem_map.mpr ⟨x, hx, he⟩)

end TieredFootage
