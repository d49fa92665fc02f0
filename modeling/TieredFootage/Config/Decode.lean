import TieredFootage.Config
import TieredFootage.Config.Setting

/-!
# What settings mean

Written settings are given their meaning in one of two manners. Read exactly,
every setting has to be of the kind that is asked for. Read leniently, scalars
are converted where that makes sense: a flag may be written as a word or a
number, a number as text, and a text as anything but a list or a table.

A record is a table of its fields, or a list of them in their order; fields that
are left out have the defaults of their structure, and unknown ones are passed
over. The thresholds of a snapshot tier lie among the other fields of the tier;
they are always read exactly.
-/

namespace TieredFootage

/-- The two manners of reading settings. -/
inductive Reading
  | exact
  | lenient
  deriving DecidableEq, Repr

namespace Setting

/-- The words for a flag. -/
def flagWord? (s : String) : Option Bool :=
  if s.toLower ∈ ["true", "on", "yes"] then some true
  else if s.toLower ∈ ["false", "off", "no"] then some false
  else none

/-- The 64-bit number without a minus sign that a text writes out. -/
def wholeText? (s : String) : Option Nat :=
  let ds := if s.toList.head? = some '+' then s.toList.drop 1 else s.toList
  let n := Double.digitsValue ds
  if !ds.isEmpty && ds.all Char.isDigit && decide (n < wordEnd) then some n else none

def text? : Reading → Setting → Option String
  | _, .text s => some s
  | .lenient, .flag b => some (toString b)
  | .lenient, .whole z => some (toString z)
  | .lenient, .real x => some x.text
  | _, _ => none

def flag? : Reading → Setting → Option Bool
  | _, .flag b => some b
  | .lenient, .whole z => some (z != 0)
  | .lenient, .real x => some !x.isZero
  | .lenient, .text s => if s = "1" then some true else if s = "0" then some false else flagWord? s
  | _, _ => none

/-- The 64-bit number of a setting that is converted. -/
def converted? : Setting → Option Nat
  | .whole z => if 0 ≤ z then some z.toNat else none
  | .real x => some x.toWhole
  | .flag b => some b.toNat
  | .text s => ((flagWord? s).map Bool.toNat).or (wholeText? s)
  | _ => none

/-- The number of a setting below `limit`; of a converted number only the
remainder is kept. -/
def natural? (limit : Nat) : Reading → Setting → Option Nat
  | .exact, .whole z => if 0 ≤ z ∧ z < limit then some z.toNat else none
  | .exact, _ => none
  | .lenient, s => (converted? s).map (· % limit)

/-- A setting that may be missing. -/
def maybe? {α : Type} (read : Setting → Option α) : Setting → Option (Option α)
  | .missing => some none
  | s => (read s).map some

/-- The settings of a list. -/
def each? {α : Type} (read : Setting → Option α) : Setting → Option (List α)
  | .list xs => xs.mapM read
  | _ => none

/-- Whether a setting is a record of `arity` fields. -/
def isRecord (r : Reading) (arity : Nat) : Setting → Bool
  | .table _ => true
  | .list xs => r == .lenient || decide (xs.length ≤ arity)
  | _ => false

/-- The field of a record with a name, or at a position. -/
def field? (name : String) (position : Nat) : Setting → Option Setting
  | .table es => lookup? name es
  | .list xs => xs[position]?
  | _ => none

/-- A field that may be left out. -/
def fieldOr? {α : Type} (s : Setting) (name : String) (position : Nat) (default : α)
    (read : Setting → Option α) : Option α :=
  match s.field? name position with
  | none => some default
  | some x => read x

end Setting

open Setting

def AgeSpec.read? (r : Reading) (s : Setting) : Option AgeSpec :=
  if s.isRecord r 3 then do
    let days ← s.fieldOr? "days" 0 none (maybe? (natural? wordEnd r))
    let hours ← s.fieldOr? "hours" 1 none (maybe? (natural? wordEnd r))
    let minutes ← s.fieldOr? "minutes" 2 none (maybe? (natural? wordEnd r))
    some ⟨days, hours, minutes⟩
  else none

def SizeSpec.read? (r : Reading) (s : Setting) : Option SizeSpec :=
  if s.isRecord r 2 then do
    let mb ← s.fieldOr? "mb" 0 none (maybe? (natural? wordEnd r))
    let gb ← s.fieldOr? "gb" 1 none (maybe? (natural? wordEnd r))
    some ⟨mb, gb⟩
  else none

def RetentionSpec.read? (r : Reading) (s : Setting) : Option RetentionSpec :=
  if s.isRecord r 4 then do
    let maxAge ← s.fieldOr? "max_age" 0 {} (AgeSpec.read? r)
    let minAge ← s.fieldOr? "min_age" 1 {} (AgeSpec.read? r)
    let maxSize ← s.fieldOr? "max_size" 2 {} (SizeSpec.read? r)
    let minSize ← s.fieldOr? "min_size" 3 {} (SizeSpec.read? r)
    some ⟨maxAge, minAge, maxSize, minSize⟩
  else none

def Path.read? (r : Reading) (s : Setting) : Option Path := (s.text? r).map String.toList

def SegmentTierSpec.read? (r : Reading) (s : Setting) : Option SegmentTierSpec :=
  if s.isRecord r 5 then do
    let root ← (s.field? "path" 0).bind (Path.read? r)
    let polled ← s.fieldOr? "poll" 1 false (flag? r)
    let drainsOnStop ← s.fieldOr? "move_on_shutdown" 2 false (flag? r)
    let continuous ← s.fieldOr? "continuous" 3 {} (RetentionSpec.read? r)
    let events ← s.fieldOr? "events" 4 {} (RetentionSpec.read? r)
    some ⟨root, polled, drainsOnStop, continuous, events⟩
  else none

/-- The tier of snapshots that a setting describes; it has to be a table. -/
def SnapshotTierSpec.read? (r : Reading) : Setting → Option SnapshotTierSpec
  | .table es => do
    let s := Setting.table es
    let root ← (s.field? "path" 0).bind (Path.read? r)
    let polled ← s.fieldOr? "poll" 1 false (flag? r)
    let drainsOnStop ← s.fieldOr? "move_on_shutdown" 2 false (flag? r)
    let retention ← RetentionSpec.read? .exact s
    some ⟨root, polled, drainsOnStop, retention⟩
  | _ => none

/-- The domain that a setting names: by its name, or by a table with nothing else
in it. Read leniently, names may be written with capitals. -/
def Domain.read? : Reading → Setting → Option Domain
  | .exact, .text s => Domain.ofText? s
  | .exact, .table [(s, .missing)] => Domain.ofText? s
  | .lenient, .text s => Domain.ofText? s.toLower
  | .lenient, .table [(s, _)] => Domain.ofText? s.toLower
  | _, _ => none

def RecorderSpec.read? (r : Reading) (s : Setting) : Option RecorderSpec :=
  if s.isRecord r 2 then do
    let retainDays ← s.fieldOr? "retain" 0 none (maybe? (natural? wordEnd r))
    let tiers ← s.fieldOr? "tiers" 1 [] (each? (SegmentTierSpec.read? r))
    some ⟨retainDays, tiers⟩
  else none

def SnapshotSpec.read? (r : Reading) (s : Setting) : Option SnapshotSpec :=
  if s.isRecord r 2 then do
    let domains ← s.fieldOr? "domains" 0 Domain.all (each? (Domain.read? r))
    let tiers ← s.fieldOr? "tiers" 1 [] (each? (SnapshotTierSpec.read? r))
    some ⟨domains, tiers⟩
  else none

def CameraSpec.read? (r : Reading) (s : Setting) : Option CameraSpec :=
  if s.isRecord r 4 then do
    let identifier ← (s.field? "identifier" 0).bind (text? r)
    let failed ← s.fieldOr? "failed" 1 false (flag? r)
    let recorder ← s.fieldOr? "recorder" 2 {} (RecorderSpec.read? r)
    let snapshots ← s.fieldOr? "snapshots" 3 {} (SnapshotSpec.read? r)
    some ⟨identifier, failed, recorder, snapshots⟩
  else none

def StorageConfig.read? (r : Reading) (s : Setting) : Option StorageConfig :=
  if s.isRecord r 3 then do
    let d : StorageConfig := {}
    let ignoredFiles ← s.fieldOr? "ignored_files" 0 d.ignoredFiles (each? (Path.read? r))
    let cameras ← s.fieldOr? "cameras" 1 d.cameras (each? (CameraSpec.read? r))
    let sweepSeconds ← s.fieldOr? "sweep_interval_secs" 2 d.sweepSeconds (natural? wordEnd r)
    some ⟨ignoredFiles, cameras, sweepSeconds⟩
  else none

/-- The place of the catalog that a setting describes. -/
def DatabaseConfig.read? (r : Reading) (s : Setting) : Option DatabaseConfig :=
  if s.isRecord r 4 then do
    let d : DatabaseConfig := {}
    let url ← s.fieldOr? "url" 0 d.url (text? r)
    let maxConnections ← s.fieldOr? "max_connections" 1 d.maxConnections (natural? 4294967296 r)
    let connectTimeout ← s.fieldOr? "connect_timeout_secs" 2 d.connectTimeout (natural? wordEnd r)
    let runsMigrations ← s.fieldOr? "run_migrations" 3 d.runsMigrations (flag? r)
    some ⟨url, maxConnections, connectTimeout, runsMigrations⟩
  else none

def ServiceConfig.read? (r : Reading) (s : Setting) : Option ServiceConfig :=
  if s.isRecord r 4 then do
    let d : ServiceConfig := {}
    let name ← s.fieldOr? "name" 0 d.name (text? r)
    let logLevel ← s.fieldOr? "log_level" 1 d.logLevel (text? r)
    let logFormat ← s.fieldOr? "log_format" 2 d.logFormat (text? r)
    let metricsPort ← s.fieldOr? "metrics_port" 3 d.metricsPort (natural? 65536 r)
    some ⟨name, logLevel, logFormat, metricsPort⟩
  else none

/-- All that a setting describes. -/
def Config.read? (r : Reading) (s : Setting) : Option Config :=
  if s.isRecord r 3 then do
    let service ← s.fieldOr? "service" 0 {} (ServiceConfig.read? r)
    let database ← s.fieldOr? "database" 1 {} (DatabaseConfig.read? r)
    let storage ← s.fieldOr? "storage" 2 {} (StorageConfig.read? r)
    some ⟨service, database, storage⟩
  else none

end TieredFootage
