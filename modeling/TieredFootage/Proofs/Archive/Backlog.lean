import TieredFootage.Proofs.Archive.Cataloguing
import TieredFootage.Proofs.Catalog.Keys
import TieredFootage.Proofs.Watch.Directory

/-!
# A keeper that lags behind the disk

Actions on files are reported by events. Each event is translated some time later,
and what it says is handled some time after that, against the disk as it is by
then. What is reported, translated or not, and not yet handled is the `Backlog`.

The invariant has two parts for each name. What is pending about a path foretells
whether there is a file: going through it from the presence of a row one ends with
the presence of the file. And where there is both a row and a file, either the row
is about to be looked at again, or its size is right, a rename apart: a file that
was put in the place of another one by a rename is not looked at. `unseen` keeps
for each path the size of the file that was there when the keeper last looked, from
the moment a rename replaces it until the keeper looks again.
-/

namespace TieredFootage

/-- Whether a file is there, as far as a notification tells. -/
def Notification.foretell (p : Path) (known : Bool) (x : Notification) : Bool :=
  if x.path = p then
    match x.kind with
    | .created => true
    | .modified => known
    | .deleted => false
  else known

/-- Whether a file is there, as far as notifications tell, the last one last. -/
def foretold (p : Path) (known : Bool) (ns : List Notification) : Bool :=
  ns.foldl (Notification.foretell p) known

theorem foretold_append (p : Path) (known : Bool) (ns ms : List Notification) :
    foretold p known (ns ++ ms) = foretold p (foretold p known ns) ms := List.foldl_append

theorem foretold_cons (p : Path) (known : Bool) (x : Notification) (ns : List Notification) :
    foretold p known (x :: ns) = foretold p (x.foretell p known) ns := rfl

theorem foretell_of_ne {p : Path} {x : Notification} (h : x.path ≠ p) (known : Bool) :
    x.foretell p known = known := if_neg h

/-- Notifications about other paths tell nothing. -/
theorem foretold_of_ne {p : Path} {ns : List Notification} (h : ∀ x ∈ ns, x.path ≠ p)
    (known : Bool) : foretold p known ns = known := by
  induction ns with
  | nil => rfl
  | cons x ns ih =>
    rw [foretold_cons, foretell_of_ne (h x List.mem_cons_self)]
    exact ih fun y hy => h y (List.mem_cons_of_mem x hy)

/-- Only a deletion tells that a known file is gone. -/
theorem foretell_true_eq_false_iff {p : Path} {x : Notification} :
    x.foretell p true = false ↔ x = ⟨.deleted, p⟩ := by
  obtain ⟨kind, path⟩ := x
  unfold Notification.foretell
  by_cases hp : path = p <;> cases kind <;> simp [hp]

/-- Where a known file is foretold to be gone, an unknown one is. -/
theorem foretold_eq_false {p : Path} {ns : List Notification} (h : foretold p true ns = false)
    (known : Bool) : foretold p known ns = false := by
  cases known with
  | true => exact h
  | false =>
    induction ns with
    | nil => rfl
    | cons x ns ih =>
      rw [foretold_cons] at h ⊢
      cases hx : x.foretell p true with
      | false =>
        obtain rfl := foretell_true_eq_false_iff.1 hx
        rw [hx] at h
        simpa [Notification.foretell] using h
      | true =>
        rw [hx] at h
        cases x.foretell p false with
        | false => exact ih h
        | true => exact h

/-- A known file is foretold to be gone only if it is reported deleted. -/
theorem deleted_mem_of_foretold {p : Path} {ns : List Notification}
    (h : foretold p true ns = false) : ⟨.deleted, p⟩ ∈ ns := by
  induction ns with
  | nil => cases h
  | cons x ns ih =>
    rw [foretold_cons] at h
    cases hx : x.foretell p true with
    | false => exact List.mem_cons.2 (Or.inl (foretell_true_eq_false_iff.1 hx).symm)
    | true =>
      rw [hx] at h
      exact List.mem_cons_of_mem x (ih h)

/-- The sizes that were overlooked by a change, together with those from before:
that of a file which a rename replaces, unless one from before it is kept. -/
def Watch.overlook (w : Watch) (d : Disk) (unseen : Path → Option Nat) :
    Change → Path → Option Nat
  | .renamed _ t => fun p =>
    match d.node? t with
    | some (.file old) =>
      if w.textOf? t = some p then some ((unseen p).getD old.utf8ByteSize) else unseen p
    | _ => unseen p
  | _ => unseen

/-- An archive, the events reported to one of its keepers that are not translated
yet, the notifications that are not handled yet, and the sizes that were
overlooked. -/
structure Backlog where
  archive : Archive
  events : List FileEvent := []
  inbox : List Notification := []
  unseen : Path → Option Nat := fun _ => none

namespace Backlog

inductive Act
  /-- Somebody does something to the files of the directory, and it is reported. -/
  | file (f : FileAction)
  /-- The oldest event is translated. -/
  | translate
  /-- The oldest notification is handled. -/
  | handle
  /-- All quiet periods that are over end. -/
  | fire
  /-- The quiet period of one file ends, if it is over. -/
  | fireOne (p : Path)
  | wait (span : Nat)
  deriving DecidableEq, Repr

/-- The names that an act is about. -/
def Act.names : Act → List Path
  | .file f => f.names
  | _ => []

/-- The sizes still overlooked after some paths were looked at. -/
def seen (unseen : Path → Option Nat) (ps : List Path) (p : Path) : Option Nat :=
  if p ∈ ps then none else unseen p

theorem seen_of_ne (unseen : Path → Option Nat) {p q : Path} (h : q ≠ p) :
    seen unseen [p] q = unseen q := if_neg (by simpa using h)

/-- The backlog of the keeper of a tier that watches its directory, after an act. -/
def act (t : Tier) (w : Watch) (s : Backlog) : Act → Backlog
  | .file f =>
    let (changes, disk) := (f.run w.base s.archive.disk).takeJournal
    { s with
      archive := s.archive.withDisk disk
      events := s.events ++ changes.flatMap w.eventsOf
      unseen := changes.foldl (w.overlook s.archive.disk) s.unseen }
  | .translate =>
    match s.events with
    | [] => s
    | e :: es =>
      { s with
        events := es
        inbox := s.inbox ++ e.notifications s.archive.disk s.archive.ignored }
  | .handle =>
    match s.inbox with
    | [] => s
    | x :: xs =>
      { s with
        archive := (s.archive.onNotification t x).2
        inbox := xs
        unseen :=
          if x.kind = .created ∧ s.archive.catalog.fileAt? x.path = none then
            seen s.unseen [x.path]
          else s.unseen }
  | .fire =>
    { s with
      archive := s.archive.fireTimers t.address
      unseen := seen s.unseen (((s.archive.timersAt t.address).filter fun τ =>
        decide (τ.due ≤ s.archive.now)).map (·.key)) }
  | .fireOne p =>
    { s with
      archive := s.archive.fireTimer t p
      unseen := if s.archive.isDue t.address p then seen s.unseen [p] else s.unseen }
  | .wait span => { s with archive := { s.archive with now := s.archive.now + span } }

/-- The backlog after acts, one after the other. -/
def run (t : Tier) (w : Watch) (s : Backlog) (acts : List Act) : Backlog := acts.foldl (act t w) s

/-- What is still to be handled, translated as if it were now. -/
def pending (s : Backlog) : List Notification :=
  s.inbox ++ s.events.flatMap (·.notifications s.archive.disk s.archive.ignored)

/-- The keeper will still look at a path, with these timers and these notifications
before it: a quiet period has begun or will begin, or the row will be dropped. -/
def Due (timers : List (Timer Path Unit)) (ns : List Notification) (p : Path) : Prop :=
  (∃ τ ∈ timers, τ.key = p) ∨ ⟨.modified, p⟩ ∈ ns ∨ ⟨.deleted, p⟩ ∈ ns

/-- A path is due for as long as what makes it so is still before the keeper. -/
theorem Due.mono {timers timers' : List (Timer Path Unit)} {ns ns' : List Notification} {p : Path}
    (h : Due timers ns p)
    (htimers : ∀ τ ∈ timers, τ.key = p → ∃ τ' ∈ timers', τ'.key = p)
    (hns : ∀ k, (k = .modified ∨ k = .deleted) → (⟨k, p⟩ : Notification) ∈ ns → ⟨k, p⟩ ∈ ns') :
    Due timers' ns' p := by
  rcases h with ⟨τ, hτ, hkey⟩ | hmodified | hdeleted
  · exact Or.inl (htimers τ hτ hkey)
  · exact Or.inr (Or.inl (hns _ (Or.inl rfl) hmodified))
  · exact Or.inr (Or.inr (hns _ (Or.inr rfl) hdeleted))

/-- The keeper catalogues files of a name. -/
def Kept (t : Tier) (w : Watch) (ok : Path → Prop) (n : Path) : Prop :=
  ok n ∧ t.skips (w.base.join n) = false

/-- What holds of a backlog at any time, if all is about names of one kind. -/
structure Sound (t : Tier) (w : Watch) (ok : Path → Prop) (s : Backlog) : Prop where
  tier : s.archive.tierAt? t.address = some t
  answers : ∀ q ∈ [Query.insertFile, .updateFileSize, .deleteFile],
    s.archive.catalog.answers q = true
  paths : (s.archive.catalog.files.map (·.path)).Nodup
  isTree : s.archive.disk.IsTree
  journal : s.archive.disk.journal = []
  names : ∀ n, ok n → w.Names s.archive.disk n
  plain : ∀ n, ok n → s.archive.ignored.covers (w.base.join n) = false
  files : ∀ n x, s.archive.disk.node? (w.place n) = some x → ok n ∧ ∃ content, x = .file content
  rows : ∀ r ∈ s.archive.catalog.files,
    t.population.holds r = true ↔ ∃ n, Kept t w ok n ∧ r.path = w.base.join n
  events : ∀ e ∈ s.events, ∃ ns, w.Says s.archive.ignored ok e ns
  inbox : ∀ x ∈ s.inbox, ∃ n, ok n ∧ x.path = w.base.join n
  present : ∀ n, Kept t w ok n →
    foretold (w.base.join n) (s.archive.catalog.fileAt? (w.base.join n)).isSome s.pending =
      (s.archive.disk.node? (w.place n)).isSome
  size : ∀ n, Kept t w ok n → ∀ r, s.archive.catalog.fileAt? (w.base.join n) = some r →
    ∀ content, s.archive.disk.node? (w.place n) = some (.file content) →
      Due (s.archive.timersAt t.address) s.pending (w.base.join n) ∨
        r.size = ((s.unseen (w.base.join n)).getD content.utf8ByteSize : Nat)

variable {t : Tier} {w : Watch} {ok : Path → Prop} {s : Backlog} {n m : Path}

/-- What changes come to for one name. Whether a file is there afterwards is foretold.
A file that is there was written, or none was there before, or the size that counts
as seen has not changed. -/
structure Tracked (w : Watch) (s : Backlog) (d : Disk) (changes : List Change) (k : Path) :
    Prop where
  foretold_eq : foretold (w.base.join k) (s.archive.disk.node? (w.place k)).isSome
    (changes.flatMap w.told) = (d.node? (w.place k)).isSome
  seen : ∀ content, d.node? (w.place k) = some (.file content) →
    ⟨.modified, w.base.join k⟩ ∈ changes.flatMap w.told ∨
      s.archive.disk.node? (w.place k) = none ∨
      ∃ old, s.archive.disk.node? (w.place k) = some (.file old) ∧
        (changes.foldl (w.overlook s.archive.disk) s.unseen (w.base.join k)).getD
          content.utf8ByteSize = (s.unseen (w.base.join k)).getD old.utf8ByteSize

/-- Changes to files of other names. -/
theorem Tracked.of_ne {d : Disk} {changes : List Change} {k : Path}
    (hnode : d.node? (w.place k) = s.archive.disk.node? (w.place k))
    (htold : ∀ x ∈ changes.flatMap w.told, x.path ≠ w.base.join k)
    (hunseen : changes.foldl (w.overlook s.archive.disk) s.unseen (w.base.join k) =
      s.unseen (w.base.join k)) : Tracked w s d changes k where
  foretold_eq := by rw [foretold_of_ne htold, hnode]
  seen := fun content hcontent =>
    Or.inr (Or.inr ⟨content, hnode ▸ hcontent, by rw [hunseen]⟩)

namespace Sound

theorem eq_of_join_eq (h : s.Sound t w ok) (hn : ok n) (hm : ok m)
    (heq : w.base.join n = w.base.join m) : n = m :=
  (h.names n hn).eq_of_join_eq (h.names m hm) heq

theorem not_directory (h : s.Sound t w ok) (n : Path) :
    s.archive.disk.node? (w.place n) ≠ some .directory := by
  intro hdirectory
  obtain ⟨-, content, hfile⟩ := h.files n _ hdirectory
  cases hfile

theorem isDirectory_eq_false (h : s.Sound t w ok) (hn : ok n) :
    s.archive.disk.isDirectory (w.base.join n) = false :=
  (h.names n hn).isDirectory_eq_false (h.not_directory n)

/-- Where there is a row but no file, the row is about to be dropped. -/
theorem deleted_mem (h : s.Sound t w ok) (hn : Kept t w ok n) {r : FileRow}
    (hrow : s.archive.catalog.fileAt? (w.base.join n) = some r)
    (hnone : s.archive.disk.node? (w.place n) = none) :
    ⟨.deleted, w.base.join n⟩ ∈ s.pending := by
  have hpresent := h.present n hn
  rw [hrow, hnone] at hpresent
  exact deleted_mem_of_foretold hpresent

theorem wait (h : s.Sound t w ok) (span : Nat) : (s.act t w (.wait span)).Sound t w ok where
  tier := h.tier
  answers := h.answers
  paths := h.paths
  isTree := h.isTree
  journal := h.journal
  names := h.names
  plain := h.plain
  files := h.files
  rows := h.rows
  events := h.events
  inbox := h.inbox
  present := h.present
  size := h.size

/-- Translating an event leaves what is pending as it is. -/
theorem translate (h : s.Sound t w ok) : (s.act t w .translate).Sound t w ok := by
  rw [act]
  split
  · exact h
  · rename_i e es he
    have hpending : ({ s with
        events := es
        inbox := s.inbox ++ e.notifications s.archive.disk s.archive.ignored } : Backlog).pending =
          s.pending := by
      rw [pending, pending, he, List.flatMap_cons, List.append_assoc]
    obtain ⟨ns, htold⟩ := h.events e (he ▸ List.mem_cons_self)
    exact { h with
      events := fun x hx => h.events x (he ▸ List.mem_cons_of_mem e hx)
      inbox := fun x hx => by
        rcases List.mem_append.1 hx with hx | hx
        · exact h.inbox x hx
        · rw [htold.notifications_eq _ fun n hn => h.isDirectory_eq_false hn] at hx
          exact htold.about x hx
      present := fun n hn => by
        rw [hpending]
        exact h.present n hn
      size := fun n hn r hr content hcontent => by
        rw [hpending]
        exact h.size n hn r hr content hcontent }

/-- What was pending stays so through an action, and what the action comes to is
put behind it. -/
theorem pending_file (h : s.Sound t w ok) {d : Disk} {changes : List Change}
    (heffect : w.Effect ok s.archive.disk d changes)
    (hd : ∀ n, ok n → d.isDirectory (w.base.join n) = false) (unseen : Path → Option Nat) :
    ({ s with
      archive := s.archive.withDisk d
      events := s.events ++ changes.flatMap w.eventsOf
      unseen := unseen } : Backlog).pending = s.pending ++ changes.flatMap w.told := by
  have hold : s.events.flatMap (·.notifications d s.archive.ignored) =
      s.events.flatMap (·.notifications s.archive.disk s.archive.ignored) := by
    refine List.flatMap_congr fun e he => ?_
    obtain ⟨ns, htold⟩ := h.events e he
    rw [htold.notifications_eq d hd,
      htold.notifications_eq _ fun n hn => h.isDirectory_eq_false hn]
  have hnew := (heffect.reported h.plain).2 d hd
  rw [pending, pending, List.append_assoc, ← hold, ← hnew, ← List.flatMap_append]
  rfl

theorem join_ne_of_ne (h : s.Sound t w ok) (hn : ok n) (hm : ok m) (hne : m ≠ n) :
    w.base.join n ≠ w.base.join m :=
  fun heq => hne (h.eq_of_join_eq hn hm heq).symm

theorem tracked_wrote (h : s.Sound t w ok) {d : Disk} {content : String} (hn : ok n)
    (hwrote : Disk.Wrote s.archive.disk d (w.place n) content) {k : Path} (hk : ok k) :
    Tracked w s d
      ((if s.archive.disk.node? (w.place n) = none then [.made (w.place n) false] else []) ++
        [.modified (w.place n)]) k := by
  have hnode := hwrote.node?_eq (w.place k)
  by_cases hkn : k = n
  · subst hkn
    rw [if_pos rfl] at hnode
    refine ⟨?_, fun c _ => Or.inl ?_⟩
    · rw [hnode]
      cases hold : s.archive.disk.node? (w.place k) with
      | none => simp [foretold, Notification.foretell]
      | some x => simp [foretold, Notification.foretell]
    · split <;> simp
  · rw [if_neg fun heq => hkn (w.place_injective heq)] at hnode
    have hne := h.join_ne_of_ne hn hk hkn
    refine .of_ne hnode ?_ ?_
    · split <;> simp [hne]
    · split <;> rfl

theorem tracked_removed (h : s.Sound t w ok) {d : Disk} (hn : ok n)
    (hnode : ∀ l, d.node? l = if l = w.place n then none else s.archive.disk.node? l)
    {k : Path} (hk : ok k) : Tracked w s d [.removed (w.place n) false] k := by
  have hnode' := hnode (w.place k)
  by_cases hkn : k = n
  · subst hkn
    rw [if_pos rfl] at hnode'
    refine ⟨?_, fun c hc => ?_⟩
    · rw [hnode']
      simp [foretold, Notification.foretell]
    · rw [hnode'] at hc
      cases hc
  · rw [if_neg fun heq => hkn (w.place_injective heq)] at hnode'
    have hne := h.join_ne_of_ne hn hk hkn
    exact .of_ne hnode' (by simp [hne]) rfl

theorem tracked_renamed (h : s.Sound t w ok) {d : Disk} {content : String} (hn : ok n) (hm : ok m)
    (hrenamed : Disk.Renamed s.archive.disk d (w.place n) (w.place m) content) {k : Path}
    (hk : ok k) : Tracked w s d [.renamed (w.place n) (w.place m)] k := by
  have hnode := hrenamed.node?_eq (w.place k)
  by_cases hkm : k = m
  · subst hkm
    rw [if_pos rfl] at hnode
    refine ⟨?_, fun c hc => Or.inr ?_⟩
    · rw [hnode]
      simp [foretold, Notification.foretell]
    · cases hold : s.archive.disk.node? (w.place k) with
      | none => exact Or.inl rfl
      | some x =>
        obtain ⟨-, old, rfl⟩ := h.files k x hold
        refine Or.inr ⟨old, rfl, ?_⟩
        simp [Watch.overlook, hold, Watch.textOf?_place]
  · have hne := h.join_ne_of_ne hm hk hkm
    rw [if_neg fun heq => hkm (w.place_injective heq)] at hnode
    by_cases hkn : k = n
    · subst hkn
      rw [if_pos rfl] at hnode
      refine ⟨?_, fun c hc => ?_⟩
      · rw [hnode]
        simp [foretold, Notification.foretell, hne]
      · rw [hnode] at hc
        cases hc
    · rw [if_neg fun heq => hkn (w.place_injective heq)] at hnode
      refine .of_ne hnode (by simp [hne, h.join_ne_of_ne hn hk hkn]) ?_
      simp only [List.foldl_cons, List.foldl_nil, Watch.overlook]
      split
      · rw [if_neg (by simpa [Watch.textOf?_place] using hne)]
      · rfl

theorem tracked (h : s.Sound t w ok) {d : Disk} {changes : List Change}
    (heffect : w.Effect ok s.archive.disk d changes) {k : Path} (hk : ok k) :
    Tracked w s d changes k := by
  cases heffect with
  | nothing hhome hnode => exact .of_ne (hnode _) (by simp) rfl
  | wrote hn hnames hfree hwrote => exact h.tracked_wrote hn hwrote hk
  | removed hn hnames hfile hhome hnode => exact h.tracked_removed hn hnode hk
  | renamed hn hm hnames hnames' hnm hfile hfree hrenamed =>
    exact h.tracked_renamed hn hm hrenamed hk

/-- An action leaves files under its names only. -/
theorem files_of_effect (h : s.Sound t w ok) {d : Disk} {changes : List Change}
    (heffect : w.Effect ok s.archive.disk d changes) {k : Path} {x : Node}
    (hx : d.node? (w.place k) = some x) : ok k ∧ ∃ content, x = .file content := by
  cases heffect with
  | nothing hhome hnode =>
    rw [hnode] at hx
    exact h.files k x hx
  | @wrote n content hn hnames hfree hwrote =>
    rw [hwrote.node?_eq] at hx
    split_ifs at hx with hkn
    · cases hx
      exact ⟨w.place_injective hkn ▸ hn, content, rfl⟩
    · exact h.files k x hx
  | removed hn hnames hfile hhome hnode =>
    rw [hnode] at hx
    split_ifs at hx
    exact h.files k x hx
  | @renamed n m content hn hm hnames hnames' hnm hfile hfree hrenamed =>
    rw [hrenamed.node?_eq] at hx
    split_ifs at hx with hkm hkn
    · cases hx
      exact ⟨w.place_injective hkm ▸ hm, content, rfl⟩
    · exact h.files k x hx

/-- What an action changes is foretold, and what it leaves to be seen is due. -/
theorem file (h : s.Sound t w ok) {f : FileAction} (hf : ∀ n ∈ f.names, ok n) :
    (s.act t w (.file f)).Sound t w ok := by
  obtain ⟨changes, hjournal, heffect⟩ := Watch.effect_run h.isTree f hf h.names h.not_directory
  rw [h.journal, List.nil_append] at hjournal
  replace heffect := heffect.clearJournal
  simp only [act, Disk.takeJournal, hjournal]
  generalize hd : ({ f.run w.base s.archive.disk with journal := [] } : Disk) = d at heffect
  have hfiles := fun k x => h.files_of_effect (k := k) (x := x) heffect
  have hnames : ∀ n, ok n → w.Names d n :=
    fun n hn => (h.names n hn).of_keepsDirectories heffect.keepsDirectories
  have hdirectory : ∀ n, ok n → d.isDirectory (w.base.join n) = false := by
    intro n hn
    refine (hnames n hn).isDirectory_eq_false fun hnode => ?_
    obtain ⟨-, content, hfile⟩ := hfiles n _ hnode
    cases hfile
  have hpending := h.pending_file heffect hdirectory
    (changes.foldl (w.overlook s.archive.disk) s.unseen)
  exact {
    tier := h.tier
    answers := h.answers
    paths := h.paths
    isTree := heffect.isTree h.isTree
    journal := by
      rw [← hd]
      rfl
    names := hnames
    plain := h.plain
    files := hfiles
    rows := h.rows
    events := fun e he => by
      rcases List.mem_append.1 he with he | he
      · exact h.events e he
      · exact (heffect.reported h.plain).1 e he
    inbox := h.inbox
    present := fun n hn => by
      rw [hpending, foretold_append]
      exact (congrArg (foretold _ · _) (h.present n hn)).trans (h.tracked heffect hn.1).foretold_eq
    size := fun n hn r hr content hcontent => by
      rcases (h.tracked heffect hn.1).seen content hcontent with
        hmodified | hnone | ⟨old, hold, hseen⟩
      · refine Or.inl (Or.inr (Or.inl ?_))
        rw [hpending]
        exact List.mem_append_right _ hmodified
      · refine Or.inl (Or.inr (Or.inr ?_))
        rw [hpending]
        exact List.mem_append_left _ (h.deleted_mem hn hr hnone)
      · rcases h.size n hn r hr old hold with hdue | hsize
        · refine Or.inl (hdue.mono (fun τ hτ hkey => ⟨τ, hτ, hkey⟩) fun k _ hk => ?_)
          rw [hpending]
          exact List.mem_append_left _ hk
        · exact Or.inr (hsize.trans (congrArg _ hseen.symm)) }

/-- With a change of rows and timers alone, what is pending is what is in the
inbox and what the events say as before. -/
theorem pending_of_rewrote {b : Archive} {files : List FileRow} {timers : List (Timer Path Unit)}
    (hb : Archive.Rewrote t.address s.archive b files timers) (xs : List Notification)
    (unseen : Path → Option Nat) :
    ({ s with archive := b, inbox := xs, unseen := unseen } : Backlog).pending =
      xs ++ s.events.flatMap (·.notifications s.archive.disk s.archive.ignored) := by
  rw [pending, hb.disk_eq, hb.ignored_eq]

/-- Once a path was looked at, the size in its row is right. -/
theorem look (h : s.Sound t w ok) {b : Archive} {ps : List Path}
    {timers : List (Timer Path Unit)}
    (hb : Archive.Rewrote t.address s.archive b
      (s.archive.catalog.files.map (FileRow.measured s.archive.disk ps)) timers)
    (htimers : ∀ τ ∈ s.archive.timersAt t.address, τ ∈ timers ∨ τ.key ∈ ps) :
    ({ s with archive := b, unseen := seen s.unseen ps } : Backlog).Sound t w ok := by
  have hpending : ({ s with archive := b, unseen := seen s.unseen ps } : Backlog).pending =
      s.pending := pending_of_rewrote hb s.inbox _
  have hfile : ∀ p, b.catalog.fileAt? p =
      (s.archive.catalog.fileAt? p).map (FileRow.measured s.archive.disk ps) := by
    intro p
    rw [Catalog.fileAt?, hb.files_eq, List.find?_map]
    simp only [Function.comp_def, FileRow.path_measured]
    rfl
  exact {
    tier := hb.tier_eq.trans h.tier
    answers := fun q hq => (hb.answers_eq q).trans (h.answers q hq)
    paths := by
      rw [hb.files_eq, List.map_map]
      simpa only [Function.comp_def, FileRow.path_measured] using h.paths
    isTree := hb.disk_eq ▸ h.isTree
    journal := hb.disk_eq ▸ h.journal
    names := hb.disk_eq ▸ h.names
    plain := hb.ignored_eq ▸ h.plain
    files := hb.disk_eq ▸ h.files
    rows := fun r hr => by
      rw [hb.files_eq] at hr
      obtain ⟨x, hx, rfl⟩ := List.mem_map.1 hr
      rw [FileRow.holds_measured, FileRow.path_measured]
      exact h.rows x hx
    events := hb.ignored_eq ▸ h.events
    inbox := h.inbox
    present := fun n hn => by
      rw [hpending, hfile, Option.isSome_map, hb.disk_eq]
      exact h.present n hn
    size := fun n hn r hr content hcontent => by
      rw [hfile] at hr
      obtain ⟨x, hx, rfl⟩ := Option.map_eq_some_iff.1 hr
      rw [hb.disk_eq] at hcontent
      have hpath : x.path = w.base.join n := (Catalog.fileAt?_eq_some hx).2
      dsimp only
      by_cases hps : w.base.join n ∈ ps
      · have hstat : s.archive.disk.stat x.path = .ok (.file content) := by
          rw [hpath, (h.names n hn.1).stat_eq, hcontent]
        right
        rw [FileRow.size_measured (hpath ▸ hps) hstat, seen, if_pos hps]
        rfl
      · rw [FileRow.measured_of_notMem (hpath ▸ hps), seen, if_neg hps]
        refine (h.size n hn x hx content hcontent).imp_left fun hdue => ?_
        refine hdue.mono (fun τ hτ hkey => ⟨τ, ?_, hkey⟩) fun k _ hk => ?_
        · rw [hb.timers_eq]
          exact (htimers τ hτ).resolve_right (hkey ▸ hps)
        · rw [hpending]
          exact hk }

theorem fire (h : s.Sound t w ok) (ht : t.role.KeepsAll) : (s.act t w .fire).Sound t w ok := by
  refine h.look (Archive.rewrote_fireTimers ht h.tier (h.answers _ (by simp))) fun τ hτ => ?_
  by_cases hdue : τ.due ≤ s.archive.now
  · exact Or.inr (List.mem_map_of_mem (List.mem_filter.2 ⟨hτ, decide_eq_true hdue⟩))
  · exact Or.inl (List.mem_filter.2 ⟨hτ, decide_eq_true (Int.not_le.1 hdue)⟩)

theorem fireOne (h : s.Sound t w ok) (ht : t.role.KeepsAll) (p : Path) :
    (s.act t w (.fireOne p)).Sound t w ok := by
  rw [act]
  by_cases hdue : s.archive.isDue t.address p = true
  · rw [if_pos hdue]
    refine h.look (Archive.rewrote_fireTimer ht h.tier (h.answers _ (by simp)) hdue) fun τ hτ => ?_
    by_cases hkey : τ.key = p
    · exact Or.inr (hkey ▸ List.mem_cons_self)
    · exact Or.inl (List.mem_filter.2 ⟨hτ, decide_eq_true hkey⟩)
  · rw [if_neg hdue, Archive.fireTimer, if_neg hdue]
    exact h

/-- What is pending beside the oldest notification. -/
def rest (s : Backlog) : List Notification :=
  s.inbox.tail ++ s.events.flatMap (·.notifications s.archive.disk s.archive.ignored)

theorem pending_eq_cons {x : Notification} {xs : List Notification} (hinbox : s.inbox = x :: xs) :
    s.pending = x :: rest s := by
  rw [pending, rest, hinbox]
  rfl

/-- What there is to show after a notification was handled that changed the rows and
the timers. -/
theorem handled (h : s.Sound t w ok) {x : Notification} {xs : List Notification}
    (hinbox : s.inbox = x :: xs) {b : Archive} {files : List FileRow}
    {timers : List (Timer Path Unit)} {unseen : Path → Option Nat}
    (hb : Archive.Rewrote t.address s.archive b files timers)
    (hpaths : (files.map (·.path)).Nodup)
    (hrows : ∀ r ∈ files,
      t.population.holds r = true ↔ ∃ n, Kept t w ok n ∧ r.path = w.base.join n)
    (hpresent : ∀ n, Kept t w ok n → foretold (w.base.join n)
      (files.find? (·.path == w.base.join n)).isSome (rest s) =
        (s.archive.disk.node? (w.place n)).isSome)
    (hsize : ∀ n, Kept t w ok n → ∀ r, files.find? (·.path == w.base.join n) = some r →
      ∀ content, s.archive.disk.node? (w.place n) = some (.file content) →
        Due timers (rest s) (w.base.join n) ∨
        r.size = ((unseen (w.base.join n)).getD content.utf8ByteSize : Nat)) :
    ({ s with archive := b, inbox := xs, unseen := unseen } : Backlog).Sound t w ok := by
  have hpending : ({ s with archive := b, inbox := xs, unseen := unseen } : Backlog).pending =
      rest s := by
    rw [pending_of_rewrote hb, rest, hinbox]
    rfl
  have hfile : ∀ p, b.catalog.fileAt? p = files.find? (·.path == p) := by
    intro p
    rw [Catalog.fileAt?, hb.files_eq]
  exact {
    tier := hb.tier_eq.trans h.tier
    answers := fun q hq => (hb.answers_eq q).trans (h.answers q hq)
    paths := hb.files_eq ▸ hpaths
    isTree := hb.disk_eq ▸ h.isTree
    journal := hb.disk_eq ▸ h.journal
    names := hb.disk_eq ▸ h.names
    plain := hb.ignored_eq ▸ h.plain
    files := hb.disk_eq ▸ h.files
    rows := fun r hr => hrows r (hb.files_eq ▸ hr)
    events := hb.ignored_eq ▸ h.events
    inbox := fun y hy => h.inbox y (hinbox ▸ List.mem_cons_of_mem x hy)
    present := fun n hn => by
      rw [hpending, hfile, hb.disk_eq]
      exact hpresent n hn
    size := fun n hn r hr content hcontent => by
      rw [hfile] at hr
      rw [hb.disk_eq] at hcontent
      rw [hpending, hb.timers_eq]
      exact hsize n hn r hr content hcontent }

/-- A notification tells nothing about the presence of other paths. -/
theorem present_of_ne (h : s.Sound t w ok) {x : Notification} {xs : List Notification}
    (hinbox : s.inbox = x :: xs) {k : Path} (hk : Kept t w ok k)
    (hne : x.path ≠ w.base.join k) :
    foretold (w.base.join k) (s.archive.catalog.fileAt? (w.base.join k)).isSome (rest s) =
      (s.archive.disk.node? (w.place k)).isSome := by
  have hpresent := h.present k hk
  rwa [pending_eq_cons hinbox, foretold_cons, foretell_of_ne hne] at hpresent

/-- A look that is due at a path stays due if the oldest notification is not what
makes it so. -/
theorem size_of_ne (h : s.Sound t w ok) {x : Notification} {xs : List Notification}
    (hinbox : s.inbox = x :: xs) {k : Path} (hk : Kept t w ok k)
    (hne : ∀ kind, (kind = .modified ∨ kind = .deleted) → x ≠ ⟨kind, w.base.join k⟩) {r : FileRow}
    (hr : s.archive.catalog.fileAt? (w.base.join k) = some r) {content : String}
    (hcontent : s.archive.disk.node? (w.place k) = some (.file content)) :
    Due (s.archive.timersAt t.address) (rest s) (w.base.join k) ∨
      r.size = ((s.unseen (w.base.join k)).getD content.utf8ByteSize : Nat) := by
  refine (h.size k hk r hr content hcontent).imp_left fun hdue => ?_
  rw [pending_eq_cons hinbox] at hdue
  exact hdue.mono (fun τ hτ hkey => ⟨τ, hτ, hkey⟩) fun kind hkind hmem =>
    (List.mem_cons.1 hmem).resolve_left (hne kind hkind ·.symm)

/-- A file reported modified is looked at after a quiet period. -/
theorem handle_modified (h : s.Sound t w ok) {xs : List Notification}
    (hskips : t.skips (w.base.join n) = false)
    (hinbox : s.inbox = ⟨.modified, w.base.join n⟩ :: xs) :
    ({ s with archive := (s.archive.onModified t (w.base.join n)).2, inbox := xs } :
      Backlog).Sound t w ok := by
  obtain ⟨due, hb⟩ := Archive.rewrote_onModified hskips h.tier
  refine h.handled hinbox hb h.paths h.rows (fun k hk => ?_) fun k hk r hr content hcontent => ?_
  · have hpresent := h.present k hk
    rw [pending_eq_cons hinbox, foretold_cons] at hpresent
    have hsame : Notification.foretell (w.base.join k)
        (s.archive.catalog.fileAt? (w.base.join k)).isSome ⟨.modified, w.base.join n⟩ =
          (s.archive.catalog.fileAt? (w.base.join k)).isSome := by
      unfold Notification.foretell
      split <;> rfl
    rwa [hsame] at hpresent
  · by_cases hkn : w.base.join n = w.base.join k
    · exact Or.inl (Or.inl ⟨_, List.mem_append_right _ List.mem_cons_self, hkn⟩)
    · refine (h.size_of_ne hinbox hk (fun kind _ hx => hkn (congrArg (·.path) hx)) hr
        hcontent).imp_left fun hdue => hdue.mono (fun τ hτ hkey => ?_) fun _ _ hmem => hmem
      have hne : τ.key ≠ w.base.join n := fun heq => hkn (heq.symm.trans hkey)
      exact ⟨τ, List.mem_append_left _ (List.mem_filter.2 ⟨hτ, decide_eq_true hne⟩), hkey⟩

/-- A file reported deleted loses its row. -/
theorem handle_deleted (h : s.Sound t w ok) {xs : List Notification}
    (hskips : t.skips (w.base.join n) = false)
    (hinbox : s.inbox = ⟨.deleted, w.base.join n⟩ :: xs) :
    ({ s with archive := (s.archive.onDeleted t (w.base.join n)).2, inbox := xs } :
      Backlog).Sound t w ok := by
  have hb := Archive.rewrote_onDeleted (x := t.address) hskips (h.answers .deleteFile (by simp))
  have hfind := fun k =>
    FileRow.find?_filter_path s.archive.catalog.files (w.base.join n) (w.base.join k)
  refine h.handled hinbox hb ((List.filter_sublist.map _).nodup h.paths)
    (fun r hr => h.rows r (List.mem_filter.1 hr).1) (fun k hk => ?_)
    fun k hk r hr content hcontent => ?_
  · rw [hfind]
    split_ifs with hkn
    · have hpresent := h.present k hk
      rw [pending_eq_cons hinbox, foretold_cons] at hpresent
      rw [← hpresent]
      simp [Notification.foretell, hkn]
    · exact h.present_of_ne hinbox hk (Ne.symm hkn)
  · rw [hfind] at hr
    split_ifs at hr with hkn
    exact h.size_of_ne hinbox hk (fun kind _ hx => hkn (congrArg (·.path) hx).symm) hr hcontent

/-- After a file was reported created, what else is pending foretells from then on
whether it is there. -/
theorem present_of_created (h : s.Sound t w ok) {xs : List Notification} (hn : Kept t w ok n)
    (hinbox : s.inbox = ⟨.created, w.base.join n⟩ :: xs) :
    foretold (w.base.join n) true (rest s) = (s.archive.disk.node? (w.place n)).isSome := by
  rw [← h.present n hn, pending_eq_cons hinbox, foretold_cons]
  simp [Notification.foretell]

/-- A creation makes no look due. -/
theorem size_of_created (h : s.Sound t w ok) {xs : List Notification}
    (hinbox : s.inbox = ⟨.created, w.base.join n⟩ :: xs) {k : Path} (hk : Kept t w ok k)
    {r : FileRow} (hr : s.archive.catalog.fileAt? (w.base.join k) = some r) {content : String}
    (hcontent : s.archive.disk.node? (w.place k) = some (.file content)) :
    Due (s.archive.timersAt t.address) (rest s) (w.base.join k) ∨
      r.size = ((s.unseen (w.base.join k)).getD content.utf8ByteSize : Nat) := by
  refine h.size_of_ne hinbox hk (fun kind hkind heq => ?_) hr hcontent
  obtain rfl | rfl := hkind <;> cases heq

/-- A file reported created that is gone again is about to be reported deleted. -/
theorem created_absent (h : s.Sound t w ok) {xs : List Notification} (hn : Kept t w ok n)
    (hinbox : s.inbox = ⟨.created, w.base.join n⟩ :: xs)
    (hnode : s.archive.disk.node? (w.place n) = none) {b : Archive}
    (hb : Archive.Unmoved t.address s.archive b) {unseen : Path → Option Nat}
    (hunseen : ∀ p, p ≠ w.base.join n → unseen p = s.unseen p) :
    ({ s with archive := b, inbox := xs, unseen := unseen } : Backlog).Sound t w ok := by
  have hpresent := h.present_of_created hn hinbox
  refine h.handled hinbox hb h.paths h.rows (fun k hk => ?_) fun k hk r hr content hcontent => ?_
  · by_cases hkn : w.base.join k = w.base.join n
    · obtain rfl := h.eq_of_join_eq hk.1 hn.1 hkn
      rw [hnode] at hpresent ⊢
      exact foretold_eq_false hpresent _
    · exact h.present_of_ne hinbox hk (Ne.symm hkn)
  · by_cases hkn : w.base.join k = w.base.join n
    · obtain rfl := h.eq_of_join_eq hk.1 hn.1 hkn
      rw [hnode] at hcontent
      cases hcontent
    · rw [hunseen _ hkn]
      exact h.size_of_created hinbox hk hr hcontent

/-- A file reported created whose path has a row leaves all as it is. -/
theorem created_known (h : s.Sound t w ok) {xs : List Notification} (hn : Kept t w ok n)
    (hinbox : s.inbox = ⟨.created, w.base.join n⟩ :: xs) {r : FileRow}
    (hrow : s.archive.catalog.fileAt? (w.base.join n) = some r) {b : Archive}
    (hb : Archive.Unmoved t.address s.archive b) :
    ({ s with archive := b, inbox := xs } : Backlog).Sound t w ok := by
  refine h.handled hinbox hb h.paths h.rows (fun k hk => ?_)
    fun k hk r hr content hcontent => h.size_of_created hinbox hk hr hcontent
  by_cases hkn : w.base.join k = w.base.join n
  · obtain rfl := h.eq_of_join_eq hk.1 hn.1 hkn
    have hfound : s.archive.catalog.files.find? (·.path == w.base.join k) = some r := hrow
    rw [hfound]
    exact h.present_of_created hn hinbox
  · exact h.present_of_ne hinbox hk (Ne.symm hkn)

/-- A file reported created whose path has no row gets one, of the right size. -/
theorem created_new (h : s.Sound t w ok) {xs : List Notification} (hn : Kept t w ok n)
    (hinbox : s.inbox = ⟨.created, w.base.join n⟩ :: xs) {content : String}
    (hnode : s.archive.disk.node? (w.place n) = some (.file content))
    (hrow : s.archive.catalog.fileAt? (w.base.join n) = none) {b : Archive} {r : FileRow}
    (hb : Archive.Rewrote t.address s.archive b (s.archive.catalog.files ++ [r])
      (s.archive.timersAt t.address))
    (hholds : t.population.holds r = true) (hpath : r.path = w.base.join n)
    (hsize : r.size = (content.utf8ByteSize : Nat)) :
    ({ s with archive := b, inbox := xs, unseen := seen s.unseen [w.base.join n] } :
      Backlog).Sound t w ok := by
  have hfind : ∀ k, (s.archive.catalog.files ++ [r]).find? (·.path == w.base.join k) =
      if w.base.join k = w.base.join n then some r
      else s.archive.catalog.files.find? (·.path == w.base.join k) := by
    intro k
    rw [← hpath]
    exact FileRow.find?_append_path (hpath ▸ hrow) (w.base.join k)
  refine h.handled hinbox hb ?_ (fun x hx => ?_) (fun k hk => ?_) fun k hk x hx c hc => ?_
  · rw [List.map_append]
    refine List.Nodup.append h.paths (by simp) ?_
    simpa [hpath] using Catalog.fileAt?_eq_none_iff.1 hrow
  · rcases List.mem_append.1 hx with hx | hx
    · exact h.rows x hx
    · obtain rfl := List.mem_singleton.1 hx
      exact iff_of_true hholds ⟨n, hn, hpath⟩
  · rw [hfind]
    split_ifs with hkn
    · obtain rfl := h.eq_of_join_eq hk.1 hn.1 hkn
      exact h.present_of_created hn hinbox
    · exact h.present_of_ne hinbox hk (Ne.symm hkn)
  · rw [hfind] at hx
    split_ifs at hx with hkn
    · obtain rfl := h.eq_of_join_eq hk.1 hn.1 hkn
      obtain rfl := Option.some.inj hx
      obtain rfl : content = c := by
        rw [hnode] at hc
        cases hc
        rfl
      right
      rw [seen, if_pos List.mem_cons_self]
      exact hsize
    · rw [seen_of_ne _ hkn]
      exact h.size_of_created hinbox hk hx hc

/-- A file reported created has a row afterwards, if it is still there. -/
theorem handle_created (h : s.Sound t w ok) (ht : t.role.KeepsAll) {xs : List Notification}
    (hn : Kept t w ok n) (hinbox : s.inbox = ⟨.created, w.base.join n⟩ :: xs) :
    ({ s with
      archive := (s.archive.onCreated t (w.base.join n)).2
      inbox := xs
      unseen :=
        if s.archive.catalog.fileAt? (w.base.join n) = none then
          seen s.unseen [w.base.join n]
        else s.unseen } : Backlog).Sound t w ok := by
  obtain ⟨habsent, hthere⟩ := Archive.rewrote_onCreated (x := t.address) ht hn.2
    (h.answers .insertFile (by simp))
  have hstat := (h.names n hn.1).stat_eq
  cases hnode : s.archive.disk.node? (w.place n) with
  | none =>
    rw [hnode] at hstat
    refine h.created_absent hn hinbox hnode (habsent hstat) fun p hp => ?_
    split
    · exact seen_of_ne _ hp
    · rfl
  | some x =>
    obtain ⟨-, content, rfl⟩ := h.files n x hnode
    rw [hnode] at hstat
    obtain ⟨hold, hnew⟩ := hthere content hstat
    cases hrow : s.archive.catalog.fileAt? (w.base.join n) with
    | some r =>
      rw [if_neg (by simp)]
      exact h.created_known hn hinbox hrow (hold r hrow)
    | none =>
      obtain ⟨id, hb⟩ := hnew hrow
      rw [if_pos rfl]
      refine h.created_new hn hinbox hnode hrow hb ?_ rfl rfl
      simp [Population.holds, Tier.population, Tier.entry]

/-- What is reported of a file that is not catalogued makes no difference. -/
theorem handle_skipped (h : s.Sound t w ok) {x : Notification} {xs : List Notification}
    (hinbox : s.inbox = x :: xs) (hskips : t.skips x.path = true) {unseen : Path → Option Nat}
    (hunseen : ∀ p, p ≠ x.path → unseen p = s.unseen p) :
    ({ s with inbox := xs, unseen := unseen } : Backlog).Sound t w ok := by
  have hne : ∀ k, Kept t w ok k → x.path ≠ w.base.join k := by
    intro k hk heq
    rw [heq, hk.2] at hskips
    cases hskips
  refine h.handled hinbox (Archive.Rewrote.refl t.address s.archive) h.paths h.rows
    (fun k hk => h.present_of_ne hinbox hk (hne k hk)) fun k hk r hr content hcontent => ?_
  rw [hunseen _ (hne k hk).symm]
  exact h.size_of_ne hinbox hk (fun kind _ hx => hne k hk (congrArg (·.path) hx)) hr hcontent

theorem handle (h : s.Sound t w ok) (ht : t.role.KeepsAll) :
    (s.act t w .handle).Sound t w ok := by
  rw [act]
  split
  · exact h
  · rename_i x xs hinbox
    obtain ⟨n, hn, hpath⟩ := h.inbox x (hinbox ▸ List.mem_cons_self)
    obtain ⟨kind, path⟩ := x
    obtain rfl : path = w.base.join n := hpath
    cases hskips : t.skips (w.base.join n) with
    | true =>
      have hsame : (s.archive.onNotification t ⟨kind, w.base.join n⟩).2 = s.archive := by
        cases kind <;>
          simp [Archive.onNotification, Archive.onCreated, Archive.onModified, Archive.onDeleted,
            hskips]
      rw [hsame]
      refine h.handle_skipped hinbox hskips fun p hp => ?_
      split
      · exact seen_of_ne _ hp
      · rfl
    | false =>
      cases kind with
      | created =>
        simp only [true_and]
        exact h.handle_created ht ⟨hn, hskips⟩ hinbox
      | modified =>
        simp only [reduceCtorEq, false_and, if_false]
        exact h.handle_modified hskips hinbox
      | deleted =>
        simp only [reduceCtorEq, false_and, if_false]
        exact h.handle_deleted hskips hinbox

/-- Every act keeps a backlog sound. -/
theorem act (h : s.Sound t w ok) (ht : t.role.KeepsAll) {x : Act}
    (hx : ∀ n ∈ x.names, ok n) : (s.act t w x).Sound t w ok := by
  cases x with
  | file f => exact h.file hx
  | translate => exact h.translate
  | handle => exact h.handle ht
  | fire => exact h.fire ht
  | fireOne p => exact h.fireOne ht p
  | wait span => exact h.wait span

/-- So do acts in any number and order. -/
theorem run (h : s.Sound t w ok) (ht : t.role.KeepsAll) {acts : List Act}
    (hacts : ∀ x ∈ acts, ∀ n ∈ x.names, ok n) : (s.run t w acts).Sound t w ok := by
  induction acts generalizing s with
  | nil => exact h
  | cons x acts ih =>
    exact ih (h.act ht (hacts x List.mem_cons_self))
      fun y hy => hacts y (List.mem_cons_of_mem x hy)

end Sound

end Backlog

end TieredFootage
