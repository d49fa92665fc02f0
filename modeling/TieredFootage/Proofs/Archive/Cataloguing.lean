import TieredFootage.Archive.Clock

/-!
# What a tier that keeps its files does to the catalog

A tier whose retention is not configured evicts nothing when it is evaluated. What
is left of handling a notification is then one change: a row is added, a row is
dropped, or a quiet period begins; and when quiet periods end, sizes are written
into rows. `Rewrote` states such a change by its two sides, the rows and the
timers of one keeper, and by all that stays the same.
-/

namespace TieredFootage

theorem Debouncer.timers_arm {κ α : Type} [DecidableEq κ] (d : Debouncer κ α) (now : Int) (key : κ)
    (task : α) :
    (d.arm now key task).timers =
      d.timers.filter (fun τ => decide (τ.key ≠ key)) ++ [⟨key, now + d.delay, task⟩] := by
  have hfilter : d.timers.filter (·.key != key) = d.timers.filter fun τ => decide (τ.key ≠ key) :=
    List.filter_congr fun τ _ => by simp [bne, Bool.beq_eq_decide_eq]
  exact congrArg (· ++ [_]) hfilter

/-- A row is added for a path that has none. -/
theorem Catalog.insertFile_of_free {c : Catalog} {e : FileEntry}
    (hanswers : c.answers .insertFile = true) (hfree : c.fileAt? e.path = none) :
    c.insertFile e = (.ok .inserted, { c with
      lastFileId := c.lastFileId + 1
      files := c.files ++ [⟨e, c.lastFileId + 1⟩] }) := by
  rw [insertFile, if_pos hanswers]
  dsimp only
  rw [hfree]

/-- For a path that has a row already only an id is used up. -/
theorem Catalog.insertFile_of_row {c : Catalog} {e : FileEntry} {r : FileRow}
    (hanswers : c.answers .insertFile = true) (hrow : c.fileAt? e.path = some r) :
    c.insertFile e = (.ok .conflict, { c with lastFileId := c.lastFileId + 1 }) := by
  rw [insertFile, if_pos hanswers]
  dsimp only
  rw [hrow]

/-- A role by which no file leaves. -/
def Role.KeepsAll : Role → Prop
  | .plain r => r.isConfigured = false
  | .segments continuous events => continuous.isConfigured = false ∧ events.isConfigured = false
  | .thumbnails | .clips => True

/-- A row with the size its file has on the disk, if it is one of some paths that
can be looked at. -/
def FileRow.measured (d : Disk) (ps : List Path) (r : FileRow) : FileRow :=
  match d.stat r.path with
  | .ok node => if r.path ∈ ps then { r with size := Archive.sizeOf node } else r
  | .error _ => r

@[simp] theorem FileRow.path_measured (d : Disk) (ps : List Path) (r : FileRow) :
    (r.measured d ps).path = r.path := by
  unfold measured
  split
  · split <;> rfl
  · rfl

theorem FileRow.holds_measured (d : Disk) (ps : List Path) (r : FileRow) (u : Population) :
    u.holds (r.measured d ps) = u.holds r := by
  unfold measured
  split
  · split <;> rfl
  · rfl

theorem FileRow.measured_nil (d : Disk) (r : FileRow) : r.measured d [] = r := by
  unfold measured
  split <;> simp

theorem FileRow.measured_of_notMem {d : Disk} {ps : List Path} {r : FileRow} (h : r.path ∉ ps) :
    r.measured d ps = r := by
  unfold measured
  split
  · rw [if_neg h]
  · rfl

theorem FileRow.size_measured {d : Disk} {ps : List Path} {r : FileRow} {content : String}
    (h : r.path ∈ ps) (hstat : d.stat r.path = .ok (.file content)) :
    (r.measured d ps).size = content.utf8ByteSize := by
  unfold measured
  rw [hstat]
  dsimp only
  rw [if_pos h]
  rfl

/-- Looking at one path after the others. -/
theorem FileRow.measured_cons (d : Disk) (p : Path) (ps : List Path) (r : FileRow) :
    r.measured d (p :: ps) = (r.measured d [p]).measured d ps := by
  cases hstat : d.stat r.path with
  | error e =>
    have hsame : ∀ qs, r.measured d qs = r := by
      intro qs
      rw [measured, hstat]
    rw [hsame, hsame, hsame]
  | ok node =>
    have hsize : ∀ qs (s : FileRow), s.path = r.path →
        s.measured d qs = if r.path ∈ qs then { s with size := Archive.sizeOf node } else s := by
      intro qs s hs
      rw [measured, hs, hstat]
    rw [hsize _ r rfl, hsize _ _ (r.path_measured d [p]), hsize _ r rfl]
    by_cases hp : r.path = p <;> simp [hp]

/-- A row behind the others is the one of its path, if there was none. -/
theorem FileRow.find?_append_path {rows : List FileRow} {r : FileRow}
    (h : rows.find? (·.path == r.path) = none) (q : Path) :
    (rows ++ [r]).find? (·.path == q) =
      if q = r.path then some r else rows.find? (·.path == q) := by
  rw [List.find?_append]
  by_cases hq : q = r.path
  · rw [if_pos hq, hq, h]
    simp
  · have hne : ¬ r.path = q := fun h => hq h.symm
    rw [if_neg hq]
    simp [hne]

/-- Among the rows of other paths a path is found as before. -/
theorem FileRow.find?_filter_path (rows : List FileRow) (p q : Path) :
    (rows.filter (·.path != p)).find? (·.path == q) =
      if q = p then none else rows.find? (·.path == q) := by
  rw [List.find?_filter]
  by_cases hq : q = p
  · rw [if_pos hq, List.find?_eq_none]
    intro r _
    simp [hq]
  · rw [if_neg hq]
    congr 1
    funext r
    by_cases hr : r.path = q
    · simp [hr, hq]
    · simp [hr]

namespace Archive

/-- The timers of the keeper at an address. -/
def timersAt (a : Archive) (x : Address) : List (Timer Path Unit) :=
  ((a.keepers.get? x).map (·.debouncer.timers)).getD []

def tierAt? (a : Archive) (x : Address) : Option Tier := (a.keepers.get? x).map (·.tier)

/-- Of the files catalogued, the disk, the clock and the keeper at an address, only
the rows and the timers are different afterwards: these are they. -/
structure Rewrote (x : Address) (a b : Archive) (files : List FileRow)
    (timers : List (Timer Path Unit)) : Prop where
  files_eq : b.catalog.files = files
  timers_eq : b.timersAt x = timers
  tier_eq : b.tierAt? x = a.tierAt? x
  answers_eq : ∀ q, b.catalog.answers q = a.catalog.answers q
  disk_eq : b.disk = a.disk
  now_eq : b.now = a.now
  ignored_eq : b.ignored = a.ignored

/-- Not even the rows and the timers are different. -/
abbrev Unmoved (x : Address) (a b : Archive) : Prop := Rewrote x a b a.catalog.files (a.timersAt x)

variable {a b c : Archive} {x y : Address} {t : Tier} {p : Path} {files files' : List FileRow}
  {timers timers' : List (Timer Path Unit)}

theorem Rewrote.refl (x : Address) (a : Archive) : Unmoved x a a :=
  ⟨rfl, rfl, rfl, fun _ => rfl, rfl, rfl, rfl⟩

theorem Rewrote.trans (h : Rewrote x a b files timers) (h' : Rewrote x b c files' timers') :
    Rewrote x a c files' timers' where
  files_eq := h'.files_eq
  timers_eq := h'.timers_eq
  tier_eq := h'.tier_eq.trans h.tier_eq
  answers_eq := fun q => (h'.answers_eq q).trans (h.answers_eq q)
  disk_eq := h'.disk_eq.trans h.disk_eq
  now_eq := h'.now_eq.trans h.now_eq
  ignored_eq := h'.ignored_eq.trans h.ignored_eq

/-- A change after which nothing more happens. -/
theorem Rewrote.trans_unmoved (h : Rewrote x a b files timers) (h' : Unmoved x b c) :
    Rewrote x a c files timers := by
  have hboth := h.trans h'
  rwa [h.files_eq, h.timers_eq] at hboth

theorem get?_update_of_eq {f : Keeper → Keeper} (hf : ∀ k, (f k).tier = k.tier) :
    (a.update x f).keepers.get? x = (a.keepers.get? x).map f :=
  a.keepers.get?_update_self x f fun k => congrArg Tier.address (hf k)

/-- What the keepers remember beside their timers is of no account. -/
theorem unmoved_update {f : Keeper → Keeper} (hf : ∀ k, (f k).tier = k.tier)
    (hd : ∀ k, (f k).debouncer = k.debouncer) : Unmoved x a (a.update y f) := by
  have haddress : ∀ k, (f k).address = k.address := fun k => congrArg Tier.address (hf k)
  have hget : ((a.update y f).keepers.get? x).map (fun k => (k.tier, k.debouncer)) =
      (a.keepers.get? x).map fun k => (k.tier, k.debouncer) := by
    by_cases hxy : x = y
    · subst hxy
      rw [get?_update_of_eq hf, Option.map_map]
      congr 1
      funext k
      rw [Function.comp_apply, hf k, hd k]
    · rw [Archive.update, Keepers.get?_update_ne _ f haddress hxy]
  refine ⟨rfl, ?_, ?_, fun _ => rfl, rfl, rfl, rfl⟩
  · have htimers := congrArg (fun o => (o.map fun z : Tier × Debouncer Path Unit =>
      z.2.timers).getD []) hget
    simpa only [timersAt, Option.map_map, Function.comp_def] using htimers
  · have htier := congrArg (fun o => o.map fun z : Tier × Debouncer Path Unit => z.1) hget
    simpa only [tierAt?, Option.map_map, Function.comp_def] using htier

/-- A change to the timers of a keeper. -/
theorem rewrote_debouncer {k : Keeper} (hk : a.keepers.get? x = some k)
    (f : Debouncer Path Unit → Debouncer Path Unit) :
    Rewrote x a (a.update x fun k => { k with debouncer := f k.debouncer }) a.catalog.files
      (f k.debouncer).timers := by
  have hget : (a.update x fun k => { k with debouncer := f k.debouncer }).keepers.get? x =
      some { k with debouncer := f k.debouncer } := by
    rw [get?_update_of_eq (by exact fun _ => rfl), hk]
    rfl
  refine ⟨rfl, ?_, ?_, fun _ => rfl, rfl, rfl, rfl⟩
  · rw [timersAt, hget]
    rfl
  · rw [tierAt?, hget, tierAt?, hk]
    rfl

theorem timersAt_of_get? {k : Keeper} (hk : a.keepers.get? x = some k) :
    a.timersAt x = k.debouncer.timers := by
  rw [timersAt, hk]
  rfl

section Evaluation

/-- No file leaves a tier that keeps all. -/
theorem snd_evaluate_of_keepsAll (ht : t.role.KeepsAll) (a : Archive) : (a.evaluate t).2 = a := by
  unfold evaluate
  split
  · rename_i r hrole
    rw [hrole] at ht
    rw [evaluatePlain, if_neg (by simpa [Role.KeepsAll] using ht)]
  · rename_i continuous events hrole
    rw [hrole] at ht
    obtain ⟨hcontinuous, hevents⟩ := ht
    have hselection : a.selectSegments t continuous events = .ok {} := by
      simp [selectSegments, selectContinuous, selectEvents, hcontinuous, hevents, combine,
        bind, Except.bind, pure, Except.pure]
    rw [evaluateSegments, hselection]
    rfl
  · rfl
  · rfl

theorem unmoved_runPolicy (ht : t.role.KeepsAll) (a : Archive) :
    Unmoved x a (a.runPolicy t).2 := by
  have hcounted : Unmoved x a
      { a with counters := { a.counters with evaluations := a.counters.evaluations + 1 } } :=
    ⟨rfl, rfl, rfl, fun _ => rfl, rfl, rfl, rfl⟩
  have hentered : Unmoved x a (a.enterEvaluation t) :=
    hcounted.trans_unmoved (unmoved_update (fun _ => rfl) fun _ => rfl)
  have hleft : Unmoved x (a.enterEvaluation t) (a.runPolicy t).2 := by
    simp only [runPolicy]
    rw [snd_evaluate_of_keepsAll ht]
    refine unmoved_update (fun k => ?_) fun k => ?_
    · unfold Keeper.leaveEvaluation
      split <;> rfl
    · unfold Keeper.leaveEvaluation
      split <;> rfl
  exact hentered.trans_unmoved hleft

theorem unmoved_checkTier (ht : t.role.KeepsAll) (a : Archive) :
    Unmoved x a (a.checkTier t) := by
  have hquietly : ∀ b : Archive, Unmoved x b (b.runPolicyQuietly t) := by
    intro b
    have hrun := unmoved_runPolicy (x := x) ht b
    unfold runPolicyQuietly
    split
    · rename_i heq
      rw [heq] at hrun
      exact hrun.trans_unmoved ⟨rfl, rfl, rfl, fun _ => rfl, rfl, rfl, rfl⟩
    · rename_i heq
      rw [heq] at hrun
      exact hrun
  have hthrottled : ∀ throttle, Unmoved x a
      ((a.update t.address fun k => { k with throttle := throttle }).runPolicyQuietly t) := by
    intro throttle
    have hset : Unmoved x a (a.update t.address fun k => { k with throttle := throttle }) :=
      unmoved_update (fun _ => rfl) fun _ => rfl
    exact hset.trans_unmoved (hquietly _)
  unfold checkTier
  split
  case h_1 | h_2 => exact Rewrote.refl x a
  case h_3 | h_4 =>
    split
    · exact Rewrote.refl x a
    · split
      · exact Rewrote.refl x a
      · exact hthrottled _

end Evaluation

section Handling

/-- What a keeper announces is for recordings only. -/
theorem exists_announce_eq (a : Archive) (t : Tier) (p : Path) :
    ∃ rs, a.announce t p = a.withCatalog { a.catalog with recordings := rs } := by
  unfold announce
  split
  · unfold repointThumbnail
    split
    · exact ⟨a.catalog.recordings, rfl⟩
    · unfold Catalog.updateThumbnail
      split <;> exact ⟨_, rfl⟩
  · split
    · exact ⟨a.catalog.recordings, rfl⟩
    · unfold repointClip
      split
      · exact ⟨a.catalog.recordings, rfl⟩
      · unfold Catalog.updateClip
        split <;> exact ⟨_, rfl⟩
  · exact ⟨a.catalog.recordings, rfl⟩
  · exact ⟨a.catalog.recordings, rfl⟩

theorem unmoved_announce (a : Archive) (t : Tier) (p : Path) : Unmoved x a (a.announce t p) := by
  obtain ⟨rs, heq⟩ := exists_announce_eq a t p
  rw [heq]
  exact ⟨rfl, rfl, rfl, fun _ => rfl, rfl, rfl, rfl⟩

theorem unmoved_enterEvent (a : Archive) (y : Address) :
    Unmoved x a (a.update y Keeper.enterEvent) := by
  refine unmoved_update (fun k => ?_) fun k => ?_
  · unfold Keeper.enterEvent
    split <;> rfl
  · unfold Keeper.enterEvent
    split <;> rfl

theorem unmoved_leaveEvent (a : Archive) (y : Address) (before : Phase) :
    Unmoved x a (a.update y (Keeper.leaveEvent before)) := by
  refine unmoved_update (fun k => ?_) fun k => ?_
  · unfold Keeper.leaveEvent
    split <;> rfl
  · unfold Keeper.leaveEvent
    split <;> rfl

/-- An event changes what the work on it changes. -/
theorem rewrote_asEvent {α : Type} {f : Archive → α × Archive}
    (hf : Rewrote x (a.update t.address Keeper.enterEvent)
      (f (a.update t.address Keeper.enterEvent)).2 files timers) :
    Rewrote x a (a.asEvent t f).2 files timers :=
  ((unmoved_enterEvent a t.address).trans hf).trans_unmoved (unmoved_leaveEvent _ t.address _)

/-- Nothing is catalogued where no file is found. -/
theorem unmoved_catalogue_of_absent (hstat : a.disk.stat p = .error .absent) :
    Unmoved x a (a.catalogue t p).2 := by
  unfold catalogue
  rw [hstat]
  exact Rewrote.refl x a

/-- A file whose path has a row already is not catalogued again. -/
theorem unmoved_catalogue_of_row (ht : t.role.KeepsAll) {content : String} {r : FileRow}
    (hstat : a.disk.stat p = .ok (.file content)) (hrow : a.catalog.fileAt? p = some r)
    (hanswers : a.catalog.answers .insertFile = true) :
    Unmoved x a (a.catalogue t p).2 := by
  have hinsert := Catalog.insertFile_of_row (e := t.entry p content.utf8ByteSize a.now)
    hanswers hrow
  have hcounted : Unmoved x a
      (a.withCatalog { a.catalog with lastFileId := a.catalog.lastFileId + 1 }) :=
    ⟨rfl, rfl, rfl, fun _ => rfl, rfl, rfl, rfl⟩
  unfold catalogue
  rw [hstat]
  dsimp only
  rw [hinsert]
  exact hcounted.trans_unmoved (unmoved_checkTier ht _)

/-- A file whose path has no row gets one, with the size it has now. -/
theorem rewrote_catalogue (ht : t.role.KeepsAll) {content : String}
    (hstat : a.disk.stat p = .ok (.file content)) (hrow : a.catalog.fileAt? p = none)
    (hanswers : a.catalog.answers .insertFile = true) :
    Rewrote x a (a.catalogue t p).2
      (a.catalog.files ++
        [⟨t.entry p content.utf8ByteSize a.now, a.catalog.lastFileId + 1⟩]) (a.timersAt x) := by
  have hinsert := Catalog.insertFile_of_free (e := t.entry p content.utf8ByteSize a.now)
    hanswers hrow
  unfold catalogue
  rw [hstat]
  dsimp only
  rw [hinsert]
  refine Rewrote.trans_unmoved ?_ (unmoved_checkTier ht _)
  exact ⟨rfl, rfl, rfl, fun _ => rfl, rfl, rfl, rfl⟩

/-- What handling a created file does, if its tier keeps all: only for a file that
is there and has no row yet, a row is added. -/
theorem rewrote_onCreated (ht : t.role.KeepsAll) (hskips : t.skips p = false)
    (hanswers : a.catalog.answers .insertFile = true) :
    (a.disk.stat p = .error .absent → Unmoved x a (a.onCreated t p).2) ∧
    ∀ content, a.disk.stat p = .ok (.file content) →
      (∀ r, a.catalog.fileAt? p = some r → Unmoved x a (a.onCreated t p).2) ∧
      (a.catalog.fileAt? p = none → ∃ id, Rewrote x a (a.onCreated t p).2
        (a.catalog.files ++ [⟨t.entry p content.utf8ByteSize a.now, id⟩]) (a.timersAt x)) := by
  have hannounced : Unmoved x a ((a.update t.address Keeper.enterEvent).announce t p) :=
    (unmoved_enterEvent a t.address).trans_unmoved (unmoved_announce _ t p)
  have hleft : ∀ {files timers}, Rewrote x ((a.update t.address Keeper.enterEvent).announce t p)
      (((a.update t.address Keeper.enterEvent).announce t p).catalogue t p).2 files timers →
      Rewrote x a (a.onCreated t p).2 files timers := by
    intro files timers h
    unfold onCreated
    rw [if_neg (by simp [hskips])]
    exact (hannounced.trans h).trans_unmoved (unmoved_leaveEvent _ t.address _)
  generalize (a.update t.address Keeper.enterEvent).announce t p = b at hannounced hleft
  have hfile : b.catalog.fileAt? p = a.catalog.fileAt? p := by
    rw [Catalog.fileAt?, Catalog.fileAt?, hannounced.files_eq]
  have hanswers' : b.catalog.answers .insertFile = true := (hannounced.answers_eq _).trans hanswers
  have hunmoved : ∀ {c}, Unmoved x b c → Rewrote x b c a.catalog.files (a.timersAt x) :=
    fun h => hannounced.files_eq ▸ hannounced.timers_eq ▸ h
  rw [← hannounced.disk_eq, ← hfile]
  refine ⟨fun hstat => ?_, fun content hstat => ⟨fun r hrow => ?_, fun hrow => ?_⟩⟩
  · exact hleft (hunmoved (unmoved_catalogue_of_absent hstat))
  · exact hleft (hunmoved (unmoved_catalogue_of_row ht hstat hrow hanswers'))
  · have hcatalogued := hleft (rewrote_catalogue ht hstat hrow hanswers')
    rw [hannounced.files_eq, hannounced.timers_eq, hannounced.now_eq] at hcatalogued
    exact ⟨_, hcatalogued⟩

/-- Handling a modified file begins a quiet period for it. -/
theorem rewrote_onModified (hskips : t.skips p = false) (htier : a.tierAt? t.address = some t) :
    ∃ due, Rewrote t.address a (a.onModified t p).2 a.catalog.files
      ((a.timersAt t.address).filter (fun τ => decide (τ.key ≠ p)) ++ [⟨p, due, ()⟩]) := by
  obtain ⟨k, hk, -⟩ := Option.map_eq_some_iff.1 htier
  rw [timersAt_of_get? hk]
  unfold onModified
  rw [if_neg (by simp [hskips])]
  have harmed := rewrote_debouncer hk fun d => d.arm a.now p ()
  rw [Debouncer.timers_arm] at harmed
  exact ⟨_, harmed⟩

/-- Handling a deleted file drops its row. -/
theorem rewrote_onDeleted (hskips : t.skips p = false)
    (hanswers : a.catalog.answers .deleteFile = true) :
    Rewrote x a (a.onDeleted t p).2 (a.catalog.files.filter (·.path != p)) (a.timersAt x) := by
  have hforgot : Rewrote x (a.update t.address Keeper.enterEvent)
      ((a.update t.address Keeper.enterEvent).forget p).2
      (a.catalog.files.filter (·.path != p)) (a.timersAt x) := by
    have hdelete : a.catalog.deleteFile p = (.ok (a.catalog.files.countP (·.path == p)),
        { a.catalog with files := a.catalog.files.filter (·.path != p) }) := if_pos hanswers
    unfold forget
    rw [toHoldings_update, hdelete]
    exact ⟨rfl, (unmoved_enterEvent a t.address).timers_eq, rfl, fun _ => rfl, rfl, rfl, rfl⟩
  unfold onDeleted
  rw [if_neg (by simp [hskips])]
  exact rewrote_asEvent hforgot

end Handling

section Timers

/-- Refreshing a size writes it into the row of its path. -/
theorem rewrote_refreshSize (hanswers : a.catalog.answers .updateFileSize = true) (p : Path) :
    Rewrote x a (a.refreshSize p).2 (a.catalog.files.map (FileRow.measured a.disk [p]))
      (a.timersAt x) := by
  have hrefreshed : (a.refreshSize p).2 =
      a.withCatalog { a.catalog with
        files := a.catalog.files.map (FileRow.measured a.disk [p]) } := by
    unfold refreshSize
    cases hstat : a.disk.stat p with
    | error e =>
      have hsame : a.catalog.files.map (FileRow.measured a.disk [p]) = a.catalog.files := by
        refine List.map_id'' (fun r => ?_) _
        by_cases hr : r.path = p
        · rw [FileRow.measured, hr, hstat]
        · exact FileRow.measured_of_notMem (by simpa using hr)
      rw [hsame]
      rfl
    | ok node =>
      have hupdate : a.catalog.updateFileSize p (sizeOf node) =
          (.ok (a.catalog.files.countP (·.path == p)), { a.catalog with
            files := a.catalog.files.map (FileRow.measured a.disk [p]) }) := by
        rw [Catalog.updateFileSize, if_pos hanswers]
        congr 3
        funext r
        by_cases hr : r.path = p
        · rw [if_pos hr, FileRow.measured, hr, hstat]
          simp
        · rw [if_neg hr, FileRow.measured_of_notMem (by simpa using hr)]
      dsimp only
      rw [hupdate]
  rw [hrefreshed]
  exact ⟨rfl, rfl, rfl, fun _ => rfl, rfl, rfl, rfl⟩

theorem rewrote_refreshSizes (ps : List Path) {a : Archive}
    (hanswers : a.catalog.answers .updateFileSize = true) :
    Rewrote x a (a.refreshSizes ps).2 (a.catalog.files.map (FileRow.measured a.disk ps))
      (a.timersAt x) := by
  induction ps generalizing a with
  | nil =>
    have hsame : a.catalog.files.map (FileRow.measured a.disk []) = a.catalog.files :=
      List.map_id'' (FileRow.measured_nil a.disk) _
    rw [hsame]
    exact Rewrote.refl x a
  | cons p ps ih =>
    have hfirst := rewrote_refreshSize (x := x) hanswers p
    have hrest := ih ((hfirst.answers_eq _).trans hanswers)
    rw [hfirst.files_eq, hfirst.timers_eq, hfirst.disk_eq, List.map_map] at hrest
    have hcons : FileRow.measured a.disk ps ∘ FileRow.measured a.disk [p] =
        FileRow.measured a.disk (p :: ps) := by
      funext r
      exact (FileRow.measured_cons a.disk p ps r).symm
    rw [hcons] at hrest
    exact hfirst.trans hrest

/-- Looking again at some files writes their sizes into their rows. -/
theorem rewrote_lookAgain (ht : t.role.KeepsAll) (ps : List Path)
    (hanswers : a.catalog.answers .updateFileSize = true) :
    Rewrote x a (a.lookAgain t ps) (a.catalog.files.map (FileRow.measured a.disk ps))
      (a.timersAt x) := by
  have hchecked : ∀ (is : List Nat) (b : Archive),
      Unmoved x b (is.foldl (fun a _ => a.checkTier t) b) := by
    intro is
    induction is with
    | nil => exact fun b => Rewrote.refl x b
    | cons i is ih => exact fun b => (unmoved_checkTier ht b).trans_unmoved (ih _)
  exact (rewrote_refreshSizes ps hanswers).trans_unmoved (hchecked _ _)

/-- When quiet periods end, the files they were for are looked at. -/
theorem rewrote_fireTimers (ht : t.role.KeepsAll) (htier : a.tierAt? t.address = some t)
    (hanswers : a.catalog.answers .updateFileSize = true) :
    Rewrote t.address a (a.fireTimers t.address)
      (a.catalog.files.map (FileRow.measured a.disk
        (((a.timersAt t.address).filter fun τ => decide (τ.due ≤ a.now)).map (·.key))))
      ((a.timersAt t.address).filter fun τ => decide (a.now < τ.due)) := by
  obtain ⟨k, hk, hkt⟩ := Option.map_eq_some_iff.1 htier
  rw [timersAt_of_get? hk]
  unfold fireTimers
  rw [hk]
  dsimp only
  split
  · rename_i hempty
    have hnone : (k.debouncer.timers.filter fun τ => decide (τ.due ≤ a.now)) = [] :=
      List.isEmpty_iff.1 hempty
    have hkept : (k.debouncer.timers.filter fun τ => decide (a.now < τ.due)) =
        a.timersAt t.address := by
      rw [timersAt_of_get? hk]
      refine List.filter_eq_self.2 fun τ hτ => ?_
      simpa using List.filter_eq_nil_iff.1 hnone τ hτ
    have hsame : a.catalog.files.map (FileRow.measured a.disk []) = a.catalog.files :=
      List.map_id'' (FileRow.measured_nil a.disk) _
    rw [hnone, hkept, List.map_nil, hsame]
    exact Rewrote.refl _ a
  · have helapsed := rewrote_debouncer hk fun d => d.elapse a.now
    have hlooked := rewrote_lookAgain (x := t.address) ht ((k.debouncer.dueBy a.now).map (·.key))
      ((helapsed.answers_eq _).trans hanswers)
    rw [helapsed.timers_eq] at hlooked
    rw [hkt]
    exact helapsed.trans hlooked

/-- Whether the quiet period of a file is over. -/
def isDue (a : Archive) (x : Address) (p : Path) : Bool :=
  (a.timersAt x).any fun τ => decide (τ.key = p) && decide (τ.due ≤ a.now)

/-- Ends the quiet period of one file of a tier if it is over, and leaves those of
the other files for later. -/
def fireTimer (a : Archive) (t : Tier) (p : Path) : Archive :=
  if a.isDue t.address p then
    (a.update t.address fun k => { k with debouncer :=
      { k.debouncer with
        timers := k.debouncer.timers.filter fun τ => decide (τ.key ≠ p) } }).lookAgain t [p]
  else a

theorem rewrote_fireTimer (ht : t.role.KeepsAll) (htier : a.tierAt? t.address = some t)
    (hanswers : a.catalog.answers .updateFileSize = true) (hdue : a.isDue t.address p = true) :
    Rewrote t.address a (a.fireTimer t p) (a.catalog.files.map (FileRow.measured a.disk [p]))
      ((a.timersAt t.address).filter fun τ => decide (τ.key ≠ p)) := by
  obtain ⟨k, hk, -⟩ := Option.map_eq_some_iff.1 htier
  have hcleared := rewrote_debouncer hk fun d =>
    { d with timers := d.timers.filter fun τ => decide (τ.key ≠ p) }
  have hlooked := rewrote_lookAgain (x := t.address) ht [p]
    ((hcleared.answers_eq _).trans hanswers)
  rw [hcleared.timers_eq] at hlooked
  rw [fireTimer, if_pos hdue, timersAt_of_get? hk]
  exact hcleared.trans hlooked

end Timers

end Archive

end TieredFootage
