import TieredFootage.Proofs.Archive.Operations
import TieredFootage.Proofs.Eviction.Content

/-!
# The age of a file that is carried on

A note is never changed and never taken away, and a move copies it ahead, text and
time as they are stored. So along all the paths that a file is carried through,
from tier to tier, the note says the same, and the file keeps the age it had at
the first of them.
-/

namespace TieredFootage

open Relation

namespace Holdings

/-- A file was moved to `q`, out of a tier or directly. -/
def Moves (h : Holdings) (p q : Path) (h' : Holdings) : Prop :=
  h.move p q = (.moved q, h') ∨
    ∃ fileRoot root next, h.evict p fileRoot root next = (.moved q, h')

variable {h h' : Holdings} {p q : Path}

/-- A move makes one statement first, the copy of the note. -/
theorem runs_copyNote_of_moves (hmoves : h.Moves p q h') :
    (h.catalog.copyNote p q).2.Runs h'.catalog := by
  have hmoved : ∀ g : Holdings, (g.catalog.copyNote p q).2.Runs (g.move p q).2.catalog := by
    intro g
    rcases catalog_move g p q with hmove | hmove <;> rw [hmove]
    exact Catalog.runs_statement _ (.deleteFile p)
  rcases hmoves with hmove | ⟨fileRoot, root, next, hevict⟩
  · have hrun := hmoved h
    rwa [hmove] at hrun
  · obtain ⟨n, rfl, rfl⟩ := exists_next_of_evict_eq_moved (congrArg Prod.fst hevict)
    have hcatalog := congrArg Prod.snd hevict
    unfold evict at hevict
    split at hevict
    · cases hevict
    · rename_i served _
      simp only [evictUnserved] at hevict
      split at hevict
      · cases hevict
      · obtain rfl := congrArg Prod.snd hevict
        have hrun := hmoved { h with served := served }
        dsimp only
        split
        · exact hrun
        · exact hrun.statement (.deleteFile p)

theorem runs_of_moves (hmoves : h.Moves p q h') : h.catalog.Runs h'.catalog :=
  (h.catalog.runs_statement (.copyNote p q)).trans (runs_copyNote_of_moves hmoves)

/-- Where no note was before, a move leaves one that says what that of the source
says. -/
theorem noteAt?_of_moves {n : MetaRow} (hmoves : h.Moves p q h')
    (hanswers : h.catalog.answers .copyNote = true) (hfree : h.catalog.noteAt? q = none)
    (hp : h.catalog.noteAt? p = some n) :
    ∃ m, h'.catalog.noteAt? q = some m ∧ m.note = n.note ∧ m.madeAt = n.madeAt := by
  have hcopied : (h.catalog.copyNote p q).2.noteAt? q =
      some ⟨h.catalog.lastNoteId + 1, q, n.note, n.madeAt⟩ := by
    rw [Catalog.noteAt?_copyNote, hp]
    exact if_pos ⟨hanswers, rfl, hfree⟩
  exact ⟨_, (runs_copyNote_of_moves hmoves).noteAt?_eq hcopied, rfl, rfl⟩

/-- A file is carried from one path to the next while other things happen to the
catalog, evaluations and insertions among them. The last path comes first; none
but the first one had a note before the file arrived. -/
inductive Journey (h₀ : Holdings) (p₀ : Path) : List Path → Holdings → Prop
  | start : Journey h₀ p₀ [p₀] h₀
  | meanwhile {ps : List Path} {h h' : Holdings} (hjourney : Journey h₀ p₀ ps h)
      (hruns : h.catalog.Runs h'.catalog) : Journey h₀ p₀ ps h'
  | move {p q : Path} {ps : List Path} {h h' : Holdings} (hjourney : Journey h₀ p₀ (p :: ps) h)
      (hanswers : h.catalog.answers .copyNote = true) (hfree : h.catalog.noteAt? q = none)
      (hmoves : h.Moves p q h') : Journey h₀ p₀ (q :: p :: ps) h'

/-- The note at every path of a journey says what the first one said. -/
theorem Journey.exists_noteAt? {h₀ : Holdings} {p₀ : Path} {ps : List Path} {r : MetaRow}
    (hjourney : Journey h₀ p₀ ps h) (hr : h₀.catalog.noteAt? p₀ = some r) :
    ∀ p ∈ ps, ∃ n, h.catalog.noteAt? p = some n ∧ n.note = r.note ∧ n.madeAt = r.madeAt := by
  have hkept : ∀ {h h' : Holdings} {p : Path}, h.catalog.Runs h'.catalog →
      (∃ n, h.catalog.noteAt? p = some n ∧ n.note = r.note ∧ n.madeAt = r.madeAt) →
      ∃ n, h'.catalog.noteAt? p = some n ∧ n.note = r.note ∧ n.madeAt = r.madeAt := by
    rintro h h' p hruns ⟨n, hn, htext⟩
    exact ⟨n, hruns.noteAt?_eq hn, htext⟩
  induction hjourney with
  | start =>
    intro p hp
    obtain rfl := List.mem_singleton.1 hp
    exact ⟨r, hr, rfl, rfl⟩
  | meanwhile _ hruns ih => exact fun p hp => hkept hruns (ih p hp)
  | move _ hanswers hfree hmoves ih =>
    intro p hp
    rcases List.mem_cons.1 hp with rfl | hp
    · obtain ⟨n, hn, hnote, hmadeAt⟩ := ih _ List.mem_cons_self
      obtain ⟨m, hm, hnote', hmadeAt'⟩ := noteAt?_of_moves hmoves hanswers hfree hn
      exact ⟨m, hm, hnote'.trans hnote, hmadeAt'.trans hmadeAt⟩
    · exact hkept (runs_of_moves hmoves) (ih p hp)

/-- Notes are written once, and age survives every move. Nothing that is done to
an archive changes or removes a note; and along every journey the note of the
first path is found again, text and time, and every row that is selected under
one of the paths counts as made when the first note says. -/
theorem notes_survive :
    (∀ (a : Archive) (os : List Operation) (p : Path) (r : MetaRow),
      a.catalog.noteAt? p = some r → (a.operateAll os).catalog.noteAt? p = some r) ∧
    ∀ (h₀ h : Holdings) (p₀ : Path) (ps : List Path) (r : MetaRow),
      h₀.catalog.noteAt? p₀ = some r → Journey h₀ p₀ ps h → ∀ p ∈ ps,
        (∃ n, h.catalog.noteAt? p = some n ∧ n.note = r.note ∧ n.madeAt = r.madeAt) ∧
        ∀ u files f, h.catalog.selectFiles u = .ok files → f ∈ files → f.path = p →
          f.effective = r.madeAt := by
  refine ⟨fun a os p r hr => (a.runs_operateAll os).noteAt?_eq hr, ?_⟩
  intro h₀ h p₀ ps r hr hjourney p hp
  obtain ⟨n, hn, hnote, hmadeAt⟩ := hjourney.exists_noteAt? hr p hp
  refine ⟨⟨n, hn, hnote, hmadeAt⟩, ?_⟩
  intro u files f hfiles hf hfp
  unfold Catalog.selectFiles at hfiles
  split at hfiles
  · cases hfiles
    obtain ⟨row, -, -, rfl⟩ := Catalog.mem_population.1 hf
    rw [Catalog.path_tierFile] at hfp
    subst hfp
    rw [Catalog.effective_of_noteAt? hn, hmadeAt]
  · cases hfiles

end Holdings

/-- One file, catalogued, with a note that nobody can read. -/
def notedFile : Holdings where
  disk := singleFile.disk
  catalog := {
    files := [⟨{
      tierIndex := 0, tierPath := "/t0".toList, camera := "cam1", category := "recorder"
      subcategory := segmentsName, path := "/t0/1".toList, directory := "/t0".toList
      filename := ['1'], size := 7, createdAt := 50 }, 1⟩]
    notes := [⟨1, "/t0/1".toList, "[", 20⟩]
    lastFileId := 1
    lastNoteId := 1 }

/-- The file was moved on to the second tier. -/
def notedFileMoved : Holdings :=
  (notedFile.evict "/t0/1".toList "/t0".toList "/t0".toList (some "/t1".toList)).2

/-- It was catalogued there, beside another file with a note. -/
def notedFileCatalogued : Holdings :=
  { notedFileMoved with
    catalog := (((notedFileMoved.catalog.deleteFile "/t0/1".toList).2.insertFile {
        tierIndex := 1, tierPath := "/t1".toList, camera := "cam1", category := "recorder"
        subcategory := segmentsName, path := "/t1/1".toList, directory := "/t1".toList
        filename := ['1'], size := 7, createdAt := 60 }).2.storeNoteText
          "/t1/2".toList "[]" 5).2 }

/-- It was moved on again, by itself. -/
def notedFileMovedAgain : Holdings :=
  (notedFileCatalogued.move "/t1/1".toList "/t2/1".toList).2

theorem notes_survive_notedFile :
    (∀ os : List Operation, (Archive.operateAll { toHoldings := notedFile } os).catalog.noteAt?
        "/t0/1".toList = some ⟨1, "/t0/1".toList, "[", 20⟩) ∧
      notedFile.catalog.noteAt? "/t0/1".toList = some ⟨1, "/t0/1".toList, "[", 20⟩ ∧
      Holdings.Journey notedFile "/t0/1".toList
        ["/t2/1".toList, "/t1/1".toList, "/t0/1".toList] notedFileMovedAgain ∧
      ∀ p ∈ ["/t2/1".toList, "/t1/1".toList, "/t0/1".toList],
        (∃ n, notedFileMovedAgain.catalog.noteAt? p = some n ∧ n.note = "[" ∧ n.madeAt = 20) ∧
        ∀ u files f, notedFileMovedAgain.catalog.selectFiles u = .ok files → f ∈ files →
          f.path = p → f.effective = 20 := by
  have hmoved : Holdings.Journey notedFile "/t0/1".toList ["/t1/1".toList, "/t0/1".toList]
      notedFileMoved :=
    .move .start rfl rfl (.inr ⟨"/t0".toList, "/t0".toList, some "/t1".toList, rfl⟩)
  have hcatalogued : Holdings.Journey notedFile "/t0/1".toList ["/t1/1".toList, "/t0/1".toList]
      notedFileCatalogued :=
    .meanwhile hmoved (((Catalog.runs_statement _ (.deleteFile _)).statement
      (.insertFile _)).statement (.storeNoteText _ _ _))
  have hjourney : Holdings.Journey notedFile "/t0/1".toList
      ["/t2/1".toList, "/t1/1".toList, "/t0/1".toList] notedFileMovedAgain :=
    .move hcatalogued rfl rfl (.inl rfl)
  exact ⟨fun os => Holdings.notes_survive.1 { toHoldings := notedFile } os _ _ rfl, rfl, hjourney,
    Holdings.notes_survive.2 notedFile _ _ _ _ rfl hjourney⟩

end TieredFootage
