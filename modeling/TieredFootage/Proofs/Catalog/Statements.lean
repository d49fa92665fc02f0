import Mathlib.Logic.Relation
import TieredFootage.Proofs.Catalog.Keys

/-!
# Statements of the catalog

Whatever works on the catalog changes it by statements, one after the other, so
what every statement keeps holds through any run of them. Here are two such facts.
The keys stay told apart. And a note, once there, stays as it is: no statement
deletes or rewrites one, and a second note for its path is refused.
-/

namespace TieredFootage

open Relation

/-- The statements that can change the catalog, and what can be done to it as a
whole. -/
inductive Statement
  | insertFile (entry : FileEntry)
  | updateFileSize (p : Path) (size : Int)
  | deleteFile (p : Path)
  | insertNote (n : Note)
  | storeNoteText (p : Path) (note : String) (madeAt : Int)
  | copyNote (source target : Path)
  | insertRecording (entry : RecordingEntry) (now : Int)
  | updateThumbnail (id : Int) (p : Path)
  | updateClip (camera : String) (suffix p : Path)
  | deleteRecordings (ids : List Int)
  | makeTables
  | setFailing (q : Query) (on : Bool)

/-- The catalog after a statement, whether it succeeded or not. -/
def Statement.run (c : Catalog) : Statement → Catalog
  | .insertFile entry => (c.insertFile entry).2
  | .updateFileSize p size => (c.updateFileSize p size).2
  | .deleteFile p => (c.deleteFile p).2
  | .insertNote n => (c.insertNote n).2
  | .storeNoteText p note madeAt => (c.storeNoteText p note madeAt).2
  | .copyNote source target => (c.copyNote source target).2
  | .insertRecording entry now => (c.insertRecording entry now).2
  | .updateThumbnail id p => (c.updateThumbnail id p).2
  | .updateClip camera suffix p => (c.updateClip camera suffix p).2
  | .deleteRecordings ids => (c.deleteRecordings ids).2
  | .makeTables => c.makeTables
  | .setFailing q on => c.setFailing q on

namespace Catalog

/-- The second catalog is what some statements made of the first. -/
abbrev Runs : Catalog → Catalog → Prop := ReflTransGen fun c c' => ∃ s : Statement, c' = s.run c

variable {c c' : Catalog} {p q : Path}

theorem runs_statement (c : Catalog) (s : Statement) : c.Runs (s.run c) :=
  ReflTransGen.single ⟨s, rfl⟩

/-- One statement more. -/
theorem Runs.statement (h : c.Runs c') (s : Statement) : c.Runs (s.run c') := h.tail ⟨s, rfl⟩

/-- What every statement keeps, a run keeps. -/
theorem Runs.keeps {P : Catalog → Prop} (h : c.Runs c')
    (hstep : ∀ (s : Statement) (c : Catalog), P c → P (s.run c)) (hc : P c) : P c' := by
  induction h with
  | refl => exact hc
  | tail _ hlast ih =>
    obtain ⟨s, rfl⟩ := hlast
    exact hstep s _ ih

theorem Keyed.statement (h : c.Keyed) (s : Statement) : (s.run c).Keyed := by
  cases s with
  | insertFile entry => exact h.insertFile entry
  | updateFileSize p size => exact h.updateFileSize p size
  | deleteFile p => exact h.deleteFile p
  | insertNote n => exact h.insertNote n
  | storeNoteText p note madeAt => exact h.storeNoteText p note madeAt
  | copyNote source target => exact h.copyNote source target
  | insertRecording entry now => exact h.insertRecording entry now
  | updateThumbnail id p => exact h.updateThumbnail id p
  | updateClip camera suffix p => exact h.updateClip camera suffix p
  | deleteRecordings ids => exact h.deleteRecordings ids
  | makeTables => exact { h with }
  | setFailing q on => exact { h with }

theorem Runs.keyed (h : c.Runs c') (hk : c.Keyed) : c'.Keyed :=
  h.keeps (fun s _ hc => hc.statement s) hk

section Notes

variable {r : MetaRow}

/-- A note that is added changes no other note. -/
theorem noteAt?_addNote (c : Catalog) (p : Path) (note : String) (madeAt : Int) (q : Path) :
    (c.addNote p note madeAt).2.noteAt? q =
      if q = p ∧ c.noteAt? p = none then some ⟨c.lastNoteId + 1, p, note, madeAt⟩
      else c.noteAt? q := by
  unfold addNote
  cases hp : c.noteAt? p with
  | some n => simp [noteAt?]
  | none =>
    by_cases hq : q = p
    · subst hq
      simp only [noteAt?] at hp
      simp [noteAt?, hp]
    · have hne : ¬ p = q := fun h => hq h.symm
      simp [noteAt?, hq, hne]

theorem noteAt?_addNote_of_some (h : c.noteAt? q = some r) (p : Path) (note : String)
    (madeAt : Int) : (c.addNote p note madeAt).2.noteAt? q = some r := by
  rw [noteAt?_addNote, if_neg, h]
  rintro ⟨rfl, hnone⟩
  rw [h] at hnone
  cases hnone

/-- A copy that is made leaves a note with the same text and the same time; any
other attempt leaves all notes as they were. -/
theorem noteAt?_copyNote (c : Catalog) (source target : Path) (q : Path) :
    (c.copyNote source target).2.noteAt? q =
      match c.noteAt? source with
      | some n =>
        if c.answers .copyNote = true ∧ q = target ∧ c.noteAt? target = none then
          some ⟨c.lastNoteId + 1, target, n.note, n.madeAt⟩
        else c.noteAt? q
      | none => c.noteAt? q := by
  unfold copyNote
  by_cases hanswers : c.answers .copyNote = true
  · rw [if_pos hanswers]
    cases hsource : c.noteAt? source with
    | none => rfl
    | some n =>
      have hadd := noteAt?_addNote c target n.note n.madeAt q
      dsimp only
      simp only [hanswers, true_and]
      rw [← hadd]
      split <;> rename_i heq <;> rw [heq]
  · rw [if_neg hanswers]
    cases c.noteAt? source with
    | none => rfl
    | some n => simp [hanswers]

/-- A note that is there stays as it is, whatever is stated. -/
theorem noteAt?_statement (h : c.noteAt? p = some r) (s : Statement) :
    (s.run c).noteAt? p = some r := by
  have hsame : ∀ {c' : Catalog}, c'.notes = c.notes → c'.noteAt? p = some r := by
    intro c' hnotes
    rw [noteAt?, hnotes]
    exact h
  cases s with
  | insertNote n =>
    simp only [Statement.run, insertNote]
    split
    · exact noteAt?_addNote_of_some h n.path n.value.render n.madeAt
    · exact h
  | storeNoteText q note madeAt =>
    simp only [Statement.run, storeNoteText]
    split
    · exact noteAt?_addNote_of_some h q note madeAt
    · exact h
  | copyNote source target =>
    rw [Statement.run, noteAt?_copyNote]
    split
    · rw [if_neg, h]
      rintro ⟨-, rfl, hnone⟩
      rw [h] at hnone
      cases hnone
    · exact h
  | insertFile entry =>
    refine hsame ?_
    simp only [Statement.run, insertFile]
    split_ifs
    · split <;> rfl
    · rfl
  | updateFileSize q size =>
    refine hsame ?_
    simp only [Statement.run, updateFileSize]
    split_ifs <;> rfl
  | deleteFile q =>
    refine hsame ?_
    simp only [Statement.run, deleteFile]
    split_ifs <;> rfl
  | insertRecording entry now =>
    refine hsame ?_
    simp only [Statement.run, insertRecording]
    split_ifs <;> rfl
  | updateThumbnail id q =>
    refine hsame ?_
    simp only [Statement.run, updateThumbnail]
    split_ifs <;> rfl
  | updateClip camera suffix q =>
    refine hsame ?_
    simp only [Statement.run, updateClip]
    split_ifs <;> rfl
  | deleteRecordings ids =>
    refine hsame ?_
    simp only [Statement.run, deleteRecordings]
    split_ifs <;> rfl
  | makeTables => exact h
  | setFailing q on => exact h

theorem Runs.noteAt?_eq (h : c.Runs c') (hp : c.noteAt? p = some r) : c'.noteAt? p = some r :=
  h.keeps (P := fun c => c.noteAt? p = some r) (fun s _ hc => noteAt?_statement hc s) hp

/-- The age of a file with a note goes by the note, and otherwise by its row. -/
theorem effective_tierFile (c : Catalog) (row : FileRow) :
    (c.tierFile row).effective = ((c.noteAt? row.path).map (·.madeAt)).getD row.createdAt := rfl

theorem effective_of_noteAt? {row : FileRow} (h : c.noteAt? row.path = some r) :
    (c.tierFile row).effective = r.madeAt := by
  rw [effective_tierFile, h]
  rfl

theorem effective_of_noteAt?_eq_none {row : FileRow} (h : c.noteAt? row.path = none) :
    (c.tierFile row).effective = row.createdAt := by
  rw [effective_tierFile, h]
  rfl

end Notes

end Catalog

end TieredFootage
