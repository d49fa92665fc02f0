import TieredFootage.Proofs.Chain.Below

/-!
# Clips that end alike

A clip that has moved is looked up by the end of its path: its last two names with the
slash between them, up to the case of ASCII letters. A text with one slash in it ends
a path exactly if it ends the last two names of that path, so the root that comes
before them has no part in it. A path ends with its own last two names wherever it
lies.
-/

namespace TieredFootage

namespace Like

theorem mem_suffixes {s t : List Char} : s ∈ suffixes t ↔ s <:+ t := by
  induction t with
  | nil => simp [suffixes]
  | cons c cs ih => rw [suffixes, List.mem_cons, List.suffix_cons_iff, ih]

theorem isSpecial_eq_false_iff {c : Char} : isSpecial c = false ↔ c ≠ '\\' ∧ c ≠ '%' ∧ c ≠ '_' := by
  simp [isSpecial, and_assoc]

/-- Without a meaning of its own a character only stands for itself. -/
theorem matchesText_cons {c : Char} (h : isSpecial c = false) (p text : List Char) :
    matchesText (c :: p) text =
      match text with
      | [] => false
      | d :: t => sameLetter c d && matchesText p t := by
  obtain ⟨hslash, hany, hone⟩ := isSpecial_eq_false_iff.1 h
  cases text with
  | nil =>
    rw [matchesText]
    · exact fun heq => hany heq
    · exact fun heq => hone heq
    · exact fun heq _ => hslash heq
    · exact fun _ _ heq _ => hslash heq
  | cons d t =>
    rw [matchesText]
    · exact fun heq => hany heq
    · exact fun heq => hone heq
    · exact fun heq _ => hslash heq
    · exact fun _ _ heq _ => hslash heq

/-- An escaped text matches what is the same up to case. -/
theorem matchesText_escape (s t : List Char) : matchesText (escape s) t = sameText s t := by
  induction s generalizing t with
  | nil => cases t <;> rfl
  | cons c s ih =>
    rw [escape_cons]
    cases t with
    | nil =>
      cases hc : isSpecial c with
      | true => rfl
      | false => exact matchesText_cons hc (escape s) []
    | cons d t =>
      rw [sameText_cons, ← ih]
      cases hc : isSpecial c with
      | true => rfl
      | false => exact matchesText_cons hc (escape s) (d :: t)

theorem matchesText_endsWith_iff {s text : List Char} :
    matchesText (endsWithPattern s) text = true ↔ ∃ t, t <:+ text ∧ sameText s t = true := by
  rw [endsWithPattern, matchesText, List.any_eq_true]
  simp only [mem_suffixes, matchesText_escape]

theorem sameText_refl (s : List Char) : sameText s s = true := by
  induction s with
  | nil => rfl
  | cons c s ih => rw [sameText_cons, ih, sameLetter, beq_self_eq_true, Bool.and_self]

/-- A text ends with itself. -/
theorem matchesText_endsWith_self (x s : List Char) :
    matchesText (endsWithPattern s) (x ++ s) = true :=
  matchesText_endsWith_iff.2 ⟨s, List.suffix_append x s, sameText_refl s⟩

/-- Only a slash is the same as a slash. -/
theorem toLower_eq_slash_iff {c : Char} : c.toLower = '/' ↔ c = '/' := by
  constructor
  · intro h
    unfold Char.toLower at h
    split at h
    · rename_i hupper
      have hlow : 65 ≤ c.val.toNat := hupper.1
      have hhigh : c.val.toNat ≤ 90 := hupper.2
      have hval : (c.val + 32).toNat = 47 := congrArg (fun d => d.val.toNat) h
      have hthirtyTwo : (32 : UInt32).toNat = 32 := rfl
      rw [UInt32.toNat_add, hthirtyTwo] at hval
      omega
    · exact h
  · rintro rfl
    rfl

theorem count_slash_of_sameText {s t : List Char} (h : sameText s t = true) :
    t.count '/' = s.count '/' := by
  induction s generalizing t with
  | nil =>
    cases t with
    | nil => rfl
    | cons d t => simp [sameText] at h
  | cons c s ih =>
    cases t with
    | nil => simp [sameText] at h
    | cons d t =>
      rw [sameText_cons, Bool.and_eq_true, sameLetter, beq_iff_eq] at h
      have hslash : d = '/' ↔ c = '/' := by
        rw [← toLower_eq_slash_iff, ← h.1, toLower_eq_slash_iff]
      rw [List.count_cons, List.count_cons, ih h.2]
      simp only [beq_iff_eq, hslash]

/-- What ends a text and has fewer slashes than the last part of it ends that part. -/
theorem matchesText_endsWith_append {s x w : List Char} (h : s.count '/' < w.count '/') :
    matchesText (endsWithPattern s) (x ++ w) = matchesText (endsWithPattern s) w := by
  rw [Bool.eq_iff_iff, matchesText_endsWith_iff, matchesText_endsWith_iff]
  constructor
  · rintro ⟨t, ht, hsame⟩
    refine ⟨t, ?_, hsame⟩
    rcases List.suffix_or_suffix_of_suffix ht (List.suffix_append x w) with htw | hwt
    · exact htw
    · have hcount := hwt.sublist.count_le '/'
      rw [count_slash_of_sameText hsame] at hcount
      omega
  · rintro ⟨t, ht, hsame⟩
    exact ⟨t, ht.trans (List.suffix_append x w), hsame⟩

end Like

/-- The clip of a recording of a camera ends in a text, up to the case of ASCII letters. -/
def Recording.IsNamesake (y : Recording) (camera : String) (s : Path) : Prop :=
  y.camera = camera ∧ ∃ c w, y.clipPath = some c ∧ w <:+ c ∧ Like.sameText s w = true

theorem Catalog.clipEndsWith_iff {camera : String} {s : Path} {y : Recording} :
    clipEndsWith camera s y = true ↔ y.IsNamesake camera s := by
  rw [clipEndsWith, Bool.and_eq_true, beq_iff_eq, Recording.IsNamesake]
  refine and_congr_right fun _ => ?_
  cases y.clipPath with
  | none => simp
  | some c =>
    rw [Option.any_some, Like.matchesText_endsWith_iff]
    simp

namespace Path

variable {root : Path} {l : List Path} {m n s : Path}

/-- The last two names below a root stand at the end of the path. -/
theorem exists_under_eq (root : Path) (l : List Path) (m n : Path) :
    ∃ x, root.under (l ++ [m] ++ [n]) = x ++ '/' :: (m ++ '/' :: n) := by
  rw [under, List.append_assoc]
  by_cases hl : l = []
  · exact ⟨root, by simp [hl, glue]⟩
  · exact ⟨root ++ '/' :: glue l, by simp [glue_append hl, glue]⟩

/-- A clip below a root is looked up by its last two names. -/
theorem clipSuffix?_under (hroot : root.IsNormal) (h : Disk.IsNamed (l ++ [m] ++ [n])) :
    clipSuffix? (root.under (l ++ [m] ++ [n])) = some (m ++ '/' :: n) := by
  have htext := Disk.locationText_pieces (isNormal_under hroot h (by simp))
  have hall : Disk.IsNamed (pieces root.tail ++ l ++ [m] ++ [n]) := by
    intro k hk
    rw [List.append_assoc, List.append_assoc, ← List.append_assoc l] at hk
    exact (List.mem_append.1 hk).elim (Disk.isNamed_pieces hroot k) (h k)
  rw [pieces_under hroot h (by simp), ← List.append_assoc, ← List.append_assoc] at htext
  rw [← htext]
  simp only [clipSuffix?, Disk.fileName?_locationText hall, Disk.parent?_locationText hall,
    Disk.fileName?_locationText hall.of_concat, bind, Option.bind]

/-- Whether a path ends with a text with one slash is up to its last two names. -/
theorem endsWith_under (hs : s.count '/' ≤ 1) (root : Path) (l : List Path) (m n : Path) :
    Like.matchesText (Like.endsWithPattern s) (root.under (l ++ [m] ++ [n])) =
      Like.matchesText (Like.endsWithPattern s) ('/' :: (m ++ '/' :: n)) := by
  obtain ⟨x, hx⟩ := exists_under_eq root l m n
  rw [hx, Like.matchesText_endsWith_append]
  rw [List.count_cons_self, List.count_append, List.count_cons_self]
  omega

theorem count_slash_eq_one (hm : '/' ∉ m) (hn : '/' ∉ n) : (m ++ '/' :: n).count '/' = 1 := by
  rw [List.count_append, List.count_cons_self, List.count_eq_zero_of_not_mem hm,
    List.count_eq_zero_of_not_mem hn]

theorem count_slash_suffix (h : Disk.IsNamed (l ++ [m] ++ [n])) :
    (m ++ '/' :: n).count '/' = 1 :=
  count_slash_eq_one (h m (by simp)).2 (h n (by simp)).2

end Path

end TieredFootage
