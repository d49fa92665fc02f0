import TieredFootage.Proofs.Catalog.Endings

/-!
# Wildcards that stand for themselves

`Fits` says what a pattern means, sign by sign: which texts it stands for, and not how they are
found. The search with all its ways back finds just these (`matchesText_iff_fits`).

An escaped text has no wildcard left. So behind one `%` it fits what ends with the text, letters
in either case, whatever percent signs, underscores and backslashes are in the text or in what it
is compared with. That is how recordings are told apart when clips are repointed.
-/

namespace TieredFootage

namespace Like

/-- What a pattern says of a whole text: `%` stands for any characters, `_` for one, a backslash
takes the next character as it is, and every other character stands for itself. Letters stand
for themselves in either case. -/
inductive Fits : List Char → List Char → Prop
  | done : Fits [] []
  | any {p t : List Char} (s : List Char) (h : Fits p t) : Fits ('%' :: p) (s ++ t)
  | one {p t : List Char} (d : Char) (h : Fits p t) : Fits ('_' :: p) (d :: t)
  | escaped {c d : Char} {p t : List Char} (hsame : sameLetter c d = true) (h : Fits p t) :
      Fits ('\\' :: c :: p) (d :: t)
  | plain {c d : Char} {p t : List Char} (hc : isSpecial c = false)
      (hsame : sameLetter c d = true) (h : Fits p t) : Fits (c :: p) (d :: t)

variable {c : Char} {p text : List Char}

theorem fits_nil_iff : Fits [] text ↔ text = [] := by
  constructor
  · intro h
    cases h
    rfl
  · rintro rfl
    exact .done

theorem fits_any_iff : Fits ('%' :: p) text ↔ ∃ t, t <:+ text ∧ Fits p t := by
  constructor
  · intro h
    cases h with
    | any s h => exact ⟨_, List.suffix_append s _, h⟩
    | plain hc => cases hc
  · rintro ⟨t, ⟨s, rfl⟩, h⟩
    exact .any s h

theorem fits_one_iff : Fits ('_' :: p) text ↔ ∃ d t, text = d :: t ∧ Fits p t := by
  constructor
  · intro h
    cases h with
    | one d h => exact ⟨d, _, rfl, h⟩
    | plain hc => cases hc
  · rintro ⟨d, t, rfl, h⟩
    exact .one d h

theorem fits_escaped_iff : Fits ('\\' :: c :: p) text ↔
    ∃ d t, text = d :: t ∧ sameLetter c d = true ∧ Fits p t := by
  constructor
  · intro h
    cases h with
    | escaped hsame h => exact ⟨_, _, rfl, hsame, h⟩
    | plain hc => cases hc
  · rintro ⟨d, t, rfl, hsame, h⟩
    exact .escaped hsame h

theorem not_fits_backslash : ¬ Fits ['\\'] text := by
  intro h
  cases h with
  | plain hc => cases hc

theorem fits_plain_iff (hc : isSpecial c = false) : Fits (c :: p) text ↔
    ∃ d t, text = d :: t ∧ sameLetter c d = true ∧ Fits p t := by
  constructor
  · intro h
    cases h with
    | plain _ hsame h => exact ⟨_, _, rfl, hsame, h⟩
    | any => cases hc
    | one => cases hc
    | escaped => cases hc
  · rintro ⟨d, t, rfl, hsame, h⟩
    exact .plain hc hsame h

/-- A character that is no wildcard, and a backslash neither alone nor in front of another one. -/
theorem isSpecial_eq_false_of_ne (hany : c ≠ '%') (hone : c ≠ '_')
    (hend : c = '\\' → p = [] → False) (hnext : ∀ d q, c = '\\' → p = d :: q → False) :
    isSpecial c = false := by
  refine isSpecial_eq_false_iff.2 ⟨fun hc => ?_, hany, hone⟩
  cases p with
  | nil => exact hend hc rfl
  | cons d q => exact hnext d q hc rfl

/-- A text is matched exactly if the pattern fits it. -/
theorem matchesText_iff_fits : matchesText p text = true ↔ Fits p text := by
  fun_induction matchesText p text with
  | case1 text => rw [fits_nil_iff, List.isEmpty_iff]
  | case2 p text ih => simp only [List.any_eq_true, mem_suffixes, ih, fits_any_iff]
  | case3 p => simp [fits_one_iff]
  | case4 p d t ih => simp [fits_one_iff, ih]
  | case5 text => simp [not_fits_backslash]
  | case6 c p => simp [fits_escaped_iff]
  | case7 c p d t ih => simp [fits_escaped_iff, ih]
  | case8 c p hany hone hend hnext =>
    simp [fits_plain_iff (isSpecial_eq_false_of_ne hany hone hend hnext)]
  | case9 c p hany hone hend hnext d t ih =>
    simp [fits_plain_iff (isSpecial_eq_false_of_ne hany hone hend hnext), ih]

/-- Texts are the same exactly if they are equal in small letters. -/
theorem sameText_iff_map_toLower {s t : List Char} :
    sameText s t = true ↔ s.map Char.toLower = t.map Char.toLower := by
  induction s generalizing t with
  | nil => cases t <;> simp [sameText]
  | cons c s ih =>
    cases t with
    | nil => simp [sameText]
    | cons d t =>
      rw [sameText_cons, Bool.and_eq_true, sameLetter, beq_iff_eq, ih, List.map_cons, List.map_cons,
        List.cons_eq_cons]

theorem exists_suffix_sameText_iff {s text : List Char} :
    (∃ t, t <:+ text ∧ sameText s t = true) ↔
      s.map Char.toLower <:+ text.map Char.toLower := by
  simp only [sameText_iff_map_toLower, List.suffix_map_iff]

/-- The pattern of an ending fits a text exactly if the text ends like that. -/
theorem fits_endsWith_iff {s text : List Char} : Fits (endsWithPattern s) text ↔
    s.map Char.toLower <:+ text.map Char.toLower := by
  rw [← matchesText_iff_fits, matchesText_endsWith_iff, exists_suffix_sameText_iff]

example : matchesText (endsWithPattern "1/1.cam_1".toList) "/t/1/1.cam_1".toList = true ∧
    matchesText (endsWithPattern "1/1.cam_1".toList) "/t/1/1.camX1".toList = false := by decide

example : matchesText (endsWithPattern "\\%é".toList) "/t/9\\%é".toList = true ∧
    matchesText (endsWithPattern "\\%é".toList) "/t/9\\1é".toList = false ∧
    matchesText (endsWithPattern "\\%é".toList) "/t/9\\%É".toList = false := by decide

end Like

namespace Recording

variable {camera : String} {s : Path} {x : Recording}

theorem isNamesake_iff : x.IsNamesake camera s ↔ x.camera = camera ∧
    ∃ clip, x.clipPath = some clip ∧ s.map Char.toLower <:+ clip.map Char.toLower := by
  simp only [IsNamesake, exists_and_left, Like.exists_suffix_sameText_iff]

instance (x : Recording) (camera : String) (s : Path) : Decidable (x.IsNamesake camera s) :=
  decidable_of_iff _ Catalog.clipEndsWith_iff

theorem clipEndsWith_eq_decide :
    Catalog.clipEndsWith camera s = fun x => decide (x.IsNamesake camera s) := by
  funext x
  rw [Bool.eq_iff_iff, Catalog.clipEndsWith_iff, decide_eq_true_iff]

end Recording

/-- An ending stands for itself in a pattern, whatever signs are in it: the pattern fits the clips
that end like this up to the case of ASCII letters, and no others. So the recordings of a camera
with such a clip are repointed, and nothing else in the catalog changes. -/
theorem Catalog.updateClip_repoints (c : Catalog) (camera : String) (s path : Path) :
    (∀ clip, Like.Fits ('%' :: Like.escape s) clip ↔
      s.map Char.toLower <:+ clip.map Char.toLower) ∧
    (∀ x : Recording, x.IsNamesake camera s ↔ x.camera = camera ∧
      ∃ clip, x.clipPath = some clip ∧ s.map Char.toLower <:+ clip.map Char.toLower) ∧
    c.updateClip camera s path =
      if c.answers .updateClip then
        (.ok (c.recordings.countP fun x => x.IsNamesake camera s),
          { c with recordings := c.recordings.map fun x =>
              if x.IsNamesake camera s then { x with clipPath := some path } else x })
      else (.error .database, c) := by
  refine ⟨fun clip => Like.fits_endsWith_iff, fun x => Recording.isNamesake_iff, ?_⟩
  simp only [updateClip, Recording.clipEndsWith_eq_decide, decide_eq_true_eq]

end TieredFootage
