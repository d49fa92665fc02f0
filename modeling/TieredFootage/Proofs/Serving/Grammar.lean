import TieredFootage.Serving.Routes

/-!
# The requests of a route

The pattern of an extension route is put together from escaped texts. Escaping is
undone by reading: an escaped text in front of a pattern is read as its characters
(`Reads.escape`). Such a pattern has one way to match a request at most, namely if
the request is the root of the served files, the directory, a slash, and a name that
ends in the extension and has no line feed before it (`mem_ways_ofExtension_iff`).
-/

namespace TieredFootage

namespace Pattern

variable {k k' m : Nat} {c : Char} {s t u cs rest : List Char} {p q : Pattern}
  {x : PatternMatch}

/-- The characters of a text, and then a pattern. -/
def text (s : List Char) (q : Pattern) : Pattern := s.foldr (fun c q => .seq (.char c) q) q

/-- A written pattern is read as `q` by all who have fuel for `m` signs. -/
def Reads (m k : Nat) (cs : List Char) (q : Pattern) (k' : Nat) (rest : List Char) : Prop :=
  ∀ n, m ≤ n → takePattern? n k cs = some (q, k', rest)

theorem reads_nil (k : Nat) : Reads 1 k [] .empty k [] := by
  intro n hn
  obtain ⟨n, rfl⟩ := Nat.exists_eq_add_of_le' hn
  rfl

theorem reads_close (k : Nat) (cs : List Char) : Reads 1 k (')' :: cs) .empty k (')' :: cs) := by
  intro n hn
  obtain ⟨n, rfl⟩ := Nat.exists_eq_add_of_le' hn
  rfl

theorem Reads.atEnd (h : Reads m k cs q k' rest) :
    Reads (m + 1) k ('$' :: cs) (.seq .atEnd q) k' rest := by
  intro n hn
  obtain ⟨n, rfl⟩ := Nat.exists_eq_add_of_le' (Nat.le_of_add_left_le hn)
  rw [takePattern?, h n (by omega)]
  rfl

theorem Reads.repeatAny (h : Reads m k cs q k' rest) :
    Reads (m + 1) k ('.' :: '*' :: cs) (.seq .repeatAny q) k' rest := by
  intro n hn
  obtain ⟨n, rfl⟩ := Nat.exists_eq_add_of_le' (Nat.le_of_add_left_le hn)
  rw [takePattern?, h n (by omega)]
  rfl

/-- The signs that an escaped character is read from. -/
theorem takeLiteral?_escape (c : Char) (cs : List Char) :
    ∃ d ds, escape [c] ++ cs = d :: ds ∧ takePattern?.takeLiteral? d ds = some (c, cs) ∧
      d ∉ [')', '(', '$', '.', '*', '?'] := by
  unfold takePattern?.takeLiteral?
  by_cases hc : isSpecial c = true
  · exact ⟨'\\', c :: cs, by simp [escape, hc], by simp [hc], by decide⟩
  · have hnot : ∀ d, isSpecial d = true → c ≠ d := fun d hd heq => hc (heq ▸ hd)
    refine ⟨c, cs, by simp [escape, hc], ?_, ?_⟩
    · rw [if_neg (hnot '\\' (by decide)), if_neg]
      intro hmem
      have hspecial : "*?+|[\x7b^".toList.all isSpecial = true := by decide
      exact hc (List.all_eq_true.1 hspecial c (List.contains_iff_mem.1 hmem))
    · have hspecial : [')', '(', '$', '.', '*', '?'].all isSpecial = true := by decide
      exact fun hmem => hc (List.all_eq_true.1 hspecial c hmem)

/-- A character that is not followed by a sign of repetition stands for itself. -/
theorem Reads.literal (h : Reads m k cs q k' rest) (hcs : cs.head? ∉ [some '*', some '?'])
    (c : Char) : Reads (m + 1) k (escape [c] ++ cs) (.seq (.char c) q) k' rest := by
  intro n hn
  obtain ⟨n, rfl⟩ := Nat.exists_eq_add_of_le' (Nat.le_of_add_left_le hn)
  obtain ⟨d, ds, hescape, hliteral, hd⟩ := takeLiteral?_escape c cs
  simp only [List.mem_cons, List.not_mem_nil, or_false, not_or] at hd
  obtain ⟨hclose, hopen, hend, hdot, -, -⟩ := hd
  rw [hescape, takePattern?.eq_9 _ _ _ _ hclose hopen hend (fun _ h _ => hdot h)
    (fun _ h _ => hdot h) hdot, hliteral]
  simp only [Option.bind_eq_bind, Option.bind_some]
  split
  · simp at hcs
  · simp at hcs
  · rw [h n (by omega)]
    rfl

/-- An escaped text is read as its characters. -/
theorem Reads.escape (h : Reads m k cs q k' rest) (hcs : cs.head? ∉ [some '*', some '?'])
    (s : List Char) : Reads (m + s.length) k (Pattern.escape s ++ cs) (text s q) k' rest := by
  induction s with
  | nil => exact h
  | cons c s ih =>
    have hhead : (Pattern.escape s ++ cs).head? ∉ [some '*', some '?'] := by
      cases s with
      | nil => exact hcs
      | cons d s =>
        obtain ⟨e, es, hescape, -, he⟩ := takeLiteral?_escape d (Pattern.escape s ++ cs)
        rw [show d :: s = [d] ++ s from rfl, escape_append, List.append_assoc, hescape]
        simp only [List.mem_cons, List.not_mem_nil, or_false, not_or] at he
        simp [he]
    have hread := ih.literal hhead c
    rwa [← List.append_assoc, ← escape_append] at hread

/-- A group at the end is read as its content. -/
theorem Reads.group (h : Reads m (k + 1) cs p k' [')']) :
    Reads (m + 2) k ('(' :: cs) (.seq (.group k p) .empty) k' [] := by
  intro n hn
  obtain ⟨n, rfl⟩ := Nat.exists_eq_add_of_le' (Nat.le_of_add_left_le hn)
  rw [show n + 2 = (n + 1).succ from rfl, takePattern?.eq_4, h (n + 1) (by omega)]
  simp only [Option.bind_eq_bind, Option.bind_some]
  rw [reads_nil k' (n + 1) (by omega)]
  rfl

theorem length_le_length_escape (s : List Char) : s.length ≤ (escape s).length := by
  induction s with
  | nil => exact Nat.le_refl _
  | cons c s ih =>
    rw [escape_cons, List.length_append, List.length_cons]
    split
    · simp only [List.length_cons, List.length_nil]
      omega
    · simp only [List.length_cons, List.length_nil]
      omega

/-- The pattern of the files below a directory with an extension, read. -/
def ofExtension (dir ext : List Char) : Pattern :=
  text (filesRoot ++ dir ++ ['/'])
    (.seq (.group 1 (.seq .repeatAny (text ('.' :: ext) (.seq .atEnd .empty)))) .empty)

theorem parse?_extensionPattern (dir ext : List Char) :
    parse? (filesRoot ++ extensionPattern dir ext) = some (ofExtension dir ext) := by
  have hsigns : filesRoot ++ extensionPattern dir ext =
      escape (filesRoot ++ dir ++ ['/']) ++
        '(' :: '.' :: '*' :: (escape ('.' :: ext) ++ ['$', ')']) := by
    have hroot : escape filesRoot = filesRoot := by decide
    have hslash : escape ['/'] = ['/'] := by decide
    rw [escape_append, escape_append, hroot, hslash, escape_cons, extensionPattern]
    simp [isSpecial]
  have hname := ((reads_close 2 []).atEnd.escape (by simp) ('.' :: ext)).repeatAny
  have hread := hname.group.escape (by simp) (filesRoot ++ dir ++ ['/'])
  have hfuel : (filesRoot ++ dir ++ ['/']).length ≤ (escape (filesRoot ++ dir ++ ['/'])).length :=
    length_le_length_escape _
  have hfuel' : ('.' :: ext).length ≤ (escape ('.' :: ext)).length := length_le_length_escape _
  rw [parse?, hsigns, hread _ ?_]
  · rfl
  · simp only [List.length_append, List.length_cons, List.length_nil] at hfuel hfuel' ⊢
    omega

section Ways

@[simp] theorem mem_ways_empty_iff : x ∈ ways .empty t ↔ x = ⟨[], t⟩ := List.mem_singleton

theorem mem_ways_char_iff : x ∈ ways (.char c) t ↔ ∃ u, t = c :: u ∧ x = ⟨[], u⟩ := by
  cases t with
  | nil => simp [ways]
  | cons d t =>
    by_cases hd : d = c
    · simp [ways, hd]
    · simp [ways, hd]

theorem mem_ways_seq_iff : x ∈ ways (.seq p q) t ↔
    ∃ y ∈ ways p t, ∃ z ∈ ways q y.rest, x = ⟨y.groups ++ z.groups, z.rest⟩ := by
  simp only [ways, List.mem_flatMap, List.mem_map, eq_comm]

theorem mem_ways_atEnd_iff : x ∈ ways .atEnd t ↔ t = [] ∧ x = ⟨[], []⟩ := by
  cases t with
  | nil => simp [ways]
  | cons d t => simp [ways]

theorem mem_ways_group_iff : x ∈ ways (.group k p) t ↔
    ∃ y ∈ ways p t, x = ⟨(k, t.take (t.length - y.rest.length)) :: y.groups, y.rest⟩ := by
  simp only [ways, List.mem_map, eq_comm]

theorem mem_runs_iff {f : Char → Bool} :
    rest ∈ runs f t ↔ ∃ u, t = u ++ rest ∧ ∀ c ∈ u, f c = true := by
  induction t with
  | nil =>
    rw [runs, List.mem_singleton]
    constructor
    · rintro rfl
      exact ⟨[], rfl, by simp⟩
    · rintro ⟨u, hu, -⟩
      exact (List.append_eq_nil_iff.1 hu.symm).2
  | cons c t ih =>
    have hhere : rest = c :: t → ∃ u, c :: t = u ++ rest ∧ ∀ c ∈ u, f c = true := by
      rintro rfl
      exact ⟨[], rfl, by simp⟩
    rw [runs]
    split
    · rename_i hc
      rw [List.mem_append, ih, List.mem_singleton]
      constructor
      · rintro (⟨u, rfl, hu⟩ | heq)
        · exact ⟨c :: u, rfl, by simpa [hc] using hu⟩
        · exact hhere heq
      · rintro ⟨u, hu, hf⟩
        cases u with
        | nil => exact .inr hu.symm
        | cons d u =>
          obtain ⟨rfl, rfl⟩ := List.cons.inj hu
          exact .inl ⟨u, rfl, fun e he => hf e (List.mem_cons_of_mem _ he)⟩
    · rename_i hc
      rw [List.mem_singleton]
      refine ⟨hhere, ?_⟩
      rintro ⟨u, hu, hf⟩
      cases u with
      | nil => exact hu.symm
      | cons d u =>
        obtain ⟨rfl, rfl⟩ := List.cons.inj hu
        exact absurd (hf c List.mem_cons_self) hc

theorem mem_ways_repeatAny_iff :
    x ∈ ways .repeatAny t ↔ ∃ u v, t = u ++ v ∧ '\n' ∉ u ∧ x = ⟨[], v⟩ := by
  rw [ways, List.mem_map]
  constructor
  · rintro ⟨v, hv, rfl⟩
    obtain ⟨u, hu, hnone⟩ := mem_runs_iff.1 hv
    exact ⟨u, v, hu, fun hmem => by simpa using hnone _ hmem, rfl⟩
  · rintro ⟨u, v, hu, hnone, rfl⟩
    refine ⟨v, mem_runs_iff.2 ⟨u, hu, fun c hc => ?_⟩, rfl⟩
    exact bne_iff_ne.2 fun heq => hnone (heq ▸ hc)

/-- The characters of a text match that text only. -/
theorem mem_ways_text_iff : x ∈ ways (text s q) t ↔ ∃ u, t = s ++ u ∧ x ∈ ways q u := by
  induction s generalizing t with
  | nil => simp [text]
  | cons c s ih =>
    change x ∈ ways (.seq (.char c) (text s q)) t ↔ _
    rw [mem_ways_seq_iff]
    constructor
    · rintro ⟨y, hy, z, hz, rfl⟩
      obtain ⟨u, rfl, rfl⟩ := mem_ways_char_iff.1 hy
      obtain ⟨v, rfl, hv⟩ := ih.1 hz
      exact ⟨v, rfl, hv⟩
    · rintro ⟨u, rfl, hx⟩
      exact ⟨⟨[], s ++ u⟩, mem_ways_char_iff.2 ⟨_, rfl, rfl⟩, x, ih.2 ⟨u, rfl, hx⟩, rfl⟩

/-- What a group matches before the end of the text is its text. -/
theorem mem_ways_name_iff {ext : List Char} :
    x ∈ ways (.group 1 (.seq .repeatAny (text ('.' :: ext) (.seq .atEnd .empty)))) t ↔
      ∃ y, '\n' ∉ y ∧ t = y ++ '.' :: ext ∧ x = ⟨[(1, t)], []⟩ := by
  rw [mem_ways_group_iff]
  have hwhole : ∀ u : List Char, u.take (u.length - ([] : List Char).length) = u := by
    intro u
    rw [List.length_nil, Nat.sub_zero, List.take_length]
  constructor
  · rintro ⟨w, hw, rfl⟩
    obtain ⟨v, hv, z, hz, rfl⟩ := mem_ways_seq_iff.1 hw
    obtain ⟨y, v, rfl, hy, rfl⟩ := mem_ways_repeatAny_iff.1 hv
    obtain ⟨u, rfl, hu⟩ := mem_ways_text_iff.1 hz
    obtain ⟨a, ha, b, hb, rfl⟩ := mem_ways_seq_iff.1 hu
    obtain ⟨rfl, rfl⟩ := mem_ways_atEnd_iff.1 ha
    obtain rfl := mem_ways_empty_iff.1 hb
    exact ⟨y, hy, by simp, by rw [hwhole]; rfl⟩
  · rintro ⟨y, hy, rfl, rfl⟩
    refine ⟨⟨[], []⟩, mem_ways_seq_iff.2 ⟨⟨[], '.' :: ext⟩, ?_, ⟨[], []⟩, ?_, rfl⟩, by rw [hwhole]⟩
    · exact mem_ways_repeatAny_iff.2 ⟨y, _, rfl, hy, rfl⟩
    · refine mem_ways_text_iff.2 ⟨[], by simp, mem_ways_seq_iff.2 ⟨⟨[], []⟩, ?_, ⟨[], []⟩, ?_, rfl⟩⟩
      · exact mem_ways_atEnd_iff.2 ⟨rfl, rfl⟩
      · exact mem_ways_empty_iff.2 rfl

/-- The pattern of an extension route matches a request as a whole, in one way. -/
theorem mem_ways_ofExtension_iff {dir ext : List Char} :
    x ∈ ways (ofExtension dir ext) t ↔
      ∃ y, '\n' ∉ y ∧ t = filesRoot ++ dir ++ '/' :: (y ++ '.' :: ext) ∧
        x = ⟨[(1, y ++ '.' :: ext)], []⟩ := by
  rw [ofExtension, mem_ways_text_iff]
  constructor
  · rintro ⟨u, rfl, hx⟩
    obtain ⟨a, ha, b, hb, rfl⟩ := mem_ways_seq_iff.1 hx
    obtain ⟨y, hy, rfl, rfl⟩ := mem_ways_name_iff.1 ha
    obtain rfl := mem_ways_empty_iff.1 hb
    exact ⟨y, hy, by simp, rfl⟩
  · rintro ⟨y, hy, rfl, rfl⟩
    refine ⟨y ++ '.' :: ext, by simp,
      mem_ways_seq_iff.2 ⟨⟨[(1, y ++ '.' :: ext)], []⟩, ?_, ⟨[], []⟩, ?_, rfl⟩⟩
    · exact mem_ways_name_iff.2 ⟨y, hy, rfl, rfl⟩
    · exact mem_ways_empty_iff.2 rfl

theorem first?_ofExtension_iff {dir ext : List Char} :
    first? (ofExtension dir ext) t = some x ↔ x ∈ ways (ofExtension dir ext) t := by
  refine ⟨List.mem_of_head?, fun hx => ?_⟩
  cases hfirst : (ways (ofExtension dir ext) t).head? with
  | none =>
    rw [List.head?_eq_none_iff.1 hfirst] at hx
    cases hx
  | some z =>
    obtain ⟨y, -, ht, rfl⟩ := mem_ways_ofExtension_iff.1 hx
    obtain ⟨y', -, ht', rfl⟩ := mem_ways_ofExtension_iff.1 (List.mem_of_head? hfirst)
    have hsame := List.append_cancel_left (ht'.symm.trans ht)
    obtain ⟨-, hname⟩ := List.cons.inj hsame
    rw [first?, hfirst, hname]

end Ways

end Pattern

namespace RouteTable

/-- An extension route has a file for the requests below its directory that end in
the extension. -/
theorem fileOf?_ofExtension_iff {dir ext request : List Char} {r : FileRoute} {file : Path} :
    fileOf? (Pattern.ofExtension dir ext) r request = some file ↔
      ∃ y, '\n' ∉ y ∧ request = filesRoot ++ dir ++ '/' :: (y ++ '.' :: ext) ∧
        file = r.path ++ '/' :: (y ++ '.' :: ext) := by
  unfold fileOf?
  constructor
  · intro hfile
    split at hfile
    · cases hfile
    · rename_i hfirst
      obtain ⟨y, hy, hrequest, rfl⟩ :=
        Pattern.mem_ways_ofExtension_iff.1 (Pattern.first?_ofExtension_iff.1 hfirst)
      exact ⟨y, hy, hrequest, (Option.some.inj hfile).symm⟩
  · rintro ⟨y, hy, hrequest, rfl⟩
    rw [Pattern.first?_ofExtension_iff.2
      (Pattern.mem_ways_ofExtension_iff.2 ⟨y, hy, hrequest, rfl⟩)]
    rfl

end RouteTable

end TieredFootage
