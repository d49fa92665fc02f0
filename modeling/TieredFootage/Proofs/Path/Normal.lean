import TieredFootage.Proofs.Chain.Destination
import TieredFootage.Proofs.Disk.Walking

/-!
# Paths in normal form

A normal path is absolute, and each of its pieces is a name: not empty, and
neither of the two names that lead nowhere new. Following such a path adds name
after name, so it can only lead to the location that it spells. One location is
spelled by one normal path, and texts tell normal paths apart as the disk does.

Replacing a root in a normal path by a normal root gives a normal path, wherever
in the text the replaced root occurs: a name with more characters behind it is a
name again.
-/

namespace TieredFootage

namespace Path

variable {p q root next : Path}

/-- A piece that leads on. -/
def IsName (n : Path) : Prop := n ≠ [] ∧ n ≠ ['.'] ∧ n ≠ ['.', '.']

instance (n : Path) : Decidable (IsName n) := inferInstanceAs (Decidable (_ ∧ _))

/-- An absolute path of one name or more. -/
def IsNormal (p : Path) : Prop := p.isAbsolute = true ∧ ∀ n ∈ pieces p.tail, IsName n

instance (p : Path) : Decidable (IsNormal p) := inferInstanceAs (Decidable (_ ∧ _))

theorem exists_cons_of_isAbsolute (h : p.isAbsolute = true) : ∃ r, p = '/' :: r := by
  cases p with
  | nil => simp [isAbsolute] at h
  | cons c r =>
    obtain rfl : c = '/' := by simpa [isAbsolute] using h
    exact ⟨r, rfl⟩

/-- The last piece of the first text and the first piece of the second one become
one piece. -/
theorem pieces_append (p q : Path) :
    ∃ ns n m ms, pieces p = ns ++ [n] ∧ pieces q = m :: ms ∧
      pieces (p ++ q) = ns ++ (n ++ m) :: ms := by
  obtain ⟨m, ms, hq⟩ := List.exists_cons_of_ne_nil (pieces_ne_nil q)
  induction p with
  | nil => exact ⟨[], [], m, ms, rfl, hq, hq⟩
  | cons c cs ih =>
    obtain ⟨ns, n, m', ms', hcs, hq', happend⟩ := ih
    rw [List.cons_append, pieces, pieces, hcs, happend]
    by_cases hc : c = '/'
    · rw [if_pos hc, if_pos hc]
      exact ⟨[] :: ns, n, m', ms', rfl, hq', rfl⟩
    · rw [if_neg hc, if_neg hc]
      cases ns with
      | nil => exact ⟨[], c :: n, m', ms', rfl, hq', rfl⟩
      | cons k ks => exact ⟨(c :: k) :: ks, n, m', ms', rfl, hq', rfl⟩

theorem pieces_append_slash (p q : Path) : pieces (p ++ '/' :: q) = pieces p ++ pieces q := by
  obtain ⟨ns, n, m, ms, hp, hq, happend⟩ := pieces_append p ('/' :: q)
  rw [pieces, if_pos rfl] at hq
  obtain ⟨rfl, rfl⟩ := List.cons.inj hq
  rw [happend, hp, List.append_nil, List.append_assoc]
  rfl

theorem pieces_of_slash_notMem {n : Path} (h : '/' ∉ n) : pieces n = [n] := by
  induction n with
  | nil => rfl
  | cons c cs ih =>
    obtain ⟨hc, hcs⟩ := not_or.1 (mt List.mem_cons.2 h)
    rw [pieces, if_neg (Ne.symm hc), ih hcs]

theorem glue_append {ms ns : List Path} (hms : ms ≠ []) (hns : ns ≠ []) :
    glue (ms ++ ns) = glue ms ++ '/' :: glue ns := by
  induction ms with
  | nil => exact absurd rfl hms
  | cons m ms ih =>
    obtain ⟨n, ns, rfl⟩ := List.exists_cons_of_ne_nil hns
    cases ms with
    | nil => rfl
    | cons k ks =>
      have hrest := ih (List.cons_ne_nil k ks)
      rw [List.cons_append] at hrest
      rw [List.cons_append, List.cons_append, glue, hrest, glue]
      simp

/-- Names without slashes are the pieces of what they are glued to. -/
theorem pieces_glue {ns : List Path} (h : ns ≠ []) (hns : ∀ n ∈ ns, '/' ∉ n) :
    pieces (glue ns) = ns := by
  induction ns with
  | nil => exact absurd rfl h
  | cons n ns ih =>
    have hn := pieces_of_slash_notMem (hns n List.mem_cons_self)
    cases ns with
    | nil => exact hn
    | cons m ms =>
      have hrest := ih (List.cons_ne_nil m ms) fun k hk => hns k (List.mem_cons_of_mem n hk)
      rw [glue, pieces_append_slash, hn, hrest]
      rfl

theorem mem_glue {ns : List Path} {c : Char} (h : c ∈ glue ns) : c = '/' ∨ ∃ n ∈ ns, c ∈ n := by
  induction ns with
  | nil => simp [glue] at h
  | cons n ns ih =>
    cases ns with
    | nil => exact Or.inr ⟨n, List.mem_cons_self, h⟩
    | cons m ms =>
      rw [glue, List.mem_append, List.mem_cons] at h
      rcases h with h | h | h
      · exact Or.inr ⟨n, List.mem_cons_self, h⟩
      · exact Or.inl h
      · obtain h | ⟨k, hk, hc⟩ := ih h
        · exact Or.inl h
        · exact Or.inr ⟨k, List.mem_cons_of_mem n hk, hc⟩

theorem exists_concat_pieces (p : Path) : ∃ ns n, pieces p = ns ++ [n] := by
  obtain ⟨ns, n, h⟩ := (List.eq_nil_or_concat (pieces p)).resolve_left (pieces_ne_nil p)
  exact ⟨ns, n, h.trans (List.concat_eq_append ..)⟩

theorem mem_of_mem_pieces {p n : Path} {c : Char} (hn : n ∈ pieces p) (hc : c ∈ n) : c ∈ p := by
  induction p generalizing n with
  | nil =>
    obtain rfl : n = [] := by simpa [pieces] using hn
    exact hc
  | cons x xs ih =>
    obtain ⟨q, qs, hq⟩ := List.exists_cons_of_ne_nil (pieces_ne_nil xs)
    rw [pieces, hq] at hn
    rw [hq] at ih
    split at hn
    · rcases List.mem_cons.1 hn with rfl | hn
      · simp at hc
      · exact List.mem_cons_of_mem x (ih hn hc)
    · rcases List.mem_cons.1 hn with rfl | hn
      · rcases List.mem_cons.1 hc with rfl | hc
        · exact List.mem_cons_self
        · exact List.mem_cons_of_mem x (ih List.mem_cons_self hc)
      · exact List.mem_cons_of_mem x (ih (List.mem_cons_of_mem q hn) hc)

theorem IsName.not_isIdle {n : Path} (h : IsName n) : ¬ isIdle n = true := by
  simp [isIdle, h.1, h.2.1]

theorem filter_of_isName {ns : List Path} (h : ∀ n ∈ ns, IsName n) : ns.filter (· ≠ []) = ns :=
  List.filter_eq_self.2 fun n hn => decide_eq_true (h n hn).1

theorem IsName.append {n : Path} (h : IsName n) (m : Path) : IsName (n ++ m) := by
  obtain ⟨hnil, hdot, hdots⟩ := h
  refine ⟨by simp [hnil], fun heq => ?_, fun heq => ?_⟩
  · rcases List.append_eq_singleton_iff.1 heq with ⟨rfl, -⟩ | ⟨rfl, -⟩
    · exact hnil rfl
    · exact hdot rfl
  · rcases List.append_eq_cons_iff.1 heq with ⟨rfl, -⟩ | ⟨k, rfl, hrest⟩
    · exact hnil rfl
    · rcases List.append_eq_singleton_iff.1 hrest.symm with ⟨rfl, -⟩ | ⟨rfl, -⟩
      · exact hdot rfl
      · exact hdots rfl

/-- What follows a text of names stays names behind another text of names. -/
theorem isName_pieces_append {p q rest : Path} (hp : ∀ n ∈ pieces p, IsName n)
    (hrest : ∀ n ∈ pieces (q ++ rest), IsName n) : ∀ n ∈ pieces (p ++ rest), IsName n := by
  obtain ⟨ns, n, m, ms, hpp, hm, happend⟩ := pieces_append p rest
  obtain ⟨ks, k, m', ms', -, hm', happend'⟩ := pieces_append q rest
  obtain ⟨rfl, rfl⟩ := List.cons.inj (hm.symm.trans hm')
  rw [happend'] at hrest
  rw [hpp] at hp
  rw [happend]
  intro x hx
  rcases List.mem_append.1 hx with hx | hx
  · exact hp x (List.mem_append_left _ hx)
  · rcases List.mem_cons.1 hx with rfl | hx
    · exact (hp n (by simp)).append m
    · exact hrest x (List.mem_append_right _ (List.mem_cons_of_mem _ hx))

theorem isNormal_replaceFirst (hp : IsNormal p) (hroot : root.isAbsolute = true)
    (hnext : IsNormal next) : IsNormal (replaceFirst root next p) := by
  by_cases hinfix : root <:+: p
  · obtain ⟨before, after, htext, hreplaced⟩ := exists_replaceFirst_eq hinfix next
    obtain ⟨r, rfl⟩ := exists_cons_of_isAbsolute hroot
    obtain ⟨habs, hnames⟩ := hp
    obtain ⟨hnext, hnextNames⟩ := hnext
    obtain ⟨x, rfl⟩ := exists_cons_of_isAbsolute hnext
    rw [hreplaced]
    subst htext
    -- Only at the front does the replaced root decide where the path begins. Further
    -- on its slash ends the piece before it, and so does that of the new root.
    cases before with
    | nil => exact ⟨rfl, isName_pieces_append hnextNames hnames⟩
    | cons c b =>
      have hsplit : ∀ y : Path, (c :: b ++ '/' :: y ++ after).tail = b ++ '/' :: (y ++ after) := by
        intro y
        simp
      rw [hsplit, pieces_append_slash] at hnames
      refine ⟨habs, ?_⟩
      rw [hsplit, pieces_append_slash]
      intro n hn
      rcases List.mem_append.1 hn with hn | hn
      · exact hnames n (List.mem_append_left _ hn)
      · have hrest : ∀ k ∈ pieces (r ++ after), IsName k :=
          fun k hk => hnames k (List.mem_append_right _ hk)
        exact isName_pieces_append hnextNames hrest n hn
  · rw [ replaceFirst_of_not_infix next hinfix]
    exact hp

end Path

namespace Disk

variable {d : Disk} {p : Path} {l m : Location}

/-- Following names adds them to where one starts. -/
theorem eq_append_of_walk {ns : List Path} (h : d.walk l ns = .ok m)
    (hns : ∀ n ∈ ns, Path.IsName n) : m = l ++ ns := by
  induction ns generalizing l with
  | nil =>
    obtain rfl := Except.ok.inj h
    simp
  | cons n ns ih =>
    obtain ⟨-, hdot, hdots⟩ := hns n List.mem_cons_self
    rw [walk, node?_of_walk_cons h] at h
    dsimp only at h
    rw [if_neg hdot, if_neg hdots] at h
    split_ifs at h
    rw [ih h fun k hk => hns k (List.mem_cons_of_mem n hk), List.append_assoc]
    rfl

theorem route_of_isNormal {r : Route} (hp : p.IsNormal) (h : d.route p = .ok r) :
    r.start = [] ∧ r.names = Path.pieces p.tail := by
  obtain ⟨q, rfl⟩ := Path.exists_cons_of_isAbsolute hp.1
  unfold route at h
  split_ifs at h with _ _ _ habs
  · obtain rfl := Except.ok.inj h
    refine ⟨rfl, ?_⟩
    rw [Path.pieces, if_pos rfl, List.filter_cons_of_neg (by simp)]
    exact Path.filter_of_isName hp.2
  · exact absurd hp.1 habs

/-- The text of a location that a normal path spells is that path. -/
theorem locationText_pieces (hp : p.IsNormal) : locationText (Path.pieces p.tail) = p := by
  obtain ⟨q, rfl⟩ := Path.exists_cons_of_isAbsolute hp.1
  rw [locationText, List.tail_cons, Path.glue_pieces]

theorem locationText_of_resolve (hp : p.IsNormal) (h : d.resolve p = .ok l) :
    locationText l = p := by
  obtain ⟨r, hroute, hwalk⟩ := exists_walk_of_resolve h
  obtain ⟨hstart, hnames⟩ := route_of_isNormal hp hroute
  rw [eq_append_of_walk hwalk fun n hn => hp.2 n (hnames ▸ hn), hstart, hnames, List.nil_append,
    locationText_pieces hp]

end Disk

end TieredFootage
