import TieredFootage.Proofs.Path.Normal
import TieredFootage.Proofs.Watch.Directory

/-!
# Names of files in a directory

A name that a file can have is put behind the path of its directory with one slash
between. Followed as a path, the text goes where the path of the directory goes and
one name further, so it leads to the place of that name in the directory.
-/

namespace TieredFootage

/-- A name that a file can have in some directory. -/
structure IsFileName (n : Path) : Prop where
  slash : '/' ∉ n
  zero : Char.ofNat 0 ∉ n
  nonempty : n ≠ []
  isPlain : Disk.IsPlain n

/-- A name of files that the keeper of a directory is told of: it is not ignored, and
the path of such a file is short enough to be followed. -/
structure Watch.Admits (w : Watch) (ignored : IgnoredNames) (n : Path) : Prop where
  isFileName : IsFileName n
  short : Disk.byteCount (w.base.join n) < Disk.maxPathBytes
  not_ignored : ignored.covers (w.base.join n) = false

namespace Path

variable {base n : Path}

/-- A name is put behind a slash, which may be the one at the end of the directory. -/
theorem exists_join_eq (hbase : base ≠ []) (hn : '/' ∉ n) :
    ∃ b, (base = b ∨ base = b ++ ['/']) ∧ base.join n = b ++ '/' :: n := by
  have hrelative : n.isAbsolute = false := by
    cases n with
    | nil => rfl
    | cons c cs =>
      have hc : c ≠ '/' := fun hc => hn (hc ▸ List.mem_cons_self)
      simpa [isAbsolute] using hc
  obtain ⟨b, c, rfl⟩ := (List.eq_nil_or_concat base).resolve_left hbase
  rw [List.concat_eq_append]
  by_cases hc : c = '/'
  · subst hc
    exact ⟨b, Or.inr rfl, by simp [join, hrelative]⟩
  · exact ⟨_, Or.inl rfl, join_of_getLast?_eq hrelative (by simp) hc⟩

theorem isAbsolute_join (hbase : base ≠ []) (hn : '/' ∉ n) :
    (base.join n).isAbsolute = base.isAbsolute := by
  obtain ⟨b, rfl | rfl, hjoin⟩ := exists_join_eq hbase hn
  · obtain ⟨c, cs, rfl⟩ := List.exists_cons_of_ne_nil hbase
    rw [hjoin]
    rfl
  · rw [hjoin]
    cases b <;> rfl

theorem pieces_join (hbase : base ≠ []) (hn : '/' ∉ n) (hnonempty : n ≠ []) :
    (pieces (base.join n)).filter (· ≠ []) = (pieces base).filter (· ≠ []) ++ [n] := by
  obtain ⟨b, rfl | rfl, hjoin⟩ := exists_join_eq hbase hn
  · simp [hjoin, pieces_append_slash, pieces_of_slash_notMem hn, hnonempty]
  · simp [hjoin, pieces_append_slash, pieces_of_slash_notMem hn, hnonempty, pieces]

theorem getLast?_join (hbase : base ≠ []) (hn : '/' ∉ n) (hnonempty : n ≠ []) :
    (base.join n).getLast? = n.getLast? := by
  obtain ⟨b, -, hjoin⟩ := exists_join_eq hbase hn
  obtain ⟨c, cs, rfl⟩ := List.exists_cons_of_ne_nil hnonempty
  rw [hjoin, List.getLast?_append, List.getLast?_cons_cons,
    List.getLast?_eq_some_getLast (List.cons_ne_nil c cs)]
  rfl

theorem mem_join {c : Char} (hbase : base ≠ []) (hn : '/' ∉ n) (h : c ∈ base.join n) :
    c ∈ base ∨ c = '/' ∨ c ∈ n := by
  obtain ⟨b, hb, hjoin⟩ := exists_join_eq hbase hn
  rw [hjoin, List.mem_append, List.mem_cons] at h
  refine h.imp_left fun hmem => ?_
  rcases hb with rfl | rfl
  · exact hmem
  · exact List.mem_append_left _ hmem

end Path

/-- A name behind the path of a directory is one more name to follow. -/
theorem Disk.route_join {d : Disk} {base n : Path} {r : Disk.Route} (h : d.route base = .ok r)
    (hn : IsFileName n) (hshort : Disk.byteCount (base.join n) < Disk.maxPathBytes) :
    d.route (base.join n) = .ok ⟨r.start, r.names ++ [n], false⟩ := by
  unfold route at h
  split at h
  · cases h
  split at h
  · cases h
  split at h
  · cases h
  rename_i hzero hbase _
  obtain rfl := Except.ok.inj h
  have hzero' : Char.ofNat 0 ∉ base.join n := by
    intro hmem
    rcases Path.mem_join hbase hn.slash hmem with hmem | heq | hmem
    · exact hzero hmem
    · exact absurd heq (by decide)
    · exact hn.zero hmem
  have hlast : (base.join n).getLast? ≠ some '/' := by
    rw [Path.getLast?_join hbase hn.slash hn.nonempty]
    exact fun heq => hn.slash (List.mem_of_getLast? heq)
  have hjoin : base.join n ≠ [] := by
    obtain ⟨b, -, heq⟩ := Path.exists_join_eq hbase hn.slash
    simp [heq]
  rw [route, if_neg hzero', if_neg hjoin, if_neg (Nat.not_le.2 hshort),
    Path.isAbsolute_join hbase hn.slash, Path.pieces_join hbase hn.slash hn.nonempty,
    beq_eq_false_iff_ne.2 hlast]

/-- The path of a name leads into the directory. -/
theorem Watch.Admits.names {w : Watch} {d : Disk} {ignored : IgnoredNames} {n : Path}
    (hn : w.Admits ignored n) (hbase : d.resolve w.base = .ok w.location)
    (hdirectory : d.node? w.location = some .directory) : w.Names d n := by
  obtain ⟨r, hroute, hwalk⟩ := Disk.exists_walk_of_resolve hbase
  refine Disk.slot_eq_ok_iff.2 ⟨_, w.location, n, Disk.route_join hroute hn.isFileName hn.short,
    rfl, List.getLast?_concat, ?_, hdirectory, hn.isFileName.isPlain, rfl⟩
  rwa [List.dropLast_concat]

end TieredFootage
