import TieredFootage.Proofs.Path.Lexical
import TieredFootage.Proofs.Serving.Grammar

/-!
# Which files a request can reach

A route for an extension answers with the text of the request behind the root of the
served files. That text begins with the directory of the route and a slash, and what
follows may be any name with the extension, `..` among its pieces: nothing resolves
them or looks for them. So the file lies below the directory exactly if what follows
returns into it.
-/

namespace TieredFootage

namespace RouteTable

variable {t : RouteTable} {s : Served} {now : Int} {request : List Char} {answer : Resolved}

/-- A table to which only routes for an extension were added. -/
inductive OfExtensions : RouteTable → Prop
  | empty : OfExtensions {}
  | register {t t' : RouteTable} {r : FileRoute} (ext : List Char) (ht : OfExtensions t)
      (hr : r.pattern = extensionPattern r.path ext) (h : t.register? r = some t') : OfExtensions t'

/-- Every route in such a table comes with the pattern of its directory and an
extension. -/
theorem OfExtensions.exists_eq_ofExtension (ht : t.OfExtensions) {x : Pattern × FileRoute}
    (hx : x ∈ t.routes) : ∃ ext, x.1 = Pattern.ofExtension x.2.path ext := by
  induction ht with
  | empty => cases hx
  | @register t t' r ext ht hr h ih =>
    rw [register?, hr, Pattern.parse?_extensionPattern] at h
    dsimp only at h
    split_ifs at h
    · obtain rfl := Option.some.inj h
      exact ih hx
    · obtain rfl := Option.some.inj h
      rcases List.mem_append.1 hx with hx | hx
      · exact ih hx
      · obtain rfl := List.mem_singleton.1 hx
        exact ⟨ext, rfl⟩

/-- The answer is the request behind the root of the served files. -/
theorem OfExtensions.resolve_eq_some (ht : t.OfExtensions)
    (h : (t.resolve s now request).1 = some answer) :
    ∃ rest, request = filesRoot ++ answer.route.path ++ '/' :: rest ∧
      answer.filePath = answer.route.path ++ '/' :: rest := by
  have hlookup : t.lookup? request = some answer := by
    unfold resolve at h
    split at h
    · cases h
    · rename_i hfound
      exact hfound.trans h
  obtain ⟨x, hx, hanswer⟩ := List.exists_of_findSome?_eq_some hlookup
  obtain ⟨file, hfile, rfl⟩ := Option.map_eq_some_iff.1 hanswer
  obtain ⟨ext, hpattern⟩ := ht.exists_eq_ofExtension hx
  rw [hpattern] at hfile
  obtain ⟨y, -, hrequest, rfl⟩ := fileOf?_ofExtension_iff.1 hfile
  exact ⟨y ++ '.' :: ext, hrequest, rfl⟩

/-- The file that a request is answered with lies below the directory of the route
exactly if what follows the directory in the request returns into it; if that has no
piece `..` and names something, it always does. -/
theorem resolved_below_iff (ht : t.OfExtensions)
    (h : (t.resolve s now request).1 = some answer) :
    ∃ rest, request = filesRoot ++ answer.route.path ++ '/' :: rest ∧
      answer.filePath = answer.route.path ++ '/' :: rest ∧
      (Path.IsBelow answer.filePath answer.route.path ↔
        Path.ReturnsInto rest answer.route.path) ∧
      (['.', '.'] ∉ Path.pieces rest → (∃ n ∈ Path.pieces rest, Path.isIdle n = false) →
        Path.IsBelow answer.filePath answer.route.path) := by
  obtain ⟨rest, hrequest, hfile⟩ := ht.resolve_eq_some h
  rw [hfile]
  exact ⟨rest, hrequest, rfl, Path.isBelow_iff_returnsInto,
    fun hup hname => Path.isBelow_iff_returnsInto.2 (Path.returnsInto_of_not_mem hup hname _)⟩

end RouteTable

/-- The segments of a camera, served as `m4s`. -/
def cameraRoute : FileRoute where
  path := "/t/cam".toList
  pattern := extensionPattern "/t/cam".toList "m4s".toList
  camera := "cam"
  category := "recorder"
  subcategory := "segments"
  failed := false

def cameraTable : RouteTable := ⟨[(Pattern.ofExtension "/t/cam".toList "m4s".toList, cameraRoute)]⟩

theorem ofExtensions_cameraTable : cameraTable.OfExtensions := by
  have hparse : Pattern.parse? (filesRoot ++ cameraRoute.pattern) =
      some (Pattern.ofExtension "/t/cam".toList "m4s".toList) :=
    Pattern.parse?_extensionPattern _ _
  refine .register "m4s".toList .empty (r := cameraRoute) rfl ?_
  rw [RouteTable.register?, hparse]
  rfl

/-- A request that goes down by a name and up again stays below the directory. -/
theorem resolved_below_iff_cameraTable :
    cameraTable.OfExtensions ∧
      (cameraTable.resolve {} 0 "/files/t/cam/a/../1.m4s".toList).1 =
        some ⟨cameraRoute, "/t/cam/a/../1.m4s".toList⟩ ∧
      Path.IsBelow "/t/cam/a/../1.m4s".toList "/t/cam".toList := by
  have hresolve : (cameraTable.resolve {} 0 "/files/t/cam/a/../1.m4s".toList).1 =
      some ⟨cameraRoute, "/t/cam/a/../1.m4s".toList⟩ := by decide
  refine ⟨ofExtensions_cameraTable, hresolve, ?_⟩
  obtain ⟨rest, -, hfile, hbelow, -⟩ :=
    RouteTable.resolved_below_iff ofExtensions_cameraTable hresolve
  have hsplit : "/t/cam/a/../1.m4s".toList = "/t/cam".toList ++ '/' :: "a/../1.m4s".toList := by
    decide
  obtain ⟨-, rfl⟩ := List.cons.inj (List.append_cancel_left (hsplit.symm.trans hfile))
  exact hbelow.2 ⟨by decide, "1.m4s".toList, [], by decide⟩

/-- A request that climbs out of the directory of the route is answered with a file
beside it. -/
theorem not_forall_resolved_below :
    ¬ ∀ (t : RouteTable) (s : Served) (now : Int) (request : List Char) (answer : Resolved),
      t.OfExtensions → (t.resolve s now request).1 = some answer →
        Path.IsBelow answer.filePath answer.route.path := by
  intro h
  have hbelow := h cameraTable {} 0 "/files/t/cam/../1.m4s".toList
    ⟨cameraRoute, "/t/cam/../1.m4s".toList⟩ ofExtensions_cameraTable (by decide)
  obtain ⟨n, ns, hplace⟩ := hbelow
  have hnames : (Path.lexical "/t/cam/../1.m4s".toList).names =
      (Path.lexicalDirectory "/t/cam".toList).names ++ n :: ns := congrArg LexicalPlace.names hplace
  have hfile : (Path.lexical "/t/cam/../1.m4s".toList).names = ["t".toList, "1.m4s".toList] := by
    decide
  have hdirectory : (Path.lexicalDirectory "/t/cam".toList).names = ["t".toList, "cam".toList] := by
    decide
  rw [hfile, hdirectory] at hnames
  simp at hnames

end TieredFootage
