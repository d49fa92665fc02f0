import Mathlib.Data.List.Basic
import TieredFootage.Proofs.Serving.Grammar

/-!
# Which route answers

A table keeps its routes in the order in which they were registered first, each with its
pattern read. So it answers like the list of all registrations, repetitions included: with
the first route that has a file for the request (`lookup?_registerEach?`).

A route for an extension has a file for a request exactly if the request is made up of the
root of the served files, the directory, a slash, a name without a line feed, a dot and the
extension. Then the file is the rest of the request behind the root, whatever characters
the directory and the extension have.
-/

namespace TieredFootage

/-- What a route of its own answers to a request. -/
def FileRoute.answer? (r : FileRoute) (request : List Char) : Option Resolved :=
  (Pattern.parse? (filesRoot ++ r.pattern)).bind fun p =>
    (RouteTable.fileOf? p r request).map (Resolved.mk r)

namespace RouteTable

variable {t t' : RouteTable} {r : FileRoute} {rs : List FileRoute} {request : List Char}

/-- Each route of the table comes with its pattern read. -/
def IsRead (t : RouteTable) : Prop :=
  ∀ x ∈ t.routes, Pattern.parse? (filesRoot ++ x.2.pattern) = some x.1

/-- Registers routes one after the other. -/
def registerEach? (t : RouteTable) (rs : List FileRoute) : Option RouteTable :=
  rs.foldlM register? t

theorem lookup?_eq_findSome? (h : t.IsRead) :
    t.lookup? request = (t.routes.map (·.2)).findSome? (·.answer? request) := by
  rw [lookup?, List.findSome?_map, ← List.head?_filterMap, ← List.head?_filterMap]
  refine congrArg List.head? (List.filterMap_congr fun x hx => ?_)
  rw [Function.comp_apply, FileRoute.answer?, h x hx, Option.bind_some]

/-- A route is registered if its pattern can be read; then it is in the table, behind those
that were there. -/
theorem register?_eq_some_iff : t.register? r = some t' ↔
    ∃ p, Pattern.parse? (filesRoot ++ r.pattern) = some p ∧
      t' = if r ∈ t.routes.map (·.2) then t else { t with routes := t.routes ++ [(p, r)] } := by
  rw [register?]
  cases Pattern.parse? (filesRoot ++ r.pattern) with
  | none => simp
  | some p =>
    have hany : t.routes.any (·.2 == r) = true ↔ r ∈ t.routes.map (·.2) := by
      simp [List.any_eq_true]
    simp only [hany, Option.some.injEq, exists_eq_left']
    split <;> simp [eq_comm]

theorem IsRead.register? (h : t.IsRead) (hr : t.register? r = some t') : t'.IsRead := by
  obtain ⟨p, hp, rfl⟩ := register?_eq_some_iff.1 hr
  split
  · exact h
  · intro x hx
    rcases List.mem_append.1 hx with hx | hx
    · exact h x hx
    · obtain rfl := List.mem_singleton.1 hx
      exact hp

theorem mem_register?_iff (hr : t.register? r = some t') {q : FileRoute} :
    q ∈ t'.routes.map (·.2) ↔ q ∈ t.routes.map (·.2) ∨ q = r := by
  obtain ⟨p, hp, rfl⟩ := register?_eq_some_iff.1 hr
  split
  · rename_i hmem
    refine ⟨Or.inl, fun hq => hq.elim id ?_⟩
    rintro rfl
    exact hmem
  · rw [List.map_append, List.mem_append, List.map_singleton, List.mem_singleton]

/-- A route that is registered answers where none before it does. -/
theorem lookup?_register? (h : t.IsRead) (hr : t.register? r = some t') (request : List Char) :
    t'.lookup? request = (t.lookup? request).or (r.answer? request) := by
  rw [lookup?_eq_findSome? (h.register? hr), lookup?_eq_findSome? h]
  obtain ⟨p, hp, rfl⟩ := register?_eq_some_iff.1 hr
  split
  · rename_i hmem
    cases hanswer : r.answer? request with
    | none => rw [Option.or_none]
    | some x =>
      have hfound : ((t.routes.map (·.2)).findSome? (·.answer? request)).isSome = true :=
        List.findSome?_isSome_iff.2 ⟨r, hmem, by rw [hanswer]; rfl⟩
      rw [Option.or_of_isSome hfound]
  · rw [List.map_append, List.findSome?_append, List.map_singleton, List.findSome?_singleton]

/-- A table has the routes that were registered, and answers like the list of them. -/
theorem registerEach?_spec (h : t.IsRead) (hrs : t.registerEach? rs = some t') :
    (∀ q, q ∈ t'.routes.map (·.2) ↔ q ∈ t.routes.map (·.2) ∨ q ∈ rs) ∧
      ∀ request, t'.lookup? request =
        (t.lookup? request).or (rs.findSome? (·.answer? request)) := by
  induction rs generalizing t with
  | nil =>
    obtain rfl := Option.some.inj hrs
    exact ⟨fun q => by simp, fun request => by simp⟩
  | cons r rs ih =>
    obtain ⟨t₁, hr, hrest⟩ := Option.bind_eq_some_iff.1 hrs
    obtain ⟨hmem, hlookup⟩ := ih (h.register? hr) hrest
    refine ⟨fun q => ?_, fun request => ?_⟩
    · rw [hmem, mem_register?_iff hr, List.mem_cons, or_assoc]
    · rw [hlookup, lookup?_register? h hr, Option.or_assoc, ← List.singleton_append,
        List.findSome?_append, List.findSome?_singleton]

theorem isRead_empty : IsRead {} := fun _ hx => absurd hx List.not_mem_nil

end RouteTable

/-- What a route for an extension is made of. -/
structure ExtensionRoute where
  directory : Path
  extension : List Char
  camera : String
  category : String
  subcategory : String
  failed : Bool
  deriving DecidableEq, Repr

namespace ExtensionRoute

variable {o : ExtensionRoute} {request : List Char} {answer : Resolved}

def route (o : ExtensionRoute) : FileRoute where
  path := o.directory
  pattern := extensionPattern o.directory o.extension
  camera := o.camera
  category := o.category
  subcategory := o.subcategory
  failed := o.failed

/-- A request for a file below the directory that has the extension. -/
def Fits (o : ExtensionRoute) (request : List Char) : Prop :=
  ∃ x, '\n' ∉ x ∧ request = filesRoot ++ o.directory ++ '/' :: (x ++ '.' :: o.extension)

/-- A route for an extension answers a request that fits, with what follows the root of the
served files in it. -/
theorem answer?_route_eq_some_iff : o.route.answer? request = some answer ↔
    o.Fits request ∧ answer.route = o.route ∧ request = filesRoot ++ answer.filePath := by
  rw [FileRoute.answer?, route, Pattern.parse?_extensionPattern, Option.bind_some,
    Option.map_eq_some_iff]
  constructor
  · rintro ⟨file, hfile, rfl⟩
    obtain ⟨y, hy, hrequest, rfl⟩ := RouteTable.fileOf?_ofExtension_iff.1 hfile
    exact ⟨⟨y, hy, hrequest⟩, rfl, by rw [hrequest, List.append_assoc]⟩
  · rintro ⟨⟨y, hy, hrequest⟩, hroute, hfile⟩
    obtain ⟨r, file⟩ := answer
    obtain rfl : r = o.route := hroute
    refine ⟨file, RouteTable.fileOf?_ofExtension_iff.2 ⟨y, hy, hrequest, ?_⟩, rfl⟩
    rw [hfile, List.append_assoc] at hrequest
    exact List.append_cancel_left hrequest

theorem answer?_route_eq_none_iff : o.route.answer? request = none ↔ ¬ o.Fits request := by
  constructor
  · rintro hnone ⟨y, hy, hrequest⟩
    have hsome : o.route.answer? request =
        some ⟨o.route, o.directory ++ '/' :: (y ++ '.' :: o.extension)⟩ :=
      answer?_route_eq_some_iff.2 ⟨⟨y, hy, hrequest⟩, rfl, by rw [hrequest, List.append_assoc]⟩
    cases hnone.symm.trans hsome
  · intro hnot
    cases hanswer : o.route.answer? request with
    | none => rfl
    | some answer => exact absurd (answer?_route_eq_some_iff.1 hanswer).1 hnot

end ExtensionRoute

/-- A guard counts for its path and for no other. -/
theorem Served.guardsOn_guard (s : Served) (now : Int) (p q : Path) :
    (s.guard now q).guardsOn p = s.guardsOn p + if p = q then 1 else 0 := by
  have hentry := lookup?_touch s now q p (s.guardsOn q + 1)
  change (((s.touch now q (s.guardsOn q + 1)).lookup? p).map (·.guards)).getD 0 = _
  rw [hentry]
  split
  · rename_i hp
    rw [hp]
    rfl
  · rfl

/-- The table in which routes for extensions were registered one after the other. -/
def RouteTable.ofExtensions? (os : List ExtensionRoute) : Option RouteTable :=
  RouteTable.registerEach? {} (os.map ExtensionRoute.route)

theorem RouteTable.exists_ofExtensions? (os : List ExtensionRoute) :
    ∃ t, ofExtensions? os = some t := by
  suffices hall : ∀ t : RouteTable, ∃ t',
      t.registerEach? (os.map ExtensionRoute.route) = some t' from hall {}
  induction os with
  | nil => exact fun t => ⟨t, rfl⟩
  | cons o os ih =>
    intro t
    obtain ⟨t', ht'⟩ := ih (if o.route ∈ t.routes.map (·.2) then t
      else { t with
        routes := t.routes ++ [(Pattern.ofExtension o.directory o.extension, o.route)] })
    refine ⟨t', Option.bind_eq_some_iff.2 ⟨_, ?_, ht'⟩⟩
    exact register?_eq_some_iff.2 ⟨_, Pattern.parse?_extensionPattern o.directory o.extension, rfl⟩

/-- Routes for extensions can always be registered. Of those that were, the first that fits a
request answers it, with the rest of the request as the file and a guard on that file and no
other. A request that no route fits gets no answer and no guard. A route that is in the table
is not added again. -/
theorem resolve_first_that_fits (os : List ExtensionRoute) :
    ∃ t, RouteTable.ofExtensions? os = some t ∧
      (∀ before o after request, os = before ++ o :: after → o.Fits request →
        (∀ o' ∈ before, ¬ o'.Fits request) →
        ∃ file, request = filesRoot ++ file ∧ ∀ s now,
          t.resolve s now request = (some ⟨o.route, file⟩, s.guard now file) ∧
          ∀ p, (s.guard now file).guardsOn p = s.guardsOn p + if p = file then 1 else 0) ∧
      (∀ request, (∀ o ∈ os, ¬ o.Fits request) → ∀ s now, t.resolve s now request = (none, s)) ∧
      ∀ o ∈ os, t.register? o.route = some t := by
  obtain ⟨t, ht⟩ := RouteTable.exists_ofExtensions? os
  obtain ⟨hmem, hlookup⟩ := RouteTable.registerEach?_spec RouteTable.isRead_empty ht
  refine ⟨t, ht, ?_, ?_, ?_⟩
  · intro before o after request hos hfits hbefore
    obtain ⟨answer, hanswer⟩ := Option.ne_none_iff_exists'.1
      fun hnone => ExtensionRoute.answer?_route_eq_none_iff.1 hnone hfits
    obtain ⟨-, hroute, hfile⟩ := ExtensionRoute.answer?_route_eq_some_iff.1 hanswer
    have hfound : t.lookup? request = some answer := by
      rw [hlookup, List.findSome?_map]
      refine List.findSome?_eq_some_iff.2 ⟨before, o, after, hos, hanswer, fun o' ho' => ?_⟩
      exact ExtensionRoute.answer?_route_eq_none_iff.2 (hbefore o' ho')
    obtain ⟨r, file⟩ := answer
    obtain rfl : r = o.route := hroute
    refine ⟨file, hfile, fun s now => ⟨?_, fun p => s.guardsOn_guard now p file⟩⟩
    rw [RouteTable.resolve, hfound]
  · intro request hnone s now
    refine RouteTable.resolve_eq_none ?_
    rw [hlookup, List.findSome?_map]
    exact List.findSome?_eq_none_iff.2
      fun o ho => ExtensionRoute.answer?_route_eq_none_iff.2 (hnone o ho)
  · intro o ho
    refine RouteTable.register?_eq_some_iff.2 ⟨_, Pattern.parse?_extensionPattern _ _, ?_⟩
    rw [if_pos ((hmem _).2 (.inr (List.mem_map_of_mem ho)))]

/-- Of two routes into one directory, the one registered first answers, and metacharacters
stand for themselves. -/
example :
    let first : ExtensionRoute := ⟨"/a.b*".toList, "m4s".toList, "cam1", "", "", false⟩
    let second : ExtensionRoute := { first with camera := "cam2" }
    ((RouteTable.ofExtensions? [first, second, first]).map fun t =>
        (t.size, (t.resolve {} 0 "/files/a.b*/1.m4s".toList).1.map (·.route.camera),
          (t.resolve {} 0 "/files/aXb/1.m4s".toList).1)) =
      some (2, some "cam1", none) := by
  decide

end TieredFootage
