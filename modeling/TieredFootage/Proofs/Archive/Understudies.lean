import TieredFootage.Proofs.Archive.Constancy

/-!
# Other keepers in the same places

Take the keepers at some addresses away and put others in their places: what the
rest of the archive does stays the same, as long as nobody there is asked for
anything. Handling an event or evaluating a tier asks the keeper of that tier
and, for segments, those that keep the thumbnails and clips beside it. Of a
keeper that sleeps, without an inbox, a watch or a timer, the clock asks nothing
either. So as time advances, sleeping keepers can be replaced by any others that
sleep, before or after, with the same result.
-/

namespace TieredFootage

/-- A keeper that nothing reaches: it has no inbox, no watch and no timer. -/
def Keeper.Sleeps (k : Keeper) : Prop :=
  k.inbox = none ∧ k.watch = none ∧ k.debouncer.timers = []

/-- The segments of a tier take the files of the keeper at an address along. -/
def Tier.Leads (t : Tier) (x : Address) : Prop :=
  (∃ continuous events, t.role = .segments continuous events) ∧
    (x = ⟨t.camera, thumbnailsName, t.index⟩ ∨ x = ⟨t.camera, clipsName, t.index⟩)

/-- Puts others in the places of keepers at the addresses in `S`. -/
structure Recasts (S : Address → Prop) (r : Keeper → Keeper) : Prop where
  address_eq : ∀ k, (r k).address = k.address
  eq_self : ∀ k, ¬ S k.address → r k = k

theorem Keepers.get?_cons (k : Keeper) (ks : Keepers) (x : Address) :
    Keepers.get? (k :: ks) x = if k.address = x then some k else ks.get? x := by
  rw [get?, List.find?_cons]
  by_cases h : k.address = x
  · rw [if_pos h, beq_iff_eq.2 h]
  · rw [if_neg h, beq_eq_false_iff_ne.2 h]
    rfl

theorem Recasts.get? {S : Address → Prop} {r : Keeper → Keeper} (hr : Recasts S r) {x : Address}
    (hx : ¬ S x) (ks : Keepers) : Keepers.get? (ks.map r) x = ks.get? x := by
  induction ks with
  | nil => rfl
  | cons k ks ih =>
    rw [List.map_cons, Keepers.get?_cons, Keepers.get?_cons, hr.address_eq, ih]
    split
    · rename_i hk
      rw [hr.eq_self k (hk ▸ hx)]
    · rfl

theorem Keeper.address_of_standing {k k' : Keeper} (h : k'.standing = k.standing) :
    k'.address = k.address := by
  have haddress := congrArg Keeper.address h
  exact haddress

namespace Archive

/-- The archive with other keepers. -/
def recast (r : Keeper → Keeper) (a : Archive) : Archive := { a with keepers := a.keepers.map r }

variable {S : Address → Prop} {r : Keeper → Keeper} {a : Archive} {t : Tier} {x : Address}

/-- What a tier asks for is asked of none of the keepers at the addresses in `S`. -/
def Avoids (S : Address → Prop) (a : Archive) (t : Tier) : Prop :=
  ¬ S t.address ∧ (a.linked = true → ∀ x, t.Leads x → ¬ S x)

theorem Avoids.congr {b : Archive} (h : a.Avoids S t) (hb : b.linked = a.linked) : b.Avoids S t :=
  ⟨h.1, hb ▸ h.2⟩

@[simp] theorem toHoldings_recast (r : Keeper → Keeper) (a : Archive) :
    (a.recast r).toHoldings = a.toHoldings := rfl

@[simp] theorem linked_recast (r : Keeper → Keeper) (a : Archive) :
    (a.recast r).linked = a.linked := rfl

theorem get?_recast (hr : Recasts S r) (hx : ¬ S x) (a : Archive) :
    (a.recast r).keepers.get? x = a.keepers.get? x := hr.get? hx a.keepers

theorem update_recast (hr : Recasts S r) (hx : ¬ S x) {f : Keeper → Keeper}
    (hf : ∀ k, (f k).address = k.address) (a : Archive) :
    (a.recast r).update x f = (a.update x f).recast r := by
  have hkeepers : Keepers.update (a.keepers.map r) x f = (a.keepers.update x f).map r := by
    simp only [Keepers.update, List.map_map]
    refine List.map_congr_left fun k _ => ?_
    simp only [Function.comp_apply, hr.address_eq]
    split
    · rename_i hk
      have hself : r k = k := hr.eq_self k (hk ▸ hx)
      have hself' : r (f k) = f k := hr.eq_self (f k) (by rw [hf, hk]; exact hx)
      rw [hself, hself']
    · rfl
  simp only [update, recast, hkeepers]

theorem phaseOf_recast (hr : Recasts S r) (hx : ¬ S x) (a : Archive) :
    (a.recast r).phaseOf x = a.phaseOf x := by
  rw [phaseOf, get?_recast hr hx]
  rfl

section Evaluation

theorem evictFrom_recast (hr : Recasts S r) (ht : ¬ S t.address) (a : Archive) (p fileRoot : Path) :
    (a.recast r).evictFrom t p fileRoot = (a.evictFrom t p fileRoot).map id (recast r) := by
  simp only [evictFrom, toHoldings_recast, Prod.map, id]
  exact congrArg _ (update_recast hr ht
    (f := (·.record (a.toHoldings.evict p fileRoot t.root t.next).1)) (fun _ => rfl)
    { a with toHoldings := (a.toHoldings.evict p fileRoot t.root t.next).2 })

theorem evictAll_recast (hr : Recasts S r) (ht : ¬ S t.address) (files : List (Path × Path))
    (a : Archive) : (a.recast r).evictAll t files = (a.evictAll t files).map id (recast r) := by
  induction files generalizing a with
  | nil => rfl
  | cons f files ih =>
    obtain ⟨p, fileRoot⟩ := f
    rw [evictAll_cons, evictAll_cons, evictFrom_recast hr ht]
    simp only [Prod.map_snd, Prod.map_fst, ih]
    rfl

theorem follow_recast (hr : Recasts S r) (ht : ¬ S t.address)
    {pointer : Recording → Option Path} {i : Int} {repoint : Path → Archive → Archive}
    (hrepoint : ∀ q b, repoint q (recast r b) = (repoint q b).recast r) (a : Archive) :
    (a.recast r).follow t pointer i repoint = (a.follow t pointer i repoint).recast r := by
  simp only [follow, toHoldings_recast, evictFrom_recast hr ht]
  split
  · split
    · rfl
    · rename_i p _
      rcases heq : a.evictFrom t p t.root with ⟨e, b⟩
      cases e with
      | moved q => exact hrepoint q b
      | _ => rfl
  · rfl

theorem foldl_recast {α : Type} {f : Archive → α → Archive}
    (hf : ∀ b y, f (recast r b) y = (f b y).recast r) (ys : List α) (a : Archive) :
    ys.foldl f (a.recast r) = (ys.foldl f a).recast r := by
  induction ys generalizing a with
  | nil => rfl
  | cons y ys ih => rw [List.foldl_cons, List.foldl_cons, hf, ih]

theorem repointClip_recast (r : Keeper → Keeper) (a : Archive) (camera : String) (p : Path) :
    (a.recast r).repointClip camera p = (a.repointClip camera p).recast r := by
  unfold repointClip
  split <;> rfl

theorem moveThumbnail_recast (hr : Recasts S r) (ht : ¬ S t.address) (a : Archive) (i : Int) :
    (a.recast r).moveThumbnail t i = (a.moveThumbnail t i).recast r := by
  simp only [moveThumbnail_eq_follow]
  refine follow_recast hr ht ?_ a
  exact fun _ _ => rfl

theorem moveClip_recast (hr : Recasts S r) (ht : ¬ S t.address) (a : Archive) (i : Int) :
    (a.recast r).moveClip t i = (a.moveClip t i).recast r := by
  simp only [moveClip_eq_follow]
  exact follow_recast hr ht (fun q b => repointClip_recast r b t.camera q) a

theorem sibling?_recast (hr : Recasts S r) {s : String}
    (h : a.linked = true → ¬ S ⟨t.camera, s, t.index⟩) :
    (a.recast r).sibling? t s = a.sibling? t s := by
  unfold sibling?
  rw [linked_recast]
  split
  · rename_i hlinked
    exact get?_recast hr (h hlinked) a
  · rfl

/-- The keeper found beside a tier is none of those replaced. -/
theorem address_of_sibling? {s : String} {k : Keeper}
    (h : a.linked = true → ¬ S ⟨t.camera, s, t.index⟩) (hk : a.sibling? t s = some k) :
    ¬ S k.tier.address := by
  have hlinked : a.linked = true := by
    by_contra hnot
    rw [sibling?, if_neg hnot] at hk
    cases hk
  rw [(sibling?_eq_some hk).2]
  exact h hlinked

/-- What is asked of the keepers beside a tier is asked of none of those replaced. -/
theorem moveSiblings_recast (hr : Recasts S r)
    (hthumbnails : a.linked = true → ¬ S ⟨t.camera, thumbnailsName, t.index⟩)
    (hclips : a.linked = true → ¬ S ⟨t.camera, clipsName, t.index⟩) (ids : List Int) :
    (a.recast r).moveSiblings t ids = (a.moveSiblings t ids).recast r := by
  have hfirst : (a.recast r).moveThumbnails t ids = (a.moveThumbnails t ids).recast r := by
    simp only [moveThumbnails, sibling?_recast hr hthumbnails]
    split
    · rfl
    · rename_i k hk
      exact foldl_recast (fun b i =>
        moveThumbnail_recast hr (address_of_sibling? hthumbnails hk) b i) ids a
  have hlinked : (a.moveThumbnails t ids).linked = a.linked :=
    (keeping_moveThumbnails (g := Keeper.tier) (fun _ _ => rfl) a t ids).linked_eq
  rw [← hlinked] at hclips
  rw [moveSiblings, hfirst, moveSiblings]
  simp only [moveClips, sibling?_recast hr hclips]
  split
  · rfl
  · rename_i k hk
    exact foldl_recast (fun b i => moveClip_recast hr (address_of_sibling? hclips hk) b i) ids _

theorem evictSelection_recast (hr : Recasts S r) (h : a.Avoids S t)
    (hsegments : ∃ continuous events, t.role = .segments continuous events) (s : SegmentSelection) :
    (a.recast r).evictSelection t s = (a.evictSelection t s).map id (recast r) := by
  obtain ⟨-, hled⟩ := h.congr
    (keeping_evictAll (g := Keeper.tier) (fun _ _ => rfl) a t s.files).linked_eq
  have hmoved := moveSiblings_recast hr (a := (a.evictAll t s.files).2)
    (fun hl => hled hl _ ⟨hsegments, Or.inl rfl⟩) (fun hl => hled hl _ ⟨hsegments, Or.inr rfl⟩)
  simp only [evictSelection, evictAll_recast hr h.1, Prod.map_fst, Prod.map_snd, id, hmoved,
    toHoldings_recast]
  split
  · rfl
  · split
    · rfl
    · split <;> rfl

theorem evaluate_recast (hr : Recasts S r) (h : a.Avoids S t) :
    (a.recast r).evaluate t = (a.evaluate t).map id (recast r) := by
  unfold evaluate
  split
  · simp only [evaluatePlain, toHoldings_recast]
    split
    · split
      · rfl
      · simp only [evictAll_recast hr h.1]
        rfl
    · rfl
  · rename_i continuous events hrole
    have hselect : (a.recast r).selectSegments t continuous events =
        a.selectSegments t continuous events := rfl
    simp only [evaluateSegments, hselect]
    split
    · rfl
    · exact evictSelection_recast hr h ⟨continuous, events, hrole⟩ _
  · rfl
  · rfl

theorem runPolicy_recast (hr : Recasts S r) (h : a.Avoids S t) :
    (a.recast r).runPolicy t = (a.runPolicy t).map id (recast r) := by
  have hentered : (a.recast r).enterEvaluation t = (a.enterEvaluation t).recast r :=
    update_recast hr h.1 (f := Keeper.enterEvaluation) (fun _ => rfl)
      { a with counters := { a.counters with evaluations := a.counters.evaluations + 1 } }
  have hleft := update_recast hr h.1 (f := Keeper.leaveEvaluation (a.phaseOf t.address))
    (fun k => congrArg Tier.address (tier_leaveEvaluation _ k))
  simp only [runPolicy, phaseOf_recast hr h.1, hentered,
    evaluate_recast hr (h.congr (b := a.enterEvaluation t) rfl), Prod.map_fst, Prod.map_snd, hleft]
  rfl

theorem checkTier_recast (hr : Recasts S r) (h : a.Avoids S t) :
    (a.recast r).checkTier t = (a.checkTier t).recast r := by
  have hquiet : ∀ b : Archive, b.linked = a.linked →
      (b.recast r).runPolicyQuietly t = (b.runPolicyQuietly t).recast r := by
    intro b hb
    simp only [runPolicyQuietly, runPolicy_recast hr (h.congr hb)]
    rcases b.runPolicy t with ⟨e | x, c⟩
    · cases e <;> rfl
    · rfl
  unfold checkTier
  split
  case h_1 | h_2 => rfl
  case h_3 | h_4 =>
    rw [get?_recast hr h.1]
    split
    · rfl
    · rename_i k _
      simp only [toHoldings_recast]
      rcases k.throttle.acquire a.now with ⟨passes, throttle⟩
      cases passes with
      | false => rfl
      | true =>
        dsimp only
        rw [update_recast hr h.1 (f := fun k => { k with throttle := throttle }) (fun _ => rfl) a]
        exact hquiet (a.update t.address fun k => { k with throttle := throttle }) rfl

end Evaluation

section Handling

theorem announce_recast (r : Keeper → Keeper) (a : Archive) (t : Tier) (p : Path) :
    (a.recast r).announce t p = (a.announce t p).recast r := by
  unfold announce
  split
  · unfold repointThumbnail
    split <;> rfl
  · split
    · rfl
    · exact repointClip_recast r a t.camera p
  · rfl
  · rfl

theorem catalogue_recast (hr : Recasts S r) (h : a.Avoids S t) (p : Path) :
    (a.recast r).catalogue t p = (a.catalogue t p).map id (recast r) := by
  simp only [catalogue, toHoldings_recast]
  split
  · rfl
  · rfl
  · rfl
  · split
    · rfl
    · rename_i c _
      have hchecked := checkTier_recast hr (h.congr (b := a.withCatalog c) rfl)
      exact congrArg _ hchecked

theorem asEvent_recast {α : Type} {f : Archive → α × Archive} (hr : Recasts S r)
    (h : a.Avoids S t) (hf : ∀ b : Archive, b.linked = a.linked →
      f (b.recast r) = (f b).map id (recast r)) :
    (a.recast r).asEvent t f = (a.asEvent t f).map id (recast r) := by
  have hentered := update_recast hr h.1 (f := Keeper.enterEvent)
    (fun k => Keeper.address_of_standing (standing_enterEvent k)) a
  have hleft := update_recast hr h.1 (f := Keeper.leaveEvent (a.phaseOf t.address))
    (fun k => Keeper.address_of_standing (standing_leaveEvent _ k))
  simp only [asEvent, phaseOf_recast hr h.1, hentered,
    hf (a.update t.address Keeper.enterEvent) rfl, Prod.map_fst, Prod.map_snd, hleft]
  rfl

theorem onNotification_recast (hr : Recasts S r) (h : a.Avoids S t) (n : Notification) :
    (a.recast r).onNotification t n = (a.onNotification t n).map id (recast r) := by
  obtain ⟨kind, p⟩ := n
  cases kind with
  | created =>
    simp only [onNotification, onCreated]
    split
    · rfl
    · refine asEvent_recast hr h fun b hb => ?_
      simp only [announce_recast]
      exact catalogue_recast hr
        (h.congr ((steady_announce b t p).linked_eq.trans hb)) p
  | modified =>
    simp only [onNotification, onModified]
    split
    · rfl
    · exact congrArg _ (update_recast hr h.1
        (f := fun k => { k with debouncer := k.debouncer.arm a.now p () }) (fun _ => rfl) a)
  | deleted =>
    simp only [onNotification, onDeleted]
    split
    · rfl
    · refine asEvent_recast hr h fun b _ => ?_
      simp only [forget, toHoldings_recast]
      split <;> rfl

theorem takeIn_recast (hr : Recasts S r) (ms : List Message) (h : a.Avoids S t) :
    takeIn (sink t) ms (a.recast r) = (takeIn (sink t) ms a).map id (recast r) := by
  induction ms generalizing a with
  | nil => rfl
  | cons m ms ih =>
    cases m with
    | stop => rfl
    | evaluate =>
      have hnext := h.congr (steady_checkTier a t).linked_eq
      simp only [takeIn, sink, checkTier_recast hr h]
      exact ih hnext
    | event n =>
      have hnext := h.congr (lasting_onNotification a t n).linked_eq
      have hrest := ih hnext
      simp only [sink] at hrest
      simp only [takeIn, sink, onNotification_recast hr h, Prod.map_fst, Prod.map_snd, hrest]
      rfl

theorem takeInto_recast (hr : Recasts S r) (h : a.Avoids S t) (ms : List Message) :
    (a.recast r).takeInto t ms = (a.takeInto t ms).recast r := by
  simp only [takeInto, takeIn_recast hr ms h]
  rfl

theorem refreshSizes_recast (r : Keeper → Keeper) (ps : List Path) (a : Archive) :
    (a.recast r).refreshSizes ps = (a.refreshSizes ps).map id (recast r) := by
  induction ps generalizing a with
  | nil => rfl
  | cons p ps ih =>
    have hone : (a.recast r).refreshSize p = (a.refreshSize p).map id (recast r) := by
      simp only [refreshSize, toHoldings_recast]
      split
      · rfl
      · split <;> rfl
    simp only [refreshSizes, hone, Prod.map_fst, Prod.map_snd, ih]
    rfl

theorem lookAgain_recast (hr : Recasts S r) (h : a.Avoids S t) (ps : List Path) :
    (a.recast r).lookAgain t ps = (a.lookAgain t ps).recast r := by
  have hchecks : ∀ (ns : List Nat) (b : Archive), b.Avoids S t →
      ns.foldl (fun b _ => b.checkTier t) (b.recast r) =
        (ns.foldl (fun b _ => b.checkTier t) b).recast r := by
    intro ns
    induction ns with
    | nil => exact fun _ _ => rfl
    | cons n ns ih =>
      intro b hb
      rw [List.foldl_cons, List.foldl_cons, checkTier_recast hr hb,
        ih _ (hb.congr (steady_checkTier b t).linked_eq)]
  simp only [lookAgain, refreshSizes_recast, Prod.map_fst, Prod.map_snd]
  exact hchecks _ _ (h.congr (steady_refreshSizes ps a).linked_eq)

end Handling

end Archive

/-- Puts keepers that sleep in the places of those at the addresses in `S`. -/
structure Understudies (S : Address → Prop) (r : Keeper → Keeper) : Prop extends Recasts S r where
  sleeps : ∀ k, S k.address → (r k).Sleeps

namespace Archive

variable {S : Address → Prop} {r : Keeper → Keeper} {a : Archive} {x : Address}
  {f g : Archive → Archive}

/-- The keepers at the addresses in `S` sleep, and no other one asks anything of them. -/
structure Resting (S : Address → Prop) (a : Archive) : Prop where
  sleeps : ∀ k ∈ a.keepers, S k.address → k.Sleeps
  avoids : ∀ k ∈ a.keepers, ¬ S k.address → a.Avoids S k.tier

/-- What is done does not depend on the sleeping keepers. -/
structure Undisturbed (S : Address → Prop) (f : Archive → Archive) (a : Archive) : Prop where
  lasting : Lasting a (f a)
  recast_eq : ∀ {r}, Understudies S r → f (a.recast r) = (f a).recast r

theorem Undisturbed.comp (hf : Undisturbed S f a) (hg : Undisturbed S g (f a)) :
    Undisturbed S (fun a => g (f a)) a where
  lasting := hf.lasting.trans hg.lasting
  recast_eq hr := (congrArg g (hf.recast_eq hr)).trans (hg.recast_eq hr)

theorem recast_eq_self_iff : a.recast r = a ↔ ∀ k ∈ a.keepers, r k = k := by
  have hmap : a.keepers.map r = a.keepers.map id ↔ ∀ k ∈ a.keepers, r k = id k := List.map_inj_left
  rw [List.map_id] at hmap
  have hkeepers : a.recast r = a ↔ a.keepers.map r = a.keepers :=
    ⟨fun h => congrArg Archive.keepers h, fun h => congrArg (fun ks => { a with keepers := ks }) h⟩
  exact hkeepers.trans hmap

open Classical in
/-- Puts the keepers at the addresses in `S` to sleep. -/
noncomputable def lull (S : Address → Prop) (k : Keeper) : Keeper :=
  if S k.address then
    { k with inbox := none, watch := none, debouncer := { k.debouncer with timers := [] } }
  else k

theorem understudies_lull (S : Address → Prop) : Understudies S (lull S) where
  address_eq k := by
    unfold lull
    split <;> rfl
  eq_self k hk := if_neg hk
  sleeps k hk := by
    rw [lull, if_pos hk]
    exact ⟨rfl, rfl, rfl⟩

theorem lull_eq_self {k : Keeper} (h : S k.address → k.Sleeps) : lull S k = k := by
  by_cases hk : S k.address
  · obtain ⟨hinbox, hwatch, htimers⟩ := h hk
    rw [lull, if_pos hk, ← hinbox, ← hwatch, ← htimers]
  · exact if_neg hk

/-- Sleeping keepers go on sleeping: putting them to sleep before or after makes no
difference. -/
theorem Resting.step (h : Resting S a) (hf : Undisturbed S f a) : Resting S (f a) := by
  have hself : (f a).recast (lull S) = f a := by
    have hbefore : a.recast (lull S) = a :=
      recast_eq_self_iff.2 fun k hk => lull_eq_self (h.sleeps k hk)
    rw [← hf.recast_eq (understudies_lull S), hbefore]
  refine ⟨fun k hk hS => ?_, fun k hk hS => ?_⟩
  · rw [← recast_eq_self_iff.1 hself k hk]
    exact (understudies_lull S).sleeps k hS
  · have htier : k.tier ∈ (f a).tiers := List.mem_map_of_mem hk
    rw [hf.lasting.tiers_eq] at htier
    obtain ⟨k', hk', heq⟩ := List.mem_map.1 htier
    have hS' : ¬ S k'.address := by
      rw [Keeper.address, heq]
      exact hS
    rw [← heq]
    exact (h.avoids k' hk' hS').congr hf.lasting.linked_eq

theorem undisturbed_id (S : Address → Prop) (a : Archive) : Undisturbed S (fun a => a) a :=
  ⟨Lasting.refl a, fun _ => rfl⟩

theorem undisturbed_foldl {α : Type} {f : Archive → α → Archive}
    (hf : ∀ b, Resting S b → ∀ y, Undisturbed S (fun a => f a y) b) (ys : List α)
    (h : Resting S a) : Undisturbed S (fun a => ys.foldl f a) a := by
  induction ys generalizing a with
  | nil => exact undisturbed_id S a
  | cons y ys ih => exact (hf a h y).comp (ih (h.step (hf a h y)))

section Clock

theorem tell_of_sleeps {k : Keeper} (hk : k.Sleeps) (d : Disk) (ignored : IgnoredNames)
    (cs : List TieredFootage.Change) : cs.foldl (fun k c => k.tell d ignored c) k = k := by
  induction cs with
  | nil => rfl
  | cons c cs ih =>
    have hone : k.tell d ignored c = k := by
      rw [Keeper.tell, hk.2.1]
    rw [List.foldl_cons, hone, ih]

theorem undisturbed_deliver (h : Resting S a) : Undisturbed S deliver a := by
  refine ⟨lasting_deliver a, fun {r} hr => ?_⟩
  simp only [deliver, recast, List.map_map]
  congr 1
  refine List.map_congr_left fun k hk => ?_
  by_cases hS : S k.address
  · simp only [Function.comp_apply]
    rw [tell_of_sleeps (hr.sleeps k hS), tell_of_sleeps (h.sleeps k hk hS)]
  · have hself : r k = k := hr.eq_self k hS
    have htold : ∀ cs : List TieredFootage.Change,
        (cs.foldl (fun k c => k.tell a.disk.takeJournal.2 a.ignored c) k).address = k.address :=
      k.foldl_tell Keeper.address (fun _ _ _ => rfl) a.disk.takeJournal.2 a.ignored
    simp only [Function.comp_apply, hself]
    refine (hr.eq_self _ ?_).symm
    rw [htold]
    exact hS

theorem takeInbox_of_idle (h : ∀ k, a.keepers.get? x = some k → k.inbox = none) :
    a.takeInbox x = a := by
  unfold takeInbox
  split
  · rfl
  · rename_i k hk
    rw [h k hk]

/-- The keepers in the places of those that sleep sleep as well. -/
theorem sleeps_of_get?_recast (hr : Understudies S r) (hx : S x) {k : Keeper}
    (h : (a.recast r).keepers.get? x = some k) : k.Sleeps := by
  obtain ⟨hk, haddress⟩ := mem_of_get? h
  obtain ⟨k', -, rfl⟩ := List.mem_map.1 hk
  rw [hr.address_eq] at haddress
  exact hr.sleeps k' (haddress ▸ hx)

theorem undisturbed_update (hx : ¬ S x) {u : Keeper → Keeper} (hu : ∀ k, (u k).tier = k.tier)
    (a : Archive) : Undisturbed S (fun a => a.update x u) a :=
  ⟨Lasting.update a x hu,
    fun hr => update_recast hr.toRecasts hx (fun k => congrArg Tier.address (hu k)) a⟩

theorem undisturbed_takeInbox (h : Resting S a) (x : Address) :
    Undisturbed S (fun a => a.takeInbox x) a := by
  refine ⟨lasting_takeInbox a x, fun {r} hr => ?_⟩
  by_cases hx : S x
  · rw [takeInbox_of_idle fun k hk => (sleeps_of_get?_recast hr hx hk).1,
      takeInbox_of_idle fun k hk => ?_]
    obtain ⟨hmem, haddress⟩ := mem_of_get? hk
    exact (h.sleeps k hmem (haddress ▸ hx)).1
  · unfold takeInbox
    rw [get?_recast hr.toRecasts hx]
    split
    · rfl
    · rename_i k hk
      obtain ⟨hmem, haddress⟩ := mem_of_get? hk
      split
      · rfl
      · rfl
      · rename_i ms _ _
        have havoids : (a.update x fun k => { k with inbox := some [] }).Avoids S k.tier :=
          h.avoids k hmem (haddress ▸ hx)
        have hopened := undisturbed_update hx (u := fun k => { k with inbox := some [] })
          (fun _ => rfl) a
        have htaken : Undisturbed S (fun a => a.takeInto k.tier ms)
            (a.update x fun k => { k with inbox := some [] }) :=
          ⟨lasting_takeInto _ _ _, fun hr => takeInto_recast hr.toRecasts havoids ms⟩
        have hrest := (h.step hopened).step htaken
        exact ((hopened.comp htaken).comp (undisturbed_deliver hrest)).recast_eq hr

theorem isBusy_recast (h : Resting S a) (hr : Understudies S r) :
    (a.recast r).isBusy = a.isBusy := by
  have heach : ∀ k ∈ a.keepers, (r k).inbox = k.inbox := by
    intro k hk
    by_cases hS : S k.address
    · rw [(hr.sleeps k hS).1, (h.sleeps k hk hS).1]
    · rw [hr.eq_self k hS]
  simp only [isBusy, recast, List.any_map]
  rw [Bool.eq_iff_iff, List.any_eq_true, List.any_eq_true]
  refine exists_congr fun k => and_congr_right fun hk => ?_
  rw [Function.comp_apply, heach k hk]

theorem map_address_recast (hr : Recasts S r) (a : Archive) :
    (a.recast r).keepers.map Keeper.address = a.keepers.map Keeper.address := by
  simp only [recast, List.map_map]
  exact List.map_congr_left fun k _ => hr.address_eq k

theorem undisturbed_round (h : Resting S a) : Undisturbed S round a := by
  have heach := undisturbed_foldl (f := fun a x => a.takeInbox x)
    (fun b hb y => undisturbed_takeInbox hb y) (a.keepers.map Keeper.address) h
  refine ⟨heach.lasting, fun hr => ?_⟩
  rw [round, map_address_recast hr.toRecasts]
  exact heach.recast_eq hr

theorem undisturbed_rounds (n : Nat) (h : Resting S a) : Undisturbed S (rounds n) a := by
  induction n generalizing a with
  | zero => exact undisturbed_id S a
  | succ n ih =>
    have hround := undisturbed_round h
    refine ⟨lasting_rounds (n + 1) a, fun hr => ?_⟩
    rw [rounds, rounds, isBusy_recast h hr]
    split
    · exact (hround.comp (ih (h.step hround))).recast_eq hr
    · rfl

theorem undisturbed_settle (h : Resting S a) : Undisturbed S settle a := by
  have hdelivered := undisturbed_deliver h
  have hrounds := undisturbed_rounds (a.keepers.length + 1) (h.step hdelivered)
  refine ⟨lasting_settle a, fun {r} hr => ?_⟩
  have hlength : (a.recast r).keepers.length = a.keepers.length := List.length_map _
  rw [settle, hlength]
  exact (hdelivered.comp hrounds).recast_eq hr

theorem fireTimers_of_idle (h : ∀ k, a.keepers.get? x = some k → k.debouncer.timers = []) :
    a.fireTimers x = a := by
  unfold fireTimers
  split
  · rfl
  · rename_i k hk
    simp [Debouncer.dueBy, h k hk]

theorem undisturbed_fireTimers (h : Resting S a) (x : Address) :
    Undisturbed S (fun a => a.fireTimers x) a := by
  refine ⟨lasting_fireTimers a x, fun {r} hr => ?_⟩
  by_cases hx : S x
  · rw [fireTimers_of_idle fun k hk => (sleeps_of_get?_recast hr hx hk).2.2,
      fireTimers_of_idle fun k hk => ?_]
    obtain ⟨hmem, haddress⟩ := mem_of_get? hk
    exact (h.sleeps k hmem (haddress ▸ hx)).2.2
  · unfold fireTimers
    rw [get?_recast hr.toRecasts hx]
    split
    · rfl
    · rename_i k hk
      obtain ⟨hmem, haddress⟩ := mem_of_get? hk
      by_cases hdue : (k.debouncer.dueBy a.now).isEmpty = true
      · exact (if_pos hdue).trans (congrArg (recast r) (if_pos hdue).symm)
      · have havoids : (a.update x fun k => { k with debouncer := k.debouncer.elapse a.now }).Avoids
            S k.tier := h.avoids k hmem (haddress ▸ hx)
        have helapsed := undisturbed_update hx
          (u := fun k => { k with debouncer := k.debouncer.elapse a.now }) (fun _ => rfl) a
        have hlooked : Undisturbed S
            (fun b => b.lookAgain k.tier ((k.debouncer.dueBy a.now).map (·.key)))
            (a.update x fun k => { k with debouncer := k.debouncer.elapse a.now }) :=
          ⟨(steady_lookAgain _ _ _).lasting, fun hr => lookAgain_recast hr.toRecasts havoids _⟩
        refine (if_neg hdue).trans (Eq.trans ?_ (congrArg (recast r) (if_neg hdue).symm))
        exact (helapsed.comp hlooked).recast_eq hr

theorem send_of_sleeps {k : Keeper} (hk : k.Sleeps) (m : Message) : k.send m = k := by
  have hinbox := hk.1
  rw [Keeper.send, hinbox]
  exact congrArg (fun i => { k with inbox := i }) hinbox.symm

theorem undisturbed_sweep (h : Resting S a) : Undisturbed S sweep a := by
  refine ⟨lasting_sweep a, fun {r} hr => ?_⟩
  simp only [sweep, recast, List.map_map]
  congr 1
  refine List.map_congr_left fun k hk => ?_
  simp only [Function.comp_apply]
  by_cases hS : S k.address
  · rw [send_of_sleeps (hr.sleeps k hS), send_of_sleeps (h.sleeps k hk hS)]
  · have hself : r k = k := hr.eq_self k hS
    have hsent : r (k.send .evaluate) = k.send .evaluate := hr.eq_self _ hS
    rw [hself, hsent]

theorem undisturbed_fireSweeps (h : Resting S a) : Undisturbed S fireSweeps a := by
  have heach := undisturbed_foldl (f := fun a _ => a.sweep) (fun b hb _ => undisturbed_sweep hb)
    (a.sweeps.filter fun s => decide (s ≤ a.now)) h
  have hset : ∀ b : Archive, Undisturbed S (fun b : Archive => { b with
      sweeps := b.sweeps.map fun s => if s ≤ b.now then s + b.sweepInterval.getD 0 else s }) b :=
    fun b => ⟨⟨rfl, rfl⟩, fun _ => rfl⟩
  have hall := heach.comp (hset _)
  exact ⟨hall.lasting, fun hr => hall.recast_eq hr⟩

theorem undisturbed_fire (h : Resting S a) : Undisturbed S fire a := by
  have htimers := undisturbed_foldl (f := fun a x => a.fireTimers x)
    (fun b hb y => undisturbed_fireTimers hb y) (a.keepers.map Keeper.address) h
  have hsweeps := undisturbed_fireSweeps (h.step htimers)
  have hsettled := undisturbed_settle ((h.step htimers).step hsweeps)
  have hall := (htimers.comp hsweeps).comp hsettled
  refine ⟨hall.lasting, fun hr => ?_⟩
  rw [fire, map_address_recast hr.toRecasts]
  exact hall.recast_eq hr

theorem nextStop?_recast (h : Resting S a) (hr : Understudies S r) :
    (a.recast r).nextStop? = a.nextStop? := by
  have heach : ∀ k ∈ a.keepers, (r k).debouncer.nextDue? = k.debouncer.nextDue? := by
    intro k hk
    by_cases hS : S k.address
    · rw [Debouncer.nextDue?, Debouncer.nextDue?, (hr.sleeps k hS).2.2, (h.sleeps k hk hS).2.2]
    · rw [hr.eq_self k hS]
  simp only [nextStop?, recast, List.filterMap_map]
  rw [List.filterMap_congr (g := fun k => k.debouncer.nextDue?) heach]

theorem undisturbed_wait (moment : Int) (a : Archive) :
    Undisturbed S (fun a => { a with now := moment }) a := ⟨⟨rfl, rfl⟩, fun _ => rfl⟩

theorem undisturbed_advanceWithin (fuel : Nat) (moment : Int) (h : Resting S a) :
    Undisturbed S (advanceWithin fuel moment) a := by
  induction fuel generalizing a with
  | zero => exact undisturbed_wait moment a
  | succ fuel ih =>
    refine ⟨lasting_advanceWithin (fuel + 1) moment a, fun hr => ?_⟩
    rw [advanceWithin, advanceWithin, nextStop?_recast h hr]
    split
    · rfl
    · split
      · rename_i stop _ _
        have hwait := undisturbed_wait (S := S) (max a.now stop) a
        have hfired := undisturbed_fire (h.step hwait)
        have hrest := ih ((h.step hwait).step hfired)
        exact ((hwait.comp hfired).comp hrest).recast_eq hr
      · rfl

/-- As time advances, nothing depends on the keepers that sleep. -/
theorem undisturbed_advance (ms : Nat) (h : Resting S a) :
    Undisturbed S (fun a => a.advance ms) a := by
  have hwithin := undisturbed_advanceWithin
    ((a.now + ms * millisecond - a.now).toNat + 1) (a.now + ms * millisecond) h
  have hall := hwithin.comp (undisturbed_settle (h.step hwithin))
  exact ⟨hall.lasting, fun hr => hall.recast_eq hr⟩

end Clock

end Archive

end TieredFootage
