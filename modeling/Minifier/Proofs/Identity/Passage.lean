import Minifier.Proofs.Identity.Walk

/-!
# What a walk conserves

A `Passage` is what becomes of a site when a walk passes below a position: identities are conserved, those of
trees that wait to be put into a list included; the tree changes below the position only; and calls are noted
behind those before. Each part of a walk makes such a passage, whether it ends or fails (`Passes`), and so
does the whole (`passage_run`).
-/

namespace Minifier.Tagged

variable {σ η α β : Type}

/-- Only the node at the position has changed. -/
def Confined (path : Path) (t u : Tagged) : Prop := ∃ f, u = t.modifyAt f path

namespace Confined

variable {path : Path} {t u w : Tagged}

theorem refl (path : Path) (t : Tagged) : Confined path t t := ⟨_, (modifyAt_same t path).symm⟩

theorem trans (h : Confined path t u) (h' : Confined path u w) : Confined path t w := by
  obtain ⟨f, rfl⟩ := h
  obtain ⟨g, rfl⟩ := h'
  exact ⟨_, modifyAt_modifyAt ..⟩

/-- What changes further down changes here. -/
theorem up {below : Path} (h : Confined (path ++ below) t u) : Confined path t u := by
  obtain ⟨f, rfl⟩ := h
  exact ⟨_, modifyAt_append ..⟩

end Confined

/-- The identities in the tree and at hand. -/
def Site.ids (site : Site σ) : List Nat := site.tree.ids ++ site.forest.ids

/-- What a walk below a position makes of a site. Beside the site there are trees that wait, before and
behind. -/
structure Passage (path : Path) (waiting waiting' : List Nat) (before after : Site σ) : Prop where
  conserved : Conserved before.forest.next after.forest.next (waiting ++ before.ids)
    (waiting' ++ after.ids)
  confined : Confined path before.tree after.tree
  calls_suffix : before.calls <:+ after.calls

namespace Passage

variable {path : Path} {waiting waiting' waiting'' : List Nat} {first second third : Site σ}

theorem trans (h : Passage path waiting waiting' first second)
    (h' : Passage path waiting' waiting'' second third) : Passage path waiting waiting'' first third where
  conserved := h.conserved.trans h'.conserved
  confined := h.confined.trans h'.confined
  calls_suffix := h.calls_suffix.trans h'.calls_suffix

/-- The site stays, and of what waits some may be dropped. -/
theorem stay (site : Site σ) (h : ∀ i, waiting'.count i ≤ waiting.count i) :
    Passage path waiting waiting' site site where
  conserved := .of_count_le fun i => by
    have := h i
    rw [List.count_append, List.count_append]
    omega
  confined := .refl ..
  calls_suffix := List.suffix_rfl

theorem up {below : Path} (h : Passage (path ++ below) waiting waiting' first second) :
    Passage path waiting waiting' first second :=
  ⟨h.conserved, h.confined.up, h.calls_suffix⟩

/-- More trees may wait meanwhile. -/
theorem frame (h : Passage path waiting waiting' first second) (aside : List Nat) :
    Passage path (aside ++ waiting) (aside ++ waiting') first second where
  conserved := by
    refine ⟨h.conserved.next_le, fun i => ?_⟩
    have := h.conserved.count_le i
    simp only [List.count_append] at this ⊢
    omega
  confined := h.confined
  calls_suffix := h.calls_suffix

/-- The tree changes at the position, by what waits. -/
theorem of_modifyAt {site : Site σ} {n : Tagged} {f : Tagged → Tagged}
    (hat : site.tree.at? path = some n) (h : ∀ i, (f n).ids.count i ≤ n.ids.count i + waiting.count i) :
    Passage path waiting [] site { site with tree := site.tree.modifyAt f path } where
  conserved := .of_count_le fun i => by
    have := h i
    have := count_modifyAt hat f i
    simp only [Site.ids, List.count_append, List.count_nil]
    omega
  confined := ⟨f, rfl⟩
  calls_suffix := List.suffix_rfl

end Passage

namespace Walk

/-- A walk below a position, with trees that wait before it and behind it. If it fails, nothing waits any
more. -/
def Passes (path : Path) (waiting : List Nat) (w : Walk σ α) (waiting' : α → List Nat) : Prop :=
  ∀ site, match w site with
    | .ok a after => Passage path waiting (waiting' a) site after
    | .error _ after => Passage path waiting [] site after

namespace Passes

variable {path : Path} {waiting : List Nat} {waiting' : α → List Nat} {waiting'' : β → List Nat}
  {w : Walk σ α}

theorem pure {a : α} (h : ∀ i, (waiting' a).count i ≤ waiting.count i) :
    Passes path waiting (pure a : Walk σ α) waiting' := fun site => .stay site h

theorem throw (stop : Stop) : Passes path waiting (throw stop : Walk σ α) waiting' :=
  fun site => .stay site fun _ => Nat.zero_le _

theorem bind {next : α → Walk σ β} (h : Passes path waiting w waiting')
    (hnext : ∀ a, Passes path (waiting' a) (next a) waiting'') :
    Passes path waiting (w >>= next) waiting'' := by
  intro site
  show match EStateM.bind w next site with | .ok _ _ => _ | .error _ _ => _
  have hw := h site
  unfold EStateM.bind
  cases hcase : w site with
  | error stop after =>
      rw [hcase] at hw
      exact hw
  | ok a between =>
      rw [hcase] at hw
      have hrest := hnext a between
      dsimp only at hw hrest ⊢
      cases hcase' : next a between with
      | error stop after =>
          rw [hcase'] at hrest
          exact hw.trans hrest
      | ok b after =>
          rw [hcase'] at hrest
          exact hw.trans hrest

/-- What every result of the walk allows. -/
theorem imp {path' : Path} {before : List Nat} {behind : α → List Nat} (h : Passes path waiting w waiting')
    (hok : ∀ a first second, Passage path waiting (waiting' a) first second →
      Passage path' before (behind a) first (second : Site σ))
    (herror : ∀ first second, Passage path waiting [] first second →
      Passage path' before [] first (second : Site σ)) :
    Passes path' before w behind := by
  intro site
  have hw := h site
  cases hcase : w site with
  | ok a after =>
      rw [hcase] at hw
      exact hok _ _ _ hw
  | error stop after =>
      rw [hcase] at hw
      exact herror _ _ hw

theorem up {below : Path} (h : Passes (path ++ below) waiting w waiting') :
    Passes path waiting w waiting' :=
  h.imp (fun _ _ _ hpass => hpass.up) fun _ _ hpass => hpass.up

theorem frame (h : Passes path waiting w waiting') (aside : List Nat) :
    Passes path (aside ++ waiting) w fun a => aside ++ waiting' a := by
  apply h.imp
  · intro a first second hpass
    exact hpass.frame aside
  · intro first second hpass
    -- What fails drops what waited aside.
    exact (hpass.frame aside).trans (.stay second fun _ => Nat.zero_le _)

end Passes

/-! ## Each part of a walk -/

theorem passes_nodeAt (path : Path) (waiting : List Nat) :
    Passes path waiting (nodeAt path : Walk σ Tagged) fun _ => waiting := by
  intro site
  unfold nodeAt
  cases site.tree.at? path with
  | some node => exact .stay site fun _ => Nat.le_refl _
  | none => exact .stay site fun _ => Nat.zero_le _

theorem conserved_standIn (forest : Forest) (path : Path) (ids : List Nat) :
    Conserved forest.next (standIn forest path).next ids ids := by
  unfold standIn
  split
  · exact ⟨Nat.le_succ _, fun i => Nat.le_add_right ..⟩
  · exact .refl ..

/-- What a visitor does at a position, seen from the whole tree. -/
theorem passage_putBack {site : Site σ} {path : Path} {given left : Tagged}
    (h : site.tree.detach site.forest.next path = some (given, left)) {scene : Scene σ η}
    (hconduct : Conduct (⟨left, path, given, .kept, none, false, false⟩, site.state, standIn site.forest path)
      scene) :
    Passage path [] (idsOfTrees scene.1.outcome.trees) site (putBack site path given left scene) := by
  obtain ⟨c, state, forest⟩ := scene
  obtain ⟨hat, hattach⟩ := attach_detach h
  refine ⟨?_, ⟨fun _ => c.node, hattach _⟩, List.suffix_cons ..⟩
  refine (conserved_standIn site.forest path _).trans ⟨hconduct.conserved.next_le, fun i => ?_⟩
  have hscene := hconduct.conserved.count_le i
  have hmodify := count_modifyAt hat (fun _ => c.node) i
  have hforest : (standIn site.forest path).ids = site.forest.ids := by
    rw [Forest.ids, trees_standIn, Forest.ids]
  simp only [Cursor.ids, Site.ids, putBack, Outcome.trees, hforest, hattach, idsOfTrees_nil,
    List.count_append, List.count_nil, List.append_nil] at hscene ⊢
  omega

theorem passes_act (path : Path) (script : Script σ η) :
    Passes path [] (act path script) fun r => idsOfTrees r.1.trees := by
  intro site
  unfold act
  cases hdetach : site.tree.detach site.forest.next path with
  | none => exact .stay site fun _ => Nat.le_refl _
  | some taken =>
      obtain ⟨given, left⟩ := taken
      have hconduct := conduct_play script (⟨left, path, given, .kept, none, false, false⟩, site.state,
        standIn site.forest path)
      dsimp only
      generalize script.play _ = played at hconduct
      obtain ⟨error, scene⟩ := played
      have hpassage := passage_putBack hdetach hconduct
      cases error with
      | none => exact hpassage
      | some error => exact hpassage.trans (.stay _ fun _ => Nat.zero_le _)

end Walk

namespace Settled

/-- The identities of the trees that wait for their place in a list. -/
def ids : Settled → List Nat
  | .flatten trees => idsOfTrees trees
  | _ => []

theorem count_slots_le (fate : Settled) (slot : Option Tagged) (i : Nat) :
    (idsOfSlots (fate.slots slot)).count i ≤ (idsOfSlot slot).count i + fate.ids.count i := by
  cases fate with
  | keep => simp [slots, ids, count_slots_cons, idsOfSlots]
  | remove => simp [slots, idsOfSlots]
  | flatten trees =>
      have htrees : (idsOfSlots (trees.map some)).count i = (idsOfTrees trees).count i := by
        induction trees with
        | nil => rfl
        | cons t trees ih =>
            rw [List.map_cons, count_slots_cons, ih, idsOfTrees_cons, List.count_append]
            rfl
      rw [slots, ids, htrees]
      omega

end Settled

/-- A list that is rebuilt holds what was in its slots and what waited for them. -/
theorem count_compactSlots_le (slots : List (Option Tagged)) (fates : List Settled) (i : Nat) :
    (idsOfSlots (compactSlots slots fates)).count i
      ≤ (idsOfSlots slots).count i + (fates.flatMap Settled.ids).count i := by
  induction slots generalizing fates with
  | nil => simp [compactSlots, idsOfSlots]
  | cons slot slots ih =>
      cases fates with
      | nil => simp [compactSlots, idsOfSlots]
      | cons fate fates =>
          have hslot := fate.count_slots_le slot i
          have hrest := ih fates
          simp only [compactSlots, List.zip_cons_cons, List.flatMap_cons, count_slots_append,
            count_slots_cons, List.count_append] at hrest ⊢
          omega

namespace Walk

theorem passes_settle (path : Path) (name : String) (fate : Settled) :
    Passes path fate.ids (settle path name fate : Walk σ Unit) fun _ => [] := by
  cases fate with
  | keep => exact .pure fun _ => Nat.le_refl _
  | flatten trees => exact .throw _
  | remove =>
      intro site
      show Passage path [] [] site { site with tree := site.tree.modifyAt (·.erase name) path }
      cases hat : site.tree.at? path with
      | none =>
          rw [modifyAt_of_none hat]
          exact .stay site fun _ => Nat.le_refl _
      | some n => exact .of_modifyAt hat fun i => count_erase_le n name i

section

variable {below : Path → Walk σ Settled} (h : ∀ path, Passes path [] (below path) Settled.ids)
include h

theorem passes_single (path : Path) (name : String) :
    Passes path [] (single below path name) fun _ => [] :=
  (h _).up.bind fun fate => passes_settle path name fate

theorem passes_slots (path : Path) (name : String) (k : Nat) (occupied : List Bool) :
    Passes path [] (slots below path name k occupied) (List.flatMap Settled.ids) := by
  induction occupied generalizing k with
  | nil => exact .pure fun _ => Nat.le_refl _
  | cons present occupied ih =>
      -- The trees that wait for the first slot wait while the others are visited.
      have hrest : ∀ fate : Settled, Passes path fate.ids
          (slots below path name (k + 1) occupied >>= fun fates => pure (fate :: fates))
          (List.flatMap Settled.ids) := by
        intro fate
        have hframe := (ih (k + 1)).frame fate.ids
        rw [List.append_nil] at hframe
        apply hframe.bind
        intro fates
        exact .pure fun i => Nat.le_of_eq (by rw [List.flatMap_cons])
      cases present with
      | false => exact hrest .keep
      | true => exact (h _).up.bind hrest

omit h in
theorem passes_rebuild (path : Path) (name : String) (fates : List Settled) :
    Passes path (fates.flatMap Settled.ids) (rebuild path name fates : Walk σ Unit) fun _ => [] := by
  unfold rebuild
  split
  · exact .pure fun _ => Nat.zero_le _
  · intro site
    rw [nodeAt_bind]
    cases hat : site.tree.at? path with
    | none => exact .stay site fun _ => Nat.zero_le _
    | some n =>
        dsimp only
        cases hslots : n.slots? name with
        | none => exact .stay site fun _ => Nat.zero_le _
        | some slots =>
            refine .of_modifyAt hat fun i => ?_
            have hset := count_set (slots?_eq_some_iff.mp hslots) (.list (compactSlots slots fates)) i
            have hcompact := count_compactSlots_le slots fates i
            simp only [idsOfField] at hset
            omega

theorem passes_list (path : Path) (name : String) (occupied : List Bool) :
    Passes path [] (list below path name occupied) fun _ => [] :=
  (passes_slots h path name 0 occupied).bind fun fates => passes_rebuild path name fates

theorem passes_field (path : Path) (name : String) :
    Passes path [] (field below path name) fun _ => [] := by
  apply (passes_nodeAt path []).bind
  intro t
  cases t.get? name with
  | none => exact .pure fun _ => Nat.le_refl _
  | some content =>
      cases content with
      | value json => exact .pure fun _ => Nat.le_refl _
      | child c => exact passes_single h path name
      | list slots => exact passes_list h path name _

theorem passes_children (path : Path) : Passes path [] (children below path) fun _ => [] := by
  apply (passes_nodeAt path []).bind
  intro t
  induction t.kind.fields with
  | nil => exact .pure fun _ => Nat.le_refl _
  | cons name names ih => exact (passes_field h path name).bind fun _ => ih

end

end Walk

namespace Visitor

theorem passes_finish (v : Visitor σ η) (path : Path) (hook : Option η) :
    Walk.Passes path [] (v.finish path hook) Settled.ids := by
  cases hook with
  | none => exact .pure fun _ => Nat.le_refl _
  | some hook =>
      apply (Walk.passes_act path (v.leave hook)).bind
      rintro ⟨outcome, _⟩
      cases outcome <;> exact .pure fun _ => Nat.le_refl _

theorem passes_follow (v : Visitor σ η) {below : Path → Walk σ Settled}
    (h : ∀ path, Walk.Passes path [] (below path) Settled.ids) (path : Path) (r : Outcome × Option η) :
    Walk.Passes path (idsOfTrees r.1.trees) (v.follow below path r) Settled.ids := by
  obtain ⟨outcome, hook⟩ := r
  cases outcome with
  | removed => exact .pure fun _ => Nat.le_refl _
  | spliced trees => exact .pure fun _ => Nat.le_refl _
  | replaced => exact passes_finish v path hook
  | kept => exact (Walk.passes_children h path).bind fun _ => passes_finish v path hook

theorem passes_walk (v : Visitor σ η) (levels : Nat) (path : Path) :
    Walk.Passes path [] (v.walk levels path) Settled.ids := by
  induction levels generalizing path with
  | zero => exact .throw _
  | succ levels ih => exact (Walk.passes_act path v.enter).bind (passes_follow v ih path)

/-- **A walk conserves identities**, whatever its visitor does, and whether or not it comes to its end. -/
theorem passage_run (v : Visitor σ η) (levels : Nat) (tree : Tagged) (state : σ) (forest : Forest) :
    Passage [] [] [] ⟨tree, state, forest, []⟩ (v.run levels tree state forest).site := by
  have hwalk := passes_walk v levels [] ⟨tree, state, forest, []⟩
  unfold run
  cases hcase : v.walk levels [] ⟨tree, state, forest, []⟩ with
  | error stop site =>
      rw [hcase] at hwalk
      exact hwalk
  | ok fate site =>
      rw [hcase] at hwalk
      exact hwalk.trans (.stay _ fun _ => Nat.zero_le _)

end Visitor

end Minifier.Tagged
