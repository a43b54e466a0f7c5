import Minifier.Proofs.Identity.Passage

/-!
# Nodes that stay in place

A node stands in a `Place`: it is the root of the tree, or a field of another node holds it. Which slot of a
list holds it is not part of its place, as slots before it may go.

A call of a visitor spares a node in its place if it does not meet the node, or else keeps what it meets and
leaves the node where it is. If all the calls of a walk do, then the node stands in its place at the end
(`stands_run`). So the walk itself, which takes nodes out and puts them back, and rebuilds lists, keeps each
node that its visitor keeps: it does not put an equal one in its place.
-/

namespace Minifier.Tagged

variable {σ η α β : Type} {i : Nat}

/-! ## Places -/

/-- Where a node stands. -/
inductive Place where
  | root
  /-- in a field of the node with the given identity -/
  | inField (holder : Nat) (name : String)

/-- The node `j` has the node `i` in a field. -/
def Holds (t : Tagged) (j : Nat) (name : String) (i : Nat) : Prop :=
  ∃ path holder step node, t.at? path = some holder ∧ holder.id = j ∧
    holder.step? step = some node ∧ step.field = name ∧ node.id = i

/-- The node `i` stands in the place. -/
def Stands (t : Tagged) (place : Place) (i : Nat) : Prop :=
  match place with
  | .root => t.id = i
  | .inField j name => t.Holds j name i

/-- What is in the place before is in the place behind, when what holds it is in the tree. -/
def Place.Stays (place : Place) (i : Nat) (t u : Tagged) : Prop :=
  match place with
  | .root => True
  | .inField j name => t.Holds j name i → u.Holds j name i

theorem Place.Stays.refl (place : Place) (i : Nat) (t : Tagged) : place.Stays i t t := by
  cases place with
  | root => trivial
  | inField j name => exact fun h => h

theorem holds_iff {t : Tagged} {j : Nat} {name : String} :
    t.Holds j name i ↔ ∃ step c, t.step? step = some c ∧
      ((t.id = j ∧ step.field = name ∧ c.id = i) ∨ c.Holds j name i) := by
  constructor
  · rintro ⟨path, holder, step, node, hat, hj, hstep, hname, hi⟩
    cases path with
    | nil =>
        cases hat
        exact ⟨step, node, hstep, .inl ⟨hj, hname, hi⟩⟩
    | cons first rest =>
        obtain ⟨c, hfirst, hrest⟩ := Option.bind_eq_some_iff.mp hat
        exact ⟨first, c, hfirst, .inr ⟨rest, holder, step, node, hrest, hj, hstep, hname, hi⟩⟩
  · rintro ⟨step, c, hstep, ⟨hj, hname, hi⟩ | hbelow⟩
    · exact ⟨[], t, step, c, rfl, hj, hstep, hname, hi⟩
    · obtain ⟨rest, holder, last, node, hrest, hj, hlast, hname, hi⟩ := hbelow
      refine ⟨step :: rest, holder, last, node, ?_, hj, hlast, hname, hi⟩
      rw [at?_cons, hstep]
      exact hrest

theorem Holds.mem_ids {t : Tagged} {j : Nat} {name : String} (h : t.Holds j name i) : i ∈ t.ids := by
  obtain ⟨path, holder, step, node, hat, -, hstep, -, rfl⟩ := h
  exact mem_ids_of_at? hat (mem_ids_of_step? hstep (mem_ids_self node))

theorem Stands.mem_ids {t : Tagged} {place : Place} (h : t.Stands place i) : i ∈ t.ids := by
  cases place with
  | root => exact h ▸ mem_ids_self t
  | inField j name => exact Holds.mem_ids h

/-- Changing a node keeps what the tree holds, if it keeps the node's identity and what the node holds. -/
theorem Holds.modifyAt {t n : Tagged} {j : Nat} {name : String} {path : Path} {f : Tagged → Tagged}
    (h : t.Holds j name i) (hat : t.at? path = some n) (hid : n.id = i → (f n).id = i)
    (hholds : n.Holds j name i → (f n).Holds j name i) : (t.modifyAt f path).Holds j name i := by
  induction path generalizing t with
  | nil =>
      cases hat
      exact hholds h
  | cons step rest ih =>
      obtain ⟨c, hstep, hrest⟩ := Option.bind_eq_some_iff.mp hat
      obtain ⟨other, c', hother, hcase⟩ := holds_iff.mp h
      rw [modifyAt_cons hstep]
      apply holds_iff.mpr
      by_cases heq : other = step
      · subst heq
        cases Option.some.inj (hother.symm.trans hstep)
        refine ⟨other, _, step?_fill hstep _, ?_⟩
        rw [id_fill]
        refine hcase.imp (fun ⟨hj, hname, hi⟩ => ⟨hj, hname, ?_⟩) fun hbelow => ih hbelow hrest
        cases rest with
        | nil =>
            cases hrest
            exact hid hi
        | cons => exact (id_modifyAt_cons ..).trans hi
      · refine ⟨other, c', ?_, ?_⟩
        · rw [step?_fill_of_ne hstep heq, hother]
        · rwa [id_fill]

theorem Stands.modifyAt {t n : Tagged} {place : Place} {path : Path} {f : Tagged → Tagged}
    (h : t.Stands place i) (hat : t.at? path = some n) (hid : n.id = i → (f n).id = i)
    (hstays : place.Stays i n (f n)) : (t.modifyAt f path).Stands place i := by
  cases place with
  | inField j name => exact Holds.modifyAt h hat hid hstays
  | root =>
      cases path with
      | nil =>
          cases hat
          exact hid h
      | cons => exact (id_modifyAt_cons ..).trans h

/-! ### Taking fields out and rebuilding lists -/

theorem field_ne_of_child {n c c' : Tagged} {name : String} {step : Step}
    (hchild : n.step? ⟨name, none⟩ = some c) (hstep : n.step? step = some c') (hne : c' ≠ c) :
    step.field ≠ name := by
  obtain ⟨field, index⟩ := step
  rintro rfl
  cases index with
  | none => exact hne (Option.some.inj (hstep.symm.trans hchild))
  | some k =>
      obtain ⟨slots, hslots, -⟩ := step?_slot_eq_some_iff.mp hstep
      cases hslots.symm.trans (step?_child_eq_some_iff.mp hchild)

/-- A child that is taken out takes along no more than what is in it. -/
theorem stays_erase {n c : Tagged} {name : String} (h : n.step? ⟨name, none⟩ = some c) (hi : i ∉ c.ids)
    (place : Place) : place.Stays i n (n.erase name) := by
  cases place with
  | root => trivial
  | inField j other =>
      intro hholds
      obtain ⟨step, c', hstep, hcase⟩ := holds_iff.mp hholds
      have hmem : i ∈ c'.ids := hcase.elim (fun hlast => hlast.2.2 ▸ mem_ids_self c') Holds.mem_ids
      have hfield : step.field ≠ name :=
        field_ne_of_child h hstep fun heq => hi (heq ▸ hmem)
      refine holds_iff.mpr ⟨step, c', ?_, hcase⟩
      rw [step?_congr (get?_erase_of_ne hfield), hstep]

/-- A list may be rebuilt if the slot that the node is in stays. -/
theorem stays_set_list {n : Tagged} {name : String} {slots slots' : List (Option Tagged)}
    (h : n.get? name = some (.list slots)) (hslots : ∀ c, some c ∈ slots → i ∈ c.ids → some c ∈ slots')
    (place : Place) : place.Stays i n (n.set name (.list slots')) := by
  cases place with
  | root => trivial
  | inField j other =>
      intro hholds
      obtain ⟨⟨field, index⟩, c, hstep, hcase⟩ := holds_iff.mp hholds
      have hmem : i ∈ c.ids := hcase.elim (fun hlast => hlast.2.2 ▸ mem_ids_self c) Holds.mem_ids
      apply holds_iff.mpr
      by_cases hfield : field = name
      · subst hfield
        cases index with
        | none => cases h.symm.trans (step?_child_eq_some_iff.mp hstep)
        | some k =>
            obtain ⟨found, hfound, hk⟩ := step?_slot_eq_some_iff.mp hstep
            cases h.symm.trans hfound
            obtain ⟨k', hk'⟩ := List.mem_iff_getElem?.mp (hslots c (List.mem_of_getElem? hk) hmem)
            refine ⟨⟨field, some k'⟩, c, ?_, hcase⟩
            exact step?_slot_eq_some_iff.mpr ⟨slots', get?_set_self .., hk'⟩
      · refine ⟨⟨field, index⟩, c, ?_, hcase⟩
        rw [step?_congr (get?_set_of_ne hfield), hstep]

/-! ## Calls that spare a node -/

/-- If the call meets the node `i`, it keeps what it meets, and if it writes to it, it leaves the node in its
place. The root is kept in any case. -/
def Call.Spares (call : Call) (place : Place) (i : Nat) : Prop :=
  i ∈ call.given.ids → (place ≠ .root → call.outcome = .kept) ∧
    (call.edited = true → call.exchanged = false ∧ place.Stays i call.given call.left)

/-- There is a node at the position, and the node `i` is not in it. -/
def Lacks (t : Tagged) (path : Path) (i : Nat) : Prop := ∃ n, t.at? path = some n ∧ i ∉ n.ids

theorem Passage.distinct {path : Path} {waiting : List Nat} {before after : Site σ}
    (h : Passage path [] waiting before after) (hdistinct : Distinct before.forest.next before.ids) :
    Distinct after.forest.next after.ids := by
  refine (h.conserved.mono (fun _ => Nat.le_refl _) fun j => ?_).distinct hdistinct
  rw [List.count_append]
  exact Nat.le_add_left ..

/-- A call that spares the node does so in the tree. What it does not keep lacks the node. -/
theorem stands_putBack {site : Site σ} {path : Path} {given left : Tagged} {place : Place}
    (hdetach : site.tree.detach site.forest.next path = some (given, left)) {scene : Scene σ η}
    (hconduct : Conduct (⟨left, path, given, .kept, none, false, false⟩, site.state,
      Walk.standIn site.forest path) scene)
    (hdistinct : Distinct site.forest.next site.ids) (hstands : site.tree.Stands place i)
    (hspares : ∀ call ∈ (Walk.putBack site path given left scene).calls, call.Spares place i) :
    (Walk.putBack site path given left scene).tree.Stands place i ∧
      (scene.1.outcome ≠ .kept → (Walk.putBack site path given left scene).tree.Lacks path i) := by
  obtain ⟨c, state, forest⟩ := scene
  obtain ⟨hat, hattach⟩ := attach_detach hdetach
  have hcall : i ∈ given.ids → (place ≠ .root → c.outcome = .kept) ∧
      (c.edited = true → c.exchanged = false ∧ place.Stays i given c.node) :=
    hspares _ (List.mem_cons_self ..)
  have hkeeps : i ∈ given.ids → c.outcome = .kept := by
    intro hmem
    cases place with
    | inField j name => exact (hcall hmem).1 (by simp)
    | root =>
        have hroot : site.tree.id = i := hstands
        have honce : ∀ k, site.tree.ids.count k ≤ 1 :=
          List.nodup_iff_count_le_one.mp (List.nodup_append.mp hdistinct.nodup).1
        exact hconduct.kept_of_root (path_eq_nil honce hat (hroot ▸ hmem)) rfl
  have hleft : i ∈ given.ids → c.node.id = given.id ∧ place.Stays i given c.node := by
    intro hmem
    have hkept := hkeeps hmem
    cases hedited : c.edited with
    | false =>
        have hnode : c.node = given := (hconduct.node_of_kept hkept hedited).2.2
        exact ⟨congrArg Tagged.id hnode, hnode ▸ .refl place i given⟩
    | true =>
        obtain ⟨hsame, hstays⟩ := (hcall hmem).2 hedited
        exact ⟨(hconduct.id_of_kept hkept hsame).2.2, hstays⟩
  simp only [Walk.putBack, hattach]
  constructor
  · apply hstands.modifyAt hat
    · intro hgiven
      exact (hleft (hgiven ▸ mem_ids_self given)).1.trans hgiven
    · cases place with
      | root => trivial
      | inField j name => exact fun hholds => (hleft hholds.mem_ids).2 hholds
  · intro hdecided
    have hgiven : i ∉ given.ids := fun hmem => hdecided (hkeeps hmem)
    refine ⟨c.node, by rw [at?_modifyAt, hat]; rfl, fun hmem => ?_⟩
    -- The node is in the tree, so it is neither at hand nor new.
    have htree : i ∈ site.tree.ids := hstands.mem_ids
    have hforest : i ∉ site.forest.ids := (List.disjoint_of_nodup_append hdistinct.nodup) htree
    have hnext : i < site.forest.next := hdistinct.lt_next i (List.mem_append_left _ htree)
    have hle := (Walk.conserved_standIn site.forest path []).next_le
    have hcount := hconduct.conserved.count_le i
    have hpos := List.count_pos_iff.mpr hmem
    have hold : (Walk.standIn site.forest path).ids.count i = 0 := by
      rw [Forest.ids, Walk.trees_standIn]
      exact List.count_eq_zero.mpr hforest
    rw [count_range'_of_lt (Nat.lt_of_lt_of_le hnext hle)] at hcount
    simp only [Cursor.ids, Outcome.trees, idsOfTrees_nil, List.count_append, List.count_nil, hold,
      List.count_eq_zero.mpr hgiven] at hcount
    omega

namespace Walk

/-- From a tree where the node stands in its place, if all calls spare it, the walk comes to one where it
does. -/
def Guards (place : Place) (i : Nat) (pre : Tagged → Prop) (w : Walk σ α) (post : α → Tagged → Prop) : Prop :=
  ∀ site, Distinct site.forest.next site.ids → site.tree.Stands place i → pre site.tree →
    match w site with
    | .ok a after => (∀ call ∈ after.calls, call.Spares place i) →
        after.tree.Stands place i ∧ post a after.tree
    | .error _ after => (∀ call ∈ after.calls, call.Spares place i) → after.tree.Stands place i

variable {place : Place}

namespace Guards

variable {pre : Tagged → Prop} {w : Walk σ α} {post : α → Tagged → Prop}

theorem pure {a : α} (h : ∀ t, pre t → post a t) : Guards place i pre (pure a : Walk σ α) post :=
  fun _ _ hstands hpre _ => ⟨hstands, h _ hpre⟩

theorem throw (stop : Stop) : Guards place i pre (throw stop : Walk σ α) post :=
  fun _ _ hstands _ _ => hstands

/-- What follows spares the node only if what came before did. -/
theorem bind {path path' : Path} {waiting : α → List Nat} {before : α → List Nat} {behind : β → List Nat}
    {next : α → Walk σ β} {post' : β → Tagged → Prop} (hpass : Passes path [] w waiting)
    (hnextPass : ∀ a, Passes path' (before a) (next a) behind) (h : Guards place i pre w post)
    (hnext : ∀ a, Guards place i (post a) (next a) post') : Guards place i pre (w >>= next) post' := by
  intro site hdistinct hstands hpre
  show match EStateM.bind w next site with | .ok _ _ => _ | .error _ _ => _
  have hw := h site hdistinct hstands hpre
  have hfirst := hpass site
  unfold EStateM.bind
  cases hcase : w site with
  | error stop after =>
      rw [hcase] at hw
      exact hw
  | ok a between =>
      rw [hcase] at hw hfirst
      have hsecond := hnextPass a between
      have hrest := hnext a between (hfirst.distinct hdistinct)
      dsimp only at hw hrest hsecond ⊢
      cases hcase' : next a between with
      | error stop after =>
          rw [hcase'] at hrest hsecond
          intro hspares
          obtain ⟨hbetween, hpost⟩ := hw fun call hmem => hspares call (hsecond.calls_suffix.mem hmem)
          exact hrest hbetween hpost hspares
      | ok b after =>
          rw [hcase'] at hrest hsecond
          intro hspares
          obtain ⟨hbetween, hpost⟩ := hw fun call hmem => hspares call (hsecond.calls_suffix.mem hmem)
          exact hrest hbetween hpost hspares

theorem map {g : α → β} {post' : β → Tagged → Prop} (h : Guards place i pre w post)
    (hpost : ∀ a t, post a t → post' (g a) t) :
    Guards place i pre (w >>= fun a => Pure.pure (g a)) post' := by
  intro site hdistinct hstands hpre
  show match EStateM.bind w (fun a => Pure.pure (g a)) site with | .ok _ _ => _ | .error _ _ => _
  have hw := h site hdistinct hstands hpre
  unfold EStateM.bind
  cases hcase : w site with
  | error stop after =>
      rw [hcase] at hw
      exact hw
  | ok a after =>
      rw [hcase] at hw
      intro hspares
      obtain ⟨hafter, hpost'⟩ := hw hspares
      exact ⟨hafter, hpost a _ hpost'⟩

theorem weaken {pre' : Tagged → Prop} (h : Guards place i pre' w post) (himp : ∀ t, pre t → pre' t) :
    Guards place i pre w post :=
  fun site hdistinct hstands hpre => h site hdistinct hstands (himp _ hpre)

/-- What is known of the tree before is known behind, as far as the walk is confined. -/
theorem confine {path : Path} {waiting : α → List Nat} {post' : α → Tagged → Prop}
    (h : Guards place i (fun _ => True) w post) (hpass : Passes path [] w waiting)
    (himp : ∀ a t u, pre t → Confined path t u → post a u → post' a u) :
    Guards place i pre w post' := by
  intro site hdistinct hstands hpre
  have hw := h site hdistinct hstands trivial
  have hpassage := hpass site
  cases hcase : w site with
  | error stop after =>
      rw [hcase] at hw
      exact hw
  | ok a after =>
      rw [hcase] at hw hpassage
      intro hspares
      obtain ⟨hafter, hpost⟩ := hw hspares
      exact ⟨hafter, himp a _ _ hpre hpassage.confined hpost⟩

end Guards

theorem guards_act (path : Path) (script : Script σ η) :
    Guards place i (fun _ => True) (act path script) fun r t => r.1 ≠ .kept → t.Lacks path i := by
  intro site hdistinct hstands _
  unfold act
  cases hdetach : site.tree.detach site.forest.next path with
  | none => exact fun _ => hstands
  | some taken =>
      obtain ⟨given, left⟩ := taken
      have hconduct := conduct_play script (⟨left, path, given, .kept, none, false, false⟩, site.state,
        standIn site.forest path)
      dsimp only
      generalize script.play _ = played at hconduct
      obtain ⟨error, scene⟩ := played
      cases error with
      | none => exact stands_putBack hdetach hconduct hdistinct hstands
      | some error => exact fun hspares => (stands_putBack hdetach hconduct hdistinct hstands hspares).1

/-! ### Lists -/

/-- The first slots of the list have been visited, and those that will go lack the node. -/
def Sifted (i : Nat) (path : Path) (name : String) (fates : List Settled) (rest : Nat) (t : Tagged) : Prop :=
  ∃ n slots, t.at? path = some n ∧ n.get? name = some (.list slots) ∧
    slots.length = fates.length + rest ∧
    ∀ (k : Nat) (fate : Settled), fates[k]? = some fate → fate.isKeep = false →
      ∃ c : Tagged, slots[k]? = some (some c) ∧ i ∉ c.ids

/-- What changes in one slot leaves the others. -/
theorem get?_modifyAt_slot {n : Tagged} {name : String} {slots : List (Option Tagged)}
    (h : n.get? name = some (.list slots)) (k : Nat) (f : Tagged → Tagged) :
    ∃ slots', (n.modifyAt f [⟨name, some k⟩]).get? name = some (.list slots') ∧
      slots'.length = slots.length ∧ ∀ k', k' ≠ k → slots'[k']? = slots[k']? := by
  cases hstep : n.step? ⟨name, some k⟩ with
  | none =>
      refine ⟨slots, ?_, rfl, fun _ _ => rfl⟩
      simp only [modifyAt, hstep, h]
  | some c =>
      refine ⟨slots.set k (some (f c)), ?_, List.length_set .., fun k' hne => ?_⟩
      · rw [modifyAt_cons hstep, fill_slot h]
        exact get?_set_self ..
      · exact List.getElem?_set_ne (Ne.symm hne)

/-- One more slot has been visited. -/
theorem Sifted.append {path : Path} {name : String} {done : List Settled} {rest : Nat} {t u : Tagged}
    {fate : Settled} (h : Sifted i path name done (rest + 1) t)
    (hconfined : Confined (path ++ [⟨name, some done.length⟩]) t u)
    (hfate : fate.isKeep = false → u.Lacks (path ++ [⟨name, some done.length⟩]) i) :
    Sifted i path name (done ++ [fate]) rest u := by
  obtain ⟨n, slots, hat, hget, hlength, hdone⟩ := h
  obtain ⟨f, rfl⟩ := hconfined
  obtain ⟨slots', hget', hlength', hother⟩ := get?_modifyAt_slot hget done.length f
  have hat' : (t.modifyAt f (path ++ [⟨name, some done.length⟩])).at? path
      = some (n.modifyAt f [⟨name, some done.length⟩]) := by
    rw [modifyAt_append, at?_modifyAt, hat]
    rfl
  refine ⟨_, slots', hat', hget', ?_, fun k last hk hgone => ?_⟩
  · rw [hlength', hlength, List.length_append, List.length_singleton]
    omega
  · by_cases hlt : k < done.length
    · rw [List.getElem?_append_left hlt] at hk
      rw [hother k (Nat.ne_of_lt hlt)]
      exact hdone k last hk hgone
    · -- The slot that was visited is the last one.
      have hk' : k = done.length := by
        have := (List.getElem?_eq_some_iff.mp hk).1
        rw [List.length_append, List.length_singleton] at this
        omega
      subst hk'
      rw [List.getElem?_append_right (Nat.le_refl _), Nat.sub_self] at hk
      cases hk
      obtain ⟨c, hc, hi⟩ := hfate hgone
      rw [at?_append, hat', Option.bind_some, at?_cons, Option.bind_eq_some_iff] at hc
      obtain ⟨c', hstep, hnil⟩ := hc
      cases hnil
      obtain ⟨found, hfound, hslot⟩ := step?_slot_eq_some_iff.mp hstep
      cases hget'.symm.trans hfound
      exact ⟨c, hslot, hi⟩

/-- Rebuilding the list leaves the node in its slot. -/
theorem mem_compactSlots {slots : List (Option Tagged)} {fates : List Settled}
    (hlength : slots.length = fates.length)
    (hfates : ∀ (k : Nat) (fate : Settled), fates[k]? = some fate → fate.isKeep = false →
      ∃ c : Tagged, slots[k]? = some (some c) ∧ i ∉ c.ids)
    {c : Tagged} (hc : some c ∈ slots) (hi : i ∈ c.ids) : some c ∈ compactSlots slots fates := by
  obtain ⟨k, hk⟩ := List.mem_iff_getElem?.mp hc
  have hlt : k < fates.length := hlength ▸ (List.getElem?_eq_some_iff.mp hk).1
  have hfate : fates[k]? = some fates[k] := List.getElem?_eq_getElem hlt
  have hkeep : fates[k] = .keep := by
    cases hcase : fates[k] with
    | keep => rfl
    | remove =>
        obtain ⟨c', hc', hi'⟩ := hfates k _ hfate (by rw [hcase]; rfl)
        cases hk.symm.trans hc'
        exact absurd hi hi'
    | flatten trees =>
        obtain ⟨c', hc', hi'⟩ := hfates k _ hfate (by rw [hcase]; rfl)
        cases hk.symm.trans hc'
        exact absurd hi hi'
  refine List.mem_flatMap.mpr ⟨(some c, .keep), ?_, List.mem_singleton_self _⟩
  apply List.mem_of_getElem? (i := k)
  rw [List.getElem?_zip_eq_some]
  exact ⟨hk, hkeep ▸ hfate⟩

theorem guards_settle (path : Path) (name : String) (fate : Settled) :
    Guards place i (fun t => fate.isKeep = false → t.Lacks (path ++ [⟨name, none⟩]) i)
      (settle path name fate : Walk σ Unit) fun _ _ => True := by
  cases fate with
  | keep => exact .pure fun _ _ => trivial
  | flatten trees => exact .throw _
  | remove =>
      intro site _ hstands hlacks _
      obtain ⟨c, hc, hi⟩ := hlacks rfl
      rw [at?_append, Option.bind_eq_some_iff] at hc
      obtain ⟨n, hat, hbelow⟩ := hc
      rw [at?_cons, Option.bind_eq_some_iff] at hbelow
      obtain ⟨c', hstep, hnil⟩ := hbelow
      cases hnil
      exact ⟨hstands.modifyAt hat (fun hid => hid) (stays_erase hstep hi place), trivial⟩

theorem guards_rebuild (path : Path) (name : String) (fates : List Settled) :
    Guards place i (Sifted i path name fates 0) (rebuild path name fates : Walk σ Unit)
      fun _ _ => True := by
  unfold rebuild
  split
  · exact .pure fun _ _ => trivial
  · rintro site - hstands ⟨n, slots, hat, hget, hlength, hfates⟩
    rw [nodeAt_bind, hat]
    dsimp only
    rw [slots?_eq_some_iff.mpr hget]
    intro _
    refine ⟨hstands.modifyAt hat (fun hid => hid) ?_, trivial⟩
    exact stays_set_list hget (fun c hc hi => mem_compactSlots hlength hfates hc hi) place

section

variable {below : Path → Walk σ Settled} (hpass : ∀ path, Passes path [] (below path) Settled.ids)
  (h : ∀ path, Guards place i (fun _ => True) (below path) fun fate t =>
    fate.isKeep = false → t.Lacks path i)
include hpass h

theorem guards_single (path : Path) (name : String) :
    Guards place i (fun _ => True) (single below path name) fun _ _ => True :=
  (h _).bind (hpass _).up (passes_settle path name) (guards_settle path name)

theorem guards_slots (path : Path) (name : String) (done : List Settled) (occupied : List Bool) :
    Guards place i (Sifted i path name done occupied.length)
      (slots below path name done.length occupied)
      fun fates => Sifted i path name (done ++ fates) 0 := by
  induction occupied generalizing done with
  | nil => exact .pure fun t ht => by rwa [List.append_nil]
  | cons present occupied ih =>
      have hrestPass : ∀ fate : Settled, Passes path []
          (slots below path name (done.length + 1) occupied >>= fun fates => pure (fate :: fates))
          fun _ => [] := fun fate =>
        (passes_slots hpass path name _ occupied).bind fun _ => .pure fun _ => Nat.zero_le _
      have hrest : ∀ fate : Settled, Guards place i (Sifted i path name (done ++ [fate]) occupied.length)
          (slots below path name (done.length + 1) occupied >>= fun fates => pure (fate :: fates))
          fun fates => Sifted i path name (done ++ fates) 0 := by
        intro fate
        have hslots := ih (done ++ [fate])
        rw [List.length_append, List.length_singleton] at hslots
        refine hslots.map fun fates t ht => ?_
        rwa [List.append_assoc, List.singleton_append] at ht
      cases present with
      | false =>
          apply (hrest .keep).weaken
          intro t ht
          exact ht.append (.refl ..) fun hgone => by cases hgone
      | true =>
          refine Guards.bind (hpass _).up hrestPass ((h _).confine (hpass _) ?_) hrest
          intro fate t u ht hconfined hfate
          exact ht.append hconfined hfate

theorem guards_list (path : Path) (name : String) (occupied : List Bool) :
    Guards place i (Sifted i path name [] occupied.length) (list below path name occupied)
      fun _ _ => True :=
  (guards_slots hpass h path name [] occupied).bind (passes_slots hpass path name 0 occupied)
    (passes_rebuild path name) (guards_rebuild path name)

theorem guards_field (path : Path) (name : String) :
    Guards place i (fun _ => True) (field below path name) fun _ _ => True := by
  intro site hdistinct hstands _
  unfold field
  rw [nodeAt_bind]
  cases hat : site.tree.at? path with
  | none => exact fun _ => hstands
  | some n =>
      dsimp only
      cases hget : n.get? name with
      | none => exact fun _ => ⟨hstands, trivial⟩
      | some content =>
          cases content with
          | value json => exact fun _ => ⟨hstands, trivial⟩
          | child c => exact guards_single hpass h path name site hdistinct hstands trivial
          | list slots =>
              apply guards_list hpass h path name _ site hdistinct hstands
              refine ⟨n, slots, hat, hget, by simp, fun k fate hk => ?_⟩
              cases hk

theorem guards_children (path : Path) :
    Guards place i (fun _ => True) (children below path) fun _ _ => True := by
  have hfields : ∀ names : List String,
      Passes path [] (names.forM (field below path)) (fun _ => []) ∧
        Guards place i (fun _ => True) (names.forM (field below path)) fun _ _ => True := by
    intro names
    induction names with
    | nil => exact ⟨.pure fun _ => Nat.le_refl _, .pure fun _ _ => trivial⟩
    | cons name names ih =>
        have hfield := passes_field hpass path name
        exact ⟨hfield.bind fun _ => ih.1,
          (guards_field hpass h path name).bind hfield (fun _ => ih.1) fun _ => ih.2⟩
  intro site hdistinct hstands _
  unfold children
  rw [nodeAt_bind]
  cases site.tree.at? path with
  | none => exact fun _ => hstands
  | some n => exact (hfields _).2 site hdistinct hstands trivial

end

end Walk

namespace Visitor

variable {place : Place}

theorem guards_finish (v : Visitor σ η) (path : Path) (hook : Option η) :
    Walk.Guards place i (fun _ => True) (v.finish path hook) fun fate t =>
      fate.isKeep = false → t.Lacks path i := by
  cases hook with
  | none => exact .pure fun _ _ hgone => by cases hgone
  | some hook =>
      apply (Walk.guards_act path (v.leave hook)).map
      intro r t hlacks hgone
      apply hlacks
      intro hkept
      rw [hkept] at hgone
      cases hgone

theorem guards_follow (v : Visitor σ η) {below : Path → Walk σ Settled}
    (hpass : ∀ path, Walk.Passes path [] (below path) Settled.ids)
    (h : ∀ path, Walk.Guards place i (fun _ => True) (below path) fun fate t =>
      fate.isKeep = false → t.Lacks path i)
    (path : Path) (r : Outcome × Option η) :
    Walk.Guards place i (fun t => r.1 ≠ .kept → t.Lacks path i) (v.follow below path r) fun fate t =>
      fate.isKeep = false → t.Lacks path i := by
  obtain ⟨outcome, hook⟩ := r
  cases outcome with
  | removed => exact .pure fun t hlacks _ => hlacks (by simp)
  | spliced trees => exact .pure fun t hlacks _ => hlacks (by simp)
  | replaced => exact (guards_finish v path hook).weaken fun _ _ => trivial
  | kept =>
      have hchildren := (Walk.guards_children hpass h path).bind (Walk.passes_children hpass path)
        (fun _ => passes_finish v path hook) fun _ => guards_finish v path hook
      exact hchildren.weaken fun _ _ => trivial

theorem guards_walk (v : Visitor σ η) (levels : Nat) (path : Path) :
    Walk.Guards place i (fun _ => True) (v.walk levels path) fun fate t =>
      fate.isKeep = false → t.Lacks path i := by
  induction levels generalizing path with
  | zero => exact .throw _
  | succ levels ih =>
      exact (Walk.guards_act path v.enter).bind (Walk.passes_act path v.enter)
        (passes_follow v (passes_walk v levels) path) (guards_follow v (passes_walk v levels) ih path)

/-- **A node that a walk keeps in its place keeps its identity**: where it stood, it stands. -/
theorem stands_run (v : Visitor σ η) (levels : Nat) {tree : Tagged} (state : σ) {forest : Forest}
    (hdistinct : Distinct forest.next (tree.ids ++ forest.ids)) (hstands : tree.Stands place i)
    (hspares : ∀ call ∈ (v.run levels tree state forest).site.calls, call.Spares place i) :
    (v.run levels tree state forest).site.tree.Stands place i := by
  have hwalk := guards_walk v levels [] ⟨tree, state, forest, []⟩ hdistinct hstands trivial
  unfold run at hspares ⊢
  cases hcase : v.walk levels [] ⟨tree, state, forest, []⟩ with
  | error stop site =>
      rw [hcase] at hwalk hspares
      exact hwalk hspares
  | ok fate site =>
      rw [hcase] at hwalk hspares
      exact (hwalk hspares).1

end Visitor

end Minifier.Tagged
