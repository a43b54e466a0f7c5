import Minifier.Proofs.Mangle.Sites

/-!
# What mangling leaves alone

`Respelled n m` says that `m` is the node `n` but for spellings. Kinds, the names of fields and their
order, the lengths of lists, the holes in them and all opaque values are the same, with two exceptions:
the `name` of an identifier, and the flag `shorthand` of a property, which may be cleared. What stands in
a field that a traversal does not follow is the same altogether.

Each step of a mangling run respells the tree, so the whole run does (`respelled_mangleWith`).
-/

namespace Minifier.Mangle

open Node

variable {kind : Kind} {name : String} {seen : List String} {content content' : Field Node}
  {fields fields' : List (String × Field Node)} {slots slots' : List (Option Node)}

mutual

/-- The second node is the first one respelled. -/
inductive Respelled : Node → Node → Prop where
  | node {kind : Kind} {fields fields' : List (String × Field Node)} :
      RespelledFields kind [] fields fields' → Respelled ⟨kind, fields⟩ ⟨kind, fields'⟩

/-- The fields of a kind, behind those that were `seen`. -/
inductive RespelledFields :
    Kind → List String → List (String × Field Node) → List (String × Field Node) → Prop where
  | nil {kind : Kind} {seen : List String} : RespelledFields kind seen [] []
  | cons {kind : Kind} {seen : List String} {name : String} {content content' : Field Node}
      {fields fields' : List (String × Field Node)} :
      RespelledField kind seen name content content' →
      RespelledFields kind (name :: seen) fields fields' →
      RespelledFields kind seen ((name, content) :: fields) ((name, content') :: fields')

/-- The content of a field. Only the first field of a name counts; any other one is the same. -/
inductive RespelledField : Kind → List String → String → Field Node → Field Node → Prop where
  | same {kind : Kind} {seen : List String} {name : String} {content : Field Node} :
      RespelledField kind seen name content content
  | name {kind : Kind} {seen : List String} {name old new : String}
      (hkind : kind = .identifier ∨ kind = .jsxIdentifier) (hname : name = "name")
      (hseen : name ∉ seen) :
      RespelledField kind seen name (.value (.string old)) (.value (.string new))
  | shorthand {kind : Kind} {seen : List String} {name : String} (hkind : kind = .property)
      (hname : name = "shorthand") (hseen : name ∉ seen) :
      RespelledField kind seen name (.value (.bool true)) (.value (.bool false))
  | child {kind : Kind} {seen : List String} {name : String} {n m : Node}
      (hname : name ∈ kind.fields) (hseen : name ∉ seen) :
      Respelled n m → RespelledField kind seen name (.child n) (.child m)
  | list {kind : Kind} {seen : List String} {name : String} {slots slots' : List (Option Node)}
      (hname : name ∈ kind.fields) (hseen : name ∉ seen) :
      RespelledSlots slots slots' → RespelledField kind seen name (.list slots) (.list slots')

/-- The slots of a list. -/
inductive RespelledSlots : List (Option Node) → List (Option Node) → Prop where
  | nil : RespelledSlots [] []
  | hole {slots slots' : List (Option Node)} :
      RespelledSlots slots slots' → RespelledSlots (none :: slots) (none :: slots')
  | filled {n m : Node} {slots slots' : List (Option Node)} :
      Respelled n m → RespelledSlots slots slots' →
      RespelledSlots (some n :: slots) (some m :: slots')

end

/-! ## An order -/

theorem RespelledFields.refl (kind : Kind) (seen : List String)
    (fields : List (String × Field Node)) : RespelledFields kind seen fields fields := by
  induction fields generalizing seen with
  | nil => exact .nil
  | cons entry fields ih => exact .cons .same (ih _)

theorem Respelled.refl : (n : Node) → Respelled n n
  | ⟨kind, fields⟩ => .node (.refl kind [] fields)

theorem RespelledSlots.refl (slots : List (Option Node)) : RespelledSlots slots slots := by
  induction slots with
  | nil => exact .nil
  | cons slot slots ih =>
      cases slot with
      | none => exact .hole ih
      | some n => exact .filled (.refl n) ih

mutual

theorem Respelled.trans {n m l : Node} : Respelled n m → Respelled m l → Respelled n l
  | .node h, .node h' => .node (h.trans h')
termination_by structural h => h

theorem RespelledFields.trans {kind : Kind} {seen : List String}
    {fields fields' fields'' : List (String × Field Node)} :
    RespelledFields kind seen fields fields' → RespelledFields kind seen fields' fields'' →
      RespelledFields kind seen fields fields''
  | .nil, .nil => .nil
  | .cons h hs, .cons h' hs' => .cons (h.trans h') (hs.trans hs')
termination_by structural h => h

theorem RespelledField.trans {kind : Kind} {seen : List String} {name : String}
    {content content' content'' : Field Node} :
    RespelledField kind seen name content content' →
      RespelledField kind seen name content' content'' →
      RespelledField kind seen name content content''
  | .same, h' => h'
  | .name hkind hname hseen, .same => .name hkind hname hseen
  | .name hkind hname hseen, .name _ _ _ => .name hkind hname hseen
  | .shorthand hkind hname hseen, .same => .shorthand hkind hname hseen
  | .child hname hseen h, .same => .child hname hseen h
  | .child hname hseen h, .child _ _ h' => .child hname hseen (h.trans h')
  | .list hname hseen h, .same => .list hname hseen h
  | .list hname hseen h, .list _ _ h' => .list hname hseen (h.trans h')
termination_by structural h => h

theorem RespelledSlots.trans {slots slots' slots'' : List (Option Node)} :
    RespelledSlots slots slots' → RespelledSlots slots' slots'' → RespelledSlots slots slots''
  | .nil, .nil => .nil
  | .hole h, .hole h' => .hole (h.trans h')
  | .filled h hs, .filled h' hs' => .filled (h.trans h') (hs.trans hs')
termination_by structural h => h

end

/-! ## One place -/

/-- Respelling the content of a field respells the node. -/
theorem RespelledFields.set (hget : Entries.get? fields name = some content)
    (hseen : name ∉ seen)
    (h : ∀ seen, name ∉ seen → RespelledField kind seen name content content') :
    RespelledFields kind seen fields (Entries.set fields name content') := by
  induction fields generalizing seen with
  | nil => cases hget
  | cons entry fields ih =>
      obtain ⟨other, content₁⟩ := entry
      by_cases hother : other = name
      · subst hother
        have hcontent : content₁ = content := by simpa [Entries.get?] using hget
        subst hcontent
        rw [Entries.set, if_pos rfl]
        exact .cons (h seen hseen) (.refl kind _ fields)
      · rw [Entries.get?, if_neg hother] at hget
        rw [Entries.set, if_neg hother]
        refine .cons .same (ih hget ?_)
        simp [Ne.symm hother, hseen]

theorem Respelled.set {n : Node} (hget : n.get? name = some content)
    (h : ∀ seen, name ∉ seen → RespelledField n.kind seen name content content') :
    Respelled n (n.set name content') := by
  obtain ⟨kind, fields⟩ := n
  exact .node (.set hget (by simp) h)

theorem RespelledSlots.set {i : Nat} {c c' : Node} (h : Respelled c c')
    (hslot : slots[i]? = some (some c)) : RespelledSlots slots (slots.set i (some c')) := by
  induction slots generalizing i with
  | nil => cases hslot
  | cons slot slots ih =>
      cases i with
      | zero =>
          cases hslot
          exact .filled h (.refl slots)
      | succ i =>
          have hrest := ih hslot
          cases slot with
          | none => exact .hole hrest
          | some n => exact .filled (.refl n) hrest

/-- Respelling a child that a traversal meets respells the parent. -/
theorem Respelled.fill {n c c' : Node} {step : Step} (hfield : step.field ∈ n.kind.fields)
    (hstep : n.step? step = some c) (h : Respelled c c') : Respelled n (n.fill step (some c')) := by
  obtain ⟨field, index⟩ := step
  cases index with
  | none => exact .set (child?_eq_some_iff.mp hstep) fun _ hseen => .child hfield hseen h
  | some i =>
      obtain ⟨slots, hget, hslot⟩ := step?_slot_eq_some_iff.mp hstep
      simp only [Node.fill, slots?_eq_some_iff.mpr hget]
      exact .set hget fun _ hseen => .list hfield hseen (.set h hslot)

/-- Respelling what a traversal meets at a position respells the tree. -/
theorem Respelled.modifyAt {t n : Node} {f : Node → Node} {path : Path} (hmet : t.met? path = some n)
    (h : Respelled n (f n)) : Respelled t (t.modifyAt f path) := by
  induction path generalizing t with
  | nil =>
      cases hmet
      exact h
  | cons step rest ih =>
      rw [met?_cons] at hmet
      split at hmet
      · rename_i hfield
        obtain ⟨child, hstep, hchild⟩ := Option.bind_eq_some_iff.mp hmet
        simp only [Node.modifyAt, hstep]
        exact .fill hfield hstep (ih hchild)
      · cases hmet

theorem value?_eq_some_iff {n : Node} {json : Json} :
    n.value? name = some json ↔ n.get? name = some (.value json) := by
  unfold value?
  cases n.get? name with
  | none => simp
  | some content => cases content <;> simp [Field.value?]

theorem name?_eq_some_iff {n : Node} {old : String} :
    n.name? = some old ↔ n.get? "name" = some (.value (.string old)) := by
  rw [← value?_eq_some_iff]
  unfold name? text?
  cases n.value? "name" with
  | none => simp
  | some json => cases json <;> simp [Json.string?]

theorem flag_eq_true_iff {n : Node} :
    n.flag name = true ↔ n.get? name = some (.value (.bool true)) := by
  rw [← value?_eq_some_iff]
  unfold flag
  cases n.value? name with
  | none => simp
  | some json => cases json <;> simp [Json.bool?]

theorem respelled_setName {n : Node} {old : String} (hkind : isNamed n = true)
    (hname : n.name? = some old) (new : String) : Respelled n (n.setName new) := by
  refine .set (name?_eq_some_iff.mp hname) fun _ hseen => .name ?_ rfl hseen
  simpa [isNamed] using hkind

theorem respelled_expand {n : Node} (hkind : n.kind = .property)
    (hflag : n.flag "shorthand" = true) :
    Respelled n (n.setValue "shorthand" (.bool false)) :=
  .set (flag_eq_true_iff.mp hflag) fun _ hseen => .shorthand hkind rfl hseen

/-! ## Every place -/

theorem Respelled.kind_eq {n m : Node} (h : Respelled n m) : m.kind = n.kind := by
  cases h
  rfl

theorem RespelledFields.get? (h : RespelledFields kind seen fields fields')
    (hget : Entries.get? fields name = some content) :
    ∃ content' seen', Entries.get? fields' name = some content' ∧
      RespelledField kind seen' name content content' := by
  induction fields generalizing seen fields' with
  | nil => cases hget
  | cons entry fields ih =>
      cases h with
      | @cons _ _ other content₁ content₁' _ fields' h hs =>
          by_cases hother : other = name
          · subst hother
            have hcontent : content₁ = content := by simpa [Entries.get?] using hget
            subst hcontent
            exact ⟨content₁', seen, by simp [Entries.get?], h⟩
          · rw [Entries.get?, if_neg hother] at hget
            obtain ⟨content', seen', hget', h'⟩ := ih hs hget
            exact ⟨content', seen', by rw [Entries.get?, if_neg hother, hget'], h'⟩

theorem Respelled.get? {n m : Node} (h : Respelled n m) (hget : n.get? name = some content) :
    ∃ content' seen, m.get? name = some content' ∧
      RespelledField n.kind seen name content content' := by
  cases h with
  | node h => exact h.get? hget

theorem RespelledSlots.getElem? {i : Nat} {c : Node} (h : RespelledSlots slots slots')
    (hslot : slots[i]? = some (some c)) : ∃ c', slots'[i]? = some (some c') ∧ Respelled c c' := by
  induction slots generalizing i slots' with
  | nil => cases hslot
  | cons slot slots ih =>
      cases h with
      | hole hs =>
          cases i with
          | zero => cases hslot
          | succ i =>
              have hrest := ih hs hslot
              exact hrest
      | @filled _ m _ _ h hs =>
          cases i with
          | zero =>
              cases hslot
              exact ⟨m, rfl, h⟩
          | succ i =>
              have hrest := ih hs hslot
              exact hrest

theorem Respelled.step? {n m c : Node} {step : Step} (h : Respelled n m)
    (hstep : n.step? step = some c) : ∃ c', m.step? step = some c' ∧ Respelled c c' := by
  obtain ⟨field, index⟩ := step
  cases index with
  | none =>
      obtain ⟨content', seen, hget, hfield⟩ := h.get? (child?_eq_some_iff.mp hstep)
      cases hfield with
      | same => exact ⟨c, child?_eq_some_iff.mpr hget, .refl c⟩
      | @child _ _ _ _ c' _ _ hc => exact ⟨c', child?_eq_some_iff.mpr hget, hc⟩
  | some i =>
      obtain ⟨slots, hslots, hslot⟩ := step?_slot_eq_some_iff.mp hstep
      obtain ⟨content', seen, hget, hfield⟩ := h.get? hslots
      cases hfield with
      | same => exact ⟨c, step?_slot_eq_some_iff.mpr ⟨slots, hget, hslot⟩, .refl c⟩
      | @list _ _ _ _ slots' _ _ hs =>
          obtain ⟨c', hslot', hc⟩ := hs.getElem? hslot
          exact ⟨c', step?_slot_eq_some_iff.mpr ⟨slots', hget, hslot'⟩, hc⟩

/-- What a traversal meets in a tree it meets, respelled, in the respelled tree. -/
theorem Respelled.met? {t u n : Node} {path : Path} (h : Respelled t u)
    (hmet : t.met? path = some n) : ∃ m, u.met? path = some m ∧ Respelled n m := by
  induction path generalizing t u with
  | nil =>
      cases hmet
      exact ⟨u, rfl, h⟩
  | cons step rest ih =>
      rw [met?_cons] at hmet
      split at hmet
      · rename_i hfield
        obtain ⟨child, hstep, hchild⟩ := Option.bind_eq_some_iff.mp hmet
        obtain ⟨child', hstep', hrespelled⟩ := h.step? hstep
        obtain ⟨m, hm, hnode⟩ := ih hrespelled hchild
        refine ⟨m, ?_, hnode⟩
        rw [met?_cons, h.kind_eq, if_pos hfield, hstep']
        exact hm
      · cases hmet

/-- A name is respelled as a name. -/
theorem Respelled.exists_name? {n m : Node} {old : String} (h : Respelled n m)
    (hname : n.name? = some old) : ∃ new, m.name? = some new := by
  obtain ⟨content', seen, hget, hfield⟩ := h.get? (name?_eq_some_iff.mp hname)
  cases hfield with
  | same => exact ⟨old, name?_eq_some_iff.mpr hget⟩
  | @name _ _ _ _ new => exact ⟨new, name?_eq_some_iff.mpr hget⟩

/-! ## The run -/

variable {k : Knowledge} {p : Progress}

theorem respelled_declare {site : Site} {n : Node} {old : String}
    (hmet : p.tree.met? site.path = some n) (hkind : isNamed n = true)
    (hname : n.name? = some old) : Respelled p.tree (p.declare k site).tree := by
  unfold Progress.declare
  split
  · exact .modifyAt hmet (respelled_setName hkind hname _)
  · exact .refl _

theorem respelled_expandProperty {path : Path} {n : Node} (hmet : p.tree.met? path = some n)
    (hkind : n.kind = .property) : Respelled p.tree (p.expand k ⟨path, n⟩).tree := by
  unfold Progress.expand
  split
  · rename_i hflag
    split
    · split
      · exact .modifyAt hmet (respelled_expand hkind hflag)
      · exact .refl _
    · exact .refl _
  · exact .refl _

theorem respelled_rename {resolver : Scope.Resolver} {path : Path} {n : Node}
    (hmet : p.tree.met? path = some n) (hkind : isNamed n = true)
    (hsite : ∀ site, k.site? path = some site → site.path = path ∧ ∃ old, n.name? = some old) :
    Respelled p.tree (p.rename k resolver ⟨path, n⟩).tree := by
  unfold Progress.rename
  split
  · rename_i site hfound
    obtain ⟨rfl, old, hname⟩ := hsite site hfound
    split
    · exact respelled_declare hmet hkind hname
    · exact .refl _
  · split
    · exact .refl _
    · split
      · rename_i generated htarget
        obtain ⟨old, hname, _⟩ := Option.bind_eq_some_iff.mp htarget
        exact .modifyAt hmet (respelled_setName hkind hname generated)
      · exact .refl _

/-- **One visit.** -/
theorem respelled_visit {resolver : Scope.Resolver} {path : Path} {n : Node}
    (hmet : p.tree.met? path = some n)
    (hsite : ∀ site, k.site? path = some site → site.path = path ∧ ∃ old, n.name? = some old) :
    Respelled p.tree (p.visit k resolver path).tree := by
  unfold Progress.visit
  rw [at?_of_met? hmet]
  dsimp only
  split
  · rename_i hkind
    exact respelled_expandProperty hmet hkind
  · split
    · rename_i hkind
      exact respelled_rename hmet hkind hsite
    · exact .refl _

variable {t : Node}

/-- A site of the tree is an identifier with a name in every tree that it is respelled to. -/
theorem Respelled.node_of_site (h : Respelled t p.tree) {site : Site} (hsite : site ∈ sites t) :
    ∃ n old, p.tree.met? site.path = some n ∧ isNamed n = true ∧ n.name? = some old := by
  obtain ⟨n, hmet, hn⟩ := mem_sites_iff.mp hsite
  obtain ⟨hkind, hname, _⟩ := site?_eq_some_iff.mp hn
  obtain ⟨m, hm, hrespelled⟩ := h.met? hmet
  obtain ⟨new, hnew⟩ := hrespelled.exists_name? hname
  refine ⟨m, new, hm, ?_, hnew⟩
  have hkind' : m.kind = .identifier := hrespelled.kind_eq.trans hkind
  simp [isNamed, hkind']

/-- **The first pass.** -/
theorem respelled_declareAll (hk : k.sites = sites t) : Respelled t (declareAll k t).tree := by
  have hrun : ∀ (l : List Site), (∀ site ∈ l, site ∈ sites t) → ∀ p : Progress,
      Respelled t p.tree → Respelled t (l.foldl (·.declare k ·) p).tree := by
    intro l
    induction l with
    | nil => exact fun _ _ h => h
    | cons site l ih =>
        intro hl p h
        obtain ⟨n, old, hmet, hkind, hname⟩ := h.node_of_site (hl site List.mem_cons_self)
        exact ih (fun s hs => hl s (List.mem_cons_of_mem _ hs)) _
          (h.trans (respelled_declare hmet hkind hname))
  refine hrun _ (fun site hsite => ?_) _ (.refl t)
  rw [← hk]
  exact (List.mem_filter.mp hsite).1

/-- **The second pass.** -/
theorem respelled_referAll (hk : k.sites = sites t) (resolver : Scope.Resolver)
    (hp : Respelled t p.tree) : Respelled t (referAll k resolver p).tree := by
  have hrun : ∀ (l : List Path), (∀ path ∈ l, path ∈ p.tree.positions) → ∀ q : Progress,
      Respelled p.tree q.tree → Respelled p.tree (l.foldl (Progress.visit k resolver) q).tree := by
    intro l
    induction l with
    | nil => exact fun _ _ h => h
    | cons path l ih =>
        intro hl q h
        obtain ⟨n, hn⟩ := mem_positions_iff.mp (hl path List.mem_cons_self)
        obtain ⟨m, hm, _⟩ := h.met? hn
        refine ih (fun r hr => hl r (List.mem_cons_of_mem _ hr)) _ (h.trans (respelled_visit hm ?_))
        intro site hsite
        obtain ⟨hmem, hpath⟩ := (Knowledge.site?_eq_some_iff hk).mp hsite
        obtain ⟨m', old, hm', _, hname⟩ := (hp.trans h).node_of_site hmem
        rw [hpath, hm] at hm'
        cases hm'
        exact ⟨hpath, old, hname⟩
  exact hp.trans (hrun _ (fun path hpath => hpath) p (.refl p.tree))

/-- **The run.** -/
theorem respelled_mangleWith (resolver : Scope.Resolver) (options : Options) (t : Node) :
    Respelled t (mangleWith resolver options t).1 :=
  respelled_referAll (k := Knowledge.of options t) rfl resolver
    (respelled_declareAll (k := Knowledge.of options t) rfl)

end Minifier.Mangle
