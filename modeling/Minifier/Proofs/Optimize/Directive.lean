import Minifier.Proofs.Edit.Observation
import Minifier.Proofs.Optimize.Plain
import Minifier.Proofs.Optimize.Visit

/-!
# Where directives come from

A statement that is a string is a directive if it stands at the start of a program or a function. The optimizer makes
strings of operators, drops statements, and moves those of a branch up to where the `if` stood. So statements come to be
directives that were none.

`Becomes` says what a node is left as, `Opens` and `Leads` with which directives the statements of a list start when
the optimizer is through. They speak of the nodes where they stand in the tree, and a constant, or the test of an `if`,
counts by the value that it has when the optimizer comes to it. There is no other way to a directive (`Makes.emerges`).
-/

namespace Minifier.Optimize

open Node Sweep

/-! ## Statements that become directives -/

/-- The statement would be a directive at the start of a program or a function. -/
def isDirective (n : Node) : Bool := (directive? n).isSome

/-- The directives that the body of a program or a function starts with. -/
def prologue (body : Node) : List Node := (body.children "body").takeWhile isDirective

/-- The branch of an `if` for the value of the test. -/
def branch? (o : Occurrence) (test : Bool) : Option Occurrence :=
  o.child? (if test then "consequent" else "alternate")

/-- The optimizer comes to an `if` and takes the branch for the value of the test. The test and the branch that is not
taken count as they are when all below the `if` is done, which is then `left`. -/
structure Resolves (t : Node) (o : Occurrence) (v : Value) (left : Node) : Prop where
  kind_eq : o.node.kind = .ifStatement
  test : ∃ around, ComesTo t around o ∧ FieldsLeft Makes around o.node.kind.fields o.node left ∧
    (left.child? "test").bind (valueIn? around) = some v
  untaken : (branches left v.truthy).2.any declaresVar = false

/-- In its slot the node is left as a literal, or as a statement that is one. -/
inductive Becomes (t : Node) : Occurrence → Node → Prop where
  | literal {o} : o.node.kind = .literal → Becomes t o o.node
  | folded {o around m} : ComesTo t around o → foldedBy (valueIn? around) o.node = some m → Becomes t o m
  | statement {o e m} : o.node.kind = .expressionStatement → o.child? "expression" = some e → Becomes t e m →
      Becomes t o (o.node.set "expression" (.child m))
  | taken {o branch v left m} : Resolves t o v left → branch? o v.truthy = some branch → Becomes t branch m →
      Becomes t o m

mutual

/-- What a statement leaves in its list starts with the directives; the flag tells that there is nothing else. -/
inductive Opens (t : Node) : Occurrence → List Node → Bool → Prop where
  | directive {o d} : Becomes t o d → isDirective d = true → Opens t o [d] true
  | dropped {o around} : ComesTo t around o → (spotOf around).prologue = true →
      directive? o.node = some "use strict" → Opens t o [] true
  | untaken {o v left} : Resolves t o v left → branch? o v.truthy = none → Opens t o [] true
  | spliced {o branch v left block directives only} : Resolves t o v left →
      (branches left v.truthy).1 = some block → block.kind = .blockStatement → hasLexical block = false →
      branch? o v.truthy = some branch → Inside t branch directives only → Opens t o directives only
  | other {o} : Opens t o [] false

/-- In its slot a statement is left as a block or a program that starts with the directives. -/
inductive Inside (t : Node) : Occurrence → List Node → Bool → Prop where
  | body {o directives only} : o.node.kind = .program ∨ o.node.kind = .blockStatement →
      Leads t (o.children "body") directives only → Inside t o directives only
  | taken {o branch v left directives only} : Resolves t o v left → branch? o v.truthy = some branch →
      Inside t branch directives only → Inside t o directives only

/-- What is left of the statements of a list starts with the directives. -/
inductive Leads (t : Node) : List Occurrence → List Node → Bool → Prop where
  | nil : Leads t [] [] true
  | cons {o rest first second only} : Opens t o first true → Leads t rest second only →
      Leads t (o :: rest) (first ++ second) only
  | stop {o rest first} : Opens t o first false → Leads t (o :: rest) first false

end

/-- What is left in the slot of a node. -/
def residue (x : Settled × Node) : List Node := (x.1.slots (some x.2)).filterMap id

/-- What is made of a node is a directive, or starts with directives, only in these ways. -/
structure Emerges (t : Node) (o : Occurrence) (x : Settled × Node) : Prop where
  becomes : x.1 = .keep → x.2.kind = .literal ∨ isDirective x.2 = true → Becomes t o x.2
  opens : Opens t o ((residue x).takeWhile isDirective) ((residue x).all isDirective)
  inside : x.1 = .keep → x.2.kind = .program ∨ x.2.kind = .blockStatement →
    Inside t o (prologue x.2) ((x.2.children "body").all isDirective)

variable {t : Node} {o e branch : Occurrence} {around : Surroundings} {n m c r left : Node} {x : Settled × Node}
  {v : Value} {name : String} {binds : String → Bool} {P : Surroundings → Node → Settled × Node → Prop}
  {flag : Bool} {done rest pieces : List (Option Node)}

/-! ## Directives stay -/

theorem isDirective_iff : isDirective n = true ↔ ∃ text, directive? n = some text := Option.isSome_iff_exists

theorem kind_of_isDirective (h : isDirective n = true) : n.kind = .expressionStatement := by
  obtain ⟨text, htext⟩ := isDirective_iff.mp h
  exact (directive?_eq_some htext).1

theorem Makes.eq_of_literal (h : Makes around n x) (hkind : n.kind = .literal) : x = (.keep, n) := by
  have hstatement : n.kind ≠ .expressionStatement := by rw [hkind]; decide
  rcases h.turn.cases_of_ne_if (by rw [hkind]; decide) with ⟨_, hoperator, _⟩ | ⟨_, hdirective, _⟩ |
    ⟨r, hleft, hr, rfl⟩
  · rw [hkind] at hoperator
    cases hoperator
  · rw [directive?_of_ne hstatement] at hdirective
    cases hdirective
  · have hsame : r = n := by
      rw [hleft.eq_of_nil (by rw [hkind]; rfl), shorten_of_ne hstatement]
    rw [hsame]
    exact settle_of_other (by rw [hkind]; decide) (by rw [hkind]; decide) _

/-- A directive is dropped or left as it is. -/
theorem Makes.of_isDirective (h : Makes around n x) (hn : isDirective n = true) :
    x.2 = n ∧ (x.1 = .keep ∨ x.1 = .remove) := by
  obtain ⟨text, htext⟩ := isDirective_iff.mp hn
  obtain ⟨hkind, e, he, hliteral, _⟩ := directive?_eq_some htext
  rcases h.turn.cases_of_ne_if (by rw [hkind]; decide) with ⟨_, hoperator, _⟩ | ⟨_, _, rfl⟩ |
    ⟨r, hleft, hr, rfl⟩
  · rw [hkind] at hoperator
    cases hoperator
  · exact ⟨rfl, .inr rfl⟩
  · have hshort : shorten n = n := by
      apply shorten_eq_self
      rintro ⟨_, hvoid⟩
      obtain ⟨e', he', hunary, _⟩ := discardsVoid_iff.mp hvoid
      rw [he] at he'
      cases he'
      rw [hliteral] at hunary
      cases hunary
    have hget := child?_eq_some_iff.mp he
    have hsame : r = n := by
      rw [hshort, hkind] at hleft
      -- The one field of the statement is written as it is.
      cases hleft with
      | absent hnone _ =>
          rw [hget] at hnone
          cases hnone
      | field hold hnew hrest =>
          rw [hget] at hold
          cases hold
          cases hnew with
          | child hm =>
              cases hm.eq_of_literal hliteral
              cases hrest
              exact set_eq_self hget
    rw [hsame, settle_of_other (by rw [hkind]; decide) (by rw [hkind]; decide)]
    exact ⟨rfl, .inl rfl⟩

/-! ## Strings -/

/-- What is left as a literal was that literal, or a constant was put for it. -/
theorem Makes.of_literal_left (h : Makes around n (.keep, m)) (hif : n.kind ≠ .ifStatement)
    (hm : m.kind = .literal) : (n.kind = .literal ∧ m = n) ∨ foldedBy (valueIn? around) n = some m := by
  have hturn := h.turn
  generalize hx : (Settled.keep, m) = x at hturn
  cases hturn with
  | folded hfolded =>
      cases hx
      exact .inr hfolded
  | dropped _ _ => cases hx
  | @swept r _ _ hleft =>
      have hkind : r.kind = n.kind := hleft.kind_eq.trans (kind_shorten n)
      rw [← hkind] at hif
      have hsettled := kind_settle hif (spotOf around).listed
      rw [settleBy_of_ne_if hif] at hx
      rw [← hx, hkind] at hsettled
      have hn : n.kind = .literal := hsettled.symm.trans hm
      cases h.eq_of_literal hn
      exact .inl ⟨hn, rfl⟩

/-- The value that the expression for a number carries is a number or null. -/
theorem value?_ofNumber (y : Float) : (Expression.ofNumber y).value? "value" = none ∨
    (Expression.ofNumber y).value? "value" = some .null ∨
      ∃ z, (Expression.ofNumber y).value? "value" = some (.number z) := by
  unfold Expression.ofNumber
  split
  · exact .inl rfl
  · split
    · exact .inl rfl
    · unfold Expression.ofMagnitude
      split
      · exact .inl rfl
      · right
        show some (Expression.numberJson y) = _ ∨ ∃ z, some (Expression.numberJson y) = _
        unfold Expression.numberJson
        split
        · exact .inl rfl
        · exact .inl rfl
        · exact .inr ⟨_, rfl⟩
        · exact .inr ⟨_, rfl⟩
        · split
          · split <;> exact .inr ⟨_, rfl⟩
          · exact .inr ⟨_, rfl⟩

/-- The expression for a value is a string only for a string. -/
theorem eq_string_of_ofValue {text : String} (h : (Expression.ofValue v).text? "value" = some text) :
    v = .string text := by
  cases v with
  | string s =>
      cases h
      rfl
  | number y =>
      have hnumber : (Expression.ofNumber y).text? "value" = some text := h
      unfold Node.text? at hnumber
      rcases value?_ofNumber y with hvalue | hvalue | ⟨z, hvalue⟩
      · rw [hvalue] at hnumber
        cases hnumber
      · rw [hvalue] at hnumber
        cases hnumber
      · rw [hvalue] at hnumber
        cases hnumber
  | _ => cases h

/-- `!e` is no string. -/
theorem evaluate?_negated {text : String} (hkind : n.kind = .unaryExpression)
    (hoperator : n.text? "operator" = some "!") : evaluate? binds n ≠ some (.string text) := by
  intro h
  rw [evaluate?_eq] at h
  unfold valueFrom? at h
  rw [hkind] at h
  obtain ⟨operator, htext, h⟩ := Option.bind_eq_some_iff.mp h
  rw [hoperator] at htext
  cases htext
  obtain ⟨w, _, hvalue⟩ := Option.bind_eq_some_iff.mp h
  unfold Value.unary? at hvalue
  split at hvalue
  · cases hvalue
  · cases hvalue

/-! ## Statements in a list -/

theorem filterMap_map_some (nodes : List Node) : (nodes.map some).filterMap id = nodes := by
  rw [List.filterMap_map]
  exact List.filterMap_some

theorem residue_flatten (nodes : List Node) (n : Node) : residue (.flatten nodes, n) = nodes :=
  filterMap_map_some nodes

theorem Leads.of_opens {os : List Occurrence} {piece more : List Node}
    (h : Opens t o (piece.takeWhile isDirective) (piece.all isDirective))
    (h' : Leads t os (more.takeWhile isDirective) (more.all isDirective)) :
    Leads t (o :: os) ((piece ++ more).takeWhile isDirective) ((piece ++ more).all isDirective) := by
  rw [List.all_append]
  cases hall : piece.all isDirective with
  | true =>
      have hpiece : ∀ d ∈ piece, isDirective d = true := List.all_eq_true.mp hall
      rw [hall, List.takeWhile_eq_self_iff.mpr hpiece] at h
      rw [List.takeWhile_append_of_pos hpiece, Bool.true_and]
      exact .cons h h'
  | false =>
      have hstop : (piece ++ more).takeWhile isDirective = piece.takeWhile isDirective := by
        rw [List.takeWhile_append, if_neg]
        intro hlength
        have hpiece := List.takeWhile_eq_self_iff.mp ((List.takeWhile_prefix isDirective).eq_of_length hlength)
        rw [List.all_eq_true.mpr hpiece] at hall
        cases hall
      rw [hall] at h
      rw [hstop, Bool.false_and]
      exact .stop h

theorem SlotsLeft.leads
    (h : SlotsLeft (fun a c y => Emerges t ⟨a.path, c⟩ y) around n name flag done rest pieces) :
    Leads t (occupants around.path name done.length rest) ((pieces.filterMap id).takeWhile isDirective)
      ((pieces.filterMap id).all isDirective) := by
  induction h with
  | nil => exact .nil
  | hole _ ih =>
      rw [List.length_append] at ih
      exact ih
  | node _ hx _ ih =>
      have hopens := hx.opens
      rw [Surroundings.path_cons] at hopens
      rw [List.length_append] at ih
      rw [List.filterMap_append]
      exact .of_opens hopens ih

/-- **The directives at the start of a list** are some of those that were there, and then those that the statements
behind them became. -/
theorem SlotsLeft.accounted
    (h : SlotsLeft (fun a c y => Makes a c y ∧ Emerges t ⟨a.path, c⟩ y) around n name flag done rest pieces) :
    ∃ kept made only, (pieces.filterMap id).takeWhile isDirective = kept ++ made ∧
      kept.Sublist ((rest.filterMap id).takeWhile isDirective) ∧
      Leads t ((occupants around.path name done.length rest).dropWhile (isDirective ·.node)) made only := by
  induction h with
  | nil => exact ⟨[], [], true, rfl, List.Sublist.refl _, .nil⟩
  | hole _ ih =>
      rw [List.length_append] at ih
      exact ih
  | @node flag done rest pieces c x hspot hx hrest ih =>
      cases hc : isDirective c with
      | true =>
          -- It stays or goes, and what follows is still behind directives only.
          obtain ⟨hnode, hfate⟩ := hx.1.of_isDirective hc
          rw [List.length_append] at ih
          obtain ⟨kept, made, only, hpieces, hkept, hmade⟩ := ih
          have hdrop : (occupants around.path name done.length (some c :: rest)).dropWhile (isDirective ·.node)
              = (occupants around.path name (done.length + 1) rest).dropWhile (isDirective ·.node) :=
            List.dropWhile_cons_of_pos hc
          rw [List.filterMap_append, hdrop, List.filterMap_cons_some (f := id) rfl, List.takeWhile_cons_of_pos hc]
          rcases hfate with hfate | hfate
          · refine ⟨c :: kept, made, only, ?_, hkept.cons_cons c, hmade⟩
            rw [hfate, hnode]
            show (c :: pieces.filterMap id).takeWhile isDirective = _
            rw [List.takeWhile_cons_of_pos hc, hpieces]
            rfl
          · refine ⟨kept, made, only, ?_, hkept.cons c, hmade⟩
            rw [hfate]
            exact hpieces
      | false =>
          have hleads := ((SlotsLeft.node hspot hx hrest).mono (Q := fun a c y => Emerges t ⟨a.path, c⟩ y)
            fun _ _ hy => hy.2).leads
          have hsame : (occupants around.path name done.length (some c :: rest)).dropWhile (isDirective ·.node)
              = occupants around.path name done.length (some c :: rest) :=
            List.dropWhile_cons_of_neg (by simp [hc])
          rw [← hsame] at hleads
          exact ⟨[], _, _, rfl, List.nil_sublist _, hleads⟩

/-! ## What emerges from a node -/

theorem kind_ofValue (v : Value) : (Expression.ofValue v).kind ≠ .program ∧
    (Expression.ofValue v).kind ≠ .blockStatement ∧ (Expression.ofValue v).kind ≠ .expressionStatement := by
  cases v with
  | number y =>
      show (Expression.ofNumber y).kind ≠ _ ∧ (Expression.ofNumber y).kind ≠ _ ∧ (Expression.ofNumber y).kind ≠ _
      unfold Expression.ofNumber Expression.ofMagnitude
      split
      · exact ⟨nofun, nofun, nofun⟩
      · split
        · exact ⟨nofun, nofun, nofun⟩
        · split <;> exact ⟨nofun, nofun, nofun⟩
  | _ => exact ⟨nofun, nofun, nofun⟩

/-- What stays in its slot. -/
theorem Emerges.keep (hbecomes : m.kind = .literal ∨ isDirective m = true → Becomes t o m)
    (hinside : m.kind = .program ∨ m.kind = .blockStatement →
      Inside t o (prologue m) ((m.children "body").all isDirective)) : Emerges t o (.keep, m) where
  becomes _ := hbecomes
  opens := by
    show Opens t o ([m].takeWhile isDirective) ([m].all isDirective)
    cases hm : isDirective m with
    | true =>
        rw [List.takeWhile_cons_of_pos hm, List.all_cons, hm]
        exact .directive (hbecomes (.inr hm)) hm
    | false =>
        rw [List.takeWhile_cons_of_neg (by simp [hm]), List.all_cons, hm]
        exact .other
  inside _ := hinside

theorem isDirective_of_isReturn (h : isReturn (some c) = true) : isDirective c = false := by
  rw [Bool.eq_false_iff]
  intro hdirective
  have hkind : (c.kind == .returnStatement) = true := h
  rw [kind_of_isDirective hdirective] at hkind
  cases hkind

/-- Pruning leaves the directives at the start, as a return is none. -/
theorem takeWhile_pruneStatements (slots : List (Option Node)) :
    ((pruneStatements slots).filterMap id).takeWhile isDirective
      = (slots.filterMap id).takeWhile isDirective := by
  induction slots with
  | nil => rfl
  | cons slot rest ih =>
      unfold pruneStatements
      cases slot with
      | none => exact ih
      | some c =>
          split
          · rename_i hreturn
            have hc := isDirective_of_isReturn hreturn
            rw [List.filterMap_cons_some (f := id) rfl, List.filterMap_cons_some (f := id) rfl, List.takeWhile_cons,
              List.takeWhile_cons, hc]
            rfl
          · rw [List.filterMap_cons_some (f := id) rfl, List.filterMap_cons_some (f := id) rfl,
              List.takeWhile_cons, List.takeWhile_cons, ih]

theorem all_pruneStatements (slots : List (Option Node)) :
    ((pruneStatements slots).filterMap id).all isDirective = (slots.filterMap id).all isDirective := by
  induction slots with
  | nil => rfl
  | cons slot rest ih =>
      unfold pruneStatements
      cases slot with
      | none => exact ih
      | some c =>
          split
          · rename_i hreturn
            have hc := isDirective_of_isReturn hreturn
            rw [List.filterMap_cons_some (f := id) rfl, List.filterMap_cons_some (f := id) rfl, List.all_cons,
              List.all_cons, hc]
            rfl
          · rw [List.filterMap_cons_some (f := id) rfl, List.filterMap_cons_some (f := id) rfl, List.all_cons,
              List.all_cons, ih]

theorem children_prune (n : Node) :
    (prune n).children "body" = (pruneStatements ((n.slots? "body").getD [])).filterMap id := by
  unfold prune
  cases hslots : n.slots? "body" with
  | none =>
      unfold Node.children
      rw [hslots]
      rfl
  | some slots =>
      have hset : (n.set "body" (.list (pruneStatements slots))).slots? "body"
          = some (pruneStatements slots) := slots?_eq_some_iff.mpr (get?_set_self ..)
      unfold Node.children
      dsimp only
      rw [hset]
      rfl

theorem prologue_prune (n : Node) : prologue (prune n) = prologue n := by
  unfold prologue
  rw [children_prune]
  exact takeWhile_pruneStatements _

theorem all_prune (n : Node) :
    ((prune n).children "body").all isDirective = (n.children "body").all isDirective := by
  rw [children_prune]
  exact all_pruneStatements _

/-- The node is the other, but that statements may be pruned. -/
def Pruned (after before : Node) : Prop := after = before ∨ (before.kind = .blockStatement ∧ after = prune before)

theorem Pruned.kind_eq (h : Pruned m r) : m.kind = r.kind := by
  rcases h with rfl | ⟨_, rfl⟩
  · rfl
  · exact kind_prune r

theorem Pruned.eq_of_ne (h : Pruned m r) (hblock : r.kind ≠ .blockStatement) : m = r :=
  h.resolve_right fun hpruned => hblock hpruned.1

theorem Pruned.prologue_eq (h : Pruned m r) : prologue m = prologue r := by
  rcases h with rfl | ⟨_, rfl⟩
  · rfl
  · exact prologue_prune r

theorem Pruned.get?_eq (h : Pruned m r) (hbody : name ≠ "body") : m.get? name = r.get? name := by
  rcases h with rfl | ⟨_, rfl⟩
  · rfl
  · unfold prune
    split
    · exact get?_set_of_ne hbody
    · rfl

theorem Pruned.all_eq (h : Pruned m r) :
    (m.children "body").all isDirective = (r.children "body").all isDirective := by
  rcases h with rfl | ⟨_, rfl⟩
  · rfl
  · exact all_prune r

theorem settle_eq_keep (hif : r.kind ≠ .ifStatement) (listed : Bool) :
    ∃ m, settle listed r = (.keep, m) ∧ Pruned m r := by
  by_cases hblock : r.kind = .blockStatement
  · exact ⟨prune r, settle_of_block hblock _, .inr ⟨hblock, rfl⟩⟩
  · exact ⟨r, settle_of_other hif hblock _, .inl rfl⟩

theorem FieldsLeft.leads (h : FieldsLeft (fun a c y => Emerges t ⟨a.path, c⟩ y) around n.kind.fields n r)
    (hname : "body" ∈ n.kind.fields) :
    Leads t (Occurrence.children ⟨around.path, n⟩ "body") (prologue r) ((r.children "body").all isDirective) := by
  unfold prologue Node.children Occurrence.children
  rcases h.slots? (nodup_fields _) hname with ⟨hslots, hpieces⟩ | ⟨slots, pieces, copy, hslots, hpieces, _, hleft⟩
  · rw [hslots, hpieces]
    exact .nil
  · rw [hslots, hpieces]
    exact hleft.leads

/-- What `void e` became is no string, and of another expression the statement says what becomes. -/
theorem becomes_of_statement
    (h : FieldsLeft (fun a c y => Makes a c y ∧ Emerges t ⟨a.path, c⟩ y) around n.kind.fields (shorten n) r)
    (hkind : n.kind = .expressionStatement) (hr : isDirective r = true) : Becomes t ⟨around.path, n⟩ r := by
  obtain ⟨text, htext⟩ := isDirective_iff.mp hr
  obtain ⟨_, m, hm, hliteral, hvalue⟩ := directive?_eq_some htext
  rw [hkind] at h
  cases h with
  | absent hnone hrest =>
      cases hrest
      rw [child?_eq_some_iff.mp hm] at hnone
      cases hnone
  | field hget hcontent hrest =>
      cases hrest
      have hnew := (child?_eq_some_iff.mp hm).symm.trans (get?_set_self ..)
      cases hnew
      cases hcontent with
      | @child e _ hmade =>
          by_cases hvoid : discardsVoid n = true
          · obtain ⟨old, hold, hunary, _⟩ := discardsVoid_iff.mp hvoid
            rw [shorten_of_discardsVoid hkind hold hvoid] at hget
            have hwritten := hget.symm.trans (get?_set_self ..)
            cases hwritten
            have hnegated : (old.setValue "operator" (.string "!")).kind = .unaryExpression := hunary
            rcases hmade.1.of_literal_left (by rw [hnegated]; decide) hliteral with ⟨hother, _⟩ | hfolded
            · rw [hnegated] at hother
              cases hother
            · obtain ⟨_, _, w, hw, rfl⟩ := foldedBy_eq_some hfolded
              cases eq_string_of_ofValue hvalue
              exact absurd hw (evaluate?_negated hnegated (text?_eq_some_iff.mpr (get?_set_self ..)))
          · have hsame : shorten n = n := shorten_eq_self fun hboth => hvoid hboth.2
            have hbecomes := hmade.2.becomes rfl (.inl hliteral)
            rw [Surroundings.path_cons] at hbecomes
            rw [hsame] at hget ⊢
            apply Becomes.statement hkind _ hbecomes
            exact Occurrence.child?_eq_some_iff.mpr ⟨child?_eq_some_iff.mpr hget, rfl⟩

theorem emerges_of_ne_if (h : Turn (fun a c y => Makes a c y ∧ Emerges t ⟨a.path, c⟩ y) around n x)
    (hmeets : Meets t around n) (hif : n.kind ≠ .ifStatement) : Emerges t ⟨around.path, n⟩ x := by
  have hcomes : ComesTo t around ⟨around.path, n⟩ := ⟨rfl, hmeets⟩
  cases h with
  | folded hfolded =>
      obtain ⟨_, _, w, _, rfl⟩ := foldedBy_eq_some hfolded
      apply Emerges.keep
      · exact fun _ => .folded hcomes hfolded
      · rintro (hprogram | hblock)
        · exact absurd hprogram (kind_ofValue w).1
        · exact absurd hblock (kind_ofValue w).2.1
  | dropped hprologue hdirective => exact ⟨nofun, .dropped hcomes hprologue hdirective, nofun⟩
  | @swept r _ _ hleft =>
      have hkind : r.kind = n.kind := hleft.kind_eq.trans (kind_shorten n)
      rw [settleBy_of_ne_if (hkind ▸ hif)]
      obtain ⟨m, hm, hpruned⟩ := settle_eq_keep (hkind ▸ hif) (spotOf around).listed
      rw [hm]
      have hmkind : m.kind = n.kind := hpruned.kind_eq.trans hkind
      apply Emerges.keep
      · rintro (hliteral | hdirective)
        · have hn : n.kind = .literal := hmkind.symm.trans hliteral
          have hsame := hpruned.eq_of_ne (by rw [hkind, hn]; decide)
          rw [hleft.eq_of_nil (by rw [hn]; rfl), shorten_of_ne (by rw [hn]; decide)] at hsame
          rw [hsame]
          exact .literal hn
        · have hn : n.kind = .expressionStatement := hmkind.symm.trans (kind_of_isDirective hdirective)
          rw [hpruned.eq_of_ne (by rw [hkind, hn]; decide)] at hdirective ⊢
          exact becomes_of_statement hleft hn hdirective
      · intro hopens
        rw [hmkind] at hopens
        rw [shorten_of_ne (by rcases hopens with hn | hn <;> rw [hn] <;> decide)] at hleft
        rw [hpruned.prologue_eq, hpruned.all_eq]
        apply Inside.body hopens
        apply (hleft.mono (Q := fun a c y => Emerges t ⟨a.path, c⟩ y) (nodup_fields _) fun _ _ _ hy => hy.2).leads
        rcases hopens with hn | hn <;> rw [hn] <;> decide

/-! ### The branches of an `if` -/

/-- What becomes of an `if`: it stays, or its test has a value, and what is left is what the branch is left as. -/
theorem Turn.cases_of_if (h : Turn P around n x) (hkind : n.kind = .ifStatement) :
    ∃ r, FieldsLeft P around n.kind.fields n r ∧ r.kind = .ifStatement ∧ (x = (.keep, r) ∨
      ∃ v, (r.child? "test").bind (valueIn? around) = some v ∧ (branches r v.truthy).2.any declaresVar = false ∧
        (((branches r v.truthy).1 = none ∧ (x = (.remove, r) ∨ x = (.keep, ⟨.emptyStatement, []⟩))) ∨
          ∃ m, (branches r v.truthy).1 = some m ∧ (x = (.keep, m) ∨
            ((spotOf around).listed = true ∧ m.kind = .blockStatement ∧ hasLexical m = false ∧
              x = (.flatten (m.children "body"), r))))) := by
  cases h with
  | folded hfolded =>
      obtain ⟨hoperator, _⟩ := foldedBy_eq_some hfolded
      rw [hkind] at hoperator
      cases hoperator
  | dropped _ hdirective =>
      rw [directive?_of_ne (by rw [hkind]; decide)] at hdirective
      cases hdirective
  | @swept r _ _ hleft =>
      rw [shorten_of_ne (by rw [hkind]; decide)] at hleft
      have hr : r.kind = .ifStatement := hleft.kind_eq.trans hkind
      refine ⟨r, hleft, hr, ?_⟩
      have hsettle : settleBy (valueIn? around) (spotOf around).listed r
          = settleIfBy (valueIn? around) (spotOf around).listed r := by
        unfold settleBy
        rw [hr]
      rw [hsettle]
      unfold settleIfBy
      cases (r.child? "test").bind (valueIn? around) with
      | none => exact .inl rfl
      | some v =>
          dsimp only
          by_cases huntaken : (branches r v.truthy).2.any declaresVar = true
          · rw [if_pos huntaken]
            exact .inl rfl
          · rw [if_neg huntaken]
            refine .inr ⟨v, rfl, Bool.eq_false_iff.mpr huntaken, ?_⟩
            cases (branches r v.truthy).1 with
            | none =>
                refine .inl ⟨rfl, ?_⟩
                dsimp only
                split
                · exact .inl rfl
                · exact .inr rfl
            | some m =>
                refine .inr ⟨m, rfl, ?_⟩
                dsimp only
                split
                · rename_i hblock
                  simp only [Bool.and_eq_true, beq_iff_eq, Bool.not_eq_true'] at hblock
                  exact .inr ⟨hblock.1, hblock.2.1, hblock.2.2, rfl⟩
                · exact .inl rfl

/-- The branch is left as what is made of it. -/
theorem branch?_of_fieldsLeft (h : FieldsLeft P around n.kind.fields n r) (hkind : n.kind = .ifStatement)
    (test : Bool) :
    (branch? ⟨around.path, n⟩ test = none ∧ (branches r test).1 = none) ∨
      ∃ c m a, branch? ⟨around.path, n⟩ test = some ⟨a.path, c⟩ ∧ (branches r test).1 = some m ∧
        (spotOf a).body = false ∧ P a c (.keep, m) := by
  have hbranch : ∀ name ∈ n.kind.fields,
      (Occurrence.child? ⟨around.path, n⟩ name = none ∧ r.child? name = none) ∨
      ∃ c m a, Occurrence.child? ⟨around.path, n⟩ name = some ⟨a.path, c⟩ ∧ r.child? name = some m ∧
        (spotOf a).body = false ∧ P a c (.keep, m) := by
    intro name hname
    rcases h.child? (nodup_fields _) hname with ⟨hnone, hr⟩ | ⟨c, m, a, hc, hm, hspot, hpath, hmade⟩
    · exact .inl ⟨Option.map_eq_none_iff.mpr hnone, hr⟩
    · refine .inr ⟨c, m, a, Occurrence.child?_eq_some_iff.mpr ⟨hc, hpath⟩, hm, ?_, hmade⟩
      rw [hspot, hkind]
      rfl
  cases test with
  | true => exact hbranch "consequent" (by rw [hkind]; decide)
  | false => exact hbranch "alternate" (by rw [hkind]; decide)

theorem emerges_of_if (h : Turn (fun a c y => Makes a c y ∧ Emerges t ⟨a.path, c⟩ y) around n x)
    (hmeets : Meets t around n) (hkind : n.kind = .ifStatement) : Emerges t ⟨around.path, n⟩ x := by
  obtain ⟨r, hleft, hr, rfl | ⟨v, htest, huntaken, hcases⟩⟩ := h.cases_of_if hkind
  · apply Emerges.keep
    · rintro (hliteral | hdirective)
      · rw [hr] at hliteral
        cases hliteral
      · rw [kind_of_isDirective hdirective] at hr
        cases hr
    · rw [hr]
      exact nofun
  · have hmakes := hleft.mono (Q := Makes) (nodup_fields _) fun _ _ _ hy => hy.1
    have hresolves : Resolves t ⟨around.path, n⟩ v r :=
      ⟨hkind, ⟨around, ⟨rfl, hmeets⟩, hmakes, htest⟩, huntaken⟩
    rcases branch?_of_fieldsLeft hleft hkind v.truthy with ⟨hbefore, hafter⟩ |
      ⟨c, m, a, hbefore, hafter, _, _, hemerges⟩
    · rcases hcases with ⟨_, rfl | rfl⟩ | ⟨m, hm, _⟩
      · exact ⟨nofun, .untaken hresolves hbefore, nofun⟩
      · exact .keep (by rintro (h | h) <;> cases h) (by rintro (h | h) <;> cases h)
      · rw [hafter] at hm
        cases hm
    · rcases hcases with ⟨hnone, _⟩ | ⟨m', hm, hx⟩
      · rw [hafter] at hnone
        cases hnone
      · rw [hafter] at hm
        cases hm
        rcases hx with rfl | ⟨_, hblock, hlexical, rfl⟩
        · apply Emerges.keep
          · exact fun hm => .taken hresolves hbefore (hemerges.becomes rfl hm)
          · exact fun hm => .taken hresolves hbefore (hemerges.inside rfl hm)
        · refine ⟨nofun, ?_, nofun⟩
          rw [residue_flatten]
          exact .spliced hresolves hafter hblock hlexical hbefore (hemerges.inside rfl (.inr hblock))

/-- **Directives emerge in these ways only.** -/
theorem Makes.emerges (h : Makes around n x) (hmeets : Meets t around n) : Emerges t ⟨around.path, n⟩ x := by
  refine Makes.induction_of_meets (P := fun a c y => Emerges t ⟨a.path, c⟩ y) ?_ h hmeets
  intro around n x _ hmeets hturn
  have hturn := hturn.mono (Q := fun a c y => Makes a c y ∧ Emerges t ⟨a.path, c⟩ y) fun hy => ⟨hy.1, hy.2.2⟩
  by_cases hif : n.kind = .ifStatement
  · exact emerges_of_if hturn hmeets hif
  · exact emerges_of_ne_if hturn hmeets hif

/-! ## What ends the directives -/

theorem Becomes.kind_eq (h : Becomes t o m) (hm : isDirective m = true) :
    o.node.kind = .expressionStatement ∨ o.node.kind = .ifStatement := by
  cases h with
  | literal _ => exact .inl (kind_of_isDirective hm)
  | folded _ hfolded =>
      obtain ⟨_, _, w, _, rfl⟩ := foldedBy_eq_some hfolded
      exact absurd (kind_of_isDirective hm) (kind_ofValue w).2.2
  | statement hkind _ _ => exact .inl hkind
  | taken hresolves _ _ => exact .inr hresolves.kind_eq

/-- **Another statement ends the directives**: behind it none is made. -/
theorem Leads.eq_nil {os : List Occurrence} {directives : List Node} {only : Bool}
    (h : Leads t (o :: os) directives only) (hstatement : o.node.kind ≠ .expressionStatement)
    (hif : o.node.kind ≠ .ifStatement) : directives = [] ∧ only = false := by
  cases h with
  | cons hopens _ =>
      cases hopens with
      | directive hbecomes hd => exact absurd (hbecomes.kind_eq hd) (not_or.mpr ⟨hstatement, hif⟩)
      | dropped _ _ hdirective => exact absurd (directive?_eq_some hdirective).1 hstatement
      | untaken hresolves _ => exact absurd hresolves.kind_eq hif
      | spliced hresolves _ _ _ _ _ => exact absurd hresolves.kind_eq hif
  | stop hopens =>
      cases hopens with
      | spliced hresolves _ _ _ _ _ => exact absurd hresolves.kind_eq hif
      | other => exact ⟨rfl, rfl⟩

end Minifier.Optimize
