import Minifier.Proofs.Optimize.Evaluation
import Minifier.Proofs.Optimize.Turn

/-!
# What the optimizer makes of a node that is no `if`

A node that is no `if` has three fates (`Turn.cases_of_ne_if`): it is folded to the constant that is its value, dropped
as a directive, or kept with its fields swept. In a list without `if`s and directives all children stay
(`FieldsLeft.children`).
-/

namespace Minifier.Optimize

open Node

variable {around : Surroundings} {n r : Node} {x : Settled × Node} {v : Value} {name : String}
  {binds : String → Bool} {names : List String} {P : Surroundings → Node → Settled × Node → Prop}
  {prologue : Bool} {done rest pieces : List (Option Node)}

/-! ## Values -/

/-- What a piece of a template stands for. -/
def cookedText? (n : Node) : Option String :=
  (n.value? "value").bind fun json => (json.member? "cooked").bind Json.string?

theorem templateValue?_eq (n : Node) :
    templateValue? n = if (n.children "expressions").isEmpty then
      ((n.children "quasis").head?.bind cookedText?).map .string else none := by
  unfold templateValue? cookedText?
  split
  · cases (n.children "quasis").head? with
    | none => rfl
    | some quasi =>
        show (quasi.value? "value").bind (fun json =>
          ((json.member? "cooked").bind Json.string?).bind fun cooked =>
            some (Value.string cooked)) = _
        rw [Option.bind_some, Option.map_bind]
        congr 1
        funext json
        show _ = Option.map Value.string ((json.member? "cooked").bind Json.string?)
        cases (json.member? "cooked").bind Json.string? <;> rfl
  · rfl

/-- Where no name is bound, a value is not lost. -/
theorem valueFrom?_mono {f g : String → Option Value} (hoperand : ∀ field w, f field = some w → g field = some w)
    (h : valueFrom? binds n f = some v) : valueFrom? (fun _ => false) n g = some v := by
  unfold valueFrom? at h ⊢
  cases hn : n.kind with
  | literal =>
      rw [hn] at h
      exact h
  | identifier =>
      rw [hn] at h
      obtain ⟨name, hname, hvalue⟩ := Option.bind_eq_some_iff.mp h
      split at hvalue
      · cases hvalue
      · exact Option.bind_eq_some_iff.mpr ⟨name, hname, hvalue⟩
  | parenthesizedExpression =>
      rw [hn] at h
      exact hoperand _ _ h
  | templateLiteral =>
      rw [hn] at h
      exact h
  | unaryExpression =>
      rw [hn] at h
      obtain ⟨operator, hoperator, h⟩ := Option.bind_eq_some_iff.mp h
      obtain ⟨w, hw, hvalue⟩ := Option.bind_eq_some_iff.mp h
      simp only [hoperator, hoperand _ _ hw, Option.bind_eq_bind, Option.bind_some, hvalue]
  | binaryExpression =>
      rw [hn] at h
      obtain ⟨operator, hoperator, h⟩ := Option.bind_eq_some_iff.mp h
      obtain ⟨left, hleft, h⟩ := Option.bind_eq_some_iff.mp h
      obtain ⟨right, hright, hvalue⟩ := Option.bind_eq_some_iff.mp h
      simp only [hoperator, hoperand _ _ hleft, hoperand _ _ hright, Option.bind_eq_bind, Option.bind_some, hvalue]
  | logicalExpression =>
      rw [hn] at h
      obtain ⟨operator, hoperator, h⟩ := Option.bind_eq_some_iff.mp h
      obtain ⟨left, hleft, h⟩ := Option.bind_eq_some_iff.mp h
      simp only [hoperator, hoperand _ _ hleft, Option.bind_eq_bind, Option.bind_some]
      split at h
      · rename_i hdecides
        rw [if_pos hdecides]
        exact h
      · rename_i hdecides
        rw [if_neg hdecides]
        exact hoperand _ _ h
  | _ =>
      rw [hn] at h
      cases h

/-- What has a value has it where no name is bound. -/
theorem constant?_of_evaluate? (h : evaluate? binds n = some v) : constant? n = some v := by
  induction hsize : n.size using Nat.strongRecOn generalizing n v with
  | ind size ih =>
      rw [evaluate?_eq] at h
      rw [constant?_eq]
      refine valueFrom?_mono ?_ h
      intro field w hw
      obtain ⟨c, hc, hw⟩ := Option.bind_eq_some_iff.mp hw
      exact Option.bind_eq_some_iff.mpr ⟨c, hc, ih c.size (hsize ▸ size_child_lt hc) hw rfl⟩

/-! ## Fates -/

theorem FieldsLeft.value?_eq (h : FieldsLeft P around names n r) (name : String) :
    r.value? name = n.value? name := by
  induction h with
  | nil => rfl
  | absent _ _ ih => exact ih
  | field hget hleft _ ih =>
      rw [ih]
      apply value?_set hget
      cases hleft <;> rfl

theorem FieldsLeft.text?_eq (h : FieldsLeft P around names n r) (name : String) :
    r.text? name = n.text? name := by
  unfold Node.text?
  rw [h.value?_eq]

/-- A node without fields to sweep stays. -/
theorem FieldsLeft.eq_of_nil (h : FieldsLeft P around names n r) (hnames : names = []) : r = n := by
  subst hnames
  cases h
  rfl

/-- What becomes of a node that is no `if`. -/
theorem Turn.cases_of_ne_if (h : Turn P around n x) (hif : n.kind ≠ .ifStatement) :
    (∃ w, n.kind.isOperator = true ∧ constant? n = some w ∧ x = (.keep, Expression.ofValue w)) ∨
      ((spotOf around).prologue = true ∧ directive? n = some "use strict" ∧ x = (.remove, n)) ∨
      ∃ r, FieldsLeft P around n.kind.fields (shorten n) r ∧ r.kind = n.kind ∧
        x = settle (spotOf around).listed r := by
  cases h with
  | folded hfolded =>
      obtain ⟨hoperator, _, w, hw, rfl⟩ := foldedBy_eq_some hfolded
      exact .inl ⟨w, hoperator, constant?_of_evaluate? hw, rfl⟩
  | dropped hprologue hdirective => exact .inr (.inl ⟨hprologue, hdirective, rfl⟩)
  | swept _ _ hfields =>
      have hkind := hfields.kind_eq.trans (kind_shorten n)
      exact .inr (.inr ⟨_, hfields, hkind, settleBy_of_ne_if (hkind ▸ hif) _⟩)

theorem Makes.keep_of_ne_if (h : Makes around n x) (hif : n.kind ≠ .ifStatement)
    (hprologue : (spotOf around).prologue = false) : x.1 = .keep := by
  rcases h.turn.cases_of_ne_if hif with ⟨_, _, _, rfl⟩ | ⟨hopens, _⟩ | ⟨r, _, hkind, rfl⟩
  · rfl
  · rw [hprologue] at hopens
    cases hopens
  · exact settle_of_ne_if _ (hkind ▸ hif)

/-- The children of a list in which everything stays. -/
theorem SlotsLeft.children (h : SlotsLeft Makes around n name prologue done rest pieces)
    (hprologue : prologue = false) (hif : ∀ c, some c ∈ rest → c.kind ≠ .ifStatement) :
    List.Forall₂ (fun c m => c.kind ≠ .ifStatement ∧ ∃ a, Makes a c (.keep, m)) (rest.filterMap id)
      (pieces.filterMap id) := by
  induction h with
  | nil => exact .nil
  | hole _ ih => exact ih rfl fun c hc => hif c (List.mem_cons_of_mem _ hc)
  | @node prologue done rest pieces c x hspot hx _ ih =>
      have hc := hif c (List.mem_cons_self ..)
      have hkeep : x.1 = .keep := hx.keep_of_ne_if hc (by rw [hspot]; exact hprologue)
      have hrest := ih (by rw [hprologue]; rfl) fun c hc => hif c (List.mem_cons_of_mem _ hc)
      have hmade : Makes (slotFrame n name done rest :: around) c (.keep, x.2) := by
        rw [← hkeep]
        exact hx
      rw [hkeep]
      exact .cons ⟨hc, _, hmade⟩ hrest

/-- The children of a node that lets no `if` stand there. -/
theorem FieldsLeft.children (h : FieldsLeft Makes around names n r) (hnodup : names.Nodup)
    (hname : name ∈ names) (hopens : (spotOf around).opensBody n.kind = false)
    (hif : ∀ slots, n.slots? name = some slots → ∀ c, some c ∈ slots → c.kind ≠ .ifStatement) :
    List.Forall₂ (fun c m => c.kind ≠ .ifStatement ∧ ∃ a, Makes a c (.keep, m)) (n.children name)
      (r.children name) := by
  unfold Node.children
  rcases h.slots? hnodup hname with ⟨hn, hr⟩ | ⟨slots, pieces, copy, hn, hr, hkind, hslots⟩
  · rw [hn, hr]
    exact .nil
  · rw [hn, hr]
    exact hslots.children hopens (hif slots hn)

end Minifier.Optimize
