import Minifier.Optimize.Evaluate
import Minifier.Proofs.Value.Double

/-!
# Constants and their expressions

`constant?` is the value of an expression where nobody has bound the names of the global constants. Every
such value is primitive, and the expression for it has that value again (`constant?_ofValue`).
-/

namespace Minifier.Optimize

open Node

/-- The value of an expression where no name is bound. -/
def constant? (n : Node) : Option Value := evaluate? (fun _ => false) n

variable {binds : String → Bool} {n : Node} {v : Value}

theorem evaluate?_eq (binds : String → Bool) (n : Node) :
    evaluate? binds n
      = valueFrom? binds n fun field => (n.child? field).bind (evaluate? binds) := by
  rw [evaluate?]
  congr 1
  funext field
  split
  · rename_i child hchild
    rw [hchild]
    rfl
  · rename_i hchild
    rw [hchild]
    rfl

theorem constant?_eq (n : Node) :
    constant? n = valueFrom? (fun _ => false) n fun field => (n.child? field).bind constant? :=
  evaluate?_eq _ n

/-- The expressions that an expression is computed from are smaller. -/
theorem evaluate?_congr {binds' : String → Bool}
    (h : ∀ name, (constantValue? name).isSome = true → binds name = binds' name) (n : Node) :
    evaluate? binds n = evaluate? binds' n := by
  induction hsize : n.size using Nat.strongRecOn generalizing n with
  | ind size ih =>
      have hoperand : (fun field => (n.child? field).bind (evaluate? binds))
          = fun field => (n.child? field).bind (evaluate? binds') := by
        funext field
        cases hchild : n.child? field with
        | none => rfl
        | some c => exact ih c.size (hsize ▸ size_child_lt hchild) c rfl
      rw [evaluate?_eq, evaluate?_eq, hoperand]
      unfold valueFrom?
      split <;> try rfl
      -- A name is looked up if it is that of a constant.
      cases n.name? with
      | none => rfl
      | some name =>
          simp only [Option.bind_some]
          cases hconstant : constantValue? name with
          | none => simp
          | some value => rw [h name (by rw [hconstant]; rfl)]

/-- Names that are not bound make no difference. -/
theorem evaluate?_of_unbound (h : ∀ name, (constantValue? name).isSome = true → binds name = false)
    (n : Node) : evaluate? binds n = constant? n :=
  evaluate?_congr h n

/-! ## Values are primitive -/

theorem isPrimitive_of_literalValue? (h : literalValue? n = some v) : v.isPrimitive = true := by
  unfold literalValue? at h
  split at h
  · cases h
  · cases hvalue : n.value? "value" with
    | none => simp [hvalue] at h
    | some json =>
        cases json with
        | array items => simp [hvalue] at h
        | object members => simp [hvalue] at h
        | _ =>
            rw [hvalue] at h
            cases h
            rfl

theorem isPrimitive_of_constantValue? {name : String} (h : constantValue? name = some v) :
    v.isPrimitive = true := by
  unfold constantValue? at h
  split at h <;> cases h <;> rfl

theorem isPrimitive_of_templateValue? (h : templateValue? n = some v) : v.isPrimitive = true := by
  unfold templateValue? at h
  split at h
  · obtain ⟨quasi, _, h⟩ := Option.bind_eq_some_iff.mp h
    obtain ⟨json, _, h⟩ := Option.bind_eq_some_iff.mp h
    obtain ⟨cooked, _, h⟩ := Option.bind_eq_some_iff.mp h
    cases h
    rfl
  · cases h

theorem isPrimitive_of_unary? {operator : UnaryOperator} {operand : Value}
    (h : Value.unary? operator operand = some v) : v.isPrimitive = true := by
  unfold Value.unary? at h
  split at h
  · cases h
    cases operator <;> rfl
  · cases h

theorem isPrimitive_of_binary? {operator : BinaryOperator} {left right : Value}
    (h : Value.binary? operator left right = some v) : v.isPrimitive = true := by
  unfold Value.binary? at h
  split at h
  · cases h
    cases operator with
    | add =>
        show (if _ then _ else _ : Value).isPrimitive = true
        split <;> rfl
    | _ => rfl
  · cases h

/-- The values of constant expressions are primitive. -/
theorem isPrimitive_of_evaluate? (h : evaluate? binds n = some v) : v.isPrimitive = true := by
  induction hsize : n.size using Nat.strongRecOn generalizing n v with
  | ind size ih =>
      have hoperand : ∀ {field value}, (n.child? field).bind (evaluate? binds) = some value →
          value.isPrimitive = true := by
        intro field value hvalue
        obtain ⟨child, hchild, hvalue⟩ := Option.bind_eq_some_iff.mp hvalue
        exact ih child.size (hsize ▸ size_child_lt hchild) hvalue rfl
      rw [evaluate?_eq] at h
      unfold valueFrom? at h
      split at h
      · exact isPrimitive_of_literalValue? h
      · obtain ⟨name, _, h⟩ := Option.bind_eq_some_iff.mp h
        split at h
        · cases h
        · exact isPrimitive_of_constantValue? h
      · exact hoperand h
      · exact isPrimitive_of_templateValue? h
      · obtain ⟨operator, _, h⟩ := Option.bind_eq_some_iff.mp h
        obtain ⟨operand, _, h⟩ := Option.bind_eq_some_iff.mp h
        exact isPrimitive_of_unary? h
      · obtain ⟨operator, _, h⟩ := Option.bind_eq_some_iff.mp h
        obtain ⟨left, _, h⟩ := Option.bind_eq_some_iff.mp h
        obtain ⟨right, _, h⟩ := Option.bind_eq_some_iff.mp h
        exact isPrimitive_of_binary? h
      · obtain ⟨operator, _, h⟩ := Option.bind_eq_some_iff.mp h
        obtain ⟨left, hleft, h⟩ := Option.bind_eq_some_iff.mp h
        split at h
        · cases h
          exact hoperand hleft
        · exact hoperand h
      · cases h

/-! ## The expression for a value has that value -/

theorem constant?_identifier {name : String} (h : constantValue? name = some v) :
    constant? (Expression.identifier name) = some v := by
  rw [constant?_eq]
  exact h

theorem constant?_literal (h : Value.ofJson (Expression.literalParts v).1 = v)
    (hprimitive : v.isPrimitive = true) : constant? (Expression.literal v) = some v := by
  rw [constant?_eq]
  show literalValue? (Expression.literal v) = some v
  have hvalue : (Expression.literal v).value? "value" = some (Expression.literalParts v).1 := rfl
  have hplain : ((Expression.literal v).has "regex" || (Expression.literal v).has "bigint") = false := rfl
  unfold literalValue?
  rw [hplain, if_neg Bool.false_ne_true, hvalue]
  rw [← h] at hprimitive
  cases hjson : (Expression.literalParts v).1 with
  | array items => rw [hjson] at hprimitive; cases hprimitive
  | object members => rw [hjson] at hprimitive; cases hprimitive
  | _ => rw [← h, hjson]

theorem constant?_negation {x : Float} {argument : Node}
    (h : constant? argument = some (.number x)) :
    constant? (Expression.negation argument) = some (.number (-x)) := by
  rw [constant?_eq]
  show (constant? argument).bind _ = _
  rw [h]
  rfl

/-- What a document holds for a finite number is that number. -/
theorem ofJson_numberJson {x : Float} (hnan : x.isNaN = false) (hinf : x.isInf = false) :
    Value.ofJson (Expression.numberJson x) = .number x := by
  unfold Expression.numberJson
  cases hparts : Double.parts x with
  | notANumber =>
      have : (Double.parts x).isNaN = false := hnan
      rw [hparts] at this
      cases this
  | infinity sign =>
      have : (Double.parts x).isInf = false := hinf
      rw [hparts] at this
      cases this
  | zero sign =>
      cases sign with
      | positive => exact congrArg Value.number (Double.ext_parts (by rw [hparts]; rfl))
      | negative => rfl
  | finite sign m e hm =>
      dsimp only
      cases hinteger : Double.integer? x with
      | none => rfl
      | some i =>
          dsimp only
          split
          · rename_i hsafe
            exact congrArg Value.number (Double.ofInt_integer? hparts hinteger (Nat.lt_succ_of_le hsafe))
          · rfl

theorem constant?_ofMagnitude {x : Float} (hnan : x.isNaN = false)
    (hpositive : Double.isNegative x = false) :
    constant? (Expression.ofMagnitude x) = some (.number x) := by
  unfold Expression.ofMagnitude
  split
  · rename_i hinf
    have hparts : Double.parts x = .infinity .positive := by
      have hinf : (Double.parts x).isInf = true := hinf
      unfold Double.isNegative at hpositive
      cases hparts : Double.parts x with
      | infinity sign =>
          rw [hparts] at hpositive
          cases sign with
          | positive => rfl
          | negative => cases hpositive
      | _ => rw [hparts] at hinf; cases hinf
    have hx : x = Double.infinity := Double.ext_parts hparts
    rw [hx]
    exact constant?_identifier rfl
  · rename_i hinf
    exact constant?_literal (ofJson_numberJson hnan (Bool.eq_false_iff.mpr hinf)) rfl

/-- A number and the expression for it. -/
theorem constant?_ofNumber (x : Float) : constant? (Expression.ofNumber x) = some (.number x) := by
  unfold Expression.ofNumber
  split
  · rename_i hnan
    have hparts : Double.parts x = .notANumber := by
      have hnan : (Double.parts x).isNaN = true := hnan
      cases hparts : Double.parts x with
      | notANumber => rfl
      | _ => rw [hparts] at hnan; cases hnan
    have hx : x = Double.nan := Double.ext_parts hparts
    rw [hx]
    exact constant?_identifier rfl
  · rename_i hnan
    have hnan := Bool.eq_false_iff.mpr hnan
    split
    · rename_i hnegative
      have hmagnitude : constant? (Expression.ofMagnitude (-x)) = some (.number (-x)) :=
        constant?_ofMagnitude ((Double.isNaN_neg x).trans hnan) (Double.isNegative_neg hnegative)
      rw [constant?_negation hmagnitude, Double.neg_neg]
    · rename_i hpositive
      exact constant?_ofMagnitude hnan (Bool.eq_false_iff.mpr hpositive)

/-- The expression that denotes a primitive value has it. -/
theorem constant?_ofValue (h : v.isPrimitive = true) : constant? (Expression.ofValue v) = some v := by
  cases v with
  | undefined => exact constant?_identifier rfl
  | null => exact constant?_literal rfl h
  | bool b => exact constant?_literal rfl h
  | string s => exact constant?_literal rfl h
  | number x => exact constant?_ofNumber x
  | array items => cases h
  | object entries => cases h

end Minifier.Optimize
