import Minifier.Proofs.Optimize.Constant
import Minifier.Proofs.Tree.Conversion

/-!
# Expressions for values lose nothing

Different values have different expressions. Equality of nodes is looser than identity: `0.0` equals `-0.0`,
the order of members in opaque objects is ignored, and what is no number does not equal itself. But the
expressions of values hold opaque scalars only, and neither zeros nor non-numbers among their doubles; on such
nodes (`isExact`) equality is identity (`same_iff_of_isExact`).

* Two values whose expressions are equal are the same (`ofValue_inj`): a primitive value is what its
  expression evaluates to, and arrays and objects differ where their items do.
* **Main result**: `ofValue_lossless`.
-/

namespace Minifier

/-! ## Equality that is identity -/

/-- A scalar that equals itself and no other value. -/
def Json.isExact : Json → Bool
  | .number (.float x) =>
    match Double.parts x with
    | .notANumber | .zero _ => false
    | _ => true
  | .array _ | .object _ => false
  | _ => true

theorem Json.same_float_iff {x : Float} (h : (Json.number (.float x)).isExact = true) (y : Float) :
    (x == y) = true ↔ x = y := by
  have hnan : x.isNaN = false := by
    show (Double.parts x).isNaN = false
    cases hparts : Double.parts x with
    | notANumber => simp [isExact, hparts] at h
    | _ => rfl
  constructor
  · intro hxy
    apply Double.eq_of_beq hxy
    intro s hs
    simp [isExact, hs] at h
  · rintro rfl
    exact Double.beq_self hnan

theorem Json.same_iff_of_isExact {a : Json} (h : a.isExact = true) (b : Json) :
    a.same b = true ↔ a = b := by
  cases a with
  | array items => cases h
  | object members => cases h
  | number value =>
      cases b with
      | number value' =>
          cases value with
          | int i => cases value' <;> simp [same, Number.same]
          | float x =>
              cases value' with
              | int i => simp [same, Number.same]
              | float y => simpa [same, Number.same] using same_float_iff h y
      | _ => simp [same]
  | _ => cases b <;> simp [same]

namespace Node

/-- The opaque values of the node equal no values but themselves. -/
def isExact (n : Node) : Bool := n.fields.all fun entry => entry.2.value?.all Json.isExact

mutual

theorem same_iff_of_isExact : (a b : Node) → a.all isExact = true → (a.same b = true ↔ a = b)
  | ⟨kind, fields⟩, ⟨kind', fields'⟩, h => by
      rw [all, Bool.and_eq_true] at h
      rw [same, Bool.and_eq_true, beq_iff_eq, sameFields_iff_of_isExact fields fields' h.1 h.2,
        Node.mk.injEq]

theorem sameFields_iff_of_isExact : (fields fields' : List (String × Field Node)) →
    (fields.all fun entry => entry.2.value?.all Json.isExact) = true → allInFields isExact fields = true →
    (sameFields fields fields' = true ↔ fields = fields')
  | [], [], _, _ => by simp [sameFields]
  | [], _ :: _, _, _ => by simp [sameFields]
  | _ :: _, [], _, _ => by simp [sameFields]
  | (name, field) :: rest, (name', field') :: rest', hself, hall => by
      rw [List.all_cons, Bool.and_eq_true] at hself
      rw [allInFields, Bool.and_eq_true] at hall
      rw [sameFields, Bool.and_eq_true, Bool.and_eq_true, beq_iff_eq,
        sameField_iff_of_isExact field field' hself.1 hall.1,
        sameFields_iff_of_isExact rest rest' hself.2 hall.2, List.cons.injEq, Prod.mk.injEq]

theorem sameField_iff_of_isExact : (field field' : Field Node) →
    field.value?.all Json.isExact = true → allInField isExact field = true →
    (sameField field field' = true ↔ field = field')
  | .child node, .child node', _, hall => by
      rw [sameField, same_iff_of_isExact node node' hall, Field.child.injEq]
  | .list slots, .list slots', _, hall => by
      rw [sameField, sameSlots_iff_of_isExact slots slots' hall, Field.list.injEq]
  | .value json, .value json', hself, _ => by
      rw [sameField, Json.same_iff_of_isExact hself, Field.value.injEq]
  | .child _, .list _, _, _ | .child _, .value _, _, _ | .list _, .child _, _, _
  | .list _, .value _, _, _ | .value _, .child _, _, _ | .value _, .list _, _, _ => by simp [sameField]

theorem sameSlots_iff_of_isExact : (slots slots' : List (Option Node)) →
    allInSlots isExact slots = true → (sameSlots slots slots' = true ↔ slots = slots')
  | [], [], _ => by simp [sameSlots]
  | none :: rest, none :: rest', hall => by
      rw [sameSlots, sameSlots_iff_of_isExact rest rest' hall, List.cons.injEq, and_iff_right rfl]
  | some node :: rest, some node' :: rest', hall => by
      rw [allInSlots, Bool.and_eq_true] at hall
      rw [sameSlots, Bool.and_eq_true, same_iff_of_isExact node node' hall.1,
        sameSlots_iff_of_isExact rest rest' hall.2, List.cons.injEq, Option.some.injEq]
  | [], _ :: _, _ | _ :: _, [], _ | none :: _, some _ :: _, _ | some _ :: _, none :: _, _ => by
      simp [sameSlots]

end

end Node

namespace Expression

open Node

/-! ## Expressions are exact -/

theorem isExact_numberJson {x : Float} (h : Double.isNegative x = false) : (numberJson x).isExact = true := by
  unfold numberJson
  split
  · rfl
  · rfl
  · rfl
  · rename_i hparts
    simp [Double.isNegative, hparts] at h
  · rename_i hparts
    have hfloat : (Json.number (.float x)).isExact = true := by simp [Json.isExact, hparts]
    split
    · split
      · rfl
      · exact hfloat
    · exact hfloat

theorem all_isExact_literal {v : Value} (h : (literalParts v).1.isExact = true) :
    (literal v).all Node.isExact = true := by
  have hraw : ∀ raw, (Json.string raw).isExact = true := fun _ => rfl
  simp [literal, all, allInFields, allInField, Node.isExact, Field.value?, h, hraw]

theorem all_isExact_ofMagnitude {x : Float} (h : Double.isNegative x = false) :
    (ofMagnitude x).all Node.isExact = true := by
  unfold ofMagnitude
  split
  · rfl
  · exact all_isExact_literal (isExact_numberJson h)

theorem all_isExact_ofNumber (x : Float) : (ofNumber x).all Node.isExact = true := by
  unfold ofNumber
  split
  · rfl
  · split
    · rename_i hnegative
      have hmagnitude := all_isExact_ofMagnitude (Double.isNegative_neg hnegative)
      simpa [negation, all, allInFields, allInField, Node.isExact, Field.value?, Json.isExact] using hmagnitude
    · rename_i hpositive
      exact all_isExact_ofMagnitude (Bool.eq_false_iff.mpr hpositive)

theorem all_isExact_property (key : String) {value : Node} (h : value.all Node.isExact = true) :
    (property key value).all Node.isExact = true := by
  have hkey : (propertyKey key).all Node.isExact = true := by
    unfold propertyKey
    split <;> rfl
  simp [property, all, allInFields, allInField, Node.isExact, Field.value?, Json.isExact, hkey, h]

mutual

theorem all_isExact_ofValue : (v : Value) → (ofValue v).all Node.isExact = true
  | .undefined | .null | .string _ => rfl
  | .bool b => by cases b <;> rfl
  | .number x => all_isExact_ofNumber x
  | .array items => by
      simpa [ofValue, all, allInFields, allInField, Node.isExact, Field.value?] using allInSlots_ofItems items
  | .object entries => by
      simpa [ofValue, all, allInFields, allInField, Node.isExact, Field.value?]
        using allInSlots_ofEntries entries

theorem allInSlots_ofItems : (items : List Value) → allInSlots Node.isExact (ofItems items) = true
  | [] => rfl
  | item :: rest => by
      rw [ofItems, allInSlots, all_isExact_ofValue item, allInSlots_ofItems rest]
      rfl

theorem allInSlots_ofEntries : (entries : List (String × Value)) →
    allInSlots Node.isExact (ofEntries entries) = true
  | [] => rfl
  | (key, value) :: rest => by
      rw [ofEntries, allInSlots, all_isExact_property key (all_isExact_ofValue value),
        allInSlots_ofEntries rest]
      rfl

end

/-! ## Different values have different expressions -/

theorem propertyKey_inj {key key' : String} (h : propertyKey key = propertyKey key') : key = key' := by
  unfold propertyKey at h
  split at h <;> split at h <;> cases h <;> rfl

theorem property_inj {key key' : String} {value value' : Node}
    (h : property key value = property key' value') : key = key' ∧ value = value' := by
  simp only [property, Node.mk.injEq, List.cons.injEq, Prod.mk.injEq, Field.child.injEq, true_and,
    and_true] at h
  exact ⟨propertyKey_inj h.1, h.2⟩

/-- What the expression for a value evaluates to tells whether the value is primitive, and which one it is. -/
theorem constant?_ofValue_eq (v : Value) :
    Optimize.constant? (ofValue v) = if v.isPrimitive then some v else none := by
  split
  · rename_i h
    exact Optimize.constant?_ofValue h
  · rw [Optimize.constant?_eq]
    cases v with
    | array items => rfl
    | object entries => rfl
    | _ => contradiction

theorem eq_of_isPrimitive {v w : Value} (hv : v.isPrimitive = true) (h : ofValue v = ofValue w) : v = w := by
  have hvalue := constant?_ofValue_eq w
  rw [← h, Optimize.constant?_ofValue hv] at hvalue
  split at hvalue
  · exact Option.some.inj hvalue
  · cases hvalue

mutual

theorem ofValue_inj : (v w : Value) → ofValue v = ofValue w → v = w
  | .array items, w, h => by
      cases w with
      | array items' =>
          simp only [ofValue, Node.mk.injEq, List.cons.injEq, Prod.mk.injEq, Field.list.injEq, true_and,
            and_true] at h
          rw [ofItems_inj items items' h]
      | object entries => cases h
      | _ => exact (eq_of_isPrimitive rfl h.symm).symm
  | .object entries, w, h => by
      cases w with
      | object entries' =>
          simp only [ofValue, Node.mk.injEq, List.cons.injEq, Prod.mk.injEq, Field.list.injEq, true_and,
            and_true] at h
          rw [ofEntries_inj entries entries' h]
      | array items => cases h
      | _ => exact (eq_of_isPrimitive rfl h.symm).symm
  | .undefined, _, h | .null, _, h | .bool _, _, h | .number _, _, h | .string _, _, h =>
      eq_of_isPrimitive rfl h

theorem ofItems_inj : (items items' : List Value) → ofItems items = ofItems items' → items = items'
  | [], [], _ => rfl
  | [], _ :: _, h | _ :: _, [], h => by simp [ofItems] at h
  | item :: rest, item' :: rest', h => by
      rw [ofItems, ofItems, List.cons.injEq, Option.some.injEq] at h
      rw [ofValue_inj item item' h.1, ofItems_inj rest rest' h.2]

theorem ofEntries_inj : (entries entries' : List (String × Value)) →
    ofEntries entries = ofEntries entries' → entries = entries'
  | [], [], _ => rfl
  | [], _ :: _, h | _ :: _, [], h => by simp [ofEntries] at h
  | (key, value) :: rest, (key', value') :: rest', h => by
      rw [ofEntries, ofEntries, List.cons.injEq, Option.some.injEq] at h
      obtain ⟨hkey, hvalue⟩ := property_inj h.1
      rw [hkey, ofValue_inj value value' hvalue, ofEntries_inj rest rest' h.2]

end

/-! ## Numbers that are integers -/

/-- An integral double that is safe and not negative zero is written as an integer, and read as what it was. -/
theorem numberJson_of_integer? {x : Float} {i : Int} (hinteger : Double.integer? x = some i)
    (hsafe : i.natAbs ≤ greatestSafe) (hzero : Double.parts x ≠ .zero .negative) :
    numberJson x = .int i ∧ Float.ofInt i = x := by
  unfold numberJson
  cases hparts : Double.parts x with
  | notANumber => simp [Double.integer?, hparts] at hinteger
  | infinity sign => simp [Double.integer?, hparts] at hinteger
  | zero sign =>
      cases sign with
      | negative => exact absurd hparts hzero
      | positive =>
          simp only [Double.integer?, hparts, Option.some.injEq] at hinteger
          subst hinteger
          exact ⟨rfl, Double.ext_parts (by rw [hparts]; rfl)⟩
  | finite sign m e hm =>
      simp only [hinteger, if_pos hsafe, true_and]
      exact Double.ofInt_integer? hparts hinteger (Nat.lt_succ_of_le hsafe)

/-- **The expression for a value loses nothing.** Equal expressions are those of one value. The expression for a
primitive value evaluates to it. Integers of at most 53 bits are doubles, and these doubles, but for
negative zero, are written as the integers that they are and read as what they were. -/
theorem ofValue_lossless :
    (∀ v w : Value, (ofValue v).same (ofValue w) = true ↔ v = w) ∧
      (∀ v : Value, v.isPrimitive = true → Optimize.evaluate? (fun _ => false) (ofValue v) = some v) ∧
      (∀ i : Int, i.natAbs ≤ greatestSafe → Double.integer? (Float.ofInt i) = some i) ∧
      ∀ (x : Float) (i : Int), Double.integer? x = some i → i.natAbs ≤ greatestSafe →
        Double.parts x ≠ .zero .negative → numberJson x = .int i ∧ Float.ofInt i = x := by
  refine ⟨fun v w => ?_, fun v => Optimize.constant?_ofValue, ?_, fun x i => numberJson_of_integer?⟩
  · rw [same_iff_of_isExact _ _ (all_isExact_ofValue v)]
    exact ⟨ofValue_inj v w, congrArg ofValue⟩
  · intro i hsafe
    exact Double.integer?_ofInt (Nat.lt_succ_of_le hsafe)

/-- An object with a repeated key, one with a key that is no identifier, and a zero of either sign in an array. -/
def zeros (zero : Float) : Value :=
  .object [("a", .array [.number Double.nan, .number zero]), ("a", .undefined), ("a-b", .null)]

/-- The two zeros are told apart where they are nested, and the greatest safe integer comes back. -/
theorem ofValue_lossless_zeros :
    (ofValue (zeros (-0.0))).same (ofValue (zeros (-0.0))) = true ∧
      (ofValue (zeros (-0.0))).same (ofValue (zeros 0.0)) = false ∧
      Optimize.evaluate? (fun _ => false) (ofValue (.number (-0.0))) = some (.number (-0.0)) ∧
      ∃ x, Double.integer? x = some greatestSafe ∧ numberJson x = .int greatestSafe := by
  obtain ⟨hsame, hvalue, hheld, hwritten⟩ := ofValue_lossless
  refine ⟨(hsame _ _).mpr rfl, ?_, hvalue _ rfl, Float.ofInt greatestSafe, ?_⟩
  · rw [Bool.eq_false_iff, Ne, hsame]
    intro hzeros
    have hzero : (-0.0 : Float) = 0.0 := by
      simpa only [zeros, Value.object.injEq, List.cons.injEq, Prod.mk.injEq, Value.array.injEq,
        Value.number.injEq, true_and, and_true] using hzeros
    have hparts : Double.parts (-0.0) = Double.parts 0.0 := congrArg Double.parts hzero
    cases hparts
  · have hinteger := hheld greatestSafe (Nat.le_refl _)
    refine ⟨hinteger, (hwritten _ _ hinteger (Nat.le_refl _) ?_).1⟩
    intro hparts
    rw [Double.integer?, hparts] at hinteger
    cases hinteger

end Expression

end Minifier
