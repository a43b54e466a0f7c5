import Minifier.Proofs.Json.RoundTrip
import Minifier.Proofs.Tree.Conversion

/-!
# Emitted documents are read back

A node that was read from a document is written as a document from which the same node is read, in either
form. The way there is over values:

* the value of a draft is one that a document holds (`isDocument_of_toJson?`),
* moving the `type` of its node objects to the front leaves it one (`isDocument_typeFirst`),
* what such a value is written as is read as that value (`readWithin?_document`), and the value stands
  for the node that it was written for (`ofJson_document`).

Doubles are left out: the documents are those whose numerals are integers of 64 bits (`Draft.isWhole`).

**Main result**: `read_emitted`.
-/

namespace Minifier

/-! ## Drafts of whole numbers -/

/-- The numeral has neither point nor exponent, and its number fits 64 bits, with or without a sign. -/
def Numeral.isWhole (n : Numeral) : Bool :=
  n.integral && if n.negative then n.digits ≤ 0x8000000000000000 else n.digits < 0x10000000000000000

namespace Draft

mutual

/-- All numerals of the draft are integers of 64 bits. -/
def isWhole : Draft → Bool
  | .number n => n.isWhole
  | .array items => areWhole items
  | .object members => membersWhole members
  | _ => true

/-- All numerals of the items are integers of 64 bits. -/
def areWhole : List Draft → Bool
  | [] => true
  | item :: rest => isWhole item && areWhole rest

/-- All numerals of the members are integers of 64 bits. -/
def membersWhole : List (Option String × Draft) → Bool
  | [] => true
  | (_, value) :: rest => isWhole value && membersWhole rest

end

end Draft

open Draft

theorem ofScientific_zero (negative : Bool) (exponent : Nat) :
    Float.ofScientific 0 negative exponent = 0.0 := by
  by_cases h : exponent ≤ 22
  · have hall : ∀ negative, ∀ exponent : Fin 23, Float.ofScientific 0 negative exponent = 0.0 := by
      decide +kernel
    exact hall negative ⟨exponent, by omega⟩
  · rw [Float.ofScientific, dif_neg (by omega)]
    rfl

theorem isWhole_of_toNumber? {numeral : Numeral} (h : numeral.isWhole = true) {n : Number}
    (hn : numeral.toNumber? = some n) : n.IsWhole := by
  obtain ⟨negative, digits, scale, integral⟩ := numeral
  rw [Numeral.isWhole, Bool.and_eq_true] at h
  obtain ⟨rfl, hrange⟩ : integral = true ∧ _ := h
  cases negative with
  | false =>
      have hrange : digits < 0x10000000000000000 := by simpa using hrange
      have hint : Numeral.toInt? ⟨false, digits, scale, true⟩ = some digits := by
        simp only [Numeral.toInt?, Bool.not_true, if_pos hrange]
        rfl
      rw [Numeral.toNumber?, hint] at hn
      cases hn
      constructor <;> omega
  | true =>
      have hrange : digits ≤ 0x8000000000000000 := by simpa using hrange
      rcases Nat.eq_zero_or_pos digits with rfl | hpos
      · -- A negative zero is the one numeral here that is read as a double.
        have hfloat : Numeral.toFloat ⟨true, 0, scale, true⟩ = -0.0 :=
          congrArg Neg.neg (ofScientific_zero _ _)
        have hfinite : Float.isInf (-0.0) = false := by decide +kernel
        have hnumber : Numeral.toNumber? ⟨true, 0, scale, true⟩ = some (.float (-0.0)) := by
          rw [← hfloat] at hfinite ⊢
          simp [Numeral.toNumber?, Numeral.toInt?, Numeral.toFloat?, hfinite]
        rw [hnumber] at hn
        cases hn
        rfl
      · have hmagnitude : ¬ (digits = 0 ∨ 0x8000000000000000 < digits) := by omega
        have hint : Numeral.toInt? ⟨true, digits, scale, true⟩ = some (-(digits : Int)) := by
          simp only [Numeral.toInt?, Bool.not_true, if_true, if_neg hmagnitude]
          rfl
        rw [Numeral.toNumber?, hint] at hn
        cases hn
        constructor <;> omega

/-! ## Values of drafts -/

theorem membersAreDocuments_iff {depth : Nat} {members : List (String × Json)} :
    Json.MembersAreDocuments depth members ↔ ∀ member ∈ members, member.2.IsDocument depth := by
  induction members with
  | nil => simp [Json.MembersAreDocuments]
  | cons member rest ih =>
      obtain ⟨name, value⟩ := member
      rw [Json.MembersAreDocuments, ih, List.forall_mem_cons]

mutual

/-- The value of a draft of whole numbers is one that a document holds. -/
theorem isDocument_of_toJson? : (draft : Draft) → {depth : Nat} → {json : Json} →
    draft.isWhole = true → draft.toJson? depth = some json → json.IsDocument depth
  | .null, _, _, _, hjson => by
      cases hjson
      trivial
  | .bool _, _, _, _, hjson => by
      cases hjson
      trivial
  | .number numeral, depth, json, h, hjson => by
      rw [toJson?, Option.map_eq_some_iff] at hjson
      obtain ⟨n, hn, rfl⟩ := hjson
      exact isWhole_of_toNumber? h hn
  | .string text, depth, json, _, hjson => by
      rw [toJson?, Option.map_eq_some_iff] at hjson
      obtain ⟨s, -, rfl⟩ := hjson
      trivial
  | .array drafts, depth, json, h, hjson => by
      rw [toJson?] at hjson
      split at hjson
      · cases hjson
      next hdepth =>
        rw [Option.map_eq_some_iff] at hjson
        obtain ⟨items, hitems, rfl⟩ := hjson
        exact ⟨Nat.pos_of_ne_zero hdepth, areDocuments_of_itemValues? drafts h hitems⟩
  | .object drafts, depth, json, h, hjson => by
      rw [toJson?] at hjson
      split at hjson
      · cases hjson
      next hdepth =>
        rw [Option.map_eq_some_iff] at hjson
        obtain ⟨pairs, hpairs, rfl⟩ := hjson
        have hvalues := membersAreDocuments_iff.mp (membersAreDocuments_of_memberValues? drafts h hpairs)
        refine ⟨Nat.pos_of_ne_zero hdepth, Entries.nodup_keys_ofPairs pairs, ?_⟩
        rw [membersAreDocuments_iff]
        intro member hmember
        exact hvalues member (Entries.mem_ofPairs hmember)

theorem areDocuments_of_itemValues? : (drafts : List Draft) → {depth : Nat} → {items : List Json} →
    areWhole drafts = true → itemValues? depth drafts = some items → Json.AreDocuments depth items
  | [], _, _, _, hitems => by
      cases hitems
      trivial
  | draft :: drafts, depth, items, h, hitems => by
      rw [areWhole, Bool.and_eq_true] at h
      rw [itemValues?] at hitems
      split at hitems
      next value values hvalue hvalues =>
        cases hitems
        exact ⟨isDocument_of_toJson? draft h.1 hvalue, areDocuments_of_itemValues? drafts h.2 hvalues⟩
      next => cases hitems

theorem membersAreDocuments_of_memberValues? : (drafts : List (Option String × Draft)) → {depth : Nat} →
    {members : List (String × Json)} → membersWhole drafts = true →
    memberValues? depth drafts = some members → Json.MembersAreDocuments depth members
  | [], _, _, _, hmembers => by
      cases hmembers
      trivial
  | (name, draft) :: drafts, depth, members, h, hmembers => by
      rw [membersWhole, Bool.and_eq_true] at h
      unfold memberValues? at hmembers
      split at hmembers
      next name value values hvalue hvalues =>
        cases hmembers
        exact ⟨isDocument_of_toJson? draft h.1 hvalue,
          membersAreDocuments_of_memberValues? drafts h.2 hvalues⟩
      next => cases hmembers

end

/-! ## Values with the type in front -/

theorem names_typeFirstMembers (members : List (String × Json)) :
    (Json.typeFirstMembers members).map Prod.fst = (members.map Prod.fst).filter (· ≠ "type") := by
  rw [← encodeFields_fieldsOfMembers, names_encodeFields, names_fieldsOfMembers]

mutual

theorem isDistinct_of_isDocument : (json : Json) → {depth : Nat} → json.IsDocument depth →
    json.isDistinct = true
  | .null, _, _ | .bool _, _, _ | .number _, _, _ | .string _, _, _ => rfl
  | .array items, depth, h => by
      rw [Json.IsDocument] at h
      exact areDistinct_of_areDocuments items h.2
  | .object members, depth, h => by
      rw [Json.IsDocument] at h
      rw [Json.isDistinct, decide_eq_true h.2.1, membersDistinct_of_membersAreDocuments members h.2.2]
      rfl

theorem areDistinct_of_areDocuments : (items : List Json) → {depth : Nat} →
    Json.AreDocuments depth items → Json.areDistinct items = true
  | [], _, _ => rfl
  | item :: rest, depth, h => by
      rw [Json.AreDocuments] at h
      rw [Json.areDistinct, isDistinct_of_isDocument item h.1, areDistinct_of_areDocuments rest h.2]
      rfl

theorem membersDistinct_of_membersAreDocuments : (members : List (String × Json)) → {depth : Nat} →
    Json.MembersAreDocuments depth members → Json.membersDistinct members = true
  | [], _, _ => rfl
  | (_, value) :: rest, depth, h => by
      rw [Json.MembersAreDocuments] at h
      rw [Json.membersDistinct, isDistinct_of_isDocument value h.1,
        membersDistinct_of_membersAreDocuments rest h.2]
      rfl

end

mutual

/-- A document may show the `type` of its node objects in front. -/
theorem isDocument_typeFirst : (json : Json) → {depth : Nat} → json.IsDocument depth →
    json.typeFirst.IsDocument depth
  | .null, _, h | .bool _, _, h | .number _, _, h | .string _, _, h => h
  | .array items, depth, h => by
      rw [Json.typeFirst]
      split
      · exact ⟨h.1, areDocuments_typeFirstItems items h.2⟩
      · exact h
  | .object members, depth, h => by
      rw [Json.typeFirst]
      split
      next name =>
        refine ⟨h.1, ?_, trivial, membersAreDocuments_typeFirstMembers members h.2.2⟩
        rw [List.map_cons, names_typeFirstMembers, List.nodup_cons]
        exact ⟨by simp, h.2.1.filter _⟩
      next => exact h

theorem areDocuments_typeFirstItems : (items : List Json) → {depth : Nat} →
    Json.AreDocuments depth items → Json.AreDocuments depth (Json.typeFirstItems items)
  | [], _, _ => trivial
  | item :: rest, _, h => ⟨isDocument_typeFirst item h.1, areDocuments_typeFirstItems rest h.2⟩

theorem membersAreDocuments_typeFirstMembers : (members : List (String × Json)) → {depth : Nat} →
    Json.MembersAreDocuments depth members → Json.MembersAreDocuments depth (Json.typeFirstMembers members)
  | [], _, _ => trivial
  | (name, value) :: rest, depth, h => by
      rw [Json.typeFirstMembers]
      split
      · exact membersAreDocuments_typeFirstMembers rest h.2
      · exact ⟨isDocument_typeFirst value h.1, membersAreDocuments_typeFirstMembers rest h.2⟩

end

/-! ## Nodes -/

theorem exists_of_read {text origin : String} {n : Node} (h : Node.read text origin = .ok n) :
    ∃ draft json, Draft.read? text = some draft ∧ draft.toJson? Json.nestingLimit = some json ∧
      Node.ofJson json = .ok n := by
  rw [Node.read] at h
  split at h
  next json hjson =>
    rw [Json.read?, Json.readWithin?, Option.bind_eq_some_iff] at hjson
    obtain ⟨draft, hdraft, hvalue⟩ := hjson
    exact ⟨draft, json, hdraft, hvalue, h⟩
  next => cases h

/-- The document of a node that was read is read as that node. -/
theorem read_render {json : Json} {n : Node} (hjson : json.IsDocument Json.nestingLimit)
    (hn : Node.ofJson json = .ok n) (compact : Bool) (origin : String) :
    Node.read (n.render compact) origin = .ok n := by
  have hdocument : n.document = json.typeFirst := by
    rw [← document_ofJson, ofJson_eq_ok_iff.mp hn]
    rfl
  have hread : Json.read? (n.render compact) = some n.document := by
    apply readWithin?_document
    rw [hdocument]
    exact isDocument_typeFirst json hjson
  obtain ⟨hhides, hnamed⟩ := all_of_ofJson (isDistinct_of_isDocument json hjson) hn
  rw [Node.read, hread]
  exact ofJson_eq_ok_iff.mpr (ofJson_document n hhides hnamed)

/-- A node that was read from a document of whole numbers is emitted, in either form, as a document that is read
as the same node, so that what is emitted for the node that is read again is the same text. -/
theorem read_emitted {text origin : String} {n : Node} (hread : Node.read text origin = .ok n)
    (hwhole : ∀ draft, Draft.read? text = some draft → draft.isWhole = true) (compact : Bool)
    (origin' : String) :
    Node.read (n.render compact) origin' = .ok n ∧
      ∀ m, Node.read (n.render compact) origin' = .ok m → ∀ form, m.render form = n.render form := by
  obtain ⟨draft, json, hdraft, hjson, hn⟩ := exists_of_read hread
  have hdocument := isDocument_of_toJson? draft (hwhole draft hdraft) hjson
  have hback := read_render hdocument hn compact origin'
  refine ⟨hback, ?_⟩
  intro m hm form
  rw [hback] at hm
  cases hm
  rfl

/-- A node with its `type` last and twice, an escaped control character, a hole, the bounds of
the integers and a negative zero. -/
def crampedText : String :=
  "\x7b\"kind\": \"\\u0001\\\"\", \"type\":\"X\",\"at\" :[18446744073709551615,-9223372036854775808,-0], " ++
    "\"slots\":[null,\x7b\"type\":\"Y\"\x7d], \"type\" : \"Z\" \x7d"

/-- The node of `crampedText` is emitted with one `type`, in front, and read back from either form. -/
theorem read_emitted_crampedText : ∃ n, Node.read crampedText "first" = .ok n ∧
    (∀ draft, Draft.read? crampedText = some draft → draft.isWhole = true) ∧
    n.text = "\x7b\"type\":\"Z\",\"kind\":\"\\u0001\\\"\"," ++
      "\"at\":[18446744073709551615,-9223372036854775808,-0.0],\"slots\":[null,\x7b\"type\":\"Y\"\x7d]\x7d" ∧
    Node.read (n.render true) "second" = .ok n ∧ Node.read (n.render false) "second" = .ok n := by
  have htext : (Node.read crampedText "first").toOption.map Node.text =
      some ("\x7b\"type\":\"Z\",\"kind\":\"\\u0001\\\"\"," ++
        "\"at\":[18446744073709551615,-9223372036854775808,-0.0],\"slots\":[null,\x7b\"type\":\"Y\"\x7d]\x7d") := by
    decide +kernel
  have hwhole : ∀ draft, Draft.read? crampedText = some draft → draft.isWhole = true := by
    have hall : (Draft.read? crampedText).all Draft.isWhole = true := by decide +kernel
    exact Option.all_eq_true _ _ |>.mp hall
  cases hread : Node.read crampedText "first" with
  | error e =>
      rw [hread] at htext
      cases htext
  | ok n =>
      rw [hread] at htext
      refine ⟨n, rfl, hwhole, Option.some.inj htext, ?_, ?_⟩
      · exact (read_emitted hread hwhole true "second").1
      · exact (read_emitted hread hwhole false "second").1

end Minifier
