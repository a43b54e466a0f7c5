import Minifier.Proofs.Identity.Walk
import Minifier.Proofs.Optimize.Turn

/-!
# Actions as scripts

What a visitor without identities does by one action, a script does in one or more steps: a node that is put
anywhere has to be made first, or moved. Each lemma here says of an action what script does the same. The
visitors are those whose state does not depend on the trees at hand.
-/

namespace Minifier.Tagged

variable {σ η τ : Type} {c : Cursor η} {s : σ} {forest : Forest} {t : Tagged}

namespace Script

/-- Copy trees one by one, and go on. -/
def copies : List Tagged → Script σ η → Script σ η
  | [], next => next
  | t :: rest, next => .after (.make (.copy t)) (copies rest next)

end Script

/-! ## Making trees -/

theorem play_make {source : Source} {n : Node} (h : source.node = .ok n) (next : Script σ η)
    (c : Cursor η) (s : σ) (forest : Forest) :
    (Script.after (.make source) next).play (c, s, forest)
      = next.play (c, s, ⟨n.number source.order forest.next :: forest.trees, forest.next + n.size⟩) := by
  have hmade : forest.make source
      = .ok ⟨n.number source.order forest.next :: forest.trees, forest.next + n.size⟩ := by
    rw [Forest.make, h]
    rfl
  simp only [Script.after, Script.play, Verb.run, hmade]

/-- Copying puts copies before what is at hand, the last one first. -/
theorem play_copies (trees : List Tagged) (next : Script σ η) (c : Cursor η) (s : σ) (forest : Forest) :
    ∃ (made : List Tagged) (drawn : Nat), made.map forget = trees.map forget ∧
      (Script.copies trees next).play (c, s, forest)
        = next.play (c, s, ⟨made.reverse ++ forest.trees, drawn⟩) := by
  induction trees generalizing forest with
  | nil => exact ⟨[], forest.next, rfl, rfl⟩
  | cons t trees ih =>
      rw [Script.copies, play_make (n := t.forget) rfl]
      obtain ⟨made, drawn, hmade, hplay⟩ :=
        ih ⟨t.forget.number .first forest.next :: forest.trees, forest.next + t.forget.size⟩
      refine ⟨t.forget.number .first forest.next :: made, drawn, ?_, ?_⟩
      · rw [List.map_cons, List.map_cons, Node.forget_number, hmade]
      · rw [List.reverse_cons, List.append_assoc]
        exact hplay

theorem play_splice (h : c.index?.isNone = false) (made rest : List Tagged) (drawn : Nat)
    (next : Script σ η) :
    (Script.after (.splice made.length) next).play (c, s, ⟨made.reverse ++ rest, drawn⟩)
      = next.play ({ c with outcome := .spliced made }, s, ⟨rest, drawn⟩) := by
  have hlength : made.length = made.reverse.length := List.length_reverse.symm
  have htake : ((made.reverse ++ rest).take made.length).reverse = made := by
    rw [hlength, List.take_left, List.reverse_reverse]
  have hdrop : (made.reverse ++ rest).drop made.length = rest := by
    rw [hlength, List.drop_left]
  simp only [Script.after, Script.play, Verb.run, h, htake, hdrop]
  rfl

/-! ## One action each -/

variable (x : τ)

theorem replace_play {n : Node} {trees : List Tagged} (h : forest.trees = t :: trees) (hn : t.forget = n) :
    Action.replace n (c.forget, x)
      = toResult (fun _ _ => x) ((Script.after .replace .done).play (c, s, forest)) := by
  have hroot : c.forget.isRoot = c.isRoot := rfl
  unfold Action.replace
  rw [Action.cursor_bind, hroot]
  simp only [Script.after, Script.play, Verb.run, h, ← hn]
  split <;> rfl

theorem remove_play :
    Action.remove (c.forget, x)
      = toResult (fun _ _ => x) ((Script.after .remove .done).play (c, s, forest)) := by
  have hroot : c.forget.isRoot = c.isRoot := rfl
  unfold Action.remove
  rw [Action.cursor_bind, hroot]
  simp only [Script.after, Script.play, Verb.run]
  split <;> rfl

theorem patch_play (deep : Bool) (json : Json) :
    Action.patch deep json (c.forget, x)
      = toResult (fun _ _ => x) ((Script.after (.patch deep json) .done).play (c, s, forest)) := by
  have hmade := (Patch.made_apply deep c.node forest.next json).forget_eq
  have hnode : c.forget.node = c.node.forget := rfl
  unfold Action.patch
  rw [Action.node_bind, hnode, ← hmade]
  simp only [Script.after, Script.play, Verb.run, Attempt.map]
  cases (Patch.apply deep c.node forest.next json).1.error with
  | none => rfl
  | some error => rfl

end Minifier.Tagged
