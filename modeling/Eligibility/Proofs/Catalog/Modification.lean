/-
Modifications of one entry at two paths that lead apart. Whether one of them is refused, and why, does not depend
on whether the other was made before: the text is read and the entry found as before, the path leaves the rule
where it did, and as the rule of an entry is within the limit, only the depth of the new part at the end of its
path can pass it. Main statement: after any calls, two such modifications come to the same in either order.
-/
import Eligibility.Proofs.Catalog.Consistency
import Eligibility.Proofs.Catalog.Lookup
import Eligibility.Proofs.Rule.Replacement

namespace Eligibility

/-- The fault for which an outcome is refused, if it is. -/
def refusal? {α : Type} : Except Fault α → Option Fault
  | .ok _ => none
  | .error e => some e

theorem refusal?_map {α β : Type} (x : Except Fault α) (f : α → β) : refusal? (x.map f) = refusal? x := by
  cases x <;> rfl

theorem eq_error_of_refusal? {α : Type} {x : Except Fault α} {e : Fault} (h : refusal? x = some e) : x = .error e := by
  cases x with
  | ok a => cases h
  | error f => exact congrArg Except.error (Option.some.inj h)

/-! ## Parts within the limit -/

namespace Rule

/-- A rule with another in the place of the part at a path, if it is within the limit of catalogs. -/
def splice (r : Rule) (p : Path) (part : Rule) : Except Fault Rule := do
  let new ← r.replace p part
  let _ ← new.checkDepth defaultDepthLimit
  return new

variable {r r₁ r₂ a b : Rule} {p q : Path}

theorem splice_eq_ok {new : Rule} :
    r.splice p a = .ok new ↔ r.replace p a = .ok new ∧ new.depth ≤ defaultDepthLimit := by
  simp only [splice, bind_eq_ok, checkDepth_eq_ok]
  constructor
  · rintro ⟨_, hr, d, ⟨rfl, hd⟩, ⟨⟩⟩
    exact ⟨hr, hd⟩
  · rintro ⟨hr, hd⟩
    exact ⟨new, hr, new.depth, ⟨rfl, hd⟩, rfl⟩

/-- In a rule within the limit, a part is refused for its path or for its depth at the end of the path. -/
theorem splice_eq_error (hr : r.depth ≤ defaultDepthLimit) {e : Fault} :
    r.splice p a = .error e ↔ r.replace p a = .error e ∨ (∃ new, r.replace p a = .ok new) ∧
      defaultDepthLimit < p.length + a.depth ∧
      e = .badValue (.depthOverLimit (p.length + a.depth) defaultDepthLimit) := by
  unfold splice
  cases hreplace : r.replace p a with
  | error f => simp [bind, Except.bind]
  | ok new =>
    rw [ok_bind, checkDepth_replace hr hreplace]
    split
    · rename_i deeper
      simp [bind, Except.bind, deeper, eq_comm]
    · rename_i within
      simp [bind, Except.bind, pure, Except.pure, within]

theorem splice_comm (h : Path.Apart p q) (h₁ : r.splice p a = .ok r₁) (h₂ : r.splice q b = .ok r₂) :
    ∃ r', r₁.splice q b = .ok r' ∧ r₂.splice p a = .ok r' := by
  obtain ⟨hr₁, within₁⟩ := splice_eq_ok.1 h₁
  obtain ⟨hr₂, within₂⟩ := splice_eq_ok.1 h₂
  obtain ⟨r', hq, hp⟩ := replace_comm h hr₁ hr₂
  have within : r'.depth ≤ defaultDepthLimit := by
    -- what lies beside the first path is no deeper than after the second replacement, which was within the limit
    have beside := depthBeside_le r₂ p
    rw [depth_replace hr₁] at within₁
    rw [depth_replace hp]
    omega
  exact ⟨r', splice_eq_ok.2 ⟨hq, within⟩, splice_eq_ok.2 ⟨hp, within⟩⟩

theorem splice_refused (h : Path.Apart p q) (hr : r.depth ≤ defaultDepthLimit) (h₂ : r.splice q b = .ok r₂)
    {e : Fault} (h₁ : r.splice p a = .error e) : r₂.splice p a = .error e := by
  obtain ⟨hr₂, within⟩ := splice_eq_ok.1 h₂
  rw [splice_eq_error within]
  rcases (splice_eq_error hr).1 h₁ with refused | ⟨⟨r₁, hr₁⟩, deeper⟩
  · exact .inl (replace_refused h hr₂ refused)
  · -- the path is as long as it was, so the new part is as deep at its end
    obtain ⟨r', -, hr'⟩ := replace_comm h hr₁ hr₂
    exact .inr ⟨⟨r', hr'⟩, deeper⟩

end Rule

/-! ## Modifications -/

namespace Catalog

/-- The entry of an id, and its rule with the one of a text in the place of the part at a path. -/
def modified (c : Catalog) (id : String) (p : Path) (text : String) : Except Fault (Entry × Rule) := do
  let part ← Rule.parse defaultDepthLimit text
  match c.get? id with
  | none => throw (.ruleNotFound id)
  | some e =>
    let rule ← e.rule.splice p part
    return (e, rule)

variable {c : Catalog} {id now : String} {p q : Path} {s t : String}

theorem perform_modify (c : Catalog) (id now : String) (p : Path) (text : String) :
    c.perform (.modify id now p text) =
      (c.modified id p text).map fun (e, rule) => c.put id (e.revise rule.render rule now) := by
  rw [perform, modify, modified]
  cases Rule.parse defaultDepthLimit text with
  | error e => rfl
  | ok part =>
    rw [ok_bind, ok_bind, revise]
    cases c.get? id with
    | none => rfl
    | some e =>
      dsimp only [Rule.splice]
      cases e.rule.replace p part with
      | error e => rfl
      | ok new =>
        rw [ok_bind, ok_bind]
        cases new.checkDepth defaultDepthLimit <;> rfl

theorem modified_eq_ok {e : Entry} {rule : Rule} :
    c.modified id p s = .ok (e, rule) ↔ ∃ part, Rule.parse defaultDepthLimit s = .ok part ∧ c.get? id = some e ∧
      e.rule.splice p part = .ok rule := by
  unfold modified
  rw [bind_eq_ok]
  refine exists_congr fun part => and_congr_right fun _ => ?_
  cases c.get? id with
  | none => simp [throw, throwThe, MonadExceptOf.throw]
  | some e₀ =>
    dsimp only
    rw [bind_eq_ok]
    constructor
    · rintro ⟨_, h, ⟨⟩⟩
      exact ⟨rfl, h⟩
    · rintro ⟨⟨⟩, h⟩
      exact ⟨rule, h, rfl⟩

theorem modified_entry {e e' : Entry} {r₁ r₂ : Rule} (h₁ : c.modified id p s = .ok (e, r₁))
    (h₂ : c.modified id q t = .ok (e', r₂)) : e = e' := by
  obtain ⟨_, -, hget, -⟩ := modified_eq_ok.1 h₁
  obtain ⟨_, -, hget', -⟩ := modified_eq_ok.1 h₂
  exact Option.some.inj (hget.symm.trans hget')

/-- A modification is refused after one at a path that leads apart as it would be before. -/
theorem modified_refused (h : Path.Apart p q) (hc : c.Consistent) {e : Entry} {r₂ : Rule}
    (h₂ : c.modified id q t = .ok (e, r₂)) {f : Fault} (h₁ : c.modified id p s = .error f) :
    (c.put id (e.revise r₂.render r₂ now)).modified id p s = .error f := by
  obtain ⟨b, -, hget, hsplice⟩ := modified_eq_ok.1 h₂
  unfold modified at h₁ ⊢
  cases hs : Rule.parse defaultDepthLimit s with
  | error g => rwa [hs] at h₁
  | ok a =>
    rw [hs, ok_bind, hget] at h₁
    rw [ok_bind, get?_put, if_pos rfl]
    dsimp only at h₁ ⊢
    cases hfirst : e.rule.splice p a with
    | ok r₁ => rw [hfirst] at h₁; cases h₁
    | error g =>
      have refused := Rule.splice_refused h (hc id e (mem_of_get? hget)).depth hsplice hfirst
      rw [hfirst] at h₁
      change (r₂.splice p a >>= _) = _
      rw [refused]
      exact h₁

theorem modified_comm (h : Path.Apart p q) {e : Entry} {r₁ r₂ : Rule} (h₁ : c.modified id p s = .ok (e, r₁))
    (h₂ : c.modified id q t = .ok (e, r₂)) (now now' : String) :
    let e₁ := e.revise r₁.render r₁ now
    let e₂ := e.revise r₂.render r₂ now'
    ∃ r', (c.put id e₁).modified id q t = .ok (e₁, r') ∧ (c.put id e₂).modified id p s = .ok (e₂, r') := by
  intro e₁ e₂
  obtain ⟨a, hs, hget, hsplice₁⟩ := modified_eq_ok.1 h₁
  obtain ⟨b, ht, -, hsplice₂⟩ := modified_eq_ok.1 h₂
  obtain ⟨r', hq, hp⟩ := Rule.splice_comm h hsplice₁ hsplice₂
  have found : ∀ e', (c.put id e').get? id = some e' := fun e' => by rw [get?_put, if_pos rfl]
  exact ⟨r', modified_eq_ok.2 ⟨b, ht, found e₁, hq⟩, modified_eq_ok.2 ⟨a, hs, found e₂, hp⟩⟩

/-! ## Catalogs but for the times of the last changes -/

/-- The entries of a catalog without the times of their last changes. -/
def undated (c : Catalog) : List (String × Entry) := c.entries.map fun (id, e) => (id, { e with updatedAt := "" })

theorem contains_put_self (c : Catalog) (id : String) (e : Entry) : (c.put id e).contains id = true :=
  contains_iff.2 ⟨e, by rw [get?_put, if_pos rfl]⟩

/-- Of two entries put under an id the second stays. -/
theorem put_put (c : Catalog) (id : String) (e e' : Entry) : (c.put id e).put id e' = c.put id e' := by
  rw [put, if_pos (contains_put_self c id e), put, put]
  split
  · simp only [List.map_map]
    refine congrArg Catalog.mk (List.map_congr_left fun old _ => ?_)
    by_cases hold : old.1 = id <;> simp [hold]
  · rename_i absent
    have others : ∀ old ∈ c.entries, (if old.1 = id then (id, e') else old) = old := by
      intro old hold
      refine if_neg fun same => absent (mem_ids.1 ?_)
      exact same ▸ List.mem_map_of_mem hold
    rw [List.map_append, List.map_congr_left others]
    simp

theorem undated_put (c : Catalog) (id : String) {e e' : Entry}
    (h : { e with updatedAt := "" } = { e' with updatedAt := "" }) : (c.put id e).undated = (c.put id e').undated := by
  unfold put undated
  split
  · simp only [List.map_map]
    refine List.map_congr_left fun old _ => ?_
    by_cases hold : old.1 = id <;> simp [hold, h]
  · simp [h]

/-! ## Either order -/

theorem step_modify_of_ok {e : Entry} {rule : Rule} (h : c.modified id p s = .ok (e, rule)) (now : String) :
    c.step (.modify id now p s) = c.put id (e.revise rule.render rule now) := by
  rw [step, perform_modify, h]
  rfl

theorem step_modify_of_error {f : Fault} (h : c.modified id p s = .error f) (now : String) :
    c.step (.modify id now p s) = c := by
  rw [step, perform_modify, h]
  rfl

theorem undated_step_modify (c : Catalog) (id : String) (p : Path) (s now now' : String) :
    (c.step (.modify id now p s)).undated = (c.step (.modify id now' p s)).undated := by
  cases h : c.modified id p s with
  | error f => rw [step_modify_of_error h, step_modify_of_error h]
  | ok found =>
    rw [step_modify_of_ok h, step_modify_of_ok h]
    exact undated_put c id rfl

theorem refusal?_modified_step (apart : Path.Apart p q) (hc : c.Consistent) (id s t now : String) :
    refusal? ((c.step (.modify id now q t)).modified id p s) = refusal? (c.modified id p s) := by
  cases h₂ : c.modified id q t with
  | error g => rw [step_modify_of_error h₂]
  | ok found =>
    obtain ⟨e, r₂⟩ := found
    rw [step_modify_of_ok h₂]
    cases h₁ : c.modified id p s with
    | error f => rw [modified_refused apart hc h₂ h₁]
    | ok found =>
      obtain ⟨e', r₁⟩ := found
      obtain rfl : e' = e := modified_entry h₁ h₂
      obtain ⟨r', -, hp⟩ := modified_comm apart h₁ h₂ now now
      rw [hp]
      rfl

theorem undated_step_step (apart : Path.Apart p q) (hc : c.Consistent) (id s t now₁ now₂ now₃ now₄ : String) :
    ((c.step (.modify id now₁ p s)).step (.modify id now₄ q t)).undated =
      ((c.step (.modify id now₂ q t)).step (.modify id now₃ p s)).undated := by
  have second := refusal?_modified_step apart hc id s t now₂
  have first := refusal?_modified_step apart.symm hc id t s now₁
  -- one that is refused is refused in either order, and then only the other one counts
  cases h₁ : c.modified id p s with
  | error f =>
    rw [h₁] at second
    rw [step_modify_of_error h₁, step_modify_of_error (eq_error_of_refusal? second)]
    exact undated_step_modify c id q t now₄ now₂
  | ok found =>
    cases h₂ : c.modified id q t with
    | error g =>
      rw [h₂] at first
      rw [step_modify_of_error h₂, step_modify_of_error (eq_error_of_refusal? first)]
      exact undated_step_modify c id p s now₁ now₃
    | ok found' =>
      obtain ⟨e, r₁⟩ := found
      obtain ⟨e', r₂⟩ := found'
      obtain rfl : e' = e := modified_entry h₂ h₁
      obtain ⟨r', hq, hp⟩ := modified_comm apart h₁ h₂ now₁ now₂
      rw [step_modify_of_ok h₁, step_modify_of_ok h₂, step_modify_of_ok hq, step_modify_of_ok hp, put_put, put_put]
      exact undated_put c id rfl

/-- After any calls, two modifications of an entry at paths that lead apart are refused or not, and for the same
faults, whichever is made first, and the catalogs that they leave differ in no more than the times of the last
changes. -/
theorem modify_either_order (calls : List Call) (id : String) (hp : ¬ p <+: q) (hq : ¬ q <+: p) (s t : String)
    (now₁ now₂ now₃ now₄ : String) :
    let c := run calls
    let first := c.step (.modify id now₁ p s)
    let second := c.step (.modify id now₂ q t)
    refusal? (second.perform (.modify id now₃ p s)) = refusal? (c.perform (.modify id now₁ p s)) ∧
    refusal? (first.perform (.modify id now₄ q t)) = refusal? (c.perform (.modify id now₂ q t)) ∧
    (first.step (.modify id now₄ q t)).undated = (second.step (.modify id now₃ p s)).undated := by
  intro c first second
  have apart : Path.Apart p q := ⟨hp, hq⟩
  have consistent : c.Consistent := consistent_run calls
  simp only [perform_modify, refusal?_map]
  refine ⟨?_, ?_, ?_⟩
  · exact refusal?_modified_step apart consistent id s t now₂
  · exact refusal?_modified_step apart.symm consistent id t s now₁
  · exact undated_step_step apart consistent id s t now₁ now₂ now₃ now₄

/-- Both parts of one entry are replaced, one of them below a conjunction and the other beside it. -/
theorem modify_either_order_below_beside :
    let c := run [.create "r" "t0" "n" "(a = 'x' OR b = 'y') AND c = 'z'"]
    let below : Call := .modify "r" "t1" [.left, .right] "d = 'u' AND e = 'v'"
    let beside : Call := .modify "r" "t2" [.right] "f = 'w'"
    ¬ [Branch.left, .right] <+: [Branch.right] ∧ ¬ [Branch.right] <+: [Branch.left, .right] ∧
    refusal? ((c.step beside).perform below) = refusal? (c.perform below) ∧
    ((c.step below).step beside).undated = ((c.step beside).step below).undated ∧
    (((c.step beside).step below).get? "r").map Entry.text =
      some "(a = 'x' OR (d = 'u' AND e = 'v')) AND f = 'w'" := by
  have hp : ¬ [Branch.left, .right] <+: [Branch.right] := by decide
  have hq : ¬ [Branch.right] <+: [Branch.left, .right] := by decide
  obtain ⟨refusals, -, same⟩ := modify_either_order [.create "r" "t0" "n" "(a = 'x' OR b = 'y') AND c = 'z'"] "r"
    hp hq "d = 'u' AND e = 'v'" "f = 'w'" "t1" "t2" "t1" "t2"
  exact ⟨hp, hq, refusals, same, by decide +kernel⟩

end Catalog
end Eligibility
