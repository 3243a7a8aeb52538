/-
Replacing parts of a rule. The depth of the new rule is that of the part, as far down as its path is long, or
that of what stands beside the path; so within a limit that admits the old rule, only the part can be too deep.
Main statements: replacements at paths that lead apart can be made in either order, and one of them neither
helps nor hinders the other, nor changes why it is refused.
-/
import Eligibility.Proofs.Outcome
import Eligibility.Rule.Path

namespace Eligibility

/-! ## Paths that lead apart -/

/-- Neither path leads into the part at the other. -/
def Path.Apart (p q : Path) : Prop := ¬ p <+: q ∧ ¬ q <+: p

namespace Path

variable {p q : Path} {side side' : Branch}

theorem Apart.symm (h : Apart p q) : Apart q p := ⟨h.2, h.1⟩

theorem not_apart_nil_left : ¬ Apart [] q := fun h => h.1 List.nil_prefix

theorem not_apart_nil_right : ¬ Apart p [] := fun h => h.2 List.nil_prefix

theorem apart_cons_self : Apart (side :: p) (side :: q) ↔ Apart p q := by
  simp [Apart, List.cons_prefix_cons]

end Path

namespace Rule

variable {r r₁ r₂ a b : Rule} {p q : Path}

/-! ## Replacements at such paths -/

/-- Of two replacements that can be made at paths that lead apart, either can be made after the other, with the
same outcome. -/
theorem replace_comm (h : Path.Apart p q) (h₁ : r.replace p a = .ok r₁) (h₂ : r.replace q b = .ok r₂) :
    ∃ r', r₁.replace q b = .ok r' ∧ r₂.replace p a = .ok r' := by
  induction p generalizing r q r₁ r₂ with
  | nil => exact absurd h Path.not_apart_nil_left
  | cons side p ih =>
    cases q with
    | nil => exact absurd h Path.not_apart_nil_right
    | cons side' q =>
      cases r with
      | test c => simp [replace] at h₁
      | join k left right =>
        -- on one side the two go on together, on different sides they do not meet
        cases side <;> cases side' <;> obtain ⟨x, hx, rfl⟩ := map_eq_ok.1 h₁ <;>
          obtain ⟨y, hy, rfl⟩ := map_eq_ok.1 h₂
        case left.left =>
          obtain ⟨z, hz, hz'⟩ := ih (Path.apart_cons_self.1 h) hx hy
          exact ⟨join k z right, by rw [replace, hz]; rfl, by rw [replace, hz']; rfl⟩
        case right.right =>
          obtain ⟨z, hz, hz'⟩ := ih (Path.apart_cons_self.1 h) hx hy
          exact ⟨join k left z, by rw [replace, hz]; rfl, by rw [replace, hz']; rfl⟩
        case left.right => exact ⟨join k x y, by rw [replace, hy]; rfl, by rw [replace, hx]; rfl⟩
        case right.left => exact ⟨join k y x, by rw [replace, hy]; rfl, by rw [replace, hx]; rfl⟩

/-- A replacement that leaves the rule does so in the same place after one at a path that leads apart. -/
theorem replace_refused (h : Path.Apart p q) (h₂ : r.replace q b = .ok r₂) {e : Fault} (h₁ : r.replace p a = .error e) :
    r₂.replace p a = .error e := by
  induction p generalizing r q r₂ with
  | nil => exact absurd h Path.not_apart_nil_left
  | cons side p ih =>
    cases q with
    | nil => exact absurd h Path.not_apart_nil_right
    | cons side' q =>
      cases r with
      | test c => simp [replace] at h₂
      | join k left right =>
        cases side <;> cases side' <;> obtain ⟨y, hy, rfl⟩ := map_eq_ok.1 h₂ <;>
          rw [replace, map_eq_error] at h₁ ⊢
        case left.left | right.right => exact ih (Path.apart_cons_self.1 h) hy h₁
        case left.right | right.left => exact h₁

/-! ## Depth -/

/-- The depth of what stands beside a path and on it, without the part at its end. -/
def depthBeside : Rule → Path → Nat
  | _, [] => 0
  | test _, _ :: _ => 1
  | join _ l r, .left :: p => max (l.depthBeside p) r.depth + 1
  | join _ l r, .right :: p => max l.depth (r.depthBeside p) + 1

theorem depthBeside_le (r : Rule) (p : Path) : r.depthBeside p ≤ r.depth := by
  fun_induction depthBeside r p with
  | case1 => exact Nat.zero_le _
  | case2 => exact Nat.le_refl _
  | case3 k l r p ih => simp only [depth]; omega
  | case4 k l r p ih => simp only [depth]; omega

theorem depth_replace {r' : Rule} (h : r.replace p a = .ok r') :
    r'.depth = max (p.length + a.depth) (r.depthBeside p) := by
  fun_induction replace r p a generalizing r' with
  | case1 => cases h; simp [depthBeside]
  | case2 k l r p s ih =>
    obtain ⟨left, hleft, rfl⟩ := map_eq_ok.1 h
    simp only [depth, depthBeside, List.length_cons, ih hleft]
    omega
  | case3 k l r p s ih =>
    obtain ⟨right, hright, rfl⟩ := map_eq_ok.1 h
    simp only [depth, depthBeside, List.length_cons, ih hright]
    omega
  | case4 => cases h

/-- Within a limit that admits the old rule, the depth of the part at the end of its path decides. -/
theorem checkDepth_replace {r' : Rule} {limit : Nat} (hr : r.depth ≤ limit) (h : r.replace p a = .ok r') :
    r'.checkDepth limit = if limit < p.length + a.depth then
      .error (.badValue (.depthOverLimit (p.length + a.depth) limit)) else .ok r'.depth := by
  have beside := Nat.le_trans (depthBeside_le r p) hr
  have depth := depth_replace h
  unfold checkDepth
  by_cases deeper : limit < p.length + a.depth
  · have new : r'.depth = p.length + a.depth := by omega
    rw [if_pos deeper, new, if_pos deeper]
  · rw [if_neg deeper, if_neg (by omega)]

end Rule
end Eligibility
