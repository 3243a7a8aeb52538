/-
Parts of a rule, taken and replaced. A path leads to a part or leaves the rule, and just in the first case the part
can be replaced. Main statement: what is put at a path is found there, what stands apart from it stays, the joins
above it keep their connectives, and the new rule is as deep as what was put at the end of the path or as the
deepest level outside it.
-/
import Eligibility.Proofs.Rule.Replacement
import Mathlib.Order.Bounds.Basic

namespace Eligibility

namespace Rule

variable {r r' a part : Rule} {p q : Path} {d : ℕ}

/-! ## Where a part can be replaced -/

/-- Where there is a part it can be replaced, by any rule. -/
theorem exists_replace (h : r.at? p = some part) (a : Rule) : ∃ r', r.replace p a = .ok r' := by
  fun_induction at? r p with
  | case1 => exact ⟨a, by rw [replace]⟩
  | case2 k l m p ih =>
    obtain ⟨l', hl⟩ := ih h
    exact ⟨join k l' m, by rw [replace, hl]; rfl⟩
  | case3 k l m p ih =>
    obtain ⟨m', hm⟩ := ih h
    exact ⟨join k l m', by rw [replace, hm]; rfl⟩
  | case4 => cases h

/-- A path that leaves the rule does so at a comparison, which is named with the step that cannot be taken. -/
theorem replace_of_absent (h : r.at? p = none) (a : Rule) :
    ∃ q side rest c, p = q ++ side :: rest ∧ r.at? q = some (test c) ∧
      r.replace p a = .error (.badValue (.pathLeavesRule c side)) := by
  fun_induction at? r p with
  | case1 => cases h
  | case2 k l m p ih =>
    obtain ⟨q, side, rest, c, rfl, hc, he⟩ := ih h
    exact ⟨.left :: q, side, rest, c, rfl, hc, by rw [replace, he]; rfl⟩
  | case3 k l m p ih =>
    obtain ⟨q, side, rest, c, rfl, hc, he⟩ := ih h
    exact ⟨.right :: q, side, rest, c, rfl, hc, by rw [replace, he]; rfl⟩
  | case4 c side p => exact ⟨[], side, p, c, rfl, rfl, by rw [replace]⟩

theorem exists_replace_iff (a : Rule) : (∃ r', r.replace p a = .ok r') ↔ ∃ part, r.at? p = some part := by
  constructor
  · rintro ⟨r', h⟩
    cases hp : r.at? p with
    | some part => exact ⟨part, rfl⟩
    | none =>
      obtain ⟨_, _, _, _, -, -, he⟩ := replace_of_absent hp a
      rw [he] at h
      cases h
  · rintro ⟨part, h⟩
    exact exists_replace h a

/-! ## What is found afterwards -/

theorem at?_replace (h : r.replace p a = .ok r') (q : Path) : r'.at? (p ++ q) = a.at? q := by
  fun_induction replace r p a generalizing r' with
  | case1 =>
    cases h
    rfl
  | case2 k l m p a ih =>
    obtain ⟨l', hl, rfl⟩ := map_eq_ok.1 h
    exact ih hl
  | case3 k l m p a ih =>
    obtain ⟨m', hm, rfl⟩ := map_eq_ok.1 h
    exact ih hm
  | case4 => cases h

theorem at?_replace_of_apart (h : r.replace p a = .ok r') (apart : Path.Apart p q) : r'.at? q = r.at? q := by
  fun_induction replace r p a generalizing r' q with
  | case1 => exact absurd apart Path.not_apart_nil_left
  | case2 k l m p a ih =>
    obtain ⟨l', hl, rfl⟩ := map_eq_ok.1 h
    rcases q with _ | ⟨_ | _, q⟩
    · exact absurd apart Path.not_apart_nil_right
    · exact ih hl (Path.apart_cons_self.1 apart)
    · rfl
  | case3 k l m p a ih =>
    obtain ⟨m', hm, rfl⟩ := map_eq_ok.1 h
    rcases q with _ | ⟨_ | _, q⟩
    · exact absurd apart Path.not_apart_nil_right
    · rfl
    · exact ih hm (Path.apart_cons_self.1 apart)
  | case4 => cases h

/-- The parts on the way to the end of the path are joins, before and after, of the same connective. -/
theorem at?_replace_above (h : r.replace p a = .ok r') (hq : q <+: p) (hne : q ≠ p) :
    ∃ k left right left' right', r.at? q = some (join k left right) ∧ r'.at? q = some (join k left' right') := by
  fun_induction replace r p a generalizing r' q with
  | case1 => exact absurd (List.prefix_nil.1 hq) hne
  | case2 k l m p a ih =>
    obtain ⟨l', hl, rfl⟩ := map_eq_ok.1 h
    cases q with
    | nil => exact ⟨k, l, m, l', m, rfl, rfl⟩
    | cons side q =>
      obtain ⟨rfl, hqp⟩ := List.cons_prefix_cons.1 hq
      exact ih hl hqp fun same => hne (congrArg _ same)
  | case3 k l m p a ih =>
    obtain ⟨m', hm, rfl⟩ := map_eq_ok.1 h
    cases q with
    | nil => exact ⟨k, l, m, l, m', rfl, rfl⟩
    | cons side q =>
      obtain ⟨rfl, hqp⟩ := List.cons_prefix_cons.1 hq
      exact ih hm hqp fun same => hne (congrArg _ same)
  | case4 => cases h

theorem replace_at? (h : r.at? p = some part) : r.replace p part = .ok r := by
  fun_induction at? r p with
  | case1 =>
    cases h
    rw [replace]
  | case2 k l m p ih => rw [replace, ih h]; rfl
  | case3 k l m p ih => rw [replace, ih h]; rfl
  | case4 => cases h

/-- Of two replacements at one path the second counts. -/
theorem replace_replace (h : r.replace p a = .ok r') (b : Rule) : r'.replace p b = r.replace p b := by
  fun_induction replace r p a generalizing r' with
  | case1 => rw [replace, replace]
  | case2 k l m p a ih =>
    obtain ⟨l', hl, rfl⟩ := map_eq_ok.1 h
    rw [replace, replace, ih hl]
  | case3 k l m p a ih =>
    obtain ⟨m', hm, rfl⟩ := map_eq_ok.1 h
    rw [replace, replace, ih hm]
  | case4 => cases h

/-! ## Levels -/

theorem length_lt_depth (h : r.at? q = some part) : q.length < r.depth := by
  fun_induction at? r q with
  | case1 => exact depth_pos _
  | case2 k l m q ih =>
    have := ih h
    simp only [depth, List.length_cons]
    omega
  | case3 k l m q ih =>
    have := ih h
    simp only [depth, List.length_cons]
    omega
  | case4 => cases h

/-- A rule is no deeper than the paths into it are long. -/
theorem depth_le_of_length_lt (h : ∀ q part, r.at? q = some part → q.length < d) : r.depth ≤ d := by
  induction r generalizing d with
  | test c => exact h [] _ rfl
  | join k l m ihl ihm =>
    have left : l.depth ≤ d - 1 := ihl fun q part hq => Nat.lt_sub_of_add_lt (h (.left :: q) part hq)
    have right : m.depth ≤ d - 1 := ihm fun q part hq => Nat.lt_sub_of_add_lt (h (.right :: q) part hq)
    -- the root is a part, so that no bound is zero and one may be taken off for the level below
    have root : 0 < d := h [] _ rfl
    simp only [depth]
    omega

/-- The levels of the parts of a rule that are not within the part at a path, the root at level one. -/
def levelsOutside (r : Rule) (p : Path) : Set ℕ :=
  {n | ∃ q part, r.at? q = some part ∧ ¬ p <+: q ∧ n = q.length + 1}

/-- No part outside the one at a path lies deeper than the depth beside the path. -/
theorem level_le_depthBeside (hq : r.at? q = some part) (outside : ¬ p <+: q) : q.length < r.depthBeside p := by
  fun_induction depthBeside r p generalizing q with
  | case1 => exact absurd List.nil_prefix outside
  | case2 c side p =>
    cases q with
    | nil => exact Nat.one_pos
    | cons side' q => simp [at?] at hq
  | case3 k l m p ih =>
    rcases q with _ | ⟨_ | _, q⟩
    · exact Nat.succ_pos _
    · have := ih hq fun within => outside (List.cons_prefix_cons.2 ⟨rfl, within⟩)
      simp only [List.length_cons]
      omega
    · have := length_lt_depth (r := m) hq
      simp only [List.length_cons]
      omega
  | case4 k l m p ih =>
    rcases q with _ | ⟨_ | _, q⟩
    · exact Nat.succ_pos _
    · have := length_lt_depth (r := l) hq
      simp only [List.length_cons]
      omega
    · have := ih hq fun within => outside (List.cons_prefix_cons.2 ⟨rfl, within⟩)
      simp only [List.length_cons]
      omega

theorem depthBeside_le_of_levels (h : ∀ q part, r.at? q = some part → ¬ p <+: q → q.length < d) :
    r.depthBeside p ≤ d := by
  fun_induction depthBeside r p generalizing d with
  | case1 => exact Nat.zero_le d
  | case2 c side p => exact h [] _ rfl (by simp)
  | case3 k l m p ih =>
    have root : 0 < d := h [] _ rfl (by simp)
    have left : l.depthBeside p ≤ d - 1 := ih fun q part hq outside =>
      Nat.lt_sub_of_add_lt (h (.left :: q) part hq (by simpa [List.cons_prefix_cons] using outside))
    have right : m.depth ≤ d - 1 := depth_le_of_length_lt fun q part hq =>
      Nat.lt_sub_of_add_lt (h (.right :: q) part hq (by simp [List.cons_prefix_cons]))
    omega
  | case4 k l m p ih =>
    have root : 0 < d := h [] _ rfl (by simp)
    have left : l.depth ≤ d - 1 := depth_le_of_length_lt fun q part hq =>
      Nat.lt_sub_of_add_lt (h (.left :: q) part hq (by simp [List.cons_prefix_cons]))
    have right : m.depthBeside p ≤ d - 1 := ih fun q part hq outside =>
      Nat.lt_sub_of_add_lt (h (.right :: q) part hq (by simpa [List.cons_prefix_cons] using outside))
    omega

/-- The depth beside a path is the deepest level outside the part at its end. -/
theorem isLUB_levelsOutside (r : Rule) (p : Path) : IsLUB (r.levelsOutside p) (r.depthBeside p) := by
  constructor
  · rintro _ ⟨q, part, hq, outside, rfl⟩
    exact level_le_depthBeside hq outside
  · intro d bound
    exact depthBeside_le_of_levels fun q part hq outside => bound ⟨q, part, hq, outside, rfl⟩

/-! ## The laws together -/

/-- A part can be replaced just where there is one, and elsewhere a value is refused. Putting back the part that is
there changes nothing. After a replacement what was put is found below its path, every path that leads apart finds
what it found before, the joins above keep their connectives, and of a second replacement at the path nothing shows
of the first; the depth is that of what was put, as far down as the path is long, or the deepest level outside. -/
theorem replace_lawful (r : Rule) (p : Path) (a : Rule) :
    ((∃ r', r.replace p a = .ok r') ↔ ∃ part, r.at? p = some part) ∧
    (r.at? p = none → ∃ fault, r.replace p a = .error (.badValue fault)) ∧
    (∀ part, r.at? p = some part → r.replace p part = .ok r) ∧
    ∀ r', r.replace p a = .ok r' →
      (∀ q, r'.at? (p ++ q) = a.at? q) ∧
      (∀ q, ¬ p <+: q → ¬ q <+: p → r'.at? q = r.at? q) ∧
      (∀ q, q <+: p → q ≠ p → ∃ k left right left' right',
        r.at? q = some (join k left right) ∧ r'.at? q = some (join k left' right')) ∧
      (∀ b, r'.replace p b = r.replace p b) ∧
      ∃ deepest, IsLUB (r.levelsOutside p) deepest ∧ r'.depth = max (p.length + a.depth) deepest := by
  refine ⟨exists_replace_iff a, fun absent => ?_, fun part hp => replace_at? hp, fun r' h => ?_⟩
  · obtain ⟨_, side, _, c, -, -, he⟩ := replace_of_absent absent a
    exact ⟨.pathLeavesRule c side, he⟩
  · refine ⟨at?_replace h, fun q hp hq => at?_replace_of_apart h ⟨hp, hq⟩, fun q => at?_replace_above h,
      replace_replace h, ?_⟩
    exact ⟨r.depthBeside p, isLUB_levelsOutside r p, depth_replace h⟩

/-- A comparison below a conjunction gives way to a join, while the other side of the disjunction stays. -/
theorem replace_lawful_below_conjunction :
    let age : Rule := .test ⟨"age", .greater, .number (.ofInt 30)⟩
    let dept : Rule := .test ⟨"dept", .equal, .text "Sales"⟩
    let city : Rule := .test ⟨"city", .notEqual, .text "Rome"⟩
    let r : Rule := .join .or (.join .and age dept) city
    let a : Rule := .join .or city age
    let r' : Rule := .join .or (.join .and age a) city
    r.at? [.left, .right] = some dept ∧ r.replace [.left, .right] a = .ok r' ∧
    r.replace [.left, .right] dept = .ok r ∧ r'.at? [.left, .right, .left] = some city ∧ r'.at? [.right] = some city ∧
    r'.replace [.left, .right] dept = .ok r ∧
    (∃ deepest, IsLUB (r.levelsOutside [.left, .right]) deepest ∧ r'.depth = max 4 deepest) ∧
    ∃ fault, r.replace [.right, .left] a = .error (.badValue fault) := by
  intro age dept city r a r'
  obtain ⟨-, -, back, after⟩ := replace_lawful r [.left, .right] a
  obtain ⟨below, beside, -, again, depth⟩ := after r' rfl
  obtain ⟨-, refused, -, -⟩ := replace_lawful r [.right, .left] a
  exact ⟨rfl, rfl, back dept rfl, below [.left], beside [.right] (by decide) (by decide), again dept, depth, refused rfl⟩

end Rule
end Eligibility
