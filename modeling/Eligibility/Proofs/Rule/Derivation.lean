/-
The grammar of rule text, over the kinds of its tokens:

  disjunction := conjunction (OR conjunction)*
  conjunction := term (AND term)*
  term        := '(' disjunction ')' | comparison
  comparison  := name comparator (number | text)

Each phrase is derived together with the rule that it stands for: a chain nests to the left and
parentheses leave no node. Beside it stand the two measures that a limit applies to, how many
parentheses are open at a place of the tokens and how deep the joins of a rule are.
-/
import Eligibility.Rule.Grammar
import Eligibility.Rule.Path

namespace Eligibility

/-- The token of a literal. -/
def Literal.kind : Literal → Token.Kind
  | number x => .number x
  | text s => .text s

/-- The tokens of a comparison. -/
def Comparison.kinds (c : Comparison) : List Token.Kind :=
  [.name c.name, .comparator c.comparator, c.literal.kind]

namespace Rule

/-! ## Phrases -/

/-- The phrases of the grammar: the operands of a connective in a chain, and terms. -/
inductive Phrase where
  | chain (k : Connective)
  | term

/-- What a connective joins: AND binds tighter, so it joins terms, and OR joins chains of AND. -/
def Phrase.operand : Connective → Phrase
  | .and => .term
  | .or => .chain .and

/-- `Derives s ks r`: the token kinds `ks` are a phrase `s` that stands for the rule `r`. -/
inductive Derives : Phrase → List Token.Kind → Rule → Prop
  | comparison (c : Comparison) : Derives .term c.kinds (.test c)
  | parens {ks : List Token.Kind} {r : Rule} : Derives (.chain .or) ks r →
      Derives .term (.openParen :: ks ++ [.closeParen]) r
  | single {k : Connective} {ks : List Token.Kind} {r : Rule} : Derives (.operand k) ks r →
      Derives (.chain k) ks r
  | joined {k : Connective} {ks ls : List Token.Kind} {l r : Rule} : Derives (.chain k) ks l →
      Derives (.operand k) ls r → Derives (.chain k) (ks ++ .connective k :: ls) (.join k l r)

/-- No phrase is empty. -/
theorem Derives.ne_nil {s : Phrase} {ks : List Token.Kind} {r : Rule} (h : Derives s ks r) : ks ≠ [] := by
  induction h with
  | comparison => exact List.cons_ne_nil _ _
  | parens => exact List.cons_ne_nil _ _
  | single _ ih => exact ih
  | joined => simp

/-! ## Tokens of a phrase -/

theorem map_kind_map (ks : List Token.Kind) : (ks.map fun k => (⟨k, 0⟩ : Token)).map Token.kind = ks := by
  simp [Function.comp_def]

theorem map_kind_eq_kinds {used : List Token} {c : Comparison} (h : used.map Token.kind = c.kinds) :
    ∃ p q s, used = [⟨.name c.name, p⟩, ⟨.comparator c.comparator, q⟩, ⟨c.literal.kind, s⟩] := by
  obtain ⟨⟨_, p⟩, _, rfl, rfl, h1⟩ := List.map_eq_cons_iff.1 h
  obtain ⟨⟨_, q⟩, _, rfl, rfl, h2⟩ := List.map_eq_cons_iff.1 h1
  obtain ⟨⟨_, s⟩, _, rfl, rfl, h3⟩ := List.map_eq_cons_iff.1 h2
  obtain rfl := List.map_eq_nil_iff.1 h3
  exact ⟨p, q, s, rfl⟩

/-- Tokens that are a phrase in parentheses are the two parentheses and the tokens between them. -/
theorem map_kind_eq_parens {used : List Token} {ks : List Token.Kind}
    (h : used.map Token.kind = .openParen :: ks ++ [.closeParen]) :
    ∃ p inner q, used = ⟨.openParen, p⟩ :: inner ++ [⟨.closeParen, q⟩] ∧ inner.map Token.kind = ks := by
  obtain ⟨⟨_, p⟩, _, rfl, rfl, h1⟩ := List.map_eq_cons_iff.1 h
  obtain ⟨inner, _, rfl, h2, h3⟩ := List.map_eq_append_iff.1 h1
  obtain ⟨⟨_, q⟩, _, rfl, rfl, h4⟩ := List.map_eq_cons_iff.1 h3
  obtain rfl := List.map_eq_nil_iff.1 h4
  exact ⟨p, inner, q, rfl, h2⟩

theorem map_kind_eq_joined {used : List Token} {k : Connective} {ks ls : List Token.Kind}
    (h : used.map Token.kind = ks ++ .connective k :: ls) :
    ∃ left p right, used = left ++ ⟨.connective k, p⟩ :: right ∧ left.map Token.kind = ks ∧
      right.map Token.kind = ls := by
  obtain ⟨left, _, rfl, h1, h2⟩ := List.map_eq_append_iff.1 h
  obtain ⟨⟨_, p⟩, right, rfl, rfl, h3⟩ := List.map_eq_cons_iff.1 h2
  exact ⟨left, p, right, rfl, h1, h3⟩

/-! ## Open parentheses -/

/-- What a token adds to the number of open parentheses. -/
def opening : Token.Kind → Int
  | .openParen => 1
  | .closeParen => -1
  | _ => 0

/-- How many more parentheses tokens open than they close. -/
def openParens : List Token.Kind → Int
  | [] => 0
  | k :: ks => opening k + openParens ks

/-- No parenthesis of these tokens opens inside `limit` or more open ones. -/
def NestedWithin (limit : Nat) (ks : List Token.Kind) : Prop :=
  ∀ before after, ks = before ++ .openParen :: after → openParens before < limit

theorem NestedWithin.mono {limit limit' : Nat} {ks : List Token.Kind} (h : NestedWithin limit ks)
    (hle : limit ≤ limit') : NestedWithin limit' ks := fun before after hks =>
  Int.lt_of_lt_of_le (h before after hks) (Int.ofNat_le.2 hle)

@[simp] theorem openParens_nil : openParens [] = 0 := rfl

@[simp] theorem openParens_cons (k : Token.Kind) (ks : List Token.Kind) :
    openParens (k :: ks) = opening k + openParens ks := rfl

/-- What tokens open adds up. -/
@[simp] theorem openParens_append (ks ls : List Token.Kind) :
    openParens (ks ++ ls) = openParens ks + openParens ls := by
  induction ks with
  | nil => simp
  | cons k ks ih => rw [List.cons_append, openParens_cons, openParens_cons, ih, Int.add_assoc]

theorem openParens_kinds (c : Comparison) : openParens c.kinds = 0 := by
  obtain ⟨n, c, x | s⟩ := c <;> rfl

/-- A phrase closes what it opens. -/
theorem Derives.openParens_eq_zero {s : Phrase} {ks : List Token.Kind} {r : Rule} (h : Derives s ks r) :
    openParens ks = 0 := by
  induction h with
  | comparison c => exact openParens_kinds c
  | parens _ ih => simp [ih, opening]
  | single _ ih => exact ih
  | joined _ _ ihl ihr => simp [ihl, ihr, opening]

theorem openParen_notMem_kinds (c : Comparison) : .openParen ∉ c.kinds := by
  obtain ⟨n, c, x | s⟩ := c <;> simp [Comparison.kinds, Literal.kind]

theorem nestedWithin_kinds (limit : Nat) (c : Comparison) : NestedWithin limit c.kinds := by
  intro before after h
  refine absurd ?_ (openParen_notMem_kinds c)
  rw [h]
  simp

/-- Parentheses around tokens take one from the room that is left for those inside. -/
theorem nestedWithin_parens {limit : Nat} {ks : List Token.Kind} :
    NestedWithin limit (.openParen :: ks ++ [.closeParen]) ↔ ∃ room, limit = room + 1 ∧ NestedWithin room ks := by
  constructor
  · intro h
    -- the first parenthesis opens inside none, so that the limit is not zero
    have pos := h [] (ks ++ [.closeParen]) rfl
    obtain ⟨room, rfl⟩ : ∃ room, limit = room + 1 := ⟨limit - 1, by simp at pos; omega⟩
    refine ⟨room, rfl, fun before after hks => ?_⟩
    have := h (.openParen :: before) (after ++ [.closeParen]) (by rw [hks]; simp)
    simp [opening] at this
    omega
  · rintro ⟨room, rfl, h⟩ before after hks
    cases before with
    | nil => simp
    | cons k before =>
      simp only [List.cons_append, List.cons.injEq] at hks
      obtain ⟨rfl, hks⟩ := hks
      -- the last token closes, so the one that opens is among `ks`
      rcases List.eq_nil_or_concat after with rfl | ⟨after, last, rfl⟩
      · have := congrArg List.getLast? hks
        simp at this
      · have : ks ++ [.closeParen] = (before ++ .openParen :: after) ++ [last] := by simp [hks]
        have := h before after (List.append_inj_left' this rfl)
        simp [opening]
        omega

/-- Both sides of a connective have the same room, if the left one closes what it opens. -/
theorem nestedWithin_joined {limit : Nat} {k : Connective} {ks ls : List Token.Kind} (hks : openParens ks = 0) :
    NestedWithin limit (ks ++ .connective k :: ls) ↔ NestedWithin limit ks ∧ NestedWithin limit ls := by
  constructor
  · intro h
    refine ⟨fun before after hb => ?_, fun before after hb => ?_⟩
    · exact h before (after ++ .connective k :: ls) (by simp [hb])
    · have := h (ks ++ .connective k :: before) after (by simp [hb])
      simpa [hks, opening] using this
  · rintro ⟨hl, hr⟩ before after hb
    -- the parenthesis that opens stands on the right side, or on the left one
    rcases List.append_eq_append_iff.1 hb with ⟨more, rfl, ht⟩ | ⟨more, rfl, ht⟩
    · cases more with
      | nil => cases ht
      | cons t more =>
        obtain ⟨rfl, hls⟩ := List.cons.inj ht
        have := hr more after hls
        simpa [hks, opening] using this
    · cases more with
      | nil => cases ht
      | cons t more =>
        obtain ⟨rfl, -⟩ := List.cons.inj ht
        exact hl before more rfl

/-! ## Joins within a limit -/

/-- No join of a rule is the root of a part deeper than `limit`. -/
def JoinsWithin (limit : Nat) (r : Rule) : Prop :=
  ∀ p k left right, r.at? p = some (.join k left right) → (join k left right).depth ≤ limit

/-- No part of a rule is deeper than the rule. -/
theorem depth_at?_le : ∀ {r part : Rule} {p : Path}, r.at? p = some part → part.depth ≤ r.depth
  | r, part, [], h => by
    rw [at?, Option.some.injEq] at h
    exact h ▸ Nat.le_refl _
  | join k l r, part, .left :: p, h => by
    have := depth_at?_le (r := l) (p := p) (by simpa [at?] using h)
    simp only [depth]; omega
  | join k l r, part, .right :: p, h => by
    have := depth_at?_le (r := r) (p := p) (by simpa [at?] using h)
    simp only [depth]; omega
  | test c, part, b :: p, h => by simp [at?] at h

/-- A rule within the limit has only joins within it. -/
theorem joinsWithin_of_depth_le {limit : Nat} {r : Rule} (h : r.depth ≤ limit) : r.JoinsWithin limit :=
  fun _ _ _ _ hp => Nat.le_trans (depth_at?_le hp) h

theorem JoinsWithin.mono {limit limit' : Nat} {r : Rule} (h : r.JoinsWithin limit) (hle : limit ≤ limit') :
    r.JoinsWithin limit' := fun p k left right hp => Nat.le_trans (h p k left right hp) hle

theorem joinsWithin_test (limit : Nat) (c : Comparison) : (test c).JoinsWithin limit := by
  intro p k l r h
  cases p <;> simp [at?] at h

/-- The root of a join is the deepest of its joins. -/
theorem joinsWithin_join {limit : Nat} {k : Connective} {l r : Rule} :
    (join k l r).JoinsWithin limit ↔ (join k l r).depth ≤ limit :=
  ⟨fun h => h [] k l r rfl, joinsWithin_of_depth_le⟩

theorem JoinsWithin.left {limit : Nat} {k : Connective} {l r : Rule} (h : (join k l r).JoinsWithin limit) :
    l.JoinsWithin limit := fun p k' l' r' hp => h (.left :: p) k' l' r' (by simpa [at?] using hp)

theorem JoinsWithin.right {limit : Nat} {k : Connective} {l r : Rule} (h : (join k l r).JoinsWithin limit) :
    r.JoinsWithin limit := fun p k' l' r' hp => h (.right :: p) k' l' r' (by simpa [at?] using hp)

end Rule
end Eligibility
