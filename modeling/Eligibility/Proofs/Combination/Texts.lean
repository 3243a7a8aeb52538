/-
A combination as one text. Rule texts can be combined, or they can be put in parentheses with the connective between
them and be read as one text: either way the rules lean to the left under the connective, and the limit admits the
same of them. Only the parentheses that are put around the texts make a difference, since they take up room in which
a text that nests its own as deep as the limit can no longer be read.
-/
import Eligibility.Proofs.Combination.Folding
import Eligibility.Proofs.Rule.WellFormed
import Eligibility.Proofs.Token.Cutting

namespace Eligibility

/-- The texts, each in parentheses, with the connective between them. -/
def Connective.joinTexts (k : Connective) (texts : List String) : String :=
  (" " ++ k.keyword ++ " ").intercalate (texts.map fun t => "(" ++ t ++ ")")

/-! ## Tokens with a connective between them -/

/-- Texts with a keyword between them spell their tokens with the connective between them. -/
theorem Token.spells_intercalate {α : Type} (k : Connective) {chars : α → List Char} {kinds : α → List Token.Kind} :
    ∀ {xs : List α}, xs ≠ [] → (∀ x ∈ xs, Token.Spells (chars x) (kinds x)) →
      Token.Spells ((' ' :: k.keyword.toList ++ [' ']).intercalate (xs.map chars))
        ([.connective k].intercalate (xs.map kinds))
  | [x], _, h => by simpa using h x List.mem_cons_self
  | x :: y :: xs, _, h => by
    have rest := spells_intercalate k (List.cons_ne_nil y xs) fun z hz => h z (List.mem_cons_of_mem _ hz)
    have := ((h x List.mem_cons_self).spaced (Token.spells_keyword k)).spaced rest
    simpa [List.map_cons, List.intercalate_cons_cons] using this

namespace Rule

variable {limit : Nat} {k : Connective}

theorem Derives.operand (k : Connective) {ks : List Token.Kind} {r : Rule} (h : Derives .term ks r) :
    Derives (.operand k) ks r := by
  cases k with
  | and => exact h
  | or => exact .single h

theorem Derives.disjunction {ks : List Token.Kind} {r : Rule} (h : Derives (.chain k) ks r) :
    Derives (.chain .or) ks r := by
  cases k with
  | and => exact .single h
  | or => exact h

/-- Terms with a connective between them are a chain, and it stands for their rules leaning to the left. -/
theorem Derives.intercalate {α : Type} {kinds : α → List Token.Kind} {rule : α → Rule} {xs : List α}
    (hxs : ∀ x ∈ xs, Derives .term (kinds x) (rule x)) {ks : List Token.Kind} {r : Rule} (h : Derives (.chain k) ks r) :
    Derives (.chain k) ([.connective k].intercalate (ks :: xs.map kinds)) (leaningLeft k r (xs.map rule)) := by
  induction xs generalizing ks r with
  | nil => simpa using h
  | cons x xs ih =>
    obtain ⟨hx, hrest⟩ := List.forall_mem_cons.1 hxs
    have longer := ih hrest (h.joined (hx.operand k))
    -- what has been read is one item of the list, so the next term is joined to all of it
    cases xs with
    | nil => simpa [List.intercalate_cons_cons] using longer
    | cons y ys => simpa [List.intercalate_cons_cons] using longer

/-- Balanced tokens with a connective between them are within a limit of parentheses just if each of them is. -/
theorem nestedWithin_intercalate {kss : List (List Token.Kind)} (balanced : ∀ ks ∈ kss, openParens ks = 0) :
    NestedWithin limit ([.connective k].intercalate kss) ↔ ∀ ks ∈ kss, NestedWithin limit ks := by
  match kss with
  | [] => simp [NestedWithin]
  | [ks] => simp
  | ks :: ls :: kss =>
    obtain ⟨first, rest⟩ := List.forall_mem_cons.1 balanced
    rw [List.intercalate_cons_cons, List.append_assoc, List.singleton_append, nestedWithin_joined first,
      nestedWithin_intercalate rest, List.forall_mem_cons (l := ls :: kss)]

/-! ## Parts -/

/-- A text that is read as a rule within a limit. -/
structure Part (limit : Nat) where
  text : String
  tokens : List Token
  rule : Rule
  tokenized : Token.tokenize text = .ok tokens
  derives : Derives (.chain .or) (tokens.map Token.kind) rule
  nested : NestedWithin limit (tokens.map Token.kind)
  joins : rule.JoinsWithin limit

namespace Part

/-- The tokens of the text in parentheses. -/
def kinds (p : Part limit) : List Token.Kind := .openParen :: p.tokens.map Token.kind ++ [.closeParen]

theorem parse (p : Part limit) : Rule.parse limit p.text = .ok p.rule :=
  parse_eq_ok.2 ⟨p.tokens, p.tokenized, p.derives, p.nested, p.joins⟩

theorem exists_parts {texts : List String} (h : ∀ t ∈ texts, ∃ r, Rule.parse limit t = .ok r) :
    ∃ parts : List (Part limit), texts = parts.map text := by
  induction texts with
  | nil => exact ⟨[], rfl⟩
  | cons t texts ih =>
    obtain ⟨⟨r, hr⟩, hrest⟩ := List.forall_mem_cons.1 h
    obtain ⟨ts, hts, derives, nested, joins⟩ := parse_eq_ok.1 hr
    obtain ⟨parts, rfl⟩ := ih hrest
    exact ⟨⟨t, ts, r, hts, derives, nested, joins⟩ :: parts, rfl⟩

theorem derives_term (p : Part limit) : Derives .term p.kinds p.rule := .parens p.derives

theorem spells (p : Part limit) : Token.Spells ('(' :: p.text.toList ++ [')']) p.kinds :=
  (Token.spells_of_tokenize p.tokenized).parens

theorem balanced (p : Part limit) : openParens p.kinds = 0 := p.derives_term.openParens_eq_zero

/-- The tokens of the parts, joined as a text. -/
theorem tokenize_joinTexts (k : Connective) {parts : List (Part limit)} (h : parts ≠ []) :
    ∃ ts, Token.tokenize (k.joinTexts (parts.map text)) = .ok ts ∧
      ts.map Token.kind = [.connective k].intercalate (parts.map kinds) := by
  have spelled := Token.spells_intercalate k h fun p _ => p.spells
  obtain ⟨ts, hts, hkinds⟩ := spelled.tokenize
  refine ⟨ts, ?_, hkinds⟩
  rw [← hts, ← String.ofList_toList (s := k.joinTexts _)]
  simp [Connective.joinTexts, Function.comp_def]

/-- The parts joined as a text are read as their rules leaning to the left, if the limit leaves room for the
parentheses around each part and admits the depth. -/
theorem parse_joinTexts {first : Part limit} {rest : List (Part limit)} {r : Rule} :
    Rule.parse limit (k.joinTexts ((first :: rest).map text)) = .ok r ↔
      leaningLeft k first.rule (rest.map rule) = r ∧
      (∀ p ∈ first :: rest, ∃ room, limit = room + 1 ∧ NestedWithin room (p.tokens.map Token.kind)) ∧
      r.JoinsWithin limit := by
  obtain ⟨ts, hts, hkinds⟩ := tokenize_joinTexts k (List.cons_ne_nil first rest)
  have derives : Derives (.chain .or) (ts.map Token.kind) (leaningLeft k first.rule (rest.map rule)) := by
    have leaning := Derives.intercalate (fun p (_ : p ∈ rest) => p.derives_term)
      (.single (first.derives_term.operand k))
    rw [hkinds]
    exact leaning.disjunction
  have nested : NestedWithin limit (ts.map Token.kind) ↔
      ∀ p ∈ first :: rest, ∃ room, limit = room + 1 ∧ NestedWithin room (p.tokens.map Token.kind) := by
    rw [hkinds, nestedWithin_intercalate (List.forall_mem_map.2 fun p _ => p.balanced), List.forall_mem_map]
    exact forall₂_congr fun p _ => nestedWithin_parens
  rw [parse_eq_ok, ← nested]
  constructor
  · rintro ⟨ts', hts', hd, hn, hj⟩
    obtain rfl : ts = ts' := Except.ok.inj (hts.symm.trans hts')
    exact ⟨derives.unique hd, hn, hj⟩
  · rintro ⟨rfl, hn, hj⟩
    exact ⟨ts, hts, derives, hn, hj⟩

end Part

/-- At no place of these tokens are so many parentheses open. -/
def ShallowerThan (depth : Nat) (ks : List Token.Kind) : Prop :=
  ∀ before after, ks = before ++ after → openParens before < depth

theorem shallowerThan_iff {depth : Nat} {ks : List Token.Kind} :
    ShallowerThan depth ks ↔ ∀ n < ks.length + 1, openParens (ks.take n) < depth := by
  constructor
  · intro h n _
    exact h (ks.take n) (ks.drop n) (List.take_append_drop n ks).symm
  · rintro h before after rfl
    have := h before.length (by rw [List.length_append]; omega)
    rwa [List.take_left] at this

instance (depth : Nat) (ks : List Token.Kind) : Decidable (ShallowerThan depth ks) :=
  decidable_of_iff _ shallowerThan_iff.symm

/-- Where so many parentheses are never open, there is room for one more around the tokens. -/
theorem ShallowerThan.room {ks : List Token.Kind} (h : ShallowerThan limit ks) :
    ∃ room, limit = room + 1 ∧ NestedWithin room ks := by
  have pos := h [] ks rfl
  rw [openParens_nil] at pos
  refine ⟨limit - 1, by omega, fun before after hks => ?_⟩
  have opened := h (before ++ [.openParen]) after (by simp [hks])
  simp only [openParens_append, openParens_cons, openParens_nil, opening] at opened
  omega

end Rule

namespace Combiner

variable {c : Combiner}

theorem combine_parts (hd : c.dedup = false) {first : Rule.Part c.depthLimit} {rest : List (Rule.Part c.depthLimit)}
    {r : Rule} : c.combine ((first :: rest).map Rule.Part.text) = .ok r ↔
      Rule.leaningLeft c.policy first.rule (rest.map Rule.Part.rule) = r ∧ r.depth ≤ c.depthLimit := by
  have read : ((first :: rest).map Rule.Part.text).mapM (Rule.parse c.depthLimit) =
      .ok ((first :: rest).map Rule.Part.rule) := mapM_map_eq_ok fun p _ => p.parse
  rw [combine_of_mapM read, combineRules_eq_ok, kept_of_not_dedup hd]
  constructor
  · rintro ⟨_, _, ⟨⟩, h⟩
    exact h
  · exact fun h => ⟨_, _, rfl, h⟩

/-- Combining texts agrees with reading them as one text, each in parentheses, with the connective between them. What
the one text is read as, the texts combine to; and what they combine to, the one text is read as, if none of them
nests parentheses as deep as the limit. -/
theorem combine_joined_text (hd : c.dedup = false) {texts : List String} (nonempty : texts ≠ [])
    (accepted : ∀ t ∈ texts, ∃ r, Rule.parse c.depthLimit t = .ok r) :
    (∀ r, Rule.parse c.depthLimit (c.policy.joinTexts texts) = .ok r → c.combine texts = .ok r) ∧
    ∀ r, c.combine texts = .ok r →
      (∀ t ∈ texts, ∀ ts, Token.tokenize t = .ok ts → Rule.ShallowerThan c.depthLimit (ts.map Token.kind)) →
      Rule.parse c.depthLimit (c.policy.joinTexts texts) = .ok r := by
  obtain ⟨parts, rfl⟩ := Rule.Part.exists_parts accepted
  obtain ⟨first, rest, rfl⟩ := List.exists_cons_of_ne_nil (mt List.map_eq_nil_iff.2 nonempty)
  refine ⟨fun r h => ?_, fun r h shallow => ?_⟩
  · obtain ⟨leaning, nested, joins⟩ := Rule.Part.parse_joinTexts.1 h
    -- the parentheses around the first text show that the limit admits a comparison
    obtain ⟨room, hlimit, -⟩ := nested first List.mem_cons_self
    have pos : 0 < c.depthLimit := by omega
    exact (combine_parts hd).2 ⟨leaning, Rule.depth_le_of_parse h pos⟩
  · obtain ⟨leaning, within⟩ := (combine_parts hd).1 h
    refine Rule.Part.parse_joinTexts.2 ⟨leaning, fun p hp => ?_, Rule.joinsWithin_of_depth_le within⟩
    exact (shallow p.text (List.mem_map_of_mem hp) p.tokens p.tokenized).room

/-- A text that is a join of its own, and one that is in parentheses already. -/
theorem combine_joined_text_of_two :
    let c : Combiner := ⟨.and, false, 3⟩
    let texts := ["a = 'x' OR b = 'y'", "(c = 'z')"]
    c.dedup = false ∧ texts ≠ [] ∧ (∀ t ∈ texts, ∃ r, Rule.parse c.depthLimit t = .ok r) ∧
      (∀ t ∈ texts, ∀ ts, Token.tokenize t = .ok ts → Rule.ShallowerThan c.depthLimit (ts.map Token.kind)) ∧
      c.policy.joinTexts texts = "(a = 'x' OR b = 'y') AND ((c = 'z'))" ∧
      ∃ r, c.combine texts = .ok r ∧ Rule.parse c.depthLimit (c.policy.joinTexts texts) = .ok r ∧
        r.render = "(a = 'x' OR b = 'y') AND c = 'z'" := by
  intro c texts
  have nonempty : texts ≠ [] := by simp [texts]
  have accepted : ∀ t ∈ texts, ∃ r, Rule.parse c.depthLimit t = .ok r := by
    have read : ∀ t ∈ texts, (Rule.parse c.depthLimit t).toBool = true := by decide +kernel
    exact fun t ht => exists_eq_ok (read t ht)
  have shallow : ∀ t ∈ texts, ∀ ts, Token.tokenize t = .ok ts →
      Rule.ShallowerThan c.depthLimit (ts.map Token.kind) := by
    have checked : ∀ t ∈ texts, ((Token.tokenize t).toOption.all fun ts =>
        decide (Rule.ShallowerThan c.depthLimit (ts.map Token.kind))) = true := by decide +kernel
    intro t ht ts hts
    have := checked t ht
    rw [hts] at this
    exact of_decide_eq_true this
  obtain ⟨r, hr⟩ : ∃ r, c.combine texts = .ok r := exists_eq_ok (by decide +kernel)
  have rendered : (c.combine texts).toOption.map Rule.render = some "(a = 'x' OR b = 'y') AND c = 'z'" := by
    decide +kernel
  rw [hr] at rendered
  obtain ⟨-, asText⟩ := combine_joined_text (c := c) rfl nonempty accepted
  exact ⟨rfl, nonempty, accepted, shallow, by decide +kernel, r, hr, asText r hr shallow, Option.some.inj rendered⟩

/-- The parentheses around a text that nests its own as deep as the limit are one too many. -/
example : ((⟨.and, false, 2⟩ : Combiner).combine ["((c = 'z'))"]).toBool = true ∧
    (Rule.parse 2 (Connective.and.joinTexts ["((c = 'z'))"])).toBool = false := by decide +kernel

end Combiner
end Eligibility
