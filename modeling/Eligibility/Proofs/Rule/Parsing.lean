/-
Reading a rule from text as a whole: the reader accepts exactly the texts whose tokens the grammar
derives within both limits, it returns the one rule that they stand for, and it refuses every other
text with a fault of rule text.
-/
import Eligibility.Proofs.Rule.Reading

namespace Eligibility

/-! ## Refusals -/

theorem Token.syntaxOnly_ofPieces : ∀ (ps : List Token.Piece) (position : Nat),
    SyntaxOnly (Token.ofPieces position ps)
  | [], _ => syntaxOnly_ok _
  | .gap _ :: ps, _ => syntaxOnly_ofPieces ps _
  | .lexeme _ (.error _) :: _, _ => syntaxOnly_badRule _ _
  | .lexeme _ (.ok _) :: ps, _ => (syntaxOnly_ofPieces ps _).map _

namespace Rule

variable {limit stop room : Nat} {k : Connective}

theorem syntaxOnly_comparison (stop : Nat) (ts : List Token) : SyntaxOnly (comparison stop ts) := by
  unfold comparison
  repeat' split
  all_goals first | exact syntaxOnly_badRule _ _ | exact syntaxOnly_ok _

theorem syntaxOnly_expectEnd (ts : List Token) : SyntaxOnly (expectEnd ts) := by
  fun_cases expectEnd ts <;> first | exact syntaxOnly_badRule _ _ | exact syntaxOnly_ok _

theorem syntaxOnly_joinWithin (position : Nat) (l r : Measured) : SyntaxOnly (joinWithin limit k position l r) := by
  unfold joinWithin
  dsimp only
  split
  · exact syntaxOnly_badRule _ _
  · exact syntaxOnly_ok _

theorem syntaxOnly_chainFrom {p : Reader} (hp : ∀ ts, SyntaxOnly (p.run ts)) (left : Measured) (ts : List Token) :
    SyntaxOnly (chainFrom limit k p left ts) := by
  induction left, ts using chainRest.induct k with
  | case1 left position ts ih =>
    rw [chainFrom_connective]
    refine (hp _).bind fun right hr => (syntaxOnly_joinWithin _ _ _).bind fun joined _ => ?_
    obtain ⟨read, -, -, hrest⟩ := run_eq_ok.1 hr
    exact hrest ▸ ih read joined
  | case2 left c position ts hc =>
    rw [chainFrom_of_ne (by rintro _ _ ⟨⟩; exact hc rfl)]
    exact syntaxOnly_ok _
  | case3 left ts hts =>
    rw [chainFrom_of_ne (fun _ _ e => hts _ _ _ e)]
    exact syntaxOnly_ok _

theorem syntaxOnly_chain {p : Reader} (hp : ∀ ts, SyntaxOnly (p.run ts)) (ts : List Token) :
    SyntaxOnly ((chain limit k p).run ts) := by
  rw [run_chain]
  exact (hp _).bind fun _ _ => syntaxOnly_chainFrom hp _ _

theorem syntaxOnly_disjunction {p : Reader} (hp : ∀ ts, SyntaxOnly (p.run ts)) (ts : List Token) :
    SyntaxOnly ((disjunction limit p).run ts) := syntaxOnly_chain (fun _ => syntaxOnly_chain hp _) _

theorem syntaxOnly_closing (position : Nat) (m : Measured) (ts : List Token) :
    SyntaxOnly (closing position m ts) := by
  fun_cases closing position m ts <;> first | exact syntaxOnly_badRule _ _ | exact syntaxOnly_ok _

theorem syntaxOnly_term (room : Nat) (ts : List Token) : SyntaxOnly ((term limit stop room).run ts) := by
  induction room using Nat.strongRecOn generalizing ts with
  | ind room ih =>
    rcases term_cases limit stop room ts with ⟨n, position, ts, rfl⟩ | ⟨position, ts, room, rfl, rfl⟩ |
      ⟨position, fault, refused⟩
    · rw [run_term_name]
      exact (syntaxOnly_comparison _ _).map _
    · rw [run_term_openParen]
      exact (syntaxOnly_disjunction (ih room (by omega)) _).bind fun _ _ => syntaxOnly_closing _ _ _
    · rw [refused]
      exact syntaxOnly_badRule position fault

/-! ## Rules of tokens -/

theorem expectEnd_eq_ok {ts : List Token} : expectEnd ts = .ok () ↔ ts = [] := by
  fun_cases expectEnd ts <;> simp

/-- A rule of tokens, without the evidence that its readers leave less than they are given. -/
theorem ofTokens_eq (limit stop : Nat) {ts : List Token} (h : ts ≠ []) :
    ofTokens limit stop ts = (disjunction limit (term limit stop limit)).run ts >>= fun read =>
      expectEnd read.2 >>= fun _ => .ok read.1.rule := by
  unfold ofTokens Reader.run
  rw [if_neg (by simpa using h)]
  cases disjunction limit (term limit stop limit) ts <;> rfl

theorem ofTokens_eq_ok {ts : List Token} {r : Rule} :
    ofTokens limit stop ts = .ok r ↔
      Derives (.chain .or) (ts.map Token.kind) r ∧ NestedWithin limit (ts.map Token.kind) ∧ r.JoinsWithin limit := by
  constructor
  · intro h
    by_cases hts : ts = []
    · subst hts
      cases h
    · rw [ofTokens_eq limit stop hts] at h
      obtain ⟨⟨m, rest⟩, hread, h⟩ := bind_eq_ok.1 h
      obtain ⟨_, hend, h⟩ := bind_eq_ok.1 h
      obtain rfl : rest = [] := expectEnd_eq_ok.1 hend
      cases h
      obtain ⟨used, rfl, hused⟩ := sound_reader limit stop limit (.chain .or) _ _ _ hread
      rw [List.append_nil]
      exact ⟨hused.derives, hused.nested, hused.joins⟩
  · rintro ⟨hd, hn, hj⟩
    have hts : ts ≠ [] := fun e => hd.ne_nil (by rw [e]; rfl)
    have hread : (disjunction limit (term limit stop limit)).run (ts ++ []) = chainFrom _ _ _ _ _ :=
      hd.run_eq [] rfl hn hj (by rintro _ _ _ ⟨⟩)
    rw [List.append_nil, chainFrom_of_ne (by rintro _ _ ⟨⟩)] at hread
    rw [ofTokens_eq limit stop hts, hread]
    rfl

theorem syntaxOnly_ofTokens (limit stop : Nat) (ts : List Token) : SyntaxOnly (ofTokens limit stop ts) := by
  by_cases hts : ts = []
  · subst hts
    exact syntaxOnly_badRule _ _
  · rw [ofTokens_eq limit stop hts]
    refine (syntaxOnly_disjunction (syntaxOnly_term limit) _).bind fun _ _ => ?_
    exact (syntaxOnly_expectEnd _).bind fun _ _ => syntaxOnly_ok _

theorem openParens_le_length (ks : List Token.Kind) : openParens ks ≤ ks.length := by
  induction ks with
  | nil => simp
  | cons k ks ih =>
    have : opening k ≤ 1 := by cases k <;> simp [opening]
    simp only [openParens_cons, List.length_cons]
    omega

theorem nestedWithin_length (ks : List Token.Kind) : NestedWithin (ks.length + 1) ks := by
  rintro before after rfl
  have := openParens_le_length before
  simp only [List.length_append, List.length_cons]
  omega

/-- Tokens stand for one rule at most: within limits that are wide enough for both, the reader returns
each rule that they stand for. -/
theorem Derives.unique {ks : List Token.Kind} {r r' : Rule} (h : Derives (.chain .or) ks r)
    (h' : Derives (.chain .or) ks r') : r = r' := by
  have read : ∀ r₀, Derives (.chain .or) ks r₀ → r₀.depth ≤ max r.depth r'.depth →
      ofTokens (max (ks.length + 1) (max r.depth r'.depth)) 0 (ks.map (⟨·, 0⟩)) = .ok r₀ := by
    intro r₀ h₀ hd
    refine ofTokens_eq_ok.2 ⟨by rwa [map_kind_map], fun before after hb => ?_, joinsWithin_of_depth_le (by omega)⟩
    rw [map_kind_map] at hb
    have := nestedWithin_length ks before after hb
    omega
  have := read r h (by omega)
  rw [read r' h' (by omega)] at this
  exact (Except.ok.inj this).symm

/-! ## Rules of texts -/

theorem parse_eq_ok {text : String} {r : Rule} :
    parse limit text = .ok r ↔ ∃ ts, Token.tokenize text = .ok ts ∧
      Derives (.chain .or) (ts.map Token.kind) r ∧ NestedWithin limit (ts.map Token.kind) ∧ r.JoinsWithin limit := by
  unfold parse
  rw [bind_eq_ok]
  simp only [ofTokens_eq_ok]

/-- What a text stands for, it stands for within every wider limit. -/
theorem parse_mono {limit' : Nat} {text : String} {r : Rule} (h : parse limit text = .ok r) (hle : limit ≤ limit') :
    parse limit' text = .ok r := by
  obtain ⟨ts, htokens, derived, nested, joins⟩ := parse_eq_ok.1 h
  exact parse_eq_ok.2 ⟨ts, htokens, derived, nested.mono hle, joins.mono hle⟩

theorem syntaxOnly_parse (limit : Nat) (text : String) : SyntaxOnly (parse limit text) :=
  (Token.syntaxOnly_ofPieces _ _).bind fun _ _ => syntaxOnly_ofTokens _ _ _

/-- The reader accepts exactly its grammar: a text stands for a rule just if its tokens derive it, no
parenthesis opens inside `limit` or more open ones and no join is deeper than `limit`. Every other text
is refused with a fault of rule text, and no tokens stand for two rules. -/
theorem parse_accepts_grammar (limit : Nat) (text : String) :
    (∀ r, parse limit text = .ok r ↔ ∃ ts, Token.tokenize text = .ok ts ∧
      Derives (.chain .or) (ts.map Token.kind) r ∧ NestedWithin limit (ts.map Token.kind) ∧ r.JoinsWithin limit) ∧
    ((∃ r, parse limit text = .ok r) ∨ ∃ position fault, parse limit text = .error (.badRule position fault)) ∧
    ∀ ks r r', Derives (.chain .or) ks r → Derives (.chain .or) ks r' → r = r' := by
  refine ⟨fun r => parse_eq_ok, ?_, fun ks r r' h h' => h.unique h'⟩
  cases hp : parse limit text with
  | ok r => exact .inl ⟨r, rfl⟩
  | error e =>
    obtain ⟨position, fault, rfl⟩ := syntaxOnly_parse limit text e hp
    exact .inr ⟨position, fault, rfl⟩

end Rule

/-- A text stands for a comparison just if its tokens are those of the comparison. -/
theorem Comparison.parse_eq_ok {text : String} {c : Comparison} :
    Comparison.parse text = .ok c ↔ ∃ ts, Token.tokenize text = .ok ts ∧ ts.map Token.kind = c.kinds := by
  unfold Comparison.parse
  simp only [bind_eq_ok]
  constructor
  · rintro ⟨ts, hts, read, hread, _, hend, h⟩
    cases h
    obtain ⟨used, hused, hkinds⟩ := Rule.comparison_eq_ok hread
    rw [Rule.expectEnd_eq_ok.1 hend, List.append_nil] at hused
    exact ⟨ts, hts, hused ▸ hkinds⟩
  · rintro ⟨ts, hts, hkinds⟩
    obtain ⟨p, q, s, rfl⟩ := Rule.map_kind_eq_kinds hkinds
    obtain ⟨shorter, hread⟩ := Rule.comparison_kinds (Text.byteLength text.toList) c p q s []
    exact ⟨_, hts, _, hread, (), rfl, rfl⟩

end Eligibility
