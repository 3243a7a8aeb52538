/-
Where rule text is refused. Within limits that the tokens cannot reach, a reader that fails points at the first token
that may not come where it does or, if the tokens are over too early, at their end or at the parenthesis that should
still be closed (`Blamed`). A place like that is one at which the stages of the text break off, so that the stages are
exactly what can be said of the beginnings of rules: tokens are the beginning of a rule just if they lead to a stage.
-/
import Eligibility.Proofs.Rule.Parsing
import Eligibility.Proofs.Rule.Stage

namespace Eligibility.Rule

/-! ## What a refusal points at -/

/-- `Blamed stop s ts position`: read from the stage `s` on, the tokens `ts` are wrong at this position. Either the
token there may not come next; or the tokens are over before a comparison is complete, and the position is the end of
the text; or they are over before the parenthesis at the position is closed, with a rule behind it. -/
inductive Blamed (stop : Nat) (s : Stage) : List Token → Nat → Prop
  | misfit {before after : List Token} {found : Token} {t : Stage} (stage : s.after (before.map Token.kind) = some t)
      (misfit : t.next found.kind = none) : Blamed stop s (before ++ found :: after) found.position
  | unfinished {ts : List Token} {t : Stage} (stage : s.after (ts.map Token.kind) = some t)
      (unfinished : t.expected ≠ .connective) : Blamed stop s ts stop
  | unclosed {before inner : List Token} {position n : Nat} {r : Rule}
      (stage : s.after (before.map Token.kind) = some ⟨.term, n⟩)
      (inside : Derives (.chain .or) (inner.map Token.kind) r) :
      Blamed stop s (before ++ ⟨.openParen, position⟩ :: inner) position

variable {limit stop room : Nat} {k : Connective} {s t : Stage} {ts : List Token} {position : Nat}

/-- What is wrong after some tokens is wrong in all of them. -/
theorem Blamed.of_after {used : List Token} (stage : s.after (used.map Token.kind) = some t)
    (h : Blamed stop t ts position) : Blamed stop s (used ++ ts) position := by
  have longer : ∀ {before : List Token} {u : Stage}, t.after (before.map Token.kind) = some u →
      s.after ((used ++ before).map Token.kind) = some u := fun hu => by
    rw [List.map_append, Stage.after_append_eq_some]
    exact ⟨t, stage, hu⟩
  cases h with
  | misfit before misfit =>
    rw [← List.append_assoc]
    exact .misfit (longer before) misfit
  | unfinished all unfinished => exact .unfinished (longer all) unfinished
  | unclosed before inside =>
    rw [← List.append_assoc]
    exact .unclosed (longer before) inside

theorem blamed_head {found : Token} (misfit : s.next found.kind = none) (after : List Token) :
    Blamed stop s (found :: after) found.position :=
  @Blamed.misfit stop s [] after found s rfl misfit

/-- What is wrong after a token is wrong with the token before it. -/
theorem Blamed.of_next {found : Token} (stage : s.next found.kind = some t) (h : Blamed stop t ts position) :
    Blamed stop s (found :: ts) position :=
  @Blamed.of_after stop s t ts position [found] (by rw [List.map_singleton, Stage.after_cons, stage]; rfl) h

/-! ## Depth -/

theorem Derives.depth_le_length {s : Phrase} {ks : List Token.Kind} {r : Rule} (h : Derives s ks r) :
    r.depth ≤ ks.length := by
  induction h with
  | comparison c => simp [depth, Comparison.kinds]
  | parens _ ih => simp only [List.length_append, List.length_cons]; omega
  | single _ ih => exact ih
  | joined _ _ ihl ihr =>
    simp only [depth, List.length_append, List.length_cons]
    omega

theorem Reads.depth_le_length {s : Phrase} {used : List Token} {m : Measured} (h : Reads limit room s used m) :
    m.depth ≤ used.length := by
  have := h.derives.depth_le_length
  rwa [← h.depth, List.length_map] at this

theorem Reads.after_eq {s : Phrase} {used : List Token} {m : Measured} (h : Reads limit room s used m) (n : Nat) :
    (⟨.term, n⟩ : Stage).after (used.map Token.kind) = some ⟨.connective, n⟩ := h.derives.after_eq n

/-! ## Where readers stop -/

/-- What a reader leaves has this property. -/
def Leaves (P : List Token → Prop) (p : Reader) : Prop := ∀ ts m rest, p.run ts = .ok (m, rest) → P rest

/-- The tokens do not go on with the connective. -/
def Breaks (k : Connective) (ts : List Token) : Prop := ∀ position rest, ts ≠ ⟨.connective k, position⟩ :: rest

theorem Leaves.chainFrom {P : List Token → Prop} {p : Reader} (hp : Leaves P p) {left m : Measured} {rest : List Token}
    (hts : P ts) (h : Rule.chainFrom limit k p left ts = .ok (m, rest)) : P rest ∧ Breaks k rest := by
  induction left, ts using chainRest.induct k with
  | case1 left position ts ih =>
    rw [chainFrom_connective] at h
    obtain ⟨⟨right, ts'⟩, hr, h⟩ := bind_eq_ok.1 h
    obtain ⟨joined, -, h⟩ := bind_eq_ok.1 h
    obtain ⟨read, -, -, rfl⟩ := run_eq_ok.1 hr
    exact ih read joined (hp _ _ _ hr) h
  | case2 left c position ts hc =>
    have stops : Breaks k (⟨.connective c, position⟩ :: ts) := by
      rintro _ _ ⟨⟩
      exact hc rfl
    rw [chainFrom_of_ne stops] at h
    cases h
    exact ⟨hts, stops⟩
  | case3 left ts hother =>
    have stops : Breaks k ts := fun _ _ e => hother _ _ _ e
    rw [chainFrom_of_ne stops] at h
    cases h
    exact ⟨hts, stops⟩

theorem Leaves.chain {P : List Token → Prop} {p : Reader} (hp : Leaves P p) :
    Leaves (fun rest => P rest ∧ Breaks k rest) (Rule.chain limit k p) := by
  intro ts m rest h
  rw [run_chain] at h
  obtain ⟨⟨first, ts'⟩, hfirst, hrest⟩ := bind_eq_ok.1 h
  exact hp.chainFrom (hp _ _ _ hfirst) hrest

/-- A rule is read as far as connectives go. -/
theorem breaks_of_run_disjunction {p : Reader} {m : Measured} {rest : List Token}
    (h : (disjunction limit p).run ts = .ok (m, rest)) (k : Connective) : Breaks k rest := by
  have any : Leaves (fun _ => True) p := fun _ _ _ _ => trivial
  obtain ⟨⟨-, and⟩, or⟩ := any.chain.chain _ _ _ h
  cases k with
  | and => exact and
  | or => exact or

/-- At the end of a rule another token may only close a parenthesis. -/
theorem next_eq_none_of_breaks {found : Token} {rest : List Token} (h : ∀ k, Breaks k (found :: rest)) {n : Nat}
    (hn : found.kind = .closeParen → n = 0) : (⟨.connective, n⟩ : Stage).next found.kind = none := by
  obtain ⟨kind, position⟩ := found
  cases kind with
  | connective k => exact absurd rfl (h k position rest)
  | closeParen => rw [hn rfl]; rfl
  | _ => rfl

/-! ## Readers -/

/-- Where a reader fails on tokens for which there is room, it points at what is wrong. -/
def Blames (stop room : Nat) (p : Reader) : Prop :=
  ∀ ts n position fault, ts.length ≤ room → p.run ts = .error (.badRule position fault) →
    Blamed stop ⟨.term, n⟩ ts position

theorem Blames.chainFrom {p : Reader} (hp : Blames stop room p) (sound : Sound limit room (.operand k) p)
    {left : Measured} (n : Nat) {fault : SyntaxFault} (hroom : ts.length ≤ room)
    (hdepth : left.depth + ts.length ≤ limit)
    (h : Rule.chainFrom limit k p left ts = .error (.badRule position fault)) :
    Blamed stop ⟨.connective, n⟩ ts position := by
  induction left, ts using chainRest.induct k with
  | case1 left place ts ih =>
    rw [List.length_cons] at hroom hdepth
    -- a connective leads to the stage at which a term is expected
    refine .of_next (t := ⟨.term, n⟩) rfl ?_
    rw [chainFrom_connective] at h
    cases hr : p.run ts with
    | error e =>
      rw [hr] at h
      cases h
      exact hp ts n position fault (by omega) hr
    | ok right =>
      obtain ⟨read, -, hvalue, hrest⟩ := run_eq_ok.1 hr
      obtain ⟨used, rfl, hused⟩ := sound _ _ _ hr
      have depth := hused.depth_le_length
      rw [List.length_append] at hroom hdepth
      rw [hr, ok_bind] at h
      have joined : joinWithin limit k place left right.1 =
          .ok ⟨.join k left.rule right.1.rule, max left.depth right.1.depth + 1⟩ := joinWithin_eq_ok.2 ⟨by omega, rfl⟩
      rw [joined, ok_bind, ← hrest] at h
      refine Blamed.of_after (hused.after_eq n) ?_
      rw [← hrest] at hroom hdepth ⊢
      exact ih read _ (by omega) (by dsimp only; omega) h
  | case2 left c place ts hc =>
    rw [chainFrom_of_ne (by rintro _ _ ⟨⟩; exact hc rfl)] at h
    cases h
  | case3 left ts hts =>
    rw [chainFrom_of_ne (fun _ _ e => hts _ _ _ e)] at h
    cases h

theorem Blames.chain {p : Reader} (hp : Blames stop room p) (sound : Sound limit room (.operand k) p)
    (hlimit : room ≤ limit) : Blames stop room (Rule.chain limit k p) := by
  intro ts n position fault hroom h
  rw [run_chain] at h
  cases hfirst : p.run ts with
  | error e =>
    rw [hfirst] at h
    cases h
    exact hp ts n position fault hroom hfirst
  | ok first =>
    rw [hfirst, ok_bind] at h
    obtain ⟨used, hts, hused⟩ := sound _ _ _ hfirst
    have depth := hused.depth_le_length
    have length := congrArg List.length hts
    rw [List.length_append] at length
    rw [hts]
    exact .of_after (hused.after_eq n) (hp.chainFrom sound n (by omega) (by omega) h)

theorem Blames.disjunction (h : Blames stop room (term limit stop room)) (hlimit : room ≤ limit) :
    Blames stop room (Rule.disjunction limit (term limit stop room)) := by
  have sound := sound_term limit stop room
  have conjunction : Blames stop room (Rule.chain limit .and (term limit stop room)) := h.chain sound hlimit
  exact conjunction.chain sound.chain hlimit

theorem blamed_comparison {name : String} {place : Nat} {fault : SyntaxFault} (n : Nat)
    (h : comparison stop (⟨.name name, place⟩ :: ts) = .error (.badRule position fault)) :
    Blamed stop ⟨.term, n⟩ (⟨.name name, place⟩ :: ts) position := by
  refine .of_next (t := ⟨.comparator, n⟩) rfl ?_
  match ts with
  | [] => cases h; exact .unfinished (t := ⟨.comparator, n⟩) rfl nofun
  | ⟨.comparator c, q⟩ :: ts =>
    refine .of_next (t := ⟨.literal, n⟩) rfl ?_
    match ts with
    | [] => cases h; exact .unfinished (t := ⟨.literal, n⟩) rfl nofun
    | ⟨kind, q⟩ :: ts => cases kind <;> cases h <;> exact blamed_head rfl ts
  | ⟨.openParen, q⟩ :: ts | ⟨.closeParen, q⟩ :: ts | ⟨.connective k, q⟩ :: ts | ⟨.name s, q⟩ :: ts
  | ⟨.number x, q⟩ :: ts | ⟨.text s, q⟩ :: ts => cases h; exact blamed_head rfl ts

/-- A parenthesis that is not closed behind its rule is blamed itself only if the tokens are over. -/
theorem blamed_closing {used rest : List Token} {inner : Measured} {r : Rule} {place : Nat} {fault : SyntaxFault}
    (n : Nat) (inside : Derives (.chain .or) (used.map Token.kind) r) (stops : ∀ k, Breaks k rest)
    (h : closing place inner rest = .error (.badRule position fault)) :
    Blamed stop ⟨.term, n⟩ (⟨.openParen, place⟩ :: (used ++ rest)) position := by
  fun_cases closing place inner rest with
  | case1 =>
    cases h
    rw [List.append_nil]
    exact @Blamed.unclosed stop ⟨.term, n⟩ [] used position n r rfl inside
  | case2 => cases h
  | case3 found q after hne =>
    rw [closing.eq_3 _ _ _ _ _ hne] at h
    cases h
    exact .of_next (t := ⟨.term, n + 1⟩) rfl (.of_after (inside.after_eq (n + 1))
      (blamed_head (next_eq_none_of_breaks stops fun e => absurd e hne) after))

theorem blames_term (limit stop : Nat) (hroom : room ≤ limit) : Blames stop room (term limit stop room) := by
  -- on the room, since a rule in parentheses is read with less of it
  induction room using Nat.strongRecOn with
  | ind room ih =>
    intro ts n position fault hlength h
    match ts with
    | [] => cases room <;> cases h <;> exact .unfinished (t := ⟨.term, n⟩) rfl nofun
    | ⟨.name name, place⟩ :: ts =>
      rw [run_term_name] at h
      exact blamed_comparison n (map_eq_error.1 h)
    | ⟨.openParen, place⟩ :: ts =>
      rw [List.length_cons] at hlength
      obtain ⟨room, rfl⟩ : ∃ less, room = less + 1 := ⟨room - 1, by omega⟩
      have inner := (ih room (by omega) (by omega)).disjunction (by omega)
      rw [run_term_openParen] at h
      cases hin : (disjunction limit (term limit stop room)).run ts with
      | error e =>
        rw [hin] at h
        cases h
        exact .of_next (t := ⟨.term, n + 1⟩) rfl (inner ts (n + 1) position fault (by omega) hin)
      | ok read =>
        rw [hin, ok_bind] at h
        obtain ⟨used, rfl, hused⟩ := sound_reader limit stop room (.chain .or) _ _ _ hin
        exact blamed_closing n hused.derives (breaks_of_run_disjunction hin) h
    | ⟨.closeParen, place⟩ :: ts | ⟨.connective k, place⟩ :: ts | ⟨.comparator c, place⟩ :: ts
    | ⟨.number x, place⟩ :: ts | ⟨.text s, place⟩ :: ts =>
      cases room <;> cases h <;> exact blamed_head rfl ts

/-! ## Tokens -/

/-- What is left over is refused at its first token. -/
theorem expectEnd_cons (found : Token) (ts : List Token) :
    ∃ fault, expectEnd (found :: ts) = .error (.badRule found.position fault) := by
  obtain ⟨kind, place⟩ := found
  cases kind <;> exact ⟨_, rfl⟩

/-- Tokens that are refused, though the limit is wide enough for them, are wrong at the position of the fault. -/
theorem blamed_of_refused {fault : SyntaxFault} (hts : ts ≠ []) (hlimit : ts.length ≤ limit)
    (h : ofTokens limit stop ts = .error (.badRule position fault)) : Blamed stop Stage.start ts position := by
  rw [ofTokens_eq limit stop hts] at h
  have reader := (blames_term limit stop (Nat.le_refl limit)).disjunction (Nat.le_refl limit)
  cases hread : (disjunction limit (term limit stop limit)).run ts with
  | error e =>
    rw [hread] at h
    cases h
    exact reader ts 0 position fault hlimit hread
  | ok read =>
    obtain ⟨m, rest⟩ := read
    rw [hread, ok_bind] at h
    obtain ⟨used, rfl, hused⟩ := sound_reader limit stop limit (.chain .or) _ _ _ hread
    cases rest with
    | nil => cases h
    | cons found rest =>
      obtain ⟨_, hend⟩ := expectEnd_cons found rest
      rw [hend] at h
      cases h
      exact .of_after (hused.after_eq 0)
        (blamed_head (next_eq_none_of_breaks (breaks_of_run_disjunction hread) fun _ => rfl) rest)

/-! ## Beginnings of rules -/

/-- The tokens are those of a rule. -/
def Sentence (ks : List Token.Kind) : Prop := ∃ r, Derives (.chain .or) ks r

/-- A rule begins with the tokens. -/
def Beginning (ks : List Token.Kind) : Prop := ∃ more, Sentence (ks ++ more)

theorem Beginning.of_append {ks ls : List Token.Kind} (h : Beginning (ks ++ ls)) : Beginning ks := by
  obtain ⟨more, h⟩ := h
  exact ⟨ls ++ more, by rwa [← List.append_assoc]⟩

/-- After a rule in a parenthesis that is not closed, the parenthesis is still open. -/
theorem after_unclosed {before inner : List Token} {n : Nat} {r : Rule}
    (stage : s.after (before.map Token.kind) = some ⟨.term, n⟩)
    (inside : Derives (.chain .or) (inner.map Token.kind) r) (place : Nat) :
    s.after ((before ++ ⟨.openParen, place⟩ :: inner).map Token.kind) = some ⟨.connective, n + 1⟩ := by
  rw [List.map_append, Stage.after_append_eq_some]
  exact ⟨_, stage, inside.after_eq (n + 1)⟩

/-- Where something is wrong, the stages do not come to their end. -/
theorem Blamed.after_ne_done (h : Blamed stop s ts position) : s.after (ts.map Token.kind) ≠ some Stage.done := by
  cases h with
  | misfit stage misfit =>
    rw [List.map_append, List.map_cons, Stage.after_misfit stage misfit]
    nofun
  | unfinished stage unfinished =>
    rw [stage]
    rintro ⟨⟩
    exact unfinished rfl
  | unclosed stage inside =>
    rw [after_unclosed stage inside]
    nofun

/-- The stages come to their end exactly after rules: where they do, the reader is not to blame any token. -/
theorem sentence_iff {ks : List Token.Kind} : Sentence ks ↔ Stage.start.after ks = some Stage.done := by
  refine ⟨fun ⟨r, h⟩ => h.after_eq 0, fun h => ?_⟩
  have nonempty : (ks.map fun k => (⟨k, 0⟩ : Token)) ≠ [] := by
    rintro e
    obtain rfl := List.map_eq_nil_iff.1 e
    cases h
  cases read : ofTokens ks.length 0 (ks.map (⟨·, 0⟩)) with
  | ok r =>
    have derived := (ofTokens_eq_ok.1 read).1
    rw [map_kind_map] at derived
    exact ⟨r, derived⟩
  | error e =>
    obtain ⟨position, fault, rfl⟩ := syntaxOnly_ofTokens _ _ _ e read
    refine absurd ?_ (blamed_of_refused nonempty (by simp) read).after_ne_done
    rwa [map_kind_map]

/-- Tokens that complete a rule from a stage. -/
def Stage.completion : Stage → List Token.Kind
  | ⟨.term, n⟩ => .name "x" :: .comparator .equal :: .text "" :: List.replicate n .closeParen
  | ⟨.comparator, n⟩ => .comparator .equal :: .text "" :: List.replicate n .closeParen
  | ⟨.literal, n⟩ => .text "" :: List.replicate n .closeParen
  | ⟨.connective, n⟩ => List.replicate n .closeParen

theorem Stage.after_completion (s : Stage) : s.after s.completion = some done := by
  have closed : ∀ n, (⟨.connective, n⟩ : Stage).after (List.replicate n .closeParen) = some done := by
    intro n
    induction n with
    | zero => rfl
    | succ n ih => exact ih
  obtain ⟨expected, n⟩ := s
  cases expected <;> exact closed n

/-- Every stage can be completed, so that the tokens that lead to a stage are the beginnings of rules. -/
theorem beginning_iff {ks : List Token.Kind} : Beginning ks ↔ ∃ s, Stage.start.after ks = some s := by
  constructor
  · rintro ⟨more, h⟩
    obtain ⟨s, hs, -⟩ := Stage.after_append_eq_some.1 (sentence_iff.1 h)
    exact ⟨s, hs⟩
  · rintro ⟨s, hs⟩
    exact ⟨s.completion, sentence_iff.2 (Stage.after_append_eq_some.2 ⟨s, hs, s.after_completion⟩)⟩

/-! ## Refused texts -/

/-- The position is that of a token up to which, but not including which, the tokens are the beginning of a rule. -/
def MisfitAt (ts : List Token) (position : Nat) : Prop :=
  ∃ before found after, ts = before ++ found :: after ∧ found.position = position ∧
    Beginning (before.map Token.kind) ∧ ¬Beginning ((before ++ [found]).map Token.kind)

/-- There are tokens and they are the beginning of a rule but no rule, and the position is that of the innermost
parenthesis which is not closed, if a term comes last, or else the end of the text. -/
structure BrokenOffAt (stop : Nat) (ts : List Token) (position : Nat) : Prop where
  nonempty : ts ≠ []
  beginning : Beginning (ts.map Token.kind)
  incomplete : ¬Sentence (ts.map Token.kind)
  place : EndsWithTerm (ts.map Token.kind) ∧ (unclosed ts).head? = some position ∨
    ¬EndsWithTerm (ts.map Token.kind) ∧ position = stop

theorem MisfitAt.not_beginning (h : MisfitAt ts position) : ¬Beginning (ts.map Token.kind) := by
  obtain ⟨before, found, after, rfl, -, -, misfit⟩ := h
  refine mt (fun whole => ?_) misfit
  rw [List.append_cons, List.map_append] at whole
  exact whole.of_append

theorem Blamed.misfitAt_or_brokenOffAt (hts : ts ≠ []) (h : Blamed stop Stage.start ts position) :
    MisfitAt ts position ∨ BrokenOffAt stop ts position := by
  have incomplete := mt sentence_iff.1 h.after_ne_done
  cases h with
  | @misfit before after found t stage misfit =>
    refine .inl ⟨before, found, after, rfl, rfl, beginning_iff.2 ⟨_, stage⟩, fun h => ?_⟩
    obtain ⟨s, hs⟩ := beginning_iff.1 h
    rw [List.map_append, List.map_singleton, Stage.after_misfit stage misfit] at hs
    cases hs
  | unfinished stage unfinished =>
    exact .inr ⟨hts, beginning_iff.2 ⟨_, stage⟩, incomplete, .inr ⟨mt (·.expected stage) unfinished, rfl⟩⟩
  | @unclosed before inner position n r stage inside =>
    refine .inr ⟨hts, beginning_iff.2 ⟨_, after_unclosed stage inside position⟩, incomplete, .inl ⟨?_, ?_⟩⟩
    · rw [List.append_cons, List.map_append]
      exact inside.endsWithTerm.append _
    · rw [Rule.unclosed, List.foldl_append, List.foldl_cons, inside.unclosed_eq _ rfl]
      rfl

/-- A refused text is refused at the first token that cannot be continued. If the limit is wide enough for the tokens
of a text that is refused, exactly one of these holds: there are no tokens and the position is 0; the position is that
of the first token with which the tokens are no longer the beginning of a rule; or the tokens break off before a rule
is complete, and the position is that of the innermost parenthesis that is not closed or the end of the text. -/
theorem refused_at_first_misfit {text : String} {fault : SyntaxFault} (tokens : Token.tokenize text = .ok ts)
    (wide : ts.length ≤ limit) (refused : parse limit text = .error (.badRule position fault)) :
    let stop := Text.byteLength text.toList
    (ts = [] ∧ position = 0 ∨ MisfitAt ts position ∨ BrokenOffAt stop ts position) ∧
      ¬((ts = [] ∧ position = 0) ∧ MisfitAt ts position) ∧
      ¬((ts = [] ∧ position = 0) ∧ BrokenOffAt stop ts position) ∧
      ¬(MisfitAt ts position ∧ BrokenOffAt stop ts position) := by
  intro stop
  refine ⟨?_, ?_, ?_, ?_⟩
  · rw [parse, tokens, ok_bind] at refused
    by_cases hts : ts = []
    · subst hts
      cases refused
      exact .inl ⟨rfl, rfl⟩
    · exact .inr ((blamed_of_refused hts wide refused).misfitAt_or_brokenOffAt hts)
  · rintro ⟨⟨rfl, -⟩, before, found, after, h, -⟩
    simp at h
  · rintro ⟨⟨rfl, -⟩, h⟩
    exact h.nonempty rfl
  · rintro ⟨misfit, broken⟩
    exact misfit.not_beginning broken.beginning

/-- Of two parentheses the inner one is closed, so the outer one is where the text breaks off. -/
theorem refused_at_first_misfit_unclosed :
    let text := "x = 'a' AND (y = 'b' OR (z = 'c')"
    ∃ ts fault, Token.tokenize text = .ok ts ∧ ts.length ≤ 14 ∧ parse 14 text = .error (.badRule 12 fault) ∧
      ¬MisfitAt ts 12 ∧ BrokenOffAt 33 ts 12 := by
  intro text
  obtain ⟨ts, tokens⟩ : ∃ ts, Token.tokenize text = .ok ts := exists_eq_ok (by decide +kernel)
  have read : (Token.tokenize text).toOption.map (fun ts => (ts.length, Stage.start.after (ts.map Token.kind))) =
      some (14, some ⟨.connective, 1⟩) := by decide +kernel
  rw [tokens] at read
  obtain ⟨length, stage⟩ := Prod.mk.inj (Option.some.inj read)
  have place : (match parse 14 text with
      | .error (.badRule position _) => position
      | _ => 0) = 12 := by decide +kernel
  obtain ⟨fault, refused⟩ : ∃ fault, parse 14 text = .error (.badRule 12 fault) := by
    split at place
    · subst place
      exact ⟨_, by assumption⟩
    · cases place
  have stop : Text.byteLength text.toList = 33 := by decide +kernel
  obtain ⟨one, -, -, -⟩ := refused_at_first_misfit tokens (Nat.le_of_eq length) refused
  have fits : ¬MisfitAt ts 12 := fun h => h.not_beginning (beginning_iff.2 ⟨_, stage⟩)
  rcases one with ⟨-, h⟩ | h | h
  · cases h
  · exact absurd h fits
  · exact ⟨ts, fault, tokens, Nat.le_of_eq length, refused, fits, stop ▸ h⟩

end Eligibility.Rule
