/-
The readers of rule text against the grammar, for any tokens and any place in them. What a reader
reads is a phrase that stands for the rule it returns, within both limits (`sound_reader`); and a phrase
within both limits is read as its rule, whatever follows (`Derives.run_eq`). A chain is derived from
its left end but read from its first operand on, so the second law says where the reader stands after
the phrase: at the rest of the chain, with the phrase as the rule read so far.
-/
import Eligibility.Proofs.Outcome
import Eligibility.Proofs.Rule.Derivation

namespace Eligibility

namespace Rule

/-! ## Readers without their evidence -/

/-- What a reader reads and what it leaves. -/
def Reader.run (p : Reader) (ts : List Token) : Except Fault (Measured × List Token) :=
  (p ts).map fun read => (read.value, read.rest)

/-- What is read of a chain from its first connective on, and what is left. -/
def chainFrom (limit : Nat) (k : Connective) (operand : Reader) (left : Measured) (ts : List Token) :
    Except Fault (Measured × List Token) :=
  (chainRest limit k operand left ts).map (·.val)

/-- What is left after a rule in parentheses of which all but the end has been read. -/
def closing (position : Nat) (inner : Measured) : List Token → Except Fault (Measured × List Token)
  | [] => .error (.badRule position .unclosedParen)
  | ⟨.closeParen, _⟩ :: after => .ok (inner, after)
  | ⟨found, position⟩ :: _ => .error (.badRule position (.expectedCloseParen found))

theorem run_eq_ok {p : Reader} {ts rest : List Token} {m : Measured} :
    p.run ts = .ok (m, rest) ↔ ∃ read, p ts = .ok read ∧ read.value = m ∧ read.rest = rest := by
  unfold Reader.run
  rw [map_eq_ok]
  simp only [Prod.mk.injEq]

theorem run_chain (limit : Nat) (k : Connective) (operand : Reader) (ts : List Token) :
    (chain limit k operand).run ts = operand.run ts >>= fun first => chainFrom limit k operand first.1 first.2 := by
  unfold Reader.run chain chainFrom
  cases operand ts with
  | error e => rfl
  | ok first =>
    simp only [ok_bind, Except.map]
    cases chainRest limit k operand first.value first.rest <;> rfl

/-- Behind a connective of the chain its next operand is read and joined to what has been read. -/
theorem chainFrom_connective (limit : Nat) (k : Connective) (operand : Reader) (left : Measured)
    (position : Nat) (rest : List Token) :
    chainFrom limit k operand left (⟨.connective k, position⟩ :: rest) =
      operand.run rest >>= fun right => joinWithin limit k position left right.1 >>= fun joined =>
        chainFrom limit k operand joined right.2 := by
  unfold Reader.run chainFrom
  rw [chainRest, if_pos rfl]
  cases operand rest with
  | error e => rfl
  | ok right =>
    simp only [ok_bind, Except.map]
    cases joinWithin limit k position left right.value with
    | error e => rfl
    | ok joined =>
      simp only [ok_bind]
      cases chainRest limit k operand joined right.rest <;> rfl

theorem chainFrom_of_ne {limit : Nat} {k : Connective} {operand : Reader} {left : Measured} {ts : List Token}
    (h : ∀ position rest, ts ≠ ⟨.connective k, position⟩ :: rest) :
    chainFrom limit k operand left ts = .ok (left, ts) := by
  unfold chainFrom
  unfold chainRest
  split
  · rename_i c position rest
    rw [if_neg (fun hc => h position rest (by rw [hc]))]
    rfl
  · rfl

theorem run_term_openParen (limit stop room position : Nat) (rest : List Token) :
    (term limit stop (room + 1)).run (⟨.openParen, position⟩ :: rest) =
      (disjunction limit (term limit stop room)).run rest >>= fun inner => closing position inner.1 inner.2 := by
  unfold Reader.run
  rw [term]
  cases disjunction limit (term limit stop room) rest with
  | error e => rfl
  | ok inner =>
    simp only [ok_bind, Except.map]
    obtain ⟨value, rest, shorter⟩ := inner
    match rest with
    | [] => rfl
    | ⟨kind, position⟩ :: after => cases kind <;> rfl

theorem run_term_name (limit stop room : Nat) (n : String) (position : Nat) (rest : List Token) :
    (term limit stop room).run (⟨.name n, position⟩ :: rest) =
      (comparison stop (⟨.name n, position⟩ :: rest)).map fun read => (⟨.test read.value, 1⟩, read.rest) := by
  unfold Reader.run
  rw [term]
  cases comparison stop (⟨.name n, position⟩ :: rest) <;> rfl

/-- A term begins with a name, or with a parenthesis for which there is room, or it is refused. -/
theorem term_cases (limit stop room : Nat) (ts : List Token) :
    (∃ n position rest, ts = ⟨.name n, position⟩ :: rest) ∨
    (∃ position rest more, ts = ⟨.openParen, position⟩ :: rest ∧ room = more + 1) ∨
    ∃ position fault, (term limit stop room).run ts = .error (.badRule position fault) := by
  match ts with
  | [] => exact .inr (.inr (by cases room <;> exact ⟨_, _, rfl⟩))
  | ⟨kind, position⟩ :: rest =>
    cases kind with
    | name n => exact .inl ⟨n, position, rest, rfl⟩
    | openParen =>
      cases room with
      | zero => exact .inr (.inr ⟨_, _, rfl⟩)
      | succ more => exact .inr (.inl ⟨position, rest, more, rfl, rfl⟩)
    | _ => exact .inr (.inr (by cases room <;> exact ⟨_, _, rfl⟩))

theorem comparison_kinds (stop : Nat) (c : Comparison) (p q s : Nat) (rest : List Token) :
    ∃ shorter, comparison stop (⟨.name c.name, p⟩ :: ⟨.comparator c.comparator, q⟩ :: ⟨c.literal.kind, s⟩ :: rest) =
      .ok ⟨c, rest, shorter⟩ := by
  obtain ⟨n, c, x | t⟩ := c <;> exact ⟨by simp; omega, rfl⟩

/-- A comparison that is read has used the tokens of the comparison. -/
theorem comparison_eq_ok {stop : Nat} {ts : List Token} {read : Step Comparison ts}
    (h : comparison stop ts = .ok read) : ∃ used, ts = used ++ read.rest ∧ used.map Token.kind = read.value.kinds := by
  fun_cases comparison stop ts <;> simp only [comparison, reduceCtorEq, Except.ok.injEq] at h
  all_goals
    subst h
    exact ⟨[_, _, _], rfl, rfl⟩

/-- The reader of a phrase, with room for so many more open parentheses. -/
def Phrase.reader (limit stop room : Nat) : Phrase → Reader
  | .term => Rule.term limit stop room
  | .chain .and => conjunction limit (Rule.term limit stop room)
  | .chain .or => disjunction limit (Rule.term limit stop room)

theorem reader_chain (limit stop room : Nat) (k : Connective) :
    (Phrase.chain k).reader limit stop room = chain limit k ((Phrase.operand k).reader limit stop room) := by
  cases k <;> rfl

/-! ## What is read is derived -/

/-- The tokens `used` are a phrase that stands for the rule of `m`, with its depth, and both are within
the limits. -/
structure Reads (limit room : Nat) (s : Phrase) (used : List Token) (m : Measured) : Prop where
  derives : Derives s (used.map Token.kind) m.rule
  depth : m.depth = m.rule.depth
  nested : NestedWithin room (used.map Token.kind)
  joins : m.rule.JoinsWithin limit

/-- All that a reader reads is a phrase of one kind. -/
def Sound (limit room : Nat) (s : Phrase) (p : Reader) : Prop :=
  ∀ ts m rest, p.run ts = .ok (m, rest) → ∃ used, ts = used ++ rest ∧ Reads limit room s used m

variable {limit stop room : Nat} {k : Connective}

theorem joinWithin_eq_ok {position : Nat} {l r m : Measured} :
    joinWithin limit k position l r = .ok m ↔
      max l.depth r.depth + 1 ≤ limit ∧ m = ⟨.join k l.rule r.rule, max l.depth r.depth + 1⟩ := by
  unfold joinWithin
  dsimp only
  split
  · simp; omega
  · simp only [Except.ok.injEq]
    constructor
    · rintro rfl; exact ⟨by omega, rfl⟩
    · rintro ⟨-, rfl⟩; rfl

theorem Reads.single {used : List Token} {m : Measured} (h : Reads limit room (.operand k) used m) :
    Reads limit room (.chain k) used m := ⟨.single h.derives, h.depth, h.nested, h.joins⟩

theorem Reads.joined {left right : List Token} {l r m : Measured} {position : Nat}
    (hl : Reads limit room (.chain k) left l) (hr : Reads limit room (.operand k) right r)
    (h : joinWithin limit k position l r = .ok m) :
    Reads limit room (.chain k) (left ++ ⟨.connective k, position⟩ :: right) m := by
  obtain ⟨hd, rfl⟩ := joinWithin_eq_ok.1 h
  have depth : max l.depth r.depth + 1 = (join k l.rule r.rule).depth := by
    rw [hl.depth, hr.depth]; rfl
  refine ⟨?_, depth, ?_, joinsWithin_join.2 (depth ▸ hd)⟩
  · rw [List.map_append, List.map_cons]
    exact .joined hl.derives hr.derives
  · rw [List.map_append, List.map_cons]
    exact (nestedWithin_joined hl.derives.openParens_eq_zero).2 ⟨hl.nested, hr.nested⟩

/-- The invariant of a chain: what has been read of it so far is a chain. -/
theorem Sound.chainFrom {p : Reader} (hp : Sound limit room (.operand k) p) {left : Measured} {ts : List Token} :
    ∀ {used : List Token} {m : Measured} {rest : List Token}, Reads limit room (.chain k) used left →
      Rule.chainFrom limit k p left ts = .ok (m, rest) →
      ∃ more, ts = more ++ rest ∧ Reads limit room (.chain k) (used ++ more) m := by
  induction left, ts using chainRest.induct k with
  | case1 left position ts ih =>
    intro used m rest hl h
    rw [chainFrom_connective] at h
    obtain ⟨⟨right, ts'⟩, hr, h⟩ := bind_eq_ok.1 h
    obtain ⟨joined, hj, h⟩ := bind_eq_ok.1 h
    obtain ⟨read, -, -, rfl⟩ := run_eq_ok.1 hr
    obtain ⟨operand, hts, hright⟩ := hp _ _ _ hr
    -- with the right operand joined to it, what has been read is a longer chain
    obtain ⟨more, hmore, hm⟩ := ih read joined (hl.joined hright hj) h
    refine ⟨⟨.connective k, position⟩ :: operand ++ more, ?_, ?_⟩
    · rw [hts, hmore]; simp
    · simpa using hm
  | case2 left c position ts hc =>
    intro used m rest hl h
    rw [chainFrom_of_ne (by rintro _ _ ⟨⟩; exact hc rfl)] at h
    cases h
    exact ⟨[], rfl, by simpa using hl⟩
  | case3 left ts hts =>
    intro used m rest hl h
    rw [chainFrom_of_ne (fun _ _ e => hts _ _ _ e)] at h
    cases h
    exact ⟨[], rfl, by simpa using hl⟩

/-- A chain of what is derived is derived. -/
theorem Sound.chain {p : Reader} (hp : Sound limit room (.operand k) p) :
    Sound limit room (.chain k) (Rule.chain limit k p) := by
  intro ts m rest h
  rw [run_chain] at h
  obtain ⟨⟨first, ts'⟩, hfirst, hrest⟩ := bind_eq_ok.1 h
  obtain ⟨used, rfl, hused⟩ := hp _ _ _ hfirst
  obtain ⟨more, rfl, hm⟩ := hp.chainFrom hused.single hrest
  exact ⟨used ++ more, by simp, hm⟩

theorem closing_eq_ok {position : Nat} {inner m : Measured} {ts rest : List Token} :
    closing position inner ts = .ok (m, rest) ↔ ∃ q, ts = ⟨.closeParen, q⟩ :: rest ∧ inner = m := by
  fun_cases closing position inner ts with
  | case1 => simp
  | case2 q after => simp; exact ⟨fun ⟨h1, h2⟩ => ⟨h2, h1⟩, fun ⟨h2, h1⟩ => ⟨h1, h2⟩⟩
  | case3 found q after hne => simp; exact fun q' hf => absurd hf (by simpa using hne q')

/-- Of the terms in parentheses, those are read for which there is room. -/
theorem Sound.parens {p : Reader} (hp : Sound limit room (.chain .or) p) {position : Nat} {ts rest : List Token}
    {m : Measured} (h : (p.run ts >>= fun inner => closing position inner.1 inner.2) = .ok (m, rest)) :
    ∃ used, ⟨.openParen, position⟩ :: ts = used ++ rest ∧ Reads limit (room + 1) .term used m := by
  obtain ⟨⟨inner, ts'⟩, hin, hclose⟩ := bind_eq_ok.1 h
  obtain ⟨q, rfl, rfl⟩ := closing_eq_ok.1 hclose
  obtain ⟨used, rfl, hused⟩ := hp _ _ _ hin
  refine ⟨⟨.openParen, position⟩ :: used ++ [⟨.closeParen, q⟩], by simp, ?_, hused.depth, ?_, hused.joins⟩
  · simpa using Derives.parens hused.derives
  · simpa using nestedWithin_parens.2 ⟨room, rfl, hused.nested⟩

theorem term_name_eq_ok {n : String} {position : Nat} {ts rest : List Token} {m : Measured}
    (h : (term limit stop room).run (⟨.name n, position⟩ :: ts) = .ok (m, rest)) :
    ∃ used, ⟨.name n, position⟩ :: ts = used ++ rest ∧ Reads limit room .term used m := by
  rw [run_term_name] at h
  obtain ⟨read, hc, hread⟩ := map_eq_ok.1 h
  cases hread
  obtain ⟨used, hts, hused⟩ := comparison_eq_ok hc
  refine ⟨used, hts, ?_, rfl, ?_, joinsWithin_test _ _⟩
  · rw [hused]; exact .comparison _
  · rw [hused]; exact nestedWithin_kinds _ _

/-- Whatever room there is for parentheses, a term that is read is derived. -/
theorem sound_term (limit stop room : Nat) : Sound limit room .term (term limit stop room) := by
  -- on the room, since a rule in parentheses is read with less of it
  induction room using Nat.strongRecOn with
  | ind room ih =>
    intro ts m rest h
    rcases term_cases limit stop room ts with ⟨n, position, ts, rfl⟩ | ⟨position, ts, room, rfl, rfl⟩ |
      ⟨position, fault, refused⟩
    · exact term_name_eq_ok h
    · rw [run_term_openParen] at h
      exact (Sound.chain (k := .or) (Sound.chain (k := .and) (ih room (by omega)))).parens h
    · rw [refused] at h
      cases h

theorem sound_reader (limit stop room : Nat) : ∀ s : Phrase, Sound limit room s (s.reader limit stop room)
  | .term => sound_term limit stop room
  | .chain .and => Sound.chain (k := .and) (sound_term limit stop room)
  | .chain .or => Sound.chain (k := .or) (Sound.chain (k := .and) (sound_term limit stop room))

/-! ## What is derived is read -/

/-- Where the reader of a phrase stands once it has read `m` of it: a chain may go on. -/
def Phrase.resume (limit stop room : Nat) : Phrase → Measured → List Token → Except Fault (Measured × List Token)
  | .term, m, rest => .ok (m, rest)
  | .chain k, m, rest => chainFrom limit k ((operand k).reader limit stop room) m rest

/-- The tokens after a phrase do not continue its last operand. -/
def Phrase.Ends (s : Phrase) (rest : List Token) : Prop :=
  s = .chain .or → ∀ position after, rest ≠ ⟨.connective .and, position⟩ :: after

theorem resume_operand {m : Measured} {rest : List Token} (h : (Phrase.chain k).Ends rest) :
    (Phrase.operand k).resume limit stop room m rest = .ok (m, rest) := by
  cases k with
  | and => rfl
  | or => exact chainFrom_of_ne (h rfl)

theorem ends_operand (k : Connective) (rest : List Token) : (Phrase.operand k).Ends rest := by
  cases k <;> rintro ⟨⟩

theorem ends_connective (k : Connective) (position : Nat) (rest : List Token) :
    (Phrase.chain k).Ends (⟨.connective k, position⟩ :: rest) := by
  cases k <;> rintro ⟨⟩ _ _ ⟨⟩

/-- A phrase within both limits is read as its rule, whatever follows. -/
theorem Derives.run_eq {s : Phrase} {ks : List Token.Kind} {r : Rule} (h : Derives s ks r) :
    ∀ {room : Nat} {used : List Token} (rest : List Token), used.map Token.kind = ks → NestedWithin room ks →
      r.JoinsWithin limit → s.Ends rest →
      (s.reader limit stop room).run (used ++ rest) = s.resume limit stop room ⟨r, r.depth⟩ rest := by
  -- on the derivation, for any rest: a left operand is followed by the rest of its chain
  induction h with
  | comparison c =>
    intro room used rest hused _ _ _
    obtain ⟨p, q, s, rfl⟩ := map_kind_eq_kinds hused
    obtain ⟨shorter, hc⟩ := comparison_kinds stop c p q s rest
    show (term limit stop room).run
      (⟨.name c.name, p⟩ :: ⟨.comparator c.comparator, q⟩ :: ⟨c.literal.kind, s⟩ :: rest) = _
    rw [run_term_name, hc]
    rfl
  | parens _ ih =>
    intro room used rest hused hn hj _
    obtain ⟨room, rfl, hks⟩ := nestedWithin_parens.1 hn
    obtain ⟨p, used, q, rfl, h2⟩ := map_kind_eq_parens hused
    have inner := ih (⟨.closeParen, q⟩ :: rest) h2 hks hj (by rintro _ _ _ ⟨⟩)
    show (term limit stop (room + 1)).run _ = _
    rw [List.cons_append, List.cons_append, List.append_assoc, List.singleton_append, run_term_openParen]
    change (disjunction limit (term limit stop room)).run _ = chainFrom _ _ _ _ _ at inner
    rw [inner, chainFrom_of_ne (by rintro _ _ ⟨⟩)]
    rfl
  | single _ ih =>
    intro room used rest hused hn hj he
    rw [reader_chain, run_chain, ih rest hused hn hj (ends_operand _ _), resume_operand he]
    rfl
  | @joined k _ _ l r hl _ ihl ihr =>
    intro room used rest hused hn hj he
    obtain ⟨hnl, hnr⟩ := (nestedWithin_joined hl.openParens_eq_zero).1 hn
    obtain ⟨left, p, right, rfl, h1, h3⟩ := map_kind_eq_joined hused
    have hd : max l.depth r.depth + 1 ≤ limit := joinsWithin_join.1 hj
    have hjoin : joinWithin limit k p ⟨l, l.depth⟩ ⟨r, r.depth⟩ = .ok ⟨.join k l r, (join k l r).depth⟩ :=
      joinWithin_eq_ok.2 ⟨hd, rfl⟩
    -- the left part leaves the reader inside the chain, with the connective next
    have hright := ihr rest h3 hnr hj.right (ends_operand _ _)
    rw [List.append_assoc, List.cons_append, ihl _ h1 hnl hj.left (ends_connective k p _)]
    show chainFrom _ _ _ _ _ = _
    rw [chainFrom_connective, hright, resume_operand he, ok_bind, hjoin, ok_bind]
    rfl

end Rule
end Eligibility
