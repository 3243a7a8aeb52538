/-
Reading as moves of a cursor over the tokens of a text, with a count of the open parentheses that goes up at each one
that opens and down again at each one that closes. The count is put back only where a rule in parentheses has been
read to its end. Main statements: from every state each reader has a run, whatever comes of it, and the run ends as
the reader does on the tokens from the cursor on, with room for the parentheses that are not open yet.
-/
import Eligibility.Proofs.Rule.Reading

namespace Eligibility.Rule

/-! ## States -/

/-- A state of reading: the tokens of a text, how many of them have been read, and how many parentheses are open. -/
structure Cursor where
  tokens : List Token
  position : ℕ
  nesting : ℕ

namespace Cursor

/-- The tokens from the cursor on. -/
def rest (c : Cursor) : List Token := c.tokens.drop c.position

/-- So many tokens further. -/
def advance (c : Cursor) (n : ℕ) : Cursor := { c with position := c.position + n }

/-- Behind a parenthesis that opens. -/
def opened (c : Cursor) : Cursor := { c with position := c.position + 1, nesting := c.nesting + 1 }

/-- Behind a parenthesis that closes. -/
def closed (c : Cursor) : Cursor := { c with position := c.position + 1, nesting := c.nesting - 1 }

/-- Where the cursor stands when this is left of the tokens from it on. -/
def before (c : Cursor) (left : List Token) : Cursor := c.advance (c.rest.length - left.length)

variable {c : Cursor} {ts ts' : List Token}

theorem rest_advance (c : Cursor) (n : ℕ) : (c.advance n).rest = c.rest.drop n := by
  rw [rest, rest, List.drop_drop]
  rfl

theorem rest_before {used : List Token} (h : c.rest = used ++ ts) : (c.before ts).rest = ts := by
  rw [before, rest_advance, h, List.length_append, Nat.add_sub_cancel_right, List.drop_left]

theorem before_append {used : List Token} (h : c.rest = used ++ ts) : c.before ts = c.advance used.length := by
  rw [before, h, List.length_append, Nat.add_sub_cancel_right]

theorem before_before {used : List Token} (h : c.rest = used ++ ts) (hle : ts'.length ≤ ts.length) :
    (c.before ts).before ts' = c.before ts' := by
  have length := congrArg List.length h
  rw [List.length_append] at length
  rw [before, rest_before h, before, before, advance, advance, advance]
  congr 1
  dsimp only
  omega

end Cursor

/-! ## Runs -/

/-- What is being read: a phrase, or the rest of a chain, from a connective on, of which a part has been read. -/
inductive Task where
  | phrase (s : Phrase)
  | loop (k : Connective) (left : Measured)

/-- What happens in a run: a state is reached at the start of a task or at its end in parentheses, or a loop has gone
round once. -/
inductive Milestone where
  | visit (c : Cursor)
  | round (before after : Cursor)

/-- What comes of a task: what has been read and the state behind it, or why the tokens are refused. -/
abbrev Ending := Except Fault (Measured × Cursor)

/-- `Runs limit stop task c trace ending`: the task, begun in the state `c`, passes the milestones of `trace` and
comes to `ending`. -/
inductive Runs (limit stop : ℕ) : Task → Cursor → List Milestone → Ending → Prop
  | comparison {c : Cursor} {used ts : List Token} {test : Comparison} (tokens : c.rest = used ++ ts)
      (kinds : used.map Token.kind = test.kinds) :
      Runs limit stop (.phrase .term) c [.visit c] (.ok (⟨.test test, 1⟩, c.advance 3))
  | misfit {c : Cursor} {e : Fault} (noParen : ∀ p ts, c.rest ≠ ⟨.openParen, p⟩ :: ts)
      (refused : (term limit stop 0).run c.rest = .error e) :
      Runs limit stop (.phrase .term) c [.visit c] (.error e)
  | full {c : Cursor} {p : ℕ} {ts : List Token} (paren : c.rest = ⟨.openParen, p⟩ :: ts) (noRoom : limit ≤ c.nesting) :
      Runs limit stop (.phrase .term) c [.visit c] (.error (.badRule p (.nestedTooDeep limit)))
  | innerRefused {c : Cursor} {p : ℕ} {ts : List Token} {trace : List Milestone} {e : Fault}
      (paren : c.rest = ⟨.openParen, p⟩ :: ts) (room : c.nesting < limit)
      (inner : Runs limit stop (.phrase (.chain .or)) c.opened trace (.error e)) :
      Runs limit stop (.phrase .term) c (.visit c :: trace) (.error e)
  | unclosed {c c' : Cursor} {p : ℕ} {ts : List Token} {trace : List Milestone} {m : Measured} {e : Fault}
      (paren : c.rest = ⟨.openParen, p⟩ :: ts) (room : c.nesting < limit)
      (inner : Runs limit stop (.phrase (.chain .or)) c.opened trace (.ok (m, c')))
      (refused : closing p m c'.rest = .error e) : Runs limit stop (.phrase .term) c (.visit c :: trace) (.error e)
  | parens {c c' : Cursor} {p q : ℕ} {ts after : List Token} {trace : List Milestone} {m : Measured}
      (paren : c.rest = ⟨.openParen, p⟩ :: ts) (room : c.nesting < limit)
      (inner : Runs limit stop (.phrase (.chain .or)) c.opened trace (.ok (m, c')))
      (close : c'.rest = ⟨.closeParen, q⟩ :: after) :
      Runs limit stop (.phrase .term) c (.visit c :: (trace ++ [.visit c'.closed])) (.ok (m, c'.closed))
  | firstRefused {k : Connective} {c : Cursor} {trace : List Milestone} {e : Fault}
      (first : Runs limit stop (.phrase (.operand k)) c trace (.error e)) :
      Runs limit stop (.phrase (.chain k)) c (.visit c :: trace) (.error e)
  | chain {k : Connective} {c c' : Cursor} {trace more : List Milestone} {m : Measured} {ending : Ending}
      (first : Runs limit stop (.phrase (.operand k)) c trace (.ok (m, c')))
      (loop : Runs limit stop (.loop k m) c' more ending) :
      Runs limit stop (.phrase (.chain k)) c (.visit c :: (trace ++ more)) ending
  | done {k : Connective} {c : Cursor} {left : Measured} (noMore : ∀ p ts, c.rest ≠ ⟨.connective k, p⟩ :: ts) :
      Runs limit stop (.loop k left) c [.visit c] (.ok (left, c))
  | rightRefused {k : Connective} {c : Cursor} {left : Measured} {p : ℕ} {ts : List Token} {trace : List Milestone}
      {e : Fault} (connective : c.rest = ⟨.connective k, p⟩ :: ts)
      (right : Runs limit stop (.phrase (.operand k)) (c.advance 1) trace (.error e)) :
      Runs limit stop (.loop k left) c (.visit c :: trace) (.error e)
  | tooDeep {k : Connective} {c c' : Cursor} {left right : Measured} {p : ℕ} {ts : List Token} {trace : List Milestone}
      {e : Fault} (connective : c.rest = ⟨.connective k, p⟩ :: ts)
      (operand : Runs limit stop (.phrase (.operand k)) (c.advance 1) trace (.ok (right, c')))
      (refused : joinWithin limit k p left right = .error e) :
      Runs limit stop (.loop k left) c (.visit c :: (trace ++ [.round c c'])) (.error e)
  | round {k : Connective} {c c' : Cursor} {left right joined : Measured} {p : ℕ} {ts : List Token}
      {trace more : List Milestone} {ending : Ending} (connective : c.rest = ⟨.connective k, p⟩ :: ts)
      (operand : Runs limit stop (.phrase (.operand k)) (c.advance 1) trace (.ok (right, c')))
      (join : joinWithin limit k p left right = .ok joined) (loop : Runs limit stop (.loop k joined) c' more ending) :
      Runs limit stop (.loop k left) c (.visit c :: (trace ++ .round c c' :: more)) ending

/-- What the readers make of a task, from the tokens and the room that a state leaves. -/
def Task.ending (limit stop : ℕ) (c : Cursor) : Task → Ending
  | .phrase s => ((s.reader limit stop (limit - c.nesting)).run c.rest).map fun read => (read.1, c.before read.2)
  | .loop k left =>
    (chainFrom limit k ((Phrase.operand k).reader limit stop (limit - c.nesting)) left c.rest).map fun read =>
      (read.1, c.before read.2)

/-! ## The readers as moves of the cursor -/

variable {limit stop : ℕ} {k : Connective} {c c' : Cursor} {m left : Measured} {ts : List Token}

/-- Only a parenthesis needs room. -/
theorem run_term_of_noParen (h : ∀ p ts', ts ≠ ⟨.openParen, p⟩ :: ts') (room : ℕ) :
    (term limit stop room).run ts = (term limit stop 0).run ts := by
  rcases ts with _ | ⟨⟨kind, position⟩, ts⟩
  · cases room <;> rfl
  · cases kind with
    | openParen => exact absurd rfl (h position ts)
    | name n => rw [run_term_name, run_term_name]
    | _ => cases room <;> rfl

/-- A term without a parenthesis is a comparison. -/
theorem exists_comparison_of_noParen {room : ℕ} {rest : List Token} (h : ∀ p ts', ts ≠ ⟨.openParen, p⟩ :: ts')
    (hread : (term limit stop room).run ts = .ok (m, rest)) :
    ∃ used test, ts = used ++ rest ∧ used.map Token.kind = Comparison.kinds test := by
  rcases term_cases limit stop room ts with ⟨n, position, ts, rfl⟩ | ⟨position, ts, _, rfl, -⟩ | ⟨_, _, refused⟩
  · rw [run_term_name] at hread
    obtain ⟨read, hc, ⟨⟩⟩ := map_eq_ok.1 hread
    obtain ⟨used, hts, kinds⟩ := comparison_eq_ok hc
    exact ⟨used, _, hts, kinds⟩
  · exact absurd rfl (h position ts)
  · cases refused.symm.trans hread

theorem length_of_chainFrom {operand : Reader} {rest : List Token}
    (h : chainFrom limit k operand left ts = .ok (m, rest)) : rest.length ≤ ts.length := by
  obtain ⟨⟨read, le⟩, -, rfl⟩ := map_eq_ok.1 h
  exact le

/-- What is left of a chain is left of the tokens before it. -/
theorem ending_loop_before {used : List Token} (h : c.rest = used ++ ts) :
    (Task.loop k left).ending limit stop (c.before ts) =
      (chainFrom limit k ((Phrase.operand k).reader limit stop (limit - c.nesting)) left ts).map fun read =>
        (read.1, c.before read.2) := by
  rw [Task.ending, Cursor.rest_before h]
  change Except.map _ (chainFrom limit k ((Phrase.operand k).reader limit stop (limit - c.nesting)) left ts) = _
  cases hloop : chainFrom limit k ((Phrase.operand k).reader limit stop (limit - c.nesting)) left ts with
  | error e => rfl
  | ok read => simp only [Except.map, Cursor.before_before h (length_of_chainFrom hloop)]

/-- A chain is read as its first operand and then what is left of it, from where the operand ends. -/
theorem ending_chain : (Task.phrase (.chain k)).ending limit stop c =
    (Task.phrase (.operand k)).ending limit stop c >>= fun read => (Task.loop k read.1).ending limit stop read.2 := by
  rw [Task.ending, Task.ending, reader_chain, run_chain]
  cases hread : ((Phrase.operand k).reader limit stop (limit - c.nesting)).run c.rest with
  | error e => rfl
  | ok read =>
    obtain ⟨used, hused, -⟩ := sound_reader limit stop _ _ _ _ _ hread
    exact (ending_loop_before hused).symm

theorem ending_loop_of_ne (h : ∀ p ts', c.rest ≠ ⟨.connective k, p⟩ :: ts') :
    (Task.loop k left).ending limit stop c = .ok (left, c) := by
  rw [Task.ending, chainFrom_of_ne h]
  simp [Except.map, Cursor.before, Cursor.advance]

theorem ending_loop_connective {p : ℕ} (h : c.rest = ⟨.connective k, p⟩ :: ts) :
    (Task.loop k left).ending limit stop c =
      (Task.phrase (.operand k)).ending limit stop (c.advance 1) >>= fun read =>
        joinWithin limit k p left read.1 >>= fun joined => (Task.loop k joined).ending limit stop read.2 := by
  have cut : c.rest = [⟨.connective k, p⟩] ++ ts := h
  have next : c.advance 1 = c.before ts := (Cursor.before_append cut).symm
  rw [next, Task.ending, Task.ending, h, chainFrom_connective, Cursor.rest_before cut]
  change _ = Except.map _ (((Phrase.operand k).reader limit stop (limit - c.nesting)).run ts) >>= _
  cases hread : ((Phrase.operand k).reader limit stop (limit - c.nesting)).run ts with
  | error e => rfl
  | ok read =>
    obtain ⟨used, hused, -⟩ := sound_reader limit stop _ _ _ _ _ hread
    have longer : c.rest = ⟨.connective k, p⟩ :: used ++ read.2 := by rw [h, hused]; rfl
    have same : (c.before ts).before read.2 = c.before read.2 :=
      Cursor.before_before cut (by rw [hused, List.length_append]; omega)
    simp only [ok_bind, Except.map, same]
    cases joinWithin limit k p left read.1 with
    | error e => rfl
    | ok joined => exact (ending_loop_before longer).symm

/-- A parenthesis for which there is room is read as what is in it, and then closed. -/
theorem ending_term_openParen {p : ℕ} (h : c.rest = ⟨.openParen, p⟩ :: ts) (room : c.nesting < limit) :
    (Task.phrase .term).ending limit stop c =
      (Task.phrase (.chain .or)).ending limit stop c.opened >>= fun read =>
        (closing p read.1 read.2.rest).map fun _ => (read.1, read.2.closed) := by
  obtain ⟨more, hmore⟩ : ∃ more, limit - c.nesting = more + 1 := ⟨limit - c.nesting - 1, by omega⟩
  -- one parenthesis more is open inside, which leaves room for one less
  have inside : limit - c.opened.nesting = more := by simp only [Cursor.opened]; omega
  have next : c.opened.rest = ts := by
    have cut : c.rest = [⟨.openParen, p⟩] ++ ts := h
    rw [← Cursor.rest_before cut, Cursor.before_append cut]
    rfl
  rw [Task.ending, Task.ending, h, hmore, inside, next]
  change Except.map _ ((term limit stop (more + 1)).run _) =
    Except.map _ ((disjunction limit (term limit stop more)).run ts) >>= _
  rw [run_term_openParen]
  cases hread : (disjunction limit (term limit stop more)).run ts with
  | error e => rfl
  | ok read =>
    obtain ⟨used, hused, -⟩ := sound_reader limit stop more (.chain .or) _ _ _ hread
    simp only [ok_bind, Except.map, Cursor.rest_before (next.trans hused)]
    cases hclose : closing p read.1 read.2 with
    | error e => rfl
    | ok closed =>
      obtain ⟨q, hrest, hm⟩ := closing_eq_ok.1 hclose
      -- the tokens add up: the parenthesis that opens, those inside, the one that closes and the rest
      have length := congrArg List.length (hused.trans (congrArg (used ++ ·) hrest))
      rw [List.length_append, List.length_cons] at length
      have same : c.before closed.2 = (c.opened.before read.2).closed := by
        rw [Cursor.before, Cursor.before, h, next, hrest]
        simp only [Cursor.advance, Cursor.opened, Cursor.closed, List.length_cons, Nat.add_sub_cancel]
        congr 1
        omega
      simp only [same, hm]

theorem ending_term_full {p : ℕ} (h : c.rest = ⟨.openParen, p⟩ :: ts) (noRoom : limit ≤ c.nesting) :
    (Task.phrase .term).ending limit stop c = .error (.badRule p (.nestedTooDeep limit)) := by
  rw [Task.ending, h, Nat.sub_eq_zero_of_le noRoom]
  rfl

theorem ending_term_misfit {e : Fault} (noParen : ∀ p ts', c.rest ≠ ⟨.openParen, p⟩ :: ts')
    (refused : (term limit stop 0).run c.rest = .error e) : (Task.phrase .term).ending limit stop c = .error e := by
  rw [Task.ending]
  change Except.map _ ((term limit stop _).run _) = _
  rw [run_term_of_noParen noParen, refused]
  rfl

theorem ending_term_comparison {used : List Token} {test : Comparison} (h : c.rest = used ++ ts)
    (kinds : used.map Token.kind = test.kinds) :
    (Task.phrase .term).ending limit stop c = .ok (⟨.test test, 1⟩, c.advance 3) := by
  have three : c.before ts = c.advance 3 := by
    have length := congrArg List.length kinds
    rw [List.length_map] at length
    rw [Cursor.before_append h, length]
    rfl
  obtain ⟨p, q, s, rfl⟩ := map_kind_eq_kinds kinds
  obtain ⟨_, hread⟩ := comparison_kinds stop test p q s ts
  rw [Task.ending, ← three, h]
  change Except.map _ ((term limit stop _).run (⟨.name test.name, p⟩ :: _)) = _
  have read : comparison stop
      (⟨.name test.name, p⟩ :: ([⟨.comparator test.comparator, q⟩, ⟨test.literal.kind, s⟩] ++ ts)) =
      .ok _ := hread
  rw [run_term_name, List.append_eq, read]
  rfl

/-! ## Runs -/

variable {task : Task} {trace : List Milestone} {ending : Ending}

/-- A run ends as the readers do. -/
theorem Runs.ending_eq (h : Runs limit stop task c trace ending) : task.ending limit stop c = ending := by
  induction h with
  | comparison tokens kinds => exact ending_term_comparison tokens kinds
  | misfit noParen refused => exact ending_term_misfit noParen refused
  | full paren noRoom => exact ending_term_full paren noRoom
  | innerRefused paren room _ ih =>
    rw [ending_term_openParen paren room, ih]
    rfl
  | unclosed paren room _ refused ih =>
    rw [ending_term_openParen paren room, ih, ok_bind, refused]
    rfl
  | parens paren room _ close ih =>
    rw [ending_term_openParen paren room, ih, ok_bind, close]
    rfl
  | firstRefused _ ih =>
    rw [ending_chain, ih]
    rfl
  | chain _ _ ihf ihl => rw [ending_chain, ihf, ok_bind, ihl]
  | done noMore => exact ending_loop_of_ne noMore
  | rightRefused connective _ ih =>
    rw [ending_loop_connective connective, ih]
    rfl
  | tooDeep connective _ refused ih =>
    rw [ending_loop_connective connective, ih, ok_bind, refused]
    rfl
  | round connective _ join _ ihr ihl => rw [ending_loop_connective connective, ihr, ok_bind, join, ok_bind, ihl]

/-- What a reader reads of a phrase, it reads by going on over its tokens. -/
theorem ending_phrase_eq_ok {s : Phrase} (h : (Task.phrase s).ending limit stop c = .ok (m, c')) :
    ∃ used, c.rest = used ++ c'.rest ∧ c' = c.advance used.length ∧ Reads limit (limit - c.nesting) s used m := by
  obtain ⟨⟨m, rest⟩, hread, ⟨⟩⟩ := map_eq_ok.1 h
  obtain ⟨used, hused, reads⟩ := sound_reader limit stop _ s _ _ _ hread
  refine ⟨used, ?_, Cursor.before_append hused, reads⟩
  rw [Cursor.rest_before hused]
  exact hused

/-- A phrase has three tokens at least, those of a comparison. -/
theorem Derives.three_le_length {s : Phrase} {ks : List Token.Kind} {r : Rule} (h : Derives s ks r) :
    3 ≤ ks.length := by
  induction h with
  | comparison c => exact Nat.le_refl 3
  | parens _ ih => simp only [List.length_append, List.length_cons]; omega
  | single _ ih => exact ih
  | joined _ _ ihl _ => rw [List.length_append]; omega

theorem Reads.three_le_length {s : Phrase} {room : ℕ} {used : List Token} (h : Reads limit room s used m) :
    3 ≤ used.length := by
  have := h.derives.three_le_length
  rwa [List.length_map] at this

/-- Reading a phrase takes three tokens at least. -/
theorem Runs.rest_length {s : Phrase} (h : Runs limit stop (.phrase s) c trace (.ok (m, c'))) :
    c'.rest.length + 3 ≤ c.rest.length := by
  obtain ⟨used, hused, -, reads⟩ := ending_phrase_eq_ok h.ending_eq
  have := reads.three_le_length
  rw [hused, List.length_append]
  omega

theorem Cursor.rest_advance_length {t : Token} (h : c.rest = t :: ts) : (c.advance 1).rest.length < c.rest.length := by
  rw [rest_advance, h]
  exact Nat.lt_succ_self _

/-- The tasks that may be begun in one state, from the one that begins no other there. -/
def Task.rank : Task → ℕ
  | .phrase (.chain .or) => 2
  | .phrase (.chain .and) => 1
  | _ => 0

theorem Task.rank_operand (k : Connective) : (Task.phrase (.operand k)).rank < (Task.phrase (.chain k)).rank := by
  cases k <;> decide

/-- Every task has a run, whatever comes of it: each task that it begins has fewer tokens before it, or as many and a
lower rank. -/
theorem exists_runs (limit stop : ℕ) (task : Task) (c : Cursor) :
    ∃ trace ending, Runs limit stop task c trace ending := by
  match task with
  | .phrase .term =>
    by_cases paren : ∃ p ts, c.rest = ⟨.openParen, p⟩ :: ts
    · obtain ⟨p, ts, paren⟩ := paren
      by_cases noRoom : limit ≤ c.nesting
      · exact ⟨_, _, .full paren noRoom⟩
      · have : c.opened.rest.length < c.rest.length := Cursor.rest_advance_length paren
        obtain ⟨trace, _ | ⟨m, c'⟩, inner⟩ := exists_runs limit stop (.phrase (.chain .or)) c.opened
        · exact ⟨_, _, .innerRefused paren (by omega) inner⟩
        · cases hclose : closing p m c'.rest with
          | error e => exact ⟨_, _, .unclosed paren (by omega) inner hclose⟩
          | ok read =>
            obtain ⟨q, close, -⟩ := closing_eq_ok.1 hclose
            exact ⟨_, _, .parens paren (by omega) inner close⟩
    · have noParen : ∀ p ts, c.rest ≠ ⟨.openParen, p⟩ :: ts := fun p ts h => paren ⟨p, ts, h⟩
      cases hread : (term limit stop 0).run c.rest with
      | error e => exact ⟨_, _, .misfit noParen hread⟩
      | ok read =>
        obtain ⟨used, test, tokens, kinds⟩ := exists_comparison_of_noParen noParen hread
        exact ⟨_, _, .comparison tokens kinds⟩
  | .phrase (.chain k) =>
    have := Task.rank_operand k
    obtain ⟨trace, _ | ⟨m, c'⟩, first⟩ := exists_runs limit stop (.phrase (.operand k)) c
    · exact ⟨_, _, .firstRefused first⟩
    · -- the operand has used up tokens, so that fewer are left of the chain
      have := first.rest_length
      obtain ⟨more, ending, loop⟩ := exists_runs limit stop (.loop k m) c'
      exact ⟨_, _, .chain first loop⟩
  | .loop k left =>
    by_cases connective : ∃ p ts, c.rest = ⟨.connective k, p⟩ :: ts
    · obtain ⟨p, ts, connective⟩ := connective
      have next := Cursor.rest_advance_length connective
      obtain ⟨trace, _ | ⟨right, c'⟩, operand⟩ := exists_runs limit stop (.phrase (.operand k)) (c.advance 1)
      · exact ⟨_, _, .rightRefused connective operand⟩
      · cases join : joinWithin limit k p left right with
        | error e => exact ⟨_, _, .tooDeep connective operand join⟩
        | ok joined =>
          have := operand.rest_length
          obtain ⟨more, ending, loop⟩ := exists_runs limit stop (.loop k joined) c'
          exact ⟨_, _, .round connective operand join loop⟩
    · exact ⟨_, _, .done fun p ts h => connective ⟨p, ts, h⟩⟩
termination_by (c.rest.length, task.rank)

end Eligibility.Rule
