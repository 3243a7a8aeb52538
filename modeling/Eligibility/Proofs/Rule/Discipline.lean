/-
What the readers keep to, from any state. Main statement: a phrase that is read comes with its depth, takes three
tokens at least and leaves the count of open parentheses as it was; on the way the count never passes the limit that it
was within, and a loop takes four tokens at least each time it goes round; and what comes of it depends on the limit,
the count and the tokens from the cursor on, but for the end of the text, which is the place of a refusal where the
tokens run out.
-/
import Eligibility.Proofs.Rule.Cursor

namespace Eligibility

namespace Rule

variable {limit stop : ℕ} {c c' : Cursor} {task : Task} {trace : List Milestone} {ending : Ending} {m : Measured}

/-! ## Milestones of a run -/

/-- At a state as many parentheses are open as `n` and the limit allow; a round takes a connective and an operand. -/
def Milestone.Disciplined (limit n : ℕ) : Milestone → Prop
  | .visit c => n ≤ c.nesting ∧ c.nesting ≤ max limit n
  | .round before after => before.position + 4 ≤ after.position

theorem Milestone.Disciplined.inside {n : ℕ} {e : Milestone} (h : e.Disciplined limit (n + 1)) (room : n < limit) :
    e.Disciplined limit n := by
  cases e with
  | visit c =>
    obtain ⟨low, high⟩ := h
    constructor <;> omega
  | round => exact h

theorem disciplined_visit {n : ℕ} (h : c.nesting = n) : (Milestone.visit c).Disciplined limit n :=
  ⟨Nat.le_of_eq h.symm, Nat.le_trans (Nat.le_of_eq h) (Nat.le_max_right _ _)⟩

/-- Behind a phrase that has been read as many parentheses are open as before it. -/
theorem Runs.nesting_eq {s : Phrase} (h : Runs limit stop (.phrase s) c trace (.ok (m, c'))) :
    c'.nesting = c.nesting := by
  obtain ⟨used, -, moved, -⟩ := ending_phrase_eq_ok h.ending_eq
  rw [moved]
  rfl

/-- A phrase that has been read takes three tokens at least, and it takes them from the tokens that there are. -/
theorem Runs.position_bounds {s : Phrase} (h : Runs limit stop (.phrase s) c trace (.ok (m, c'))) :
    c.position + 3 ≤ c'.position ∧ c'.position ≤ c.tokens.length := by
  obtain ⟨used, cut, moved, reads⟩ := ending_phrase_eq_ok h.ending_eq
  have three := reads.three_le_length
  have left := congrArg List.length cut
  rw [Cursor.rest, List.length_drop, List.length_append] at left
  subst moved
  simp only [Cursor.advance]
  omega

/-- A round takes its connective and, with its operand, three tokens more. -/
theorem Runs.round_disciplined {s : Phrase} {n : ℕ}
    (h : Runs limit stop (.phrase s) (c.advance 1) trace (.ok (m, c'))) :
    (Milestone.round c c').Disciplined limit n := by
  have := h.position_bounds.1
  simp only [Cursor.advance] at this
  simp only [Milestone.Disciplined]
  omega

theorem Runs.disciplined (h : Runs limit stop task c trace ending) : ∀ e ∈ trace, e.Disciplined limit c.nesting := by
  induction h with
  | comparison | misfit | full | done => exact List.forall_mem_singleton.2 (disciplined_visit rfl)
  | innerRefused _ room _ ih | unclosed _ room _ _ ih =>
    exact List.forall_mem_cons.2 ⟨disciplined_visit rfl, fun e he => (ih e he).inside room⟩
  | parens _ room inner _ ih =>
    refine List.forall_mem_cons.2 ⟨disciplined_visit rfl, List.forall_mem_append.2 ⟨?_, ?_⟩⟩
    · exact fun e he => (ih e he).inside room
    · exact List.forall_mem_singleton.2 (disciplined_visit (congrArg (· - 1) inner.nesting_eq))
  | firstRefused _ ih | rightRefused _ _ ih => exact List.forall_mem_cons.2 ⟨disciplined_visit rfl, ih⟩
  | chain first _ ihf ihl =>
    exact List.forall_mem_cons.2 ⟨disciplined_visit rfl, List.forall_mem_append.2 ⟨ihf, first.nesting_eq ▸ ihl⟩⟩
  | tooDeep _ operand _ ih =>
    refine List.forall_mem_cons.2 ⟨disciplined_visit rfl, List.forall_mem_append.2 ⟨ih, ?_⟩⟩
    exact List.forall_mem_singleton.2 operand.round_disciplined
  | round _ operand _ _ ihr ihl =>
    refine List.forall_mem_cons.2 ⟨disciplined_visit rfl, List.forall_mem_append.2 ⟨ihr, ?_⟩⟩
    exact List.forall_mem_cons.2 ⟨operand.round_disciplined, operand.nesting_eq ▸ ihl⟩

end Rule

/-! ## The end of the text -/

/-- The fault of tokens that run out before a comparison is complete. -/
def SyntaxFault.RunsOut : SyntaxFault → Bool
  | .missingRule | .missingComparison | .missingComparator _ | .missingLiteral _ _ => true
  | _ => false

/-- The same fault, found in a text that ends at `stop`: where the tokens run out, it is placed at the end. -/
def Fault.withEnd (stop : ℕ) : Fault → Fault :=
  Fault.placed fun position fault => if fault.RunsOut then stop else position

namespace Rule

variable {limit stop stop' : ℕ} {k : Connective} {c : Cursor} {trace : List Milestone} {ending : Ending}

theorem comparison_withEnd (stop stop' : ℕ) (ts : List Token) :
    comparison stop' ts = (comparison stop ts).mapError (Fault.withEnd stop') := by
  fun_cases comparison stop ts <;> simp only [comparison] <;> rfl

theorem joinWithin_withEnd (k : Connective) (position : ℕ) (l r : Measured) :
    (joinWithin limit k position l r).mapError (Fault.withEnd stop) = joinWithin limit k position l r := by
  unfold joinWithin
  dsimp only
  split <;> rfl

theorem closing_withEnd (position : ℕ) (inner : Measured) (ts : List Token) :
    (closing position inner ts).mapError (Fault.withEnd stop) = closing position inner ts := by
  fun_cases closing position inner ts <;> rfl

/-- Of two readers, one refuses as the other would in a text that ends at `stop`. -/
def Reader.WithEnd (stop : ℕ) (p q : Reader) : Prop := ∀ ts, q.run ts = (p.run ts).mapError (Fault.withEnd stop)

theorem Reader.WithEnd.chainFrom {p q : Reader} (h : p.WithEnd stop q) (left : Measured) (ts : List Token) :
    Rule.chainFrom limit k q left ts = (Rule.chainFrom limit k p left ts).mapError (Fault.withEnd stop) := by
  induction left, ts using chainRest.induct k with
  | case1 left position ts ih =>
    rw [chainFrom_connective, chainFrom_connective, h ts]
    cases hread : p ts with
    | error e =>
      unfold Reader.run
      rw [hread]
      rfl
    | ok right =>
      have run : p.run ts = .ok (right.value, right.rest) := run_eq_ok.2 ⟨right, hread, rfl, rfl⟩
      have joins : (joinWithin limit k position left right.value).mapError (Fault.withEnd stop) = _ :=
        joinWithin_withEnd k position left right.value
      rw [run]
      change (joinWithin limit k position left right.value >>= _) =
        Except.mapError _ (joinWithin limit k position left right.value >>= _)
      rw [mapError_bind, joins]
      congr 1
      funext joined
      exact ih right joined
  | case2 left c position ts hc =>
    have other : ∀ p ts', (⟨.connective c, position⟩ :: ts : List Token) ≠ ⟨.connective k, p⟩ :: ts' := by
      rintro _ _ ⟨⟩
      exact hc rfl
    rw [chainFrom_of_ne other, chainFrom_of_ne other]
    rfl
  | case3 left ts hts =>
    rw [chainFrom_of_ne fun _ _ e => hts _ _ _ e, chainFrom_of_ne fun _ _ e => hts _ _ _ e]
    rfl

theorem Reader.WithEnd.chain {p q : Reader} (h : p.WithEnd stop q) :
    (Rule.chain limit k p).WithEnd stop (Rule.chain limit k q) := by
  intro ts
  rw [run_chain, run_chain, mapError_bind, h ts]
  congr 1
  funext read
  exact h.chainFrom _ _

theorem term_withEnd (limit stop stop' room : ℕ) : (term limit stop room).WithEnd stop' (term limit stop' room) := by
  -- on the room, since a rule in parentheses is read with less of it
  induction room using Nat.strongRecOn with
  | ind room ih =>
    intro ts
    match ts with
    | [] => cases room <;> rfl
    | ⟨kind, position⟩ :: ts =>
      cases kind with
      | name n => rw [run_term_name, run_term_name, comparison_withEnd stop stop', mapError_map]
      | openParen =>
        cases room with
        | zero => rfl
        | succ room =>
          have inner : (disjunction limit (term limit stop room)).WithEnd stop'
              (disjunction limit (term limit stop' room)) :=
            .chain (.chain (ih room (Nat.lt_succ_self room)))
          rw [run_term_openParen, run_term_openParen, mapError_bind, inner ts]
          congr 1
          funext read
          exact (closing_withEnd position read.1 read.2).symm
      | _ => cases room <;> rfl

theorem reader_withEnd (limit stop stop' room : ℕ) :
    ∀ s : Phrase, (s.reader limit stop room).WithEnd stop' (s.reader limit stop' room)
  | .term => term_withEnd limit stop stop' room
  | .chain .and => .chain (term_withEnd limit stop stop' room)
  | .chain .or => .chain (.chain (term_withEnd limit stop stop' room))

/-! ## From every state -/

/-- What comes of a phrase begun in the state `c`: what has been read, and how many tokens it took. -/
def Ending.taken (c : Cursor) (ending : Ending) : Except Fault (Measured × ℕ) :=
  ending.map fun read => (read.1, read.2.position - c.position)

theorem taken_ending (c : Cursor) (s : Phrase) :
    Ending.taken c ((Task.phrase s).ending limit stop c) =
      ((s.reader limit stop (limit - c.nesting)).run c.rest).map fun read =>
        (read.1, c.rest.length - read.2.length) := by
  rw [Ending.taken, Task.ending]
  cases (s.reader limit stop (limit - c.nesting)).run c.rest with
  | error e => rfl
  | ok read => simp only [Except.map, Cursor.before, Cursor.advance, Nat.add_sub_cancel_left]

/-- The outcome of a phrase is one of the limit, the open parentheses and the tokens from the state on; of the end of
the text it has the place of a refusal where they run out. -/
theorem Runs.taken_eq {d : Cursor} {s : Phrase} {moves : List Milestone} {ending' : Ending}
    (h : Runs limit stop (.phrase s) c trace ending) (h' : Runs limit stop' (.phrase s) d moves ending')
    (nesting : d.nesting = c.nesting) (rest : d.rest = c.rest) :
    ending'.taken d = (ending.taken c).mapError (Fault.withEnd stop') := by
  rw [← h.ending_eq, ← h'.ending_eq, taken_ending, taken_ending, nesting, rest, mapError_map,
    reader_withEnd limit stop stop' _ s]

/-- Every reader has a run from every state. It ends as the reader does on the tokens from the state on. What it has
read comes with its depth, took three tokens at least, and left as many parentheses open as there were. On the way there
are never fewer open than at its start, nor more than the limit unless there were more then, and no loop goes round
without four tokens. From another state with as many open parentheses and the same tokens to come it does the same, but
that a refusal where the tokens run out is placed at the end of the text. -/
theorem phrase_discipline (limit stop : ℕ) (s : Phrase) (c : Cursor) :
    (∃ trace ending, Runs limit stop (.phrase s) c trace ending) ∧
    ∀ trace ending, Runs limit stop (.phrase s) c trace ending →
      (ending = ((s.reader limit stop (limit - c.nesting)).run c.rest).map fun read => (read.1, c.before read.2)) ∧
      (∀ m c', ending = .ok (m, c') →
        m.depth = m.rule.depth ∧ c'.tokens = c.tokens ∧ c'.nesting = c.nesting ∧
          c.position + 3 ≤ c'.position ∧ c'.position ≤ c.tokens.length) ∧
      (∀ d, .visit d ∈ trace → c.nesting ≤ d.nesting ∧ d.nesting ≤ max limit c.nesting) ∧
      (∀ before after, .round before after ∈ trace → before.position + 4 ≤ after.position) ∧
      ∀ stop' d moves ending', Runs limit stop' (.phrase s) d moves ending' → d.nesting = c.nesting → d.rest = c.rest →
        ending'.taken d = (ending.taken c).mapError (Fault.withEnd stop') := by
  refine ⟨exists_runs limit stop (.phrase s) c, fun trace ending h => ⟨h.ending_eq.symm, ?_, ?_, ?_, ?_⟩⟩
  · rintro m c' rfl
    obtain ⟨used, -, moved, reads⟩ := ending_phrase_eq_ok h.ending_eq
    have tokens : c'.tokens = c.tokens := by rw [moved]; rfl
    exact ⟨reads.depth, tokens, h.nesting_eq, h.position_bounds⟩
  · exact fun d hd => h.disciplined _ hd
  · exact fun before after hround => h.disciplined _ hround
  · exact fun stop' d moves ending' h' nesting rest => h.taken_eq h' nesting rest

/-- A rule in parentheses, begun inside one parenthesis with a limit of two. -/
theorem phrase_discipline_in_parens :
    ∃ (c c' : Cursor) (m : Measured) (trace : List Milestone), Runs 2 7 (.phrase .term) c trace (.ok (m, c')) ∧
      c.nesting = 1 ∧ c'.nesting = 1 ∧ m.depth = m.rule.depth ∧ c.position + 3 ≤ c'.position ∧
      ∀ d, .visit d ∈ trace → d.nesting ≤ 2 := by
  let test : Comparison := ⟨"a", .equal, .text "b"⟩
  let c : Cursor := ⟨[⟨.openParen, 0⟩, ⟨.name "a", 1⟩, ⟨.comparator .equal, 2⟩, ⟨.text "b", 3⟩, ⟨.closeParen, 6⟩], 0, 1⟩
  let d : Cursor := c.opened.advance 3
  have paren : c.rest = ⟨.openParen, 0⟩ :: c.opened.rest := rfl
  have tokens : c.opened.rest = [⟨.name "a", 1⟩, ⟨.comparator .equal, 2⟩, ⟨.text "b", 3⟩] ++ d.rest := rfl
  have close : d.rest = [⟨.closeParen, 6⟩] := rfl
  have noMore : ∀ k p ts, d.rest ≠ ⟨.connective k, p⟩ :: ts := by
    rintro _ _ _ ⟨⟩
  have inner : Runs 2 7 (.phrase .term) c.opened [.visit c.opened] (.ok (⟨.test test, 1⟩, d)) := .comparison tokens rfl
  have conjunction := Runs.chain (k := .and) inner (.done (noMore .and))
  have disjunction := Runs.chain (k := .or) conjunction (.done (noMore .or))
  have run := Runs.parens paren (by decide) disjunction close
  obtain ⟨-, runs⟩ := phrase_discipline 2 7 .term c
  obtain ⟨-, read, visits, -⟩ := runs _ _ run
  obtain ⟨depth, -, nesting, moved, -⟩ := read _ _ rfl
  exact ⟨c, _, _, _, run, rfl, nesting, depth, moved, fun d hd => (visits d hd).2⟩

/-- The end of the text is not among the tokens: two texts of one token are refused at two places. -/
theorem refusal_at_end_of_text :
    ∃ (c : Cursor) (refusal refusal' : Fault),
      Token.tokenize "a" = .ok c.tokens ∧ Token.tokenize "a " = .ok c.tokens ∧
      Runs 256 1 (.phrase .term) c [.visit c] (.error refusal) ∧
      Runs 256 2 (.phrase .term) c [.visit c] (.error refusal') ∧ refusal ≠ refusal' := by
  let c : Cursor := ⟨[⟨.name "a", 0⟩], 0, 0⟩
  have noParen : ∀ p ts, c.rest ≠ ⟨.openParen, p⟩ :: ts := by
    rintro _ _ ⟨⟩
  have one : Token.tokenize "a" = .ok c.tokens := by with_unfolding_all rfl
  have spaced : Token.tokenize "a " = .ok c.tokens := by with_unfolding_all rfl
  refine ⟨c, .badRule 1 (.missingComparator "a"), .badRule 2 (.missingComparator "a"), one, spaced, .misfit noParen rfl,
    .misfit noParen rfl, ?_⟩
  rintro ⟨⟩

end Rule

end Eligibility
