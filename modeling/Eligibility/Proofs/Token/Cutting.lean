/-
Rule text cut into lexemes. A text is read as tokens just if it can be cut into lexemes with white space between
them, in the one way in which it can be; the tokens stand where the lexemes do, and the runs among them are as
long as they can be. Any other text is refused at the place at which no lexeme can be cut off. Text that keeps apart
from one that is read leaves its cut as it is, so that its tokens are found in the longer text too.
-/
import Eligibility.Proofs.Token.Grammar

namespace Eligibility.Token

/-! ## Cuts -/

/-- White space, or nothing. -/
def Blank (cs : List Char) : Prop := ∀ c ∈ cs, Text.isBlank c = true

/-- A lexeme with its token and the white space before it. -/
structure Segment where
  gap : List Char
  text : List Char
  kind : Kind

/-- The text of a segment. -/
def Segment.chars (s : Segment) : List Char := s.gap ++ s.text

/-- `Cuts cs segments rest`: the segments are cut off the text `cs`, one after the other, and leave `rest`. -/
inductive Cuts : List Char → List Segment → List Char → Prop
  | nil (cs : List Char) : Cuts cs [] cs
  | cons {gap text rest final : List Char} {k : Kind} {segments : List Segment} (blank : Blank gap)
      (lexeme : Lexeme text k) (ends : k.EndsBefore rest) (more : Cuts rest segments final) :
      Cuts (gap ++ (text ++ rest)) (⟨gap, text, k⟩ :: segments) final

/-- The tokens of segments that start at a byte of the text. -/
def tokensFrom (position : ℕ) : List Segment → List Token
  | [] => []
  | s :: segments =>
    ⟨s.kind, position + Text.byteLength s.gap⟩ :: tokensFrom (position + Text.byteLength s.chars) segments

/-- The text starts with a character that is no white space. -/
def Solid (cs : List Char) : Prop := ∃ c ∈ cs.head?, Text.isBlank c = false

/-- The text goes on, with no white space, but no lexeme of the grammar can be cut off. -/
structure Stuck (cs : List Char) : Prop where
  solid : Solid cs
  misfit : ∀ text k rest, cs = text ++ rest → Lexeme text k → ¬k.EndsBefore rest

/-- Nothing of a text is lost. -/
theorem Cuts.text_eq {cs final : List Char} {segments : List Segment} (h : Cuts cs segments final) :
    cs = segments.flatMap Segment.chars ++ final := by
  induction h with
  | nil cs => rfl
  | cons _ _ _ _ ih => simp [Segment.chars, ← ih]

/-! ## White space -/

theorem Solid.not_blank {gap cs : List Char} (hs : Solid cs) : ¬Blank (gap ++ cs) := by
  obtain ⟨c, hc, solid⟩ := hs
  intro h
  have blank := h c (List.mem_append_right _ (List.mem_of_head? hc))
  rw [solid] at blank
  cases blank

/-- White space ends where a text starts that does not begin with it. -/
theorem Blank.append_inj {gap gap' cs cs' : List Char} (hg : Blank gap) (hg' : Blank gap') (hs : Solid cs)
    (hs' : Solid cs') (h : gap ++ cs = gap' ++ cs') : gap = gap' ∧ cs = cs' := by
  have stop : ∀ {cs : List Char}, Solid cs → ∀ c ∈ cs.head?, Text.isBlank c = false := by
    rintro cs ⟨c, hc, solid⟩ d hd
    rwa [Option.mem_unique hd hc]
  obtain ⟨take, drop⟩ := takeWhile_append_of_head hg (stop hs)
  obtain ⟨take', drop'⟩ := takeWhile_append_of_head hg' (stop hs')
  rw [← h] at take' drop'
  exact ⟨take.symm.trans take', drop.symm.trans drop'⟩

theorem Begins.solid {cs text rest : List Char} {reading : Except SyntaxFault Kind}
    (h : Begins cs (.lexeme text reading) rest) : Solid cs := by
  obtain ⟨c, t, rfl, hp⟩ := h
  refine ⟨c, rfl, ?_⟩
  rw [← Bool.not_eq_true]
  intro blank
  rw [firstPiece, if_pos blank] at hp
  cases hp

theorem Solid.begins {cs : List Char} (h : Solid cs) : ∃ text reading rest, Begins cs (.lexeme text reading) rest := by
  obtain ⟨c, hc, solid⟩ := h
  obtain ⟨t, rfl⟩ := List.head?_eq_some_iff.1 hc
  rcases hp : firstPiece c t with ⟨d | ⟨text, reading⟩, rest⟩
  · revert hp
    fun_cases firstPiece c t <;> intro hp
    case case1 blank =>
      rw [solid] at blank
      cases blank
    all_goals cases hp
  · exact ⟨text, reading, rest, c, t, rfl, hp⟩

theorem Begins.length {cs rest : List Char} {p : Piece} (h : Begins cs p rest) : rest.length < cs.length := by
  obtain ⟨c, t, rfl, hp⟩ := h
  have shorter := firstPiece_length c t
  rwa [hp] at shorter

/-! ## The one cut -/

/-- A text starts with one lexeme at most that ends where it is cut off. -/
theorem Lexeme.unique {text text' rest rest' : List Char} {k k' : Kind} (ht : Lexeme text k)
    (he : k.EndsBefore rest) (ht' : Lexeme text' k') (he' : k'.EndsBefore rest') (h : text ++ rest = text' ++ rest') :
    text = text' ∧ k = k' ∧ rest = rest' := by
  obtain ⟨c, t, hcs, hp⟩ := ht.begins he
  obtain ⟨c', t', hcs', hp'⟩ := ht'.begins he'
  rw [h, hcs'] at hcs
  cases hcs
  rw [hp] at hp'
  cases hp'
  exact ⟨rfl, rfl, rfl⟩

theorem Cuts.unique {cs tail tail' : List Char} {segments segments' : List Segment} (h : Cuts cs segments tail)
    (ht : Blank tail) (h' : Cuts cs segments' tail') (ht' : Blank tail') : segments = segments' ∧ tail = tail' := by
  induction h generalizing segments' with
  | nil cs =>
    cases h' with
    | nil => exact ⟨rfl, rfl⟩
    | cons blank lexeme ends more => exact absurd ht (lexeme.begins ends).solid.not_blank
  | @cons gap text rest final k segments blank lexeme ends more ih =>
    generalize hcs : gap ++ (text ++ rest) = cs at h'
    cases h' with
    | nil => exact absurd (hcs ▸ ht') (lexeme.begins ends).solid.not_blank
    | cons blank' lexeme' ends' more' =>
      obtain ⟨rfl, htext⟩ := blank.append_inj blank' (lexeme.begins ends).solid (lexeme'.begins ends').solid hcs
      obtain ⟨rfl, rfl, rfl⟩ := lexeme.unique ends lexeme' ends' htext
      obtain ⟨rfl, rfl⟩ := ih ht more'
      exact ⟨rfl, rfl⟩

/-- Lexemes can be cut off a text until it is over or none is left that fits. -/
theorem exists_cuts (cs : List Char) :
    ∃ segments gap rest, Cuts cs segments (gap ++ rest) ∧ Blank gap ∧ (rest = [] ∨ Stuck rest) := by
  induction hlen : cs.length using Nat.strongRecOn generalizing cs with
  | ind len ih =>
    have split : cs.takeWhile Text.isBlank ++ cs.dropWhile Text.isBlank = cs := List.takeWhile_append_dropWhile
    have blank : Blank (cs.takeWhile Text.isBlank) := List.all_eq_true.1 List.all_takeWhile
    have solid : ∀ c ∈ (cs.dropWhile Text.isBlank).head?, Text.isBlank c = false := head?_dropWhile cs
    generalize cs.takeWhile Text.isBlank = gap at split blank
    generalize cs.dropWhile Text.isBlank = rest at split solid
    subst split
    rcases rest with _ | ⟨c, t⟩
    · exact ⟨[], gap, [], .nil _, blank, .inl rfl⟩
    · by_cases fits : ∃ text k rest, c :: t = text ++ rest ∧ Lexeme text k ∧ k.EndsBefore rest
      · obtain ⟨text, k, rest, heq, lexeme, ends⟩ := fits
        rw [heq] at hlen ⊢
        have shorter := (lexeme.begins ends).length
        have : rest.length < len := by simp only [List.length_append] at hlen shorter; omega
        obtain ⟨segments, gap', rest', more, blank', stop⟩ := ih rest.length this rest rfl
        exact ⟨_, gap', rest', .cons blank lexeme ends more, blank', stop⟩
      · refine ⟨[], gap, c :: t, .nil _, blank, .inr ⟨⟨c, rfl, solid c rfl⟩, fun text k rest heq lexeme ends => ?_⟩⟩
        exact fits ⟨text, k, rest, heq, lexeme, ends⟩

/-! ## Runs in a cut -/

theorem isComparatorChar_eq_false_of_isBlank {c : Char} (h : Text.isBlank c = true) : isComparatorChar c = false := by
  rw [← Bool.not_eq_true]
  intro hc
  have : c = '<' ∨ c = '>' ∨ c = '=' ∨ c = '!' := by simpa [isComparatorChar, or_assoc] using hc
  rcases this with rfl | rfl | rfl | rfl <;> exact absurd h (by decide)

theorem Kind.startsAfter_blank {gap : List Char} (h : Blank gap) (k : Kind) : k.StartsAfter gap := by
  intro p hp c hc
  have blank := h c (List.mem_of_getLast? hc)
  rcases Kind.eq_of_mem_run? hp with rfl | rfl
  · exact isComparatorChar_eq_false_of_isBlank blank
  · simp [isBoundary, blank]

theorem Kind.startsAfter_append {k : Kind} (before : List Char) {last : List Char} (h : last ≠ []) :
    k.StartsAfter (before ++ last) ↔ k.StartsAfter last := by
  rw [Kind.StartsAfter, Kind.StartsAfter, List.getLast?_append_of_ne_nil before h]

/-- Every run of a cut begins where its characters do, and so no cut ends a lexeme too early. -/
theorem Cuts.startsAfter {cs final : List Char} {before after : List Segment} {s : Segment}
    (h : Cuts cs (before ++ s :: after) final) : s.kind.StartsAfter (before.flatMap Segment.chars ++ s.gap) := by
  induction before generalizing cs with
  | nil =>
    cases h with
    | cons blank => exact Kind.startsAfter_blank blank _
  | cons b before ih =>
    cases h with
    | @cons gap text rest _ k _ blank lexeme ends more =>
      have later := ih more
      rw [List.flatMap_cons, Segment.chars, List.append_assoc, List.append_assoc]
      by_cases next : before.flatMap Segment.chars ++ s.gap = []
      · -- nothing is between the lexemes
        rw [next, List.append_nil, Kind.startsAfter_append gap lexeme.ne_nil]
        obtain ⟨noText, noGap⟩ := List.append_eq_nil_iff.1 next
        cases before with
        | nil =>
          cases more with
          | cons _ lexeme' =>
            obtain rfl := noGap
            rw [List.nil_append] at ends
            exact lexeme.startsAfter ends lexeme'
        | cons b' before =>
          cases more with
          | cons _ lexeme' => simp [Segment.chars, lexeme'.ne_nil] at noText
      · rwa [← List.append_assoc, Kind.startsAfter_append _ next]

theorem Cuts.lexeme_endsBefore {cs final : List Char} {before after : List Segment} {s : Segment}
    (h : Cuts cs (before ++ s :: after) final) :
    Lexeme s.text s.kind ∧ s.kind.EndsBefore (after.flatMap Segment.chars ++ final) := by
  induction before generalizing cs with
  | nil =>
    cases h with
    | cons _ lexeme ends more => exact ⟨lexeme, more.text_eq ▸ ends⟩
  | cons b before ih =>
    cases h with
    | cons _ _ _ more => exact ih more

/-- A run of a cut has only its own characters, and on neither side does the text go on with one more of them. -/
theorem Cuts.run_maximal {cs final : List Char} {before after : List Segment} {s : Segment}
    (h : Cuts cs (before ++ s :: after) final) :
    (∀ p ∈ s.kind.run?, ∀ c ∈ s.text, p c = true) ∧
      s.kind.StartsAfter (before.flatMap Segment.chars ++ s.gap) ∧
      s.kind.EndsBefore (after.flatMap Segment.chars ++ final) := by
  obtain ⟨lexeme, ends⟩ := h.lexeme_endsBefore
  exact ⟨lexeme.run, h.startsAfter, ends⟩

/-! ## Tokens of a cut -/

theorem ofPieces_blank {gap : List Char} (h : Blank gap) (position : ℕ) (cs : List Char) :
    ofPieces position (pieces (gap ++ cs)) = ofPieces (position + Text.byteLength gap) (pieces cs) := by
  induction gap generalizing position with
  | nil => rfl
  | cons c gap ih =>
    obtain ⟨hc, hgap⟩ := List.forall_mem_cons.1 h
    rw [List.cons_append, pieces_blank hc, ofPieces, ih hgap, Text.byteLength, Nat.add_assoc]

theorem ofPieces_tail {tail : List Char} (h : Blank tail) (position : ℕ) : ofPieces position (pieces tail) = .ok [] := by
  have := ofPieces_blank h position []
  rw [List.append_nil] at this
  rw [this, pieces, ofPieces]

theorem ofPieces_stuck {cs : List Char} (h : Stuck cs) (position : ℕ) :
    ∃ fault, ofPieces position (pieces cs) = .error (.badRule position fault) := by
  obtain ⟨text, reading, rest, begins⟩ := h.solid.begins
  rw [begins.pieces]
  cases reading with
  | error fault => exact ⟨fault, rfl⟩
  | ok k =>
    obtain ⟨hcs, lexeme, ends⟩ := lexeme_of_begins begins
    exact absurd ends (h.misfit text k rest hcs lexeme)

theorem Cuts.ofPieces {cs final : List Char} {segments : List Segment} (h : Cuts cs segments final) (position : ℕ) :
    ofPieces position (pieces cs) =
      (Token.ofPieces (position + Text.byteLength (segments.flatMap Segment.chars)) (pieces final)).map
        (tokensFrom position segments ++ ·) := by
  induction h generalizing position with
  | nil cs =>
    cases h : Token.ofPieces position (pieces cs) <;> simp [tokensFrom, h, Except.map]
  | @cons gap text rest final k segments blank lexeme ends more ih =>
    rw [ofPieces_blank blank, (lexeme.begins ends).pieces, Token.ofPieces, ih, List.flatMap_cons]
    have place : position + Text.byteLength gap + Text.byteLength text + Text.byteLength (segments.flatMap Segment.chars) =
        position + Text.byteLength (gap ++ text ++ segments.flatMap Segment.chars) := by
      simp only [Text.byteLength_append]
      omega
    rw [place, Segment.chars]
    cases Token.ofPieces (position + Text.byteLength (gap ++ text ++ segments.flatMap Segment.chars)) (pieces final) with
    | error e => rfl
    | ok ts => simp [Except.map, tokensFrom, Segment.chars, Nat.add_assoc]

theorem map_kind_tokensFrom (position : ℕ) (segments : List Segment) :
    (tokensFrom position segments).map Token.kind = segments.map Segment.kind := by
  induction segments generalizing position with
  | nil => rfl
  | cons s segments ih => rw [tokensFrom, List.map_cons, List.map_cons, ih]

/-! ## More text behind a cut -/

/-- What keeps apart from a lexeme ends it. -/
theorem Apart.endsBefore {t : List Char} (h : Apart t) (k : Kind) : k.EndsBefore t := by
  intro p hp c hc
  obtain ⟨boundary, noComparator⟩ := h c hc
  rcases Kind.eq_of_mem_run? hp with rfl | rfl
  · exact noComparator
  · simp [boundary]

theorem Cuts.eq_nil {final : List Char} {segments : List Segment} (h : Cuts [] segments final) :
    segments = [] ∧ final = [] := by
  generalize hcs : ([] : List Char) = cs at h
  cases h with
  | nil => exact ⟨rfl, rfl⟩
  | cons _ lexeme => simp [lexeme.ne_nil] at hcs

/-- More text leaves a cut as it is, if the last lexeme ends before that text or white space follows it in the cut. -/
theorem Cuts.append_of_last {cs final t : List Char} {segments : List Segment} (h : Cuts cs segments final)
    (ht : final = [] → ∀ s ∈ segments.getLast?, s.kind.EndsBefore t) : Cuts (cs ++ t) segments (final ++ t) := by
  induction h with
  | nil cs => exact .nil _
  | @cons gap text rest final k segments blank lexeme ends more ih =>
    rw [List.append_assoc, List.append_assoc]
    refine .cons blank lexeme ?_ (ih fun none s hs => ht none s ?_)
    · cases rest with
      | cons c rest => exact ends
      | nil =>
        -- the lexeme is the last of the cut
        obtain ⟨rfl, rfl⟩ := more.eq_nil
        exact ht rfl _ rfl
    · rw [List.getLast?_cons, Option.mem_def.1 hs]
      rfl

/-- Text that keeps apart from what has been cut leaves the cut as it is. -/
theorem Cuts.append {cs final t : List Char} {segments : List Segment} (h : Cuts cs segments final) (ht : Apart t) :
    Cuts (cs ++ t) segments (final ++ t) := h.append_of_last fun _ s _ => ht.endsBefore s.kind

/-! ## Texts -/

section Texts

variable {text : String} {segments : List Segment}

theorem Cuts.tokenize {tail : List Char} (h : Cuts text.toList segments tail) (ht : Blank tail) :
    tokenize text = .ok (tokensFrom 0 segments) := by
  rw [Token.tokenize, h.ofPieces, ofPieces_tail ht]
  simp [Except.map]

theorem Cuts.tokenize_of_stuck {gap rest : List Char} (h : Cuts text.toList segments (gap ++ rest)) (hg : Blank gap)
    (hr : Stuck rest) :
    ∃ fault, Token.tokenize text = .error (.badRule (Text.byteLength (segments.flatMap Segment.chars ++ gap)) fault) := by
  obtain ⟨fault, hf⟩ := ofPieces_stuck hr (Text.byteLength (segments.flatMap Segment.chars ++ gap))
  refine ⟨fault, ?_⟩
  rw [Token.tokenize, h.ofPieces, ofPieces_blank hg, Nat.zero_add, ← Text.byteLength_append, hf]
  rfl

/-- A text is read, or it is refused where its cut is stuck. -/
theorem tokenize_cases (text : String) :
    (∃ segments tail, Cuts text.toList segments tail ∧ Blank tail ∧ tokenize text = .ok (tokensFrom 0 segments)) ∨
    ∃ segments gap rest fault, Cuts text.toList segments (gap ++ rest) ∧ Blank gap ∧ Stuck rest ∧
      tokenize text = .error (.badRule (Text.byteLength (segments.flatMap Segment.chars ++ gap)) fault) := by
  obtain ⟨segments, gap, rest, h, hg, rfl | hr⟩ := exists_cuts text.toList
  · rw [List.append_nil] at h
    exact .inl ⟨segments, gap, h, hg, h.tokenize hg⟩
  · obtain ⟨fault, hf⟩ := h.tokenize_of_stuck hg hr
    exact .inr ⟨segments, gap, rest, fault, h, hg, hr, hf⟩

/-- The tokens of a text are those of its one cut. -/
theorem tokenize_eq_ok {ts : List Token} :
    Token.tokenize text = .ok ts ↔ ∃ segments tail, Cuts text.toList segments tail ∧ Blank tail ∧
      ts = tokensFrom 0 segments := by
  constructor
  · intro h
    rcases tokenize_cases text with ⟨segments, tail, cuts, blank, hts⟩ | ⟨_, _, _, _, -, -, -, hf⟩
    · exact ⟨segments, tail, cuts, blank, Except.ok.inj (h.symm.trans hts)⟩
    · cases h.symm.trans hf
  · rintro ⟨segments, tail, cuts, blank, rfl⟩
    exact cuts.tokenize blank

/-- A text that is refused is refused where its cut is stuck. -/
theorem stuck_of_tokenize {e : Fault} (h : Token.tokenize text = .error e) :
    ∃ segments gap rest fault, Cuts text.toList segments (gap ++ rest) ∧ Blank gap ∧ Stuck rest ∧
      e = .badRule (Text.byteLength (segments.flatMap Segment.chars ++ gap)) fault := by
  rcases tokenize_cases text with ⟨_, _, -, -, hts⟩ | ⟨segments, gap, rest, fault, cuts, blank, stuck, hf⟩
  · cases h.symm.trans hts
  · exact ⟨segments, gap, rest, fault, cuts, blank, stuck, Except.error.inj (h.symm.trans hf)⟩

/-- A text that is read as tokens spells their kinds in any longer text too. -/
theorem spells_of_tokenize {ts : List Token} (h : Token.tokenize text = .ok ts) :
    Spells text.toList (ts.map Token.kind) := by
  obtain ⟨segments, tail, cuts, blank, rfl⟩ := tokenize_eq_ok.1 h
  intro t ls ht hls position
  obtain ⟨more, hmore, rfl⟩ :=
    hls (position + Text.byteLength (segments.flatMap Segment.chars) + Text.byteLength tail)
  refine ⟨tokensFrom position segments ++ more, ?_, ?_⟩
  · rw [(cuts.append ht).ofPieces, ofPieces_blank blank, hmore]
    rfl
  · rw [List.map_append, map_kind_tokensFrom, map_kind_tokensFrom]

end Texts

/-- A text is read as tokens just if it can be cut into lexemes with white space between and around them. It can
be cut in one way at most, and the tokens are the lexemes in order, each at the byte at which it starts. Every run
among the lexemes is as long as it can be: it has only its own characters, and before and behind it stands none. Any
other text is refused for a fault of rule text, at the byte at which no lexeme can be cut off any more. -/
theorem tokenize_accepts_lexemes (text : String) :
    (∀ ts, tokenize text = .ok ts ↔ ∃ segments tail, Cuts text.toList segments tail ∧ Blank tail ∧
      ts = tokensFrom 0 segments) ∧
    (∀ segments tail segments' tail', Cuts text.toList segments tail → Blank tail →
      Cuts text.toList segments' tail' → Blank tail' → segments = segments' ∧ tail = tail') ∧
    (∀ before s after tail, Cuts text.toList (before ++ s :: after) tail →
      (∀ p ∈ s.kind.run?, ∀ c ∈ s.text, p c = true) ∧
      s.kind.StartsAfter (before.flatMap Segment.chars ++ s.gap) ∧
      s.kind.EndsBefore (after.flatMap Segment.chars ++ tail)) ∧
    (∀ position, (∃ fault, tokenize text = .error (.badRule position fault)) ↔
      ∃ segments gap rest, Cuts text.toList segments (gap ++ rest) ∧ Blank gap ∧ Stuck rest ∧
        position = Text.byteLength (segments.flatMap Segment.chars ++ gap)) ∧
    ∀ e, tokenize text = .error e → ∃ position fault, e = .badRule position fault := by
  refine ⟨fun ts => tokenize_eq_ok, ?_, fun before s after tail h => h.run_maximal, fun position => ⟨?_, ?_⟩,
    fun e h => ?_⟩
  · intro segments tail segments' tail' h ht h' ht'
    exact h.unique ht h' ht'
  · rintro ⟨fault, h⟩
    obtain ⟨segments, gap, rest, _, cuts, blank, stuck, refusal⟩ := stuck_of_tokenize h
    exact ⟨segments, gap, rest, cuts, blank, stuck, by cases refusal; rfl⟩
  · rintro ⟨segments, gap, rest, cuts, blank, stuck, rfl⟩
    exact cuts.tokenize_of_stuck blank stuck
  · obtain ⟨_, _, _, fault, -, -, -, rfl⟩ := stuck_of_tokenize h
    exact ⟨_, fault, rfl⟩

end Eligibility.Token
