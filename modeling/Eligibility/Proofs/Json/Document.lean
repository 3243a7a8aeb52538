/-
JSON documents through their text. A document is a row of lexemes, which its compact and its indented text
both spell, and a reader inside any containers takes the row of a document like the value as a whole. Main
statements: a document whose numbers and texts can be written is read back from either text.
-/
import Eligibility.Json.Reading
import Eligibility.Proofs.Json.Lexeme

namespace Eligibility.Json

/-! ## Documents as lexemes -/

mutual

/-- The lexemes of a document. -/
def toLexemes : Json → List Lexeme
  | .null => [.null]
  | .bool b => [.bool b]
  | .number n => [.number n]
  | .text t => [.text t]
  | .list [] => [.openList, .closeList]
  | .list (e :: es) => .openList :: (toLexemes e ++ elementLexemes es)
  | .object [] => [.openObject, .closeObject]
  | .object ((k, v) :: ms) => .openObject :: .text k :: .colon :: (toLexemes v ++ memberLexemes ms)

/-- The lexemes of the elements after the first, and the closing bracket. -/
def elementLexemes : List Json → List Lexeme
  | [] => [.closeList]
  | e :: es => .comma :: (toLexemes e ++ elementLexemes es)

/-- The lexemes of the members after the first, and the closing bracket. -/
def memberLexemes : List (Text × Json) → List Lexeme
  | [] => [.closeObject]
  | (k, v) :: ms => .comma :: .text k :: .colon :: (toLexemes v ++ memberLexemes ms)

end

/-- The number is one that text can express: an integer of 64 bits, signed or unsigned, or a finite double. -/
def Number.Expressible : Number → Prop
  | integer n => Int64.minValue.toInt ≤ n ∧ n < UInt64.size
  | real x => x.isFinite = true
  | beyond => False

/-- What the lexeme holds can be expressed by text. -/
def Lexeme.Expressible : Lexeme → Prop
  | .number n => n.Expressible
  | .text t => t.isSome = true
  | _ => True

/-- Every number and text of the document, keys included, can be expressed by text. -/
def Expressible (j : Json) : Prop := ∀ x ∈ j.toLexemes, x.Expressible

/-- A document of one lexeme can be expressed if the lexeme can. -/
theorem expressible_one {j : Json} {x : Lexeme} (hj : j.toLexemes = [x]) (h : x.Expressible) : j.Expressible := by
  unfold Expressible
  rw [hj]
  exact List.forall_mem_singleton.2 h

theorem expressible_null : Json.null.Expressible := expressible_one rfl trivial

theorem expressible_string (s : String) : (Json.string s).Expressible := expressible_one rfl rfl

theorem forall_memberLexemes {ms : List (Text × Json)} (h : ∀ m ∈ ms, m.1.isSome = true ∧ m.2.Expressible) :
    ∀ x ∈ memberLexemes ms, x.Expressible := by
  induction ms with
  | nil => exact List.forall_mem_singleton.2 trivial
  | cons m ms ih =>
    obtain ⟨k, v⟩ := m
    obtain ⟨⟨hk, hv⟩, hms⟩ := List.forall_mem_cons.1 h
    simp only [memberLexemes, List.forall_mem_cons, List.forall_mem_append]
    exact ⟨trivial, hk, trivial, hv, ih hms⟩

/-- An object can be expressed if its keys and its values can. -/
theorem expressible_object {ms : List (Text × Json)} (h : ∀ m ∈ ms, m.1.isSome = true ∧ m.2.Expressible) :
    (object ms).Expressible := by
  have members := forall_memberLexemes h
  cases ms with
  | nil => exact List.forall_mem_cons.2 ⟨trivial, members⟩
  | cons m ms =>
    -- past the bracket, the first member stands as any other does, without its comma
    exact List.forall_mem_cons.2 ⟨trivial, (List.forall_mem_cons.1 members).2⟩

/-! ## Both texts spell the lexemes -/

theorem spells_number {n : Number} (h : n.Expressible) : Spells (numberText n) [.number n] := by
  cases n with
  | integer n => exact spells_one fun t ht => scanLexeme_integer h.1 h.2 ht
  | real x => exact spells_one fun t ht => scanLexeme_real h ht
  | beyond => exact h.elim

theorem spells_text {t : Text} (h : t.isSome = true) : Spells (quoteText t) [.text t] := by
  obtain ⟨s, rfl⟩ := Option.isSome_iff_exists.1 h
  exact spells_quote s

/-- A key and a text of its value, with a colon between them, spell the member. -/
theorem Spells.member {k : Text} (hk : k.isSome = true) {cs : List Char} {xs : List Lexeme} (h : Spells cs xs) :
    Spells (quoteText k ++ ':' :: cs) (.text k :: .colon :: xs) :=
  (spells_text hk).append (h.sign fun _ => rfl) fun _ => apart_cons (by decide) _

/-- What comes after an element begins with a comma or a bracket, so that no number before it goes on. -/
theorem apart_compactElements (es : List Json) (t : List Char) : Apart (compactElements es ++ t) := by
  cases es <;> exact apart_cons (by decide) _

theorem apart_compactMembers (ms : List (Text × Json)) (t : List Char) : Apart (compactMembers ms ++ t) := by
  cases ms <;> exact apart_cons (by decide) _

theorem apart_prettyElements (level : ℕ) (es : List Json) (t : List Char) : Apart (prettyElements level es ++ t) := by
  cases es <;> exact apart_cons (by decide) _

theorem apart_prettyMembers (level : ℕ) (ms : List (Text × Json)) (t : List Char) :
    Apart (prettyMembers level ms ++ t) := by
  cases ms <;> exact apart_cons (by decide) _

mutual

/-- The compact text of a document spells the lexemes of the document. -/
theorem spells_compact : ∀ j : Json, (∀ x ∈ j.toLexemes, x.Expressible) → Spells j.compactChars j.toLexemes
  | .null, _ => spells_nullText
  | .bool b, _ => spells_keyword b
  | .number n, h => spells_number (h _ (List.mem_cons_self ..))
  | .text t, h => spells_text (h _ (List.mem_cons_self ..))
  | .list [], _ => (spells_one fun _ _ => rfl : Spells [']'] [.closeList]).sign fun _ => rfl
  | .list (e :: es), h => by
    simp only [toLexemes, List.forall_mem_cons, List.forall_mem_append] at h
    obtain ⟨-, he, hes⟩ := h
    have rest := (spells_compact e he).append (spells_compactElements es hes) (apart_compactElements es)
    exact rest.sign fun _ => rfl
  | .object [], _ => (spells_one fun _ _ => rfl : Spells ['\x7d'] [.closeObject]).sign fun _ => rfl
  | .object ((k, v) :: ms), h => by
    simp only [toLexemes, List.forall_mem_cons, List.forall_mem_append] at h
    obtain ⟨-, hk, -, hv, hms⟩ := h
    have rest := (spells_compact v hv).append (spells_compactMembers ms hms) (apart_compactMembers ms)
    exact (rest.member hk).sign fun _ => rfl

theorem spells_compactElements : ∀ es : List Json, (∀ x ∈ elementLexemes es, x.Expressible) →
    Spells (compactElements es) (elementLexemes es)
  | [], _ => spells_one fun _ _ => rfl
  | e :: es, h => by
    simp only [elementLexemes, List.forall_mem_cons, List.forall_mem_append] at h
    obtain ⟨-, he, hes⟩ := h
    have rest := (spells_compact e he).append (spells_compactElements es hes) (apart_compactElements es)
    exact rest.sign fun _ => rfl

theorem spells_compactMembers : ∀ ms : List (Text × Json), (∀ x ∈ memberLexemes ms, x.Expressible) →
    Spells (compactMembers ms) (memberLexemes ms)
  | [], _ => spells_one fun _ _ => rfl
  | (k, v) :: ms, h => by
    simp only [memberLexemes, List.forall_mem_cons, List.forall_mem_append] at h
    obtain ⟨-, hk, -, hv, hms⟩ := h
    have rest := (spells_compact v hv).append (spells_compactMembers ms hms) (apart_compactMembers ms)
    exact (rest.member hk).sign fun _ => rfl

end

mutual

/-- So does the indented text, however far it is indented. -/
theorem spells_pretty (level : ℕ) : ∀ j : Json, (∀ x ∈ j.toLexemes, x.Expressible) →
    Spells (j.prettyChars level) j.toLexemes
  | .null, _ => spells_nullText
  | .bool b, _ => spells_keyword b
  | .number n, h => spells_number (h _ (List.mem_cons_self ..))
  | .text t, h => spells_text (h _ (List.mem_cons_self ..))
  | .list [], _ => (spells_one fun _ _ => rfl : Spells [']'] [.closeList]).sign fun _ => rfl
  | .list (e :: es), h => by
    simp only [toLexemes, List.forall_mem_cons, List.forall_mem_append] at h
    obtain ⟨-, he, hes⟩ := h
    have rest := ((spells_pretty (level + 1) e he).newline (level + 1)).append (spells_prettyElements level es hes)
      (apart_prettyElements level es)
    exact rest.sign fun _ => rfl
  | .object [], _ => (spells_one fun _ _ => rfl : Spells ['\x7d'] [.closeObject]).sign fun _ => rfl
  | .object ((k, v) :: ms), h => by
    simp only [toLexemes, List.forall_mem_cons, List.forall_mem_append] at h
    obtain ⟨-, hk, -, hv, hms⟩ := h
    have rest := (spells_pretty (level + 1) v hv).append (spells_prettyMembers level ms hms)
      (apart_prettyMembers level ms)
    -- a line break stands before the key, and a space between the colon and the value
    rw [prettyChars, List.append_assoc]
    exact ((rest.space.member hk).newline (level + 1)).sign fun _ => rfl

theorem spells_prettyElements (level : ℕ) : ∀ es : List Json, (∀ x ∈ elementLexemes es, x.Expressible) →
    Spells (prettyElements level es) (elementLexemes es)
  | [], _ => (spells_one fun _ _ => rfl : Spells [']'] [.closeList]).newline level
  | e :: es, h => by
    simp only [elementLexemes, List.forall_mem_cons, List.forall_mem_append] at h
    obtain ⟨-, he, hes⟩ := h
    have rest := ((spells_pretty (level + 1) e he).newline (level + 1)).append (spells_prettyElements level es hes)
      (apart_prettyElements level es)
    exact rest.sign fun _ => rfl

theorem spells_prettyMembers (level : ℕ) : ∀ ms : List (Text × Json), (∀ x ∈ memberLexemes ms, x.Expressible) →
    Spells (prettyMembers level ms) (memberLexemes ms)
  | [], _ => (spells_one fun _ _ => rfl : Spells ['\x7d'] [.closeObject]).newline level
  | (k, v) :: ms, h => by
    simp only [memberLexemes, List.forall_mem_cons, List.forall_mem_append] at h
    obtain ⟨-, hk, -, hv, hms⟩ := h
    have rest := (spells_pretty (level + 1) v hv).append (spells_prettyMembers level ms hms)
      (apart_prettyMembers level ms)
    rw [prettyMembers, List.append_assoc]
    exact ((rest.space.member hk).newline (level + 1)).sign fun _ => rfl

end

/-! ## The reader takes a document as a whole -/

/-- How a reader goes on from where it stands. -/
def Standing.resume (toEnd : Bool) (xs : List Lexeme) : Standing → Reading
  | .inside containers expected => readLexemes toEnd containers expected xs
  | .behind v => .complete v (!(xs.isEmpty && toEnd))

variable {toEnd : Bool} {outer : List Partial} {s : Standing}

theorem readLexemes_cons (outer : List Partial) (expected : Expected) (x : Lexeme)
    (h : take outer expected x = some s) (xs : List Lexeme) :
    readLexemes toEnd outer expected (x :: xs) = s.resume toEnd xs := by
  rw [readLexemes, h]
  cases s <;> rfl

/-- A document may stand as the first element wherever it may stand as a value. -/
theorem readLexemes_firstElement (j : Json) (rest : List Lexeme) :
    readLexemes toEnd outer .firstElement (j.toLexemes ++ rest) =
      readLexemes toEnd outer .value (j.toLexemes ++ rest) := by
  rcases j with _ | _ | _ | _ | (_ | ⟨e, es⟩) | (_ | ⟨⟨k, v⟩, ms⟩) <;> rfl

mutual

/-- The lexemes of a document take a reader, inside any containers, to where it would stand with the document put in
its place as a value. -/
theorem readLexemes_value : ∀ (j : Json) {outer : List Partial} {s : Standing}, place j outer = some s →
    ∀ rest, readLexemes toEnd outer .value (j.toLexemes ++ rest) = s.resume toEnd rest
  | .null, _, _, h, rest => readLexemes_cons _ .value .null h rest
  | .bool b, _, _, h, rest => readLexemes_cons _ .value (.bool b) h rest
  | .number n, _, _, h, rest => readLexemes_cons _ .value (.number n) h rest
  | .text t, _, _, h, rest => readLexemes_cons _ .value (.text t) h rest
  | .list [], outer, s, h, rest => by
    show readLexemes toEnd (.list [] :: outer) .firstElement (.closeList :: rest) = _
    exact readLexemes_cons (.list [] :: outer) .firstElement .closeList h rest
  | .list (e :: es), outer, s, h, rest => by
    -- behind the bracket an element may come or the end, and an element comes
    show readLexemes toEnd (.list [] :: outer) .firstElement (e.toLexemes ++ elementLexemes es ++ rest) = _
    rw [List.append_assoc, readLexemes_firstElement, readLexemes_value e rfl]
    exact readLexemes_elements es [e] h rest
  | .object [], outer, s, h, rest => by
    show readLexemes toEnd (.object [] none :: outer) .firstKey (.closeObject :: rest) = _
    exact readLexemes_cons (.object [] none :: outer) .firstKey .closeObject h rest
  | .object ((k, v) :: ms), outer, s, h, rest => by
    show readLexemes toEnd (.object [] (some k) :: outer) .value (v.toLexemes ++ memberLexemes ms ++ rest) = _
    rw [List.append_assoc, readLexemes_value v rfl]
    exact readLexemes_members ms [(k, v)] h rest

/-- What is left of a list takes the reader that has some of its elements to where it would stand behind the whole
list. -/
theorem readLexemes_elements : ∀ (es done : List Json) {outer : List Partial} {s : Standing},
    place (.list (done.reverse ++ es)) outer = some s →
    ∀ rest, readLexemes toEnd (.list done :: outer) .separator (elementLexemes es ++ rest) = s.resume toEnd rest
  | [], done, outer, s, h, rest => by
    rw [List.append_nil] at h
    exact readLexemes_cons (.list done :: outer) .separator .closeList h rest
  | e :: es, done, outer, s, h, rest => by
    show readLexemes toEnd (.list done :: outer) .value (e.toLexemes ++ elementLexemes es ++ rest) = _
    rw [List.append_assoc, readLexemes_value e rfl]
    -- the reader keeps the elements that it has with the last one in front
    refine readLexemes_elements es (e :: done) ?_ rest
    rwa [List.reverse_cons, List.append_assoc]

theorem readLexemes_members : ∀ (ms done : List (Text × Json)) {outer : List Partial} {s : Standing},
    place (.object (done.reverse ++ ms)) outer = some s →
    ∀ rest, readLexemes toEnd (.object done none :: outer) .separator (memberLexemes ms ++ rest) =
      s.resume toEnd rest
  | [], done, outer, s, h, rest => by
    rw [List.append_nil] at h
    exact readLexemes_cons (.object done none :: outer) .separator .closeObject h rest
  | (k, v) :: ms, done, outer, s, h, rest => by
    show readLexemes toEnd (.object done (some k) :: outer) .value (v.toLexemes ++ memberLexemes ms ++ rest) = _
    rw [List.append_assoc, readLexemes_value v rfl]
    refine readLexemes_members ms ((k, v) :: done) ?_ rest
    rwa [List.reverse_cons, List.append_assoc]

end

/-! ## Documents read back -/

/-- A text that spells the lexemes of a document is read as the document, with nothing behind it. -/
theorem read_of_spells {cs : List Char} {j : Json} (h : Spells cs j.toLexemes) :
    read (String.ofList cs) = .complete j false := by
  unfold read
  rw [String.toList_ofList, h.lexemes]
  have value : readLexemes true [] .value (j.toLexemes ++ []) = (Standing.behind j).resume true [] :=
    readLexemes_value j rfl []
  rw [List.append_nil] at value
  exact value

theorem read_compact {j : Json} (h : j.Expressible) : read j.compact = .complete j false :=
  read_of_spells (spells_compact j h)

theorem read_pretty {j : Json} (h : j.Expressible) : read j.pretty = .complete j false :=
  read_of_spells (spells_pretty 0 j h)

/-- A document that text can express is read back from either of its texts. -/
theorem read_written {j : Json} (h : j.Expressible) {write : Json → String} (hw : write ∈ [compact, pretty]) :
    read (write j) = .complete j false := by
  simp only [List.mem_cons, List.not_mem_nil, or_false] at hw
  rcases hw with rfl | rfl
  · exact read_compact h
  · exact read_pretty h

end Eligibility.Json
