/-
Paths printed and read back. The text of a path is the word for the root and, after a point each, the words for its
branches; it holds no white space, and no word holds a point, so that it is cut up where it was put together.
-/
import Eligibility.Proofs.Outcome
import Eligibility.Rule.Path

namespace Eligibility

namespace Text

theorem dropWhile_of_noBlank {cs : List Char} (h : ∀ c ∈ cs, isBlank c = false) : cs.dropWhile isBlank = cs := by
  cases cs with
  | nil => rfl
  | cons c cs => rw [List.dropWhile_cons_of_neg (by simp [h c List.mem_cons_self])]

theorem trim_of_noBlank {cs : List Char} (h : ∀ c ∈ cs, isBlank c = false) : trim cs = cs := by
  rw [trim, dropWhile_of_noBlank h, dropWhile_of_noBlank fun c hc => h c (List.mem_reverse.1 hc), List.reverse_reverse]

end Text

theorem Branch.ofWord?_word (b : Branch) : ofWord? b.word = some b := by cases b <;> decide

theorem Branch.noPoint_word (b : Branch) : ∀ c ∈ b.word.toList, Text.isBlank c = false ∧ c ≠ '.' := by
  have plain : b.word.toList.all (fun c => !Text.isBlank c && c != '.') = true := by cases b <;> decide
  simpa using plain

namespace Path

/-! ## The text of a path -/

/-- The branches of a path, each after a point. -/
def trail (p : Path) : List Char := p.flatMap fun b => '.' :: b.word.toList

theorem toList_render (p : Path) : p.render.toList = 'r' :: 'o' :: 'o' :: 't' :: p.trail := by
  -- for any text in front, to which the words are added one by one
  have foldl : ∀ (p : Path) (text : String),
      (p.foldl (fun text b => text ++ "." ++ b.word) text).toList = text.toList ++ p.trail := by
    intro p
    induction p with
    | nil => simp [trail]
    | cons b p ih =>
      intro text
      rw [List.foldl_cons, ih]
      simp [trail]
  exact foldl p "root"

/-- The words of a path stand one after the other behind the word for the root, a point between each two. -/
theorem render_eq_intercalate (p : Path) : p.render = ".".intercalate ("root" :: p.map Branch.word) := by
  have foldl : ∀ (p : Path) (text : String),
      p.foldl (fun text b => text ++ "." ++ b.word) text = ".".intercalate (text :: p.map Branch.word) := by
    intro p
    induction p with
    | nil => exact fun _ => rfl
    | cons b p ih => exact fun text => ih (text ++ "." ++ b.word)
  exact foldl p "root"

/-- No white space stands in the text of a path. -/
theorem noBlank_render (p : Path) : ∀ c ∈ p.render.toList, Text.isBlank c = false := by
  have word : ['r', 'o', 'o', 't'].all (!Text.isBlank ·) = true := by decide
  have point : Text.isBlank '.' = false := by decide
  intro c hc
  rw [toList_render] at hc
  rcases List.mem_append (s := ['r', 'o', 'o', 't']).1 hc with hc | hc
  · simpa using List.all_eq_true.1 word c hc
  · obtain ⟨b, -, hb⟩ := List.mem_flatMap.1 hc
    rcases List.mem_cons.1 hb with rfl | hb
    · exact point
    · exact (b.noPoint_word c hb).1

/-! ## Its segments -/

theorem segments_append_point {word : List Char} (h : ∀ c ∈ word, c ≠ '.') (rest : List Char) :
    segments (word ++ '.' :: rest) = word :: segments rest := by
  induction word with
  | nil => simp [segments]
  | cons c word ih =>
    obtain ⟨hc, hword⟩ := List.forall_mem_cons.1 h
    rw [List.cons_append, segments, if_neg hc, ih hword]

theorem segments_word {word : List Char} (h : ∀ c ∈ word, c ≠ '.') : segments word = [word] := by
  induction word with
  | nil => rfl
  | cons c word ih =>
    obtain ⟨hc, hword⟩ := List.forall_mem_cons.1 h
    rw [segments, if_neg hc, ih hword]

/-- The words of a path are the segments of its text. -/
theorem segments_trail (b : Branch) (p : Path) :
    segments (b.word.toList ++ p.trail) = (b :: p).map fun b => b.word.toList := by
  have word : ∀ b : Branch, ∀ c ∈ b.word.toList, c ≠ '.' := fun b c hc => (b.noPoint_word c hc).2
  induction p generalizing b with
  | nil => simp [trail, segments_word (word b)]
  | cons b' p ih =>
    have next : trail (b' :: p) = '.' :: (b'.word.toList ++ trail p) := rfl
    rw [next, segments_append_point (word b), ih b']
    rfl

theorem branch_word (b : Branch) : branch b.word.toList = .ok b := by
  rw [branch, String.ofList_toList, b.ofWord?_word]

/-- The text of a path is read as the path. -/
theorem parse_render (p : Path) : parse p.render = .ok p := by
  rw [parse, Text.trim_of_noBlank p.noBlank_render, toList_render]
  cases p with
  | nil => rfl
  | cons b p =>
    have rooted : withoutRoot ('r' :: 'o' :: 'o' :: 't' :: trail (b :: p)) = b.word.toList ++ trail p := rfl
    rw [rooted]
    split
    · rename_i empty
      cases b <;> cases empty
    · rw [segments_trail, mapM_map_eq_ok fun b _ => branch_word b]
      simp

end Path
end Eligibility
