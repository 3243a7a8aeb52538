/-
The texts that are read as paths. Documented are the words of the branches with a point between each two, alone or
behind the word for the root and a point, and for the whole rule nothing or the word for the root. Main statement:
these are read as their paths, up to white space around them, and so are just two kinds more: the word for the root
with a point behind which nothing comes, and the word for the root with the first branch right behind it.
-/
import Eligibility.Proofs.Rule.Path
import Mathlib.Data.List.TakeWhile

namespace Eligibility

/-! ## White space around a text -/

namespace Text

variable {before cs after : List Char}

theorem trim_surrounded (hbefore : ∀ c ∈ before, isBlank c = true) (hcs : ∀ c ∈ cs, isBlank c = false)
    (hafter : ∀ c ∈ after, isBlank c = true) : trim (before ++ (cs ++ after)) = cs := by
  rw [trim, List.dropWhile_append_of_pos hbefore]
  cases cs with
  | nil =>
    rw [List.nil_append, List.dropWhile_eq_nil_iff.2 hafter]
    rfl
  | cons c cs =>
    have start : isBlank c = false := hcs c List.mem_cons_self
    rw [List.cons_append, List.dropWhile_cons_of_neg (by simp [start]), ← List.cons_append, List.reverse_append,
      List.dropWhile_append_of_pos fun c hc => hafter c (List.mem_reverse.1 hc),
      dropWhile_of_noBlank fun c hc => hcs c (List.mem_reverse.1 hc), List.reverse_reverse]

/-- A text is another one with white space around it. -/
def Surrounds (text cs : List Char) : Prop := ∃ before after, text = before ++ (cs ++ after) ∧
  (∀ c ∈ before, isBlank c = true) ∧ ∀ c ∈ after, isBlank c = true

theorem Surrounds.trim_eq {text : List Char} (h : Surrounds text cs) (hcs : ∀ c ∈ cs, isBlank c = false) :
    trim text = cs := by
  obtain ⟨before, after, rfl, hbefore, hafter⟩ := h
  exact trim_surrounded hbefore hcs hafter

theorem surrounds_trim (text : List Char) : Surrounds text (trim text) := by
  have kept : text.dropWhile isBlank = trim text ++ ((text.dropWhile isBlank).reverse.takeWhile isBlank).reverse := by
    rw [trim, ← List.reverse_append, List.takeWhile_append_dropWhile, List.reverse_reverse]
  have whole := kept ▸ (List.takeWhile_append_dropWhile (p := isBlank) (l := text)).symm
  exact ⟨_, _, whole, fun c hc => List.mem_takeWhile_imp hc, fun c hc => List.mem_takeWhile_imp (List.mem_reverse.1 hc)⟩

end Text

theorem Branch.ofWord?_eq_some {w : String} {b : Branch} : ofWord? w = some b ↔ w = b.word := by
  constructor
  · intro h
    unfold ofWord? at h
    split at h
    · cases h
      assumption
    · split at h
      · cases h
        assumption
      · cases h
  · rintro rfl
    exact b.ofWord?_word

namespace Path

variable {p : Path} {cs : List Char}

/-! ## Words with points between -/

/-- The words of a path with a point between each two. -/
def joined (p : Path) : List Char := ['.'].intercalate (p.map fun b => b.word.toList)

theorem joined_cons (b : Branch) (p : Path) : joined (b :: p) = b.word.toList ++ trail p := by
  induction p generalizing b with
  | nil => simp [joined, trail]
  | cons b' p ih =>
    have next : trail (b' :: p) = '.' :: (b'.word.toList ++ trail p) := rfl
    rw [next, ← ih b', joined, List.map_cons, List.map_cons, List.intercalate_cons_cons, List.append_assoc]
    rfl

theorem noBlank_joined (p : Path) : ∀ c ∈ p.joined, Text.isBlank c = false := by
  cases p with
  | nil => exact nofun
  | cons b p =>
    intro c hc
    rw [joined_cons] at hc
    rcases List.mem_append.1 hc with hc | hc
    · exact (b.noPoint_word c hc).1
    · exact noBlank_render p c (by rw [toList_render]; simp [hc])

theorem segments_ne_nil (cs : List Char) : segments cs ≠ [] := by
  cases cs with
  | nil => exact List.cons_ne_nil _ _
  | cons c cs =>
    rw [segments]
    split
    · exact List.cons_ne_nil _ _
    · split <;> exact List.cons_ne_nil _ _

/-- The segments of a text, put together with points again, are the text. -/
theorem intercalate_segments (cs : List Char) : ['.'].intercalate (segments cs) = cs := by
  induction cs with
  | nil => rfl
  | cons c cs ih =>
    obtain ⟨s, ss, hs⟩ := List.exists_cons_of_ne_nil (segments_ne_nil cs)
    rw [hs] at ih
    rw [segments, hs]
    split
    · rename_i point
      rw [point, List.intercalate_cons_cons, ih]
      rfl
    · cases ss with
      | nil => rw [List.intercalate_singleton] at ih ⊢; rw [ih]
      | cons s' ss =>
        rw [List.intercalate_cons_cons] at ih ⊢
        rw [List.cons_append, List.cons_append, ih]

theorem branch_eq_ok {segment : List Char} {b : Branch} : branch segment = .ok b ↔ segment = b.word.toList := by
  have word : Branch.ofWord? (String.ofList segment) = some b ↔ segment = b.word.toList := by
    rw [Branch.ofWord?_eq_some, ← String.toList_inj, String.toList_ofList]
  unfold branch
  rw [← word]
  cases Branch.ofWord? (String.ofList segment) <;> simp

/-- Segments are read as a path just if they are the words of it. -/
theorem mapM_branch_eq_ok {segments : List (List Char)} :
    segments.mapM branch = .ok p ↔ segments = p.map fun b => b.word.toList := by
  simp only [mapM_eq_ok_iff_forall₂, branch_eq_ok]
  rw [← List.forall₂_map_right_iff, List.forall₂_eq_eq_eq]

/-! ## The forms that are read -/

/-- The word for the whole rule. -/
def rootWord : List Char := ['r', 'o', 'o', 't']

/-- The documented text of a path: the words of its branches with a point between each two, alone or behind the
word for the root and a point; for the whole rule nothing, or the word for the root. -/
def Documented (cs : List Char) (p : Path) : Prop :=
  p = [] ∧ (cs = [] ∨ cs = rootWord) ∨ p ≠ [] ∧ (cs = p.joined ∨ cs = rootWord ++ '.' :: p.joined)

/-- A text that is read as a path though it is no documented one: with a point that nothing comes behind, or
without the point between the word for the root and the first branch. -/
def Lax (cs : List Char) (p : Path) : Prop :=
  p = [] ∧ cs = rootWord ++ ['.'] ∨ p ≠ [] ∧ cs = rootWord ++ p.joined

theorem withoutRoot_cases (cs : List Char) :
    cs = rootWord ++ '.' :: withoutRoot cs ∨ cs = rootWord ++ withoutRoot cs ∨ cs = withoutRoot cs := by
  unfold withoutRoot
  split
  · exact .inl rfl
  · exact .inr (.inl rfl)
  · exact .inr (.inr rfl)

theorem withoutRoot_joined (b : Branch) (p : Path) :
    withoutRoot (joined (b :: p)) = joined (b :: p) ∧ withoutRoot (rootWord ++ joined (b :: p)) = joined (b :: p) := by
  rw [joined_cons]
  cases b <;> exact ⟨rfl, rfl⟩

/-- What is left without the word for the root is the words of a path in the documented texts and in the lax ones. -/
theorem withoutRoot_eq_joined : withoutRoot cs = p.joined ↔ Documented cs p ∨ Lax cs p := by
  constructor
  · intro h
    -- of the three ways to have nothing in front, each path takes the two documented ones and a lax one
    have cases := withoutRoot_cases cs
    rw [h] at cases
    cases p with
    | nil =>
      rcases cases with rfl | rfl | rfl
      · exact .inr (.inl ⟨rfl, rfl⟩)
      · exact .inl (.inl ⟨rfl, .inr rfl⟩)
      · exact .inl (.inl ⟨rfl, .inl rfl⟩)
    | cons b p =>
      have step := List.cons_ne_nil b p
      rcases cases with rooted | glued | plain
      · exact .inl (.inr ⟨step, .inr rooted⟩)
      · exact .inr (.inr ⟨step, glued⟩)
      · exact .inl (.inr ⟨step, .inl plain⟩)
  · cases p with
    | nil => rintro ((⟨-, rfl | rfl⟩ | ⟨h, -⟩) | (⟨-, rfl⟩ | ⟨h, -⟩)) <;> first | rfl | exact absurd rfl h
    | cons b p =>
      obtain ⟨plain, glued⟩ := withoutRoot_joined b p
      rintro ((⟨⟨⟩, -⟩ | ⟨-, rfl | rfl⟩) | (⟨⟨⟩, -⟩ | ⟨-, rfl⟩))
      · exact plain
      · rfl
      · exact glued

theorem parse_eq_ok {text : String} : parse text = .ok p ↔ withoutRoot (Text.trim text.toList) = p.joined := by
  unfold parse
  generalize withoutRoot (Text.trim text.toList) = cs
  cases p with
  | nil =>
    split
    · exact ⟨fun _ => rfl, fun _ => rfl⟩
    · rename_i cs' nonempty
      rw [mapM_branch_eq_ok]
      exact ⟨fun h => absurd h (segments_ne_nil cs), fun h => absurd h nonempty⟩
  | cons b p =>
    split
    · refine ⟨nofun, fun h => ?_⟩
      rw [joined_cons] at h
      cases b <;> cases h
    · rw [mapM_branch_eq_ok]
      constructor
      · intro h
        rw [joined, ← h, intercalate_segments]
      · rintro rfl
        rw [joined_cons, segments_trail]

theorem parse_refused {text : String} {e : Fault} (h : parse text = .error e) :
    ∃ segment, e = .badValue (.badPathSegment segment) := by
  unfold parse at h
  split at h
  · cases h
  · obtain ⟨segment, -, he⟩ := exists_of_mapM_eq_error h
    unfold branch at he
    split at he <;> cases he
    exact ⟨_, rfl⟩

/-- No white space stands in a text that is read as a path, but for that around it. -/
theorem noBlank_of_form (h : Documented cs p ∨ Lax cs p) : ∀ c ∈ cs, Text.isBlank c = false := by
  have rootWord : rootWord.all (!Text.isBlank ·) = true := by decide
  have root : ∀ c ∈ Path.rootWord, Text.isBlank c = false := by simpa using rootWord
  have point : Text.isBlank '.' = false := by decide
  have joined := noBlank_joined p
  rcases h with (⟨-, rfl | rfl⟩ | ⟨-, rfl | rfl⟩) | (⟨-, rfl⟩ | ⟨-, rfl⟩)
  · exact nofun
  · exact root
  · exact joined
  · exact List.forall_mem_append.2 ⟨root, List.forall_mem_cons.2 ⟨point, joined⟩⟩
  · exact List.forall_mem_append.2 ⟨root, List.forall_mem_singleton.2 point⟩
  · exact List.forall_mem_append.2 ⟨root, joined⟩

/-- Up to white space around it, a text is read as a path just if it is a documented text of that path or one of the
two lax ones, and of any other text a value is refused. -/
theorem parse_accepts_forms (text : String) :
    (∀ p, parse text = .ok p ↔ ∃ cs, Text.Surrounds text.toList cs ∧ (Documented cs p ∨ Lax cs p)) ∧
    ((∃ p, parse text = .ok p) ∨ ∃ segment, parse text = .error (.badValue (.badPathSegment segment))) := by
  constructor
  · intro p
    rw [parse_eq_ok]
    constructor
    · intro h
      exact ⟨_, Text.surrounds_trim _, withoutRoot_eq_joined.1 h⟩
    · rintro ⟨cs, surrounds, form⟩
      rw [surrounds.trim_eq (noBlank_of_form form)]
      exact withoutRoot_eq_joined.2 form
  · cases h : parse text with
    | ok p => exact .inl ⟨p, rfl⟩
    | error e =>
      obtain ⟨segment, rfl⟩ := parse_refused h
      exact .inr ⟨segment, rfl⟩

/-- What stands behind the word for the root in a documented text is nothing, or a point and a branch. -/
theorem documented_root (rest : List Char) (h : Documented (rootWord ++ rest) p) :
    rest = [] ∨ p ≠ [] ∧ rest = '.' :: p.joined := by
  rcases h with ⟨rfl, h | h⟩ | ⟨hp, h | h⟩
  · cases h
  · exact .inl (List.append_right_eq_self.1 h)
  · cases p with
    | nil => exact absurd rfl hp
    | cons b p =>
      rw [joined_cons] at h
      cases b <;> simp [rootWord, Branch.word] at h
  · exact .inr ⟨hp, List.append_cancel_left h⟩

/-- The word for the root glued to a branch, and the word with a point behind it, are read though they are no
documented texts of any path. -/
theorem parse_accepts_undocumented :
    (parse "rootleft" = .ok [.left] ∧ ∀ cs p, Text.Surrounds "rootleft".toList cs → ¬ Documented cs p) ∧
    parse "root." = .ok [] ∧ ∀ cs p, Text.Surrounds "root.".toList cs → ¬ Documented cs p := by
  -- neither text has white space to take away, so that it would be documented itself
  have trimmed : ∀ {text cs : List Char} {p : Path}, Text.Surrounds text cs → Documented cs p →
      text.any Text.isBlank = false → Documented text p := by
    intro text cs p surrounds form noBlank
    have same := surrounds.trim_eq (noBlank_of_form (.inl form))
    rw [Text.trim_of_noBlank fun c hc => Bool.eq_false_iff.2 (List.any_eq_false.1 noBlank c hc)] at same
    exact same ▸ form
  refine ⟨⟨parse_eq_ok.2 (by decide), fun cs p surrounds form => ?_⟩, parse_eq_ok.2 (by decide),
    fun cs p surrounds form => ?_⟩
  · rcases documented_root "left".toList (trimmed surrounds form (by decide)) with h | ⟨-, h⟩
    · cases h
    · simp at h
  · rcases documented_root ['.'] (trimmed surrounds form (by decide)) with h | ⟨branches, h⟩
    · cases h
    · cases p with
      | nil => exact branches rfl
      | cons b p =>
        rw [joined_cons] at h
        cases b <;> simp [Branch.word] at h

end Path
end Eligibility
