/-
Outcomes, which are a value or a refusal: the steps of a computation taken apart when it succeeds, and
the computations that refuse only for a fault of rule text.
-/
import Eligibility.Fault
import Mathlib.Data.List.Forall2

namespace Eligibility

/-! ## Successes -/

/-- Two steps succeed just if the first does and the second does with what the first gave. -/
theorem bind_eq_ok {ε α β : Type} {x : Except ε α} {f : α → Except ε β} {b : β} :
    (x >>= f) = .ok b ↔ ∃ a, x = .ok a ∧ f a = .ok b := by
  cases x <;> simp [bind, Except.bind]

theorem map_eq_ok {ε α β : Type} {x : Except ε α} {f : α → β} {b : β} :
    x.map f = .ok b ↔ ∃ a, x = .ok a ∧ f a = b := by
  cases x <;> simp [Except.map]

theorem map_eq_error {ε α β : Type} {x : Except ε α} {f : α → β} {e : ε} : x.map f = .error e ↔ x = .error e := by
  cases x <;> simp [Except.map]

theorem bind_eq_error {ε α β : Type} {x : Except ε α} {f : α → Except ε β} {e : ε} :
    (x >>= f) = .error e ↔ x = .error e ∨ ∃ a, x = .ok a ∧ f a = .error e := by
  cases x <;> simp [bind, Except.bind]

theorem ok_bind {ε α β : Type} (a : α) (f : α → Except ε β) : ((.ok a : Except ε α) >>= f) = f a := rfl

theorem mapError_eq_ok {ε ε' α : Type} {x : Except ε α} {f : ε → ε'} {a : α} : x.mapError f = .ok a ↔ x = .ok a := by
  cases x with
  | error e => exact ⟨nofun, nofun⟩
  | ok b => exact ⟨fun h => by cases h; rfl, fun h => by cases h; rfl⟩

theorem mapError_bind {ε ε' α β : Type} (x : Except ε α) (f : α → Except ε β) (g : ε → ε') :
    (x >>= f).mapError g = x.mapError g >>= fun a => (f a).mapError g := by
  cases x <;> rfl

theorem mapError_map {ε ε' α β : Type} (x : Except ε α) (f : α → β) (g : ε → ε') :
    (x.map f).mapError g = (x.mapError g).map f := by
  cases x <;> rfl

theorem exists_eq_ok {ε α : Type} {x : Except ε α} (h : x.toBool = true) : ∃ a, x = .ok a := by
  cases x with
  | error e => cases h
  | ok a => exact ⟨a, rfl⟩

theorem toOption_eq_some {ε α : Type} {x : Except ε α} {a : α} : x.toOption = some a ↔ x = .ok a := by
  cases x <;> simp [Except.toOption]

theorem toOption_map_eq_some {ε α β : Type} {x : Except ε α} {f : α → β} {b : β} :
    x.toOption.map f = some b ↔ ∃ a, x = .ok a ∧ f a = b := by
  cases x <;> simp [Except.toOption]

/-- A list of computations succeeds just if each of them does, and gives what each of them gives. -/
theorem mapM_eq_ok_iff_forall₂ {ε α β : Type} {f : α → Except ε β} {xs : List α} {ys : List β} :
    xs.mapM f = .ok ys ↔ List.Forall₂ (fun x y => f x = .ok y) xs ys := by
  induction xs generalizing ys with
  | nil =>
    rw [List.forall₂_nil_left_iff]
    exact ⟨fun h => by cases h; rfl, fun h => by rw [h]; rfl⟩
  | cons x xs ih =>
    simp only [List.mapM_cons, bind_eq_ok, List.forall₂_cons_left_iff, ih]
    constructor
    · rintro ⟨y, hy, ys, hys, ⟨⟩⟩
      exact ⟨y, ys, hy, hys, rfl⟩
    · rintro ⟨y, ys, hy, hys, rfl⟩
      exact ⟨y, hy, ys, hys, rfl⟩

theorem map_eq_map_iff_forall₂ {α β γ : Type} {f : α → γ} {g : β → γ} {xs : List α} {ys : List β} :
    xs.map f = ys.map g ↔ List.Forall₂ (fun x y => f x = g y) xs ys := by
  rw [← List.forall₂_eq_eq_eq, List.forall₂_map_left_iff, List.forall₂_map_right_iff]

theorem mapM_eq_some_iff_forall₂ {α β : Type} {f : α → Option β} {xs : List α} {ys : List β} :
    xs.mapM f = some ys ↔ List.Forall₂ (fun x y => f x = some y) xs ys := by
  induction xs generalizing ys with
  | nil => simp [eq_comm]
  | cons x xs ih =>
    simp only [List.mapM_cons, Option.bind_eq_bind, Option.bind_eq_some_iff, Option.pure_def, Option.some.injEq,
      List.forall₂_cons_left_iff, ih]
    constructor
    · rintro ⟨y, hy, ys, hys, rfl⟩
      exact ⟨y, ys, hy, hys, rfl⟩
    · rintro ⟨y, ys, hy, hys, rfl⟩
      exact ⟨y, hy, ys, hys, rfl⟩

/-- A list of computations that is refused is refused by one of them. -/
theorem exists_of_mapM_eq_error {ε α β : Type} {f : α → Except ε β} {xs : List α} {e : ε}
    (h : xs.mapM f = .error e) : ∃ x ∈ xs, f x = .error e := by
  induction xs with
  | nil => cases h
  | cons x xs ih =>
    rw [List.mapM_cons] at h
    rcases bind_eq_error.1 h with hx | ⟨y, -, h⟩
    · exact ⟨x, List.mem_cons_self, hx⟩
    · rcases bind_eq_error.1 h with hxs | ⟨ys, -, ⟨⟩⟩
      obtain ⟨x', hx', he⟩ := ih hxs
      exact ⟨x', List.mem_cons_of_mem _ hx', he⟩

/-- What a list of computations gives, each of them gives. -/
theorem exists_of_mem_mapM {ε α β : Type} {f : α → Except ε β} {xs : List α} {ys : List β}
    (h : xs.mapM f = .ok ys) : ∀ y ∈ ys, ∃ x ∈ xs, f x = .ok y := by
  induction xs generalizing ys with
  | nil =>
    cases h
    rintro _ ⟨⟩
  | cons x xs ih =>
    rw [List.mapM_cons] at h
    obtain ⟨y, hy, h⟩ := bind_eq_ok.1 h
    obtain ⟨ys', hys, h⟩ := bind_eq_ok.1 h
    cases h
    intro z hz
    rcases List.mem_cons.1 hz with rfl | hz
    · exact ⟨x, List.mem_cons_self .., hy⟩
    · obtain ⟨x', hx', hfx⟩ := ih hys z hz
      exact ⟨x', List.mem_cons_of_mem _ hx', hfx⟩

/-- A list of computations that each give something gives all of it, in their order. -/
theorem mapM_map_eq_ok {ε α β γ : Type} {f : α → Except ε β} {g : γ → α} {h : γ → β} {zs : List γ}
    (hf : ∀ z ∈ zs, f (g z) = .ok (h z)) : (zs.map g).mapM f = .ok (zs.map h) := by
  induction zs with
  | nil => rfl
  | cons z zs ih =>
    rw [List.map_cons, List.mapM_cons, hf z List.mem_cons_self, ok_bind,
      ih fun z' hz => hf z' (List.mem_cons_of_mem _ hz)]
    rfl

/-- A list of computations is refused as the first of them that is. -/
theorem mapM_refused {ε α β : Type} {f : α → Except ε β} {before : List α} {x : α} {e : ε}
    (hbefore : ∀ y ∈ before, ∃ b, f y = .ok b) (hx : f x = .error e) (after : List α) :
    (before ++ x :: after).mapM f = .error e := by
  induction before with
  | nil =>
    rw [List.nil_append, List.mapM_cons, hx]
    rfl
  | cons y before ih =>
    obtain ⟨b, hy⟩ := hbefore y List.mem_cons_self
    rw [List.cons_append, List.mapM_cons, hy, ok_bind, ih fun z hz => hbefore z (List.mem_cons_of_mem _ hz)]
    rfl

/-! ## Refusals -/

/-- The same fault, placed elsewhere in its text if it has a place. -/
def Fault.placed (place : Nat → SyntaxFault → Nat) : Fault → Fault
  | .badRule position fault => .badRule (place position fault) fault
  | .badValue fault => .badValue fault
  | .evaluation fault => .evaluation fault
  | .ruleNotFound id => .ruleNotFound id
  | .badDocument => .badDocument
  | .badNode cause => .badNode cause

/-- An outcome that is refused, if it is, for a fault of rule text. -/
def SyntaxOnly {α : Type} (x : Except Fault α) : Prop :=
  ∀ e, x = .error e → ∃ position fault, e = .badRule position fault

section SyntaxOnly

variable {α β : Type}

theorem syntaxOnly_ok (a : α) : SyntaxOnly (.ok a : Except Fault α) := by rintro e ⟨⟩

theorem syntaxOnly_badRule (position : Nat) (fault : SyntaxFault) :
    SyntaxOnly (.error (.badRule position fault) : Except Fault α) := by rintro e ⟨⟩; exact ⟨_, _, rfl⟩

/-- Steps that each refuse only for faults of rule text do so together. -/
theorem SyntaxOnly.bind {x : Except Fault α} {f : α → Except Fault β} (hx : SyntaxOnly x)
    (hf : ∀ a, x = .ok a → SyntaxOnly (f a)) : SyntaxOnly (x >>= f) := by
  cases x with
  | error e => rintro _ ⟨⟩; exact hx e rfl
  | ok a => exact hf a rfl

theorem SyntaxOnly.map {x : Except Fault α} (f : α → β) (hx : SyntaxOnly x) : SyntaxOnly (x.map f) := by
  cases x with
  | error e => rintro _ ⟨⟩; exact hx e rfl
  | ok a => exact syntaxOnly_ok _

end SyntaxOnly

end Eligibility
