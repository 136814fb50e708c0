import Mathlib.Computability.RegularExpressions

/-!
# Writing regular expressions

The shorthands of regular expressions as programs write them, on top of
Mathlib's: character classes, optional and bounded repetition.  `UsesOnly` bounds
the characters a match can consist of by those of the expression.
-/

namespace RegularExpression

variable {α : Type*}

/-- A character class. -/
def oneOf : List α → RegularExpression α
  | [] => 0
  | a :: rest => char a + oneOf rest

def opt (P : RegularExpression α) : RegularExpression α := 1 + P

/-- `{n}`. -/
def exactly : ℕ → RegularExpression α → RegularExpression α
  | 0, _ => 1
  | n + 1, P => P * exactly n P

/-- `{0,n}`. -/
def upTo : ℕ → RegularExpression α → RegularExpression α
  | 0, _ => 1
  | n + 1, P => opt (P * upTo n P)

/-- `{m,n}`, with `n` counted from `m` on. -/
def between (m n : ℕ) (P : RegularExpression α) : RegularExpression α := exactly m P * upTo n P

/-- `+`. -/
def plus1 (P : RegularExpression α) : RegularExpression α := P * star P

/-- Every character of the expression satisfies `p`. -/
def UsesOnly (p : α → Prop) : RegularExpression α → Prop
  | 0 => True
  | 1 => True
  | char a => p a
  | P + Q => UsesOnly p P ∧ UsesOnly p Q
  | P * Q => UsesOnly p P ∧ UsesOnly p Q
  | star P => UsesOnly p P

theorem usesOnly_oneOf {p : α → Prop} {chars : List α} (h : ∀ a ∈ chars, p a) :
    UsesOnly p (oneOf chars) := by
  induction chars with
  | nil => trivial
  | cons a rest ih =>
      exact ⟨h a List.mem_cons_self, ih fun b hb => h b (List.mem_cons_of_mem a hb)⟩

theorem exists_of_mem_oneOf {chars word : List α} (h : word ∈ (oneOf chars).matches') :
    ∃ a ∈ chars, word = [a] := by
  induction chars with
  | nil => exact h.elim
  | cons b rest ih =>
      rcases h with hb | hrest
      · exact ⟨b, List.mem_cons_self, hb⟩
      · obtain ⟨a, ha, hword⟩ := ih hrest
        exact ⟨a, List.mem_cons_of_mem b ha, hword⟩

/-- A match consists of characters of the expression. -/
theorem UsesOnly.of_mem_matches' {p : α → Prop} {P : RegularExpression α} (h : UsesOnly p P)
    {word : List α} (hmem : word ∈ P.matches') {a : α} (ha : a ∈ word) : p a := by
  induction P generalizing word with
  | zero => exact hmem.elim
  | epsilon =>
      obtain rfl : word = [] := hmem
      cases ha
  | char b =>
      obtain rfl : word = [b] := hmem
      obtain rfl := List.mem_singleton.mp ha
      exact h
  | plus P Q ihP ihQ =>
      rcases hmem with hP | hQ
      · exact ihP h.1 hP ha
      · exact ihQ h.2 hQ ha
  | comp P Q ihP ihQ =>
      obtain ⟨front, hP, back, hQ, rfl⟩ := Language.mem_mul.mp hmem
      rcases List.mem_append.mp ha with hfront | hback
      · exact ihP h.1 hP hfront
      · exact ihQ h.2 hQ hback
  | star P ih =>
      obtain ⟨parts, rfl, hparts⟩ := Language.mem_kstar.mp hmem
      obtain ⟨part, hpart, hin⟩ := List.mem_flatten.mp ha
      exact ih h (hparts part hpart) hin

/-- A match of a concatenation around a character contains the character. -/
theorem mem_of_mem_matches'_mid {P Q : RegularExpression α} {b : α} {word : List α}
    (hmem : word ∈ (P * (char b * Q)).matches') : b ∈ word := by
  obtain ⟨front, -, rest, hrest, rfl⟩ := Language.mem_mul.mp hmem
  obtain ⟨middle, hmiddle, back, -, rfl⟩ := Language.mem_mul.mp hrest
  obtain rfl : middle = [b] := hmiddle
  simp

end RegularExpression
