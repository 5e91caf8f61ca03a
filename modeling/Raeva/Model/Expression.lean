import Raeva.Maven.Text

/-!
# Expressions

A text holds expressions `${key}`, whose key may hold expressions itself.  The
scanner finds the next one by counting braces; what it cannot close is text.
-/

namespace Raeva.Model

open List

def opening : Text := ['$', '{']

/-- The text up to the brace that closes the one before it, and what follows;
`depth` inner braces are still open. -/
def findMatchingBrace : ℕ → Text → Option (Text × Text)
  | _, [] => none
  | depth, c :: s =>
    if c = '{' then (findMatchingBrace (depth + 1) s).map fun found => (c :: found.1, found.2)
    else if c = '}' then
      if depth = 0 then some ([], s)
      else (findMatchingBrace (depth - 1) s).map fun found => (c :: found.1, found.2)
    else (findMatchingBrace depth s).map fun found => (c :: found.1, found.2)

def nextExpression (input : Text) : Option (Text × Text × Text) := do
  let start ← Text.find opening input
  let (key, rest) ← findMatchingBrace 0 (input.drop (start + opening.length))
  some (input.take start, key, rest)

/-- At most `fuel` expressions of a text, each with the text before it, and the
text after the last. -/
def expressionsWithin : ℕ → Text → List (Text × Text) × Text
  | 0, input => ([], input)
  | fuel + 1, input =>
    match nextExpression input with
    | none => ([], input)
    | some (before, key, rest) =>
      let later := expressionsWithin fuel rest
      ((before, key) :: later.1, later.2)

def expressions (input : Text) : List (Text × Text) × Text :=
  expressionsWithin input.length input

def expressionNames (input : Text) : List Text :=
  (expressions input).1.map Prod.snd

theorem findMatchingBrace_length {depth : ℕ} {s key rest : Text}
    (h : findMatchingBrace depth s = some (key, rest)) : rest.length < s.length := by
  induction s generalizing depth key with
  | nil => simp [findMatchingBrace] at h
  | cons c s ih =>
    have hgo : ∀ {d : ℕ}, (findMatchingBrace d s).map (fun found => (c :: found.1, found.2)) =
        some (key, rest) → rest.length < (c :: s).length := by
      intro d hd
      obtain ⟨⟨inside, after⟩, hfound, heq⟩ := Option.map_eq_some_iff.mp hd
      cases heq
      exact (ih hfound).trans (Nat.lt_succ_self _)
    rw [findMatchingBrace] at h
    split at h
    · exact hgo h
    split at h
    · split at h
      · cases h
        exact Nat.lt_succ_self _
      · exact hgo h
    · exact hgo h

theorem nextExpression_length {input before key rest : Text}
    (h : nextExpression input = some (before, key, rest)) : rest.length < input.length := by
  obtain ⟨start, _, h⟩ := Option.bind_eq_some_iff.mp h
  obtain ⟨⟨key', rest'⟩, hbrace, h⟩ := Option.bind_eq_some_iff.mp h
  cases h
  have hlt := findMatchingBrace_length hbrace
  rw [length_drop] at hlt
  omega

theorem expressionsWithin_of_le {fuel : ℕ} {input : Text} (h : input.length ≤ fuel) :
    expressionsWithin fuel input = expressions input := by
  suffices hall : ∀ (m n : ℕ) (input : Text), input.length ≤ m → input.length ≤ n →
      expressionsWithin m input = expressionsWithin n input by
    exact hall fuel input.length input h le_rfl
  intro m
  induction m with
  | zero =>
    intro n input hm _
    obtain rfl := length_eq_zero_iff.mp (Nat.le_zero.mp hm)
    cases n <;> rfl
  | succ m ih =>
    intro n input hm hn
    cases n with
    | zero =>
      obtain rfl := length_eq_zero_iff.mp (Nat.le_zero.mp hn)
      rfl
    | succ n =>
      rw [expressionsWithin, expressionsWithin]
      cases hnext : nextExpression input with
      | none => rfl
      | some found =>
        obtain ⟨before, key, rest⟩ := found
        have hrest := nextExpression_length hnext
        simp only [ih n rest (by omega) (by omega)]

theorem expressions_eq (input : Text) :
    expressions input = match nextExpression input with
      | none => ([], input)
      | some (before, key, rest) =>
        ((before, key) :: (expressions rest).1, (expressions rest).2) := by
  rw [← expressionsWithin_of_le (Nat.le_succ input.length), expressionsWithin]
  cases hnext : nextExpression input with
  | none => rfl
  | some found =>
    obtain ⟨before, key, rest⟩ := found
    simp only [expressionsWithin_of_le (nextExpression_length hnext).le]

/-- Nested braces belong to the key, and a brace that is never closed is text. -/
example : expressions "a$\x7bb$\x7bc\x7d\x7dd$\x7be" =
    ([("a".toList, "b$\x7bc\x7d".toList)], "d$\x7be".toList) := by decide

end Raeva.Model
