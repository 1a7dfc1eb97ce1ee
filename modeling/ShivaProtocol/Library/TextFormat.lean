import Mathlib.Data.List.Basic

/-!
# Texts of literals and numbers

A format is a list of parts, each a literal or a number that is written in decimal, padded with
zeros to a width.  `render` writes numbers by a format and `scan` reads them back.  A format is
separated if no number is followed by a digit or by another number; then what is written is read
back (`scan_render`).
-/

namespace TextFormat

/-- A part of a format: a literal, or a number written with at least the given number of digits. -/
inductive Part where
  | literal (text : List Char)
  | number (width : ℕ)

/-- The decimal digits of a number, at least `width` of them. -/
def digits (width n : ℕ) : List Char :=
  List.leftpad width '0' (Nat.toDigits 10 n)

theorem digits_zero (n : ℕ) :
  digits 0 n = Nat.toDigits 10 n
  := by simp [digits, List.leftpad]

/-- The text that a format gives some numbers. -/
def render : List Part → List ℕ → List Char
  | [], _ => []
  | .literal text :: parts, ns => text ++ render parts ns
  | .number width :: parts, n :: ns => digits width n ++ render parts ns
  | .number _ :: _, [] => []

/-- The numbers of a text, if the text has the given format. -/
def scan : List Part → List Char → Option (List ℕ)
  | [], [] => some []
  | [], _ :: _ => none
  | .literal text :: parts, cs => (text.isPrefixOf? cs).bind (scan parts)
  | .number _ :: parts, cs =>
      (scan parts (cs.dropWhile Char.isDigit)).map
        (Nat.ofDigitChars 10 (cs.takeWhile Char.isDigit) 0 :: ·)

/-- The number of numbers in a format. -/
def arity : List Part → ℕ
  | [] => 0
  | .literal _ :: parts => arity parts
  | .number _ :: parts => arity parts + 1

/-- Whether a text with the format begins with a character that is no digit, or is empty. -/
def endsNumber : List Part → Bool
  | [] => true
  | .literal (c :: _) :: _ => !c.isDigit
  | _ => false

/-- Whether every number of a format ends where the next part begins. -/
def separated : List Part → Bool
  | [] => true
  | .literal _ :: parts => separated parts
  | .number _ :: parts => endsNumber parts && separated parts

/-! ### Numbers -/

/-- The digits of a number are digits. -/
theorem isDigit_of_mem_digits {width n : ℕ} {c : Char} (h : c ∈ digits width n) :
  c.isDigit = true
  := by
  rw [digits, List.leftpad, List.mem_append] at h
  rcases h with hpad | hdigit
  · rw [List.eq_of_mem_replicate hpad]
    rfl
  · apply Nat.isDigit_of_mem_toDigits (by decide) (by decide) hdigit

/-- The padding does not change the number that the digits denote. -/
theorem ofDigitChars_digits (width n : ℕ) :
  Nat.ofDigitChars 10 (digits width n) 0 = n
  := by
  rw [digits, List.leftpad, Nat.ofDigitChars_append, Nat.ofDigitChars_replicate_zero, Nat.mul_zero,
    Nat.ofDigitChars_ten_toDigits]

/-- The text after a number begins with no digit. -/
theorem takeWhile_render {parts : List Part} (h : endsNumber parts = true) (ns : List ℕ) :
  (render parts ns).takeWhile Char.isDigit = []
    ∧ (render parts ns).dropWhile Char.isDigit = render parts ns
  := by
  match parts, h with
  | [], _ => exact ⟨rfl, rfl⟩
  | .literal (c :: text) :: parts, h =>
      have hc : c.isDigit = false := by simpa [endsNumber] using h
      simp [render, hc]

/-- A number is read up to its end. -/
theorem scan_number {parts : List Part} (h : endsNumber parts = true) (width n : ℕ) (ns : List ℕ) :
  scan (.number width :: parts) (digits width n ++ render parts ns)
    = (scan parts (render parts ns)).map (n :: ·)
  := by
  have hdigits : ∀ c ∈ digits width n, c.isDigit = true := fun c hc => isDigit_of_mem_digits hc
  obtain ⟨htake, hdrop⟩ := takeWhile_render h ns
  rw [scan, List.takeWhile_append_of_pos hdigits, List.dropWhile_append_of_pos hdigits, htake, hdrop,
    List.append_nil, ofDigitChars_digits]

/-! ### Literals -/

/-- A literal is read as what it is. -/
theorem isPrefixOf?_append (text cs : List Char) :
  text.isPrefixOf? (text ++ cs) = some cs
  := by
  induction text with
  | nil => cases cs <;> rfl
  | cons c text ih => simp [List.isPrefixOf?, ih]

/-- What is written by a separated format is read back. -/
theorem scan_render {parts : List Part} {ns : List ℕ} (h : separated parts = true)
    (harity : ns.length = arity parts) :
  scan parts (render parts ns) = some ns
  := by
  induction parts generalizing ns with
  | nil =>
      obtain rfl := List.length_eq_zero_iff.mp harity
      rfl
  | cons part parts ih =>
      cases part with
      | literal text =>
          rw [render, scan, isPrefixOf?_append, Option.bind_some]
          apply ih h harity
      | number width =>
          obtain ⟨hends, hrest⟩ := Bool.and_eq_true_iff.mp h
          cases ns with
          | nil => cases harity
          | cons n ns =>
              rw [render, scan_number hends, ih hrest (Nat.succ.inj harity)]
              rfl

end TextFormat
