/-
# ApplyRule.Text.Blank -- white space, and text without it at its ends

Two classes of white space meet in a stylesheet.  Between tokens only five
characters are blank (`isBlank`); where text is trimmed or a name is matched,
every character with Unicode's White_Space property counts (`isSpace`).

Text is cut on `List Char`.  A trimmed text and what was trimmed off its end make
up the whole (`dropEnd_append_takeEnd`).
-/

namespace ApplyRule.Text

set_option autoImplicit false

/-! ## Classes of characters -/

/-- A character that starts a new line. -/
def isNewline (c : Char) : Bool :=
  c = '\n' || c = '\r' || c = '\x0c'

/-- White space between tokens: the space, the tab and the newlines. -/
def isBlank (c : Char) : Bool :=
  c = ' ' || c = '\t' || isNewline c

/-- Unicode's White_Space property. -/
def isSpace (c : Char) : Bool :=
  let n := c.toNat
  (9 ≤ n && n ≤ 13) || n = 0x20 || n = 0x85 || n = 0xA0 || n = 0x1680 ||
    (0x2000 ≤ n && n ≤ 0x200A) || n = 0x2028 || n = 0x2029 || n = 0x202F ||
    n = 0x205F || n = 0x3000

/-- White space that stays on its line, as indentation does. -/
def isHorizontal (c : Char) : Bool :=
  isSpace c && c != '\n' && c != '\r'

theorem isSpace_of_isBlank (c : Char) (blank : isBlank c = true) : isSpace c = true := by
  simp only [isBlank, isNewline, Bool.or_eq_true, decide_eq_true_eq] at blank
  rcases blank with (rfl | rfl) | (rfl | rfl) | rfl <;> decide

/-! ## Trimming -/

section Ends

variable {α : Type}

/-- The list without the members of class `p` at its end. -/
def dropEnd (p : α → Bool) : List α → List α
  | [] => []
  | a :: rest =>
      match dropEnd p rest with
      | [] => if p a then [] else [a]
      | kept => a :: kept

/-- The members of class `p` at the list's end. -/
def takeEnd (p : α → Bool) (list : List α) : List α :=
  list.drop (dropEnd p list).length

/-- What is kept and what is dropped make up the list. -/
theorem dropEnd_append_takeEnd (p : α → Bool) (list : List α) :
    dropEnd p list ++ takeEnd p list = list := by
  induction list with
  | nil => simp [dropEnd, takeEnd]
  | cons a rest ih =>
      simp only [takeEnd, dropEnd] at ih ⊢
      split
      · split <;> simp
      · simp [ih]

end Ends

/-- The text without white space at its end. -/
def trimEnd (text : List Char) : List Char :=
  dropEnd isSpace text

/-- The text without white space at both ends. -/
def trim (text : List Char) : List Char :=
  trimEnd (text.dropWhile isSpace)

end ApplyRule.Text
