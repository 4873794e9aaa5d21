import WordLogic.Text.CasingTable

/-!
# Uppercase

`upper` maps a text to uppercase character by character, by the full mappings of Unicode: one
character may become two or three (`ß` gives `SS`), and neither the neighbours of a character nor a
language matter.
-/

namespace WordLogic.Text

/-- The uppercase of one character. -/
def upperChar (c : Char) : List Char :=
  if c.toNat < 0x80 then [c.toUpper]
  else match Casing.expansions.lookup c.toNat with
    | some images => images.map Char.ofNat
    | none => match Casing.runs.find? (·.covers c.toNat) with
      | some r => [Char.ofNat (r.image + (c.toNat - r.first))]
      | none => [c]

/-- The uppercase of a text, character by character. -/
def upper (cs : List Char) : List Char := cs.flatMap upperChar

/-- The uppercase of a string. -/
def uppercase (s : String) : String := String.ofList (upper s.toList)

/-- Uppercase goes through a text piece by piece. -/
theorem upper_append (xs ys : List Char) : upper (xs ++ ys) = upper xs ++ upper ys := by
  simp [upper]

end WordLogic.Text
