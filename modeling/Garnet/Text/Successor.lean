/-!
# The next text

The last letter or digit is counted up. One that is the last of its kind starts again and carries to
the next letter or digit on its left; when there is none, one more is put in front of it.
-/

namespace Garnet.Text

/-- The next character, or the same where there is none. -/
def nextChar (c : Char) : Char :=
  if (c.toNat + 1).isValidChar then Char.ofNat (c.toNat + 1) else c

/-- A letter or digit counted up, and whether it starts again. -/
def bump (c : Char) : Char × Bool :=
  if c == 'z' then ('a', true)
  else if c == 'Z' then ('A', true)
  else if c == '9' then ('0', true)
  else (nextChar c, false)

/-- What is put in front of the first letter or digit after it started again. -/
def leading (c : Char) : Char :=
  if c == '0' then '1' else if c == 'A' then 'A' else 'a'

/-- Counts up the text whose characters are given from the last to the first. -/
def succReversed : List Char → List Char
  | [] => []
  | c :: rest =>
    if !c.isAlphanum then c :: succReversed rest
    else
      let (next, carry) := bump c
      if !carry then next :: rest
      else if rest.any Char.isAlphanum then next :: succReversed rest
      else next :: leading next :: rest

def succ (cs : List Char) : List Char :=
  if cs.any Char.isAlphanum then (succReversed cs.reverse).reverse
  else match cs.getLast? with
    | some c => cs.dropLast ++ [nextChar c]
    | none => []

end Garnet.Text
