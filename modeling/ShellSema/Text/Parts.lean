/-!
# Parts of a text

Cutting a text at slashes or at double colons.
-/
namespace ShellSema.Text

/-- Put a character in front of the first part. -/
def consToFirst (c : Char) : List (List Char) → List (List Char)
  | [] => [[c]]
  | part :: parts => (c :: part) :: parts

/-- The parts between the slashes; there is one more than slashes. -/
def slashParts : List Char → List (List Char)
  | [] => [[]]
  | c :: rest => if c = '/' then [] :: slashParts rest else consToFirst c (slashParts rest)

/-- The parts between double colons, which are looked for from the front. -/
def colonParts : List Char → List (List Char)
  | [] => [[]]
  | ':' :: ':' :: rest => [] :: colonParts rest
  | c :: rest => consToFirst c (colonParts rest)

end ShellSema.Text
