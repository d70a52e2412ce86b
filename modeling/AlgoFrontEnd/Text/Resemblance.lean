/-! Which known names resemble a given one, by the share of characters in common blocks. -/
namespace AlgoFrontEnd.Text

/-- The number of leading characters that two texts share and `counts` admits. -/
def sharedStart (counts : Char → Bool) : List Char → List Char → Nat
  | a :: as, b :: bs => if a = b && counts a then sharedStart counts as bs + 1 else 0
  | _, _ => 0

/-- A stretch that occurs in two texts: its start in each, and its length. -/
structure Block where
  first : Nat
  second : Nat
  size : Nat
  deriving DecidableEq, Repr

/-- The longest stretch of counted characters that two texts share; of equally long ones the
earliest in the first text, then in the second. -/
def longestBlock (counts : Char → Bool) (as bs : List Char) : Block :=
  (List.range as.length).foldl (fun best i =>
    (List.range bs.length).foldl (fun best j =>
      let size := sharedStart counts (as.drop i) (bs.drop j)
      if best.size < size then ⟨i, j, size⟩ else best) best) ⟨0, 0, 0⟩

/-- Grows a block to both sides over equal characters, counted or not. -/
def Block.extend (b : Block) (as bs : List Char) : Block :=
  let back := sharedStart (fun _ => true) (as.take b.first).reverse (bs.take b.second).reverse
  let ahead :=
    sharedStart (fun _ => true) (as.drop (b.first + b.size)) (bs.drop (b.second + b.size))
  ⟨b.first - back, b.second - back, b.size + back + ahead⟩

/-- Characters in common blocks: the longest block, and then on each side of it again. -/
def commonCharacters (counts : Char → Bool) (as bs : List Char) : Nat :=
  match (longestBlock counts as bs).extend as bs with
  | ⟨i, j, size⟩ =>
    if _h : i < as.length ∧ 0 < size then
      commonCharacters counts (as.take i) (bs.take j) + size +
        commonCharacters counts (as.drop (i + size)) (bs.drop (j + size))
    else 0
termination_by as.length
decreasing_by
  · rw [List.length_take]; omega
  · rw [List.length_drop]; omega

/-- In a text of two hundred characters or more, one that makes up more than a hundredth of it
starts no block. -/
def startsBlock (bs : List Char) (c : Char) : Bool :=
  bs.length < 200 || bs.count c ≤ bs.length / 100 + 1

/-- Twice the common characters over the total length; two empty texts are alike. -/
structure Likeness where
  common : Nat
  total : Nat

def likeness (name candidate : List Char) : Likeness :=
  let total := name.length + candidate.length
  if total = 0 then ⟨1, 1⟩
  else ⟨2 * commonCharacters (startsBlock name) candidate name, total⟩

def Likeness.le (l m : Likeness) : Bool := l.common * m.total ≤ m.common * l.total

/-- Three fifths of the characters agree. -/
def Likeness.isClose (l : Likeness) : Bool := (Likeness.mk 3 5).le l

/-- The closest three of the candidates, the most alike first; of equally alike ones the greater
in character order comes first. -/
def closest (name : String) (candidates : List String) : List String :=
  let scored := candidates.map fun c => (likeness name.toList c.toList, c)
  let precedes (x y : Likeness × String) : Bool :=
    !x.1.le y.1 || (y.1.le x.1 && y.2 ≤ x.2)
  (((scored.filter (·.1.isClose)).mergeSort precedes).take 3).map (·.2)

end AlgoFrontEnd.Text
