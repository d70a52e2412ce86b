/-! Style sequences, by which a text sets colours on a terminal, and texts without them. -/
namespace AlgoFrontEnd.Text

/-- What stands between the opening of a style sequence and the letter that ends it. -/
def isStyleParameter (c : Char) : Bool := c.isDigit || c = ';' || c = '?'

/-- What follows the style sequence that the characters begin with: an escape, a bracket, any
number of parameters and one letter. -/
def afterStyle? : List Char → Option (List Char)
  | '\x1b' :: '[' :: rest =>
    match rest.dropWhile isStyleParameter with
    | c :: after => if c.isAlpha then some after else none
    | [] => none
  | _ => none

theorem length_of_afterStyle? {cs after : List Char} (h : afterStyle? cs = some after) :
    after.length < cs.length := by
  unfold afterStyle? at h
  split at h
  · rename_i rest
    have hs := (List.dropWhile_suffix isStyleParameter (l := rest)).length_le
    split at h
    · rename_i c _ hd
      rw [hd] at hs
      split at h <;> simp_all
      omega
    · cases h
  · cases h

/-- A text without its style sequences. One that only comes together when another is taken out
stays. -/
def withoutStyles : List Char → List Char
  | [] => []
  | c :: rest =>
    match _h : afterStyle? (c :: rest) with
    | some after => withoutStyles after
    | none => c :: withoutStyles rest
termination_by cs => cs.length
decreasing_by
  · exact length_of_afterStyle? _h
  · simp

def unstyled (text : String) : String := String.ofList (withoutStyles text.toList)

end AlgoFrontEnd.Text
