/-! # Columns

Text padded with blanks to a width. What is wider stays as it is.
-/

namespace WaveBus.Text

/-- Pads at the end. -/
def left (width : Nat) (text : String) : String :=
  text ++ "".pushn ' ' (width - text.length)

/-- Pads in front. -/
def right (width : Nat) (text : String) : String :=
  "".pushn ' ' (width - text.length) ++ text

end WaveBus.Text
