import WaveBus.Fit
import WaveBus.Text.Line

/-! # The output of several searches

Searches side by side write their blocks in any order. Since every block begins
with the tag of its wave, and no other line looks like a tag, the output can be
cut into blocks again and put into an order that does not depend on chance.
-/

namespace WaveBus.Fit

def isTag (line : List Char) : Bool :=
  "// wave ".toList.isPrefixOf line

/-- Puts a line in front of the first piece. A piece that has its tag takes no more lines. -/
def consPiece (line : List Char) (pieces : List (List (List Char))) : List (List (List Char)) :=
  match pieces with
  | (first :: more) :: rest =>
      if isTag first then [line] :: (first :: more) :: rest else (line :: first :: more) :: rest
  | rest => [line] :: rest

/-- The lines of an output, cut before every tag. -/
def pieces (output : String) : List (List (List Char)) :=
  (Text.lines output.toList).foldr consPiece []

def pieceText (piece : List (List Char)) : String :=
  String.join (piece.map fun line => String.ofList line ++ "\n")

/-- The pieces in the order of their tags; those with the same tag stay in order. -/
def sortPieces (pieces : List (List (List Char))) : List (List (List Char)) :=
  pieces.mergeSort fun a b => String.ofList (a.headD []) ≤ String.ofList (b.headD [])

/-- An output of several searches, wave by wave; any other output as it stands. -/
def byWave (output : String) : String :=
  if isTag output.toList then
    String.join ((sortPieces (pieces output)).map pieceText)
  else
    output

end WaveBus.Fit
