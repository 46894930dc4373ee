import AlgebraTutor.Text.Digit

/-!
# Addresses

An address is a path, and behind a question mark a query of named values. Characters that an address cannot hold
stand in it as percent signs with the two hexadecimal digits of each of their bytes.
-/

namespace AlgebraTutor.Service

open Text

/-- What an address leads to. -/
structure Address where
  path : String
  query : List (String × String)
deriving Repr, DecidableEq

namespace Address

/-- Cut a text at the first occurrence of a character, which belongs to neither part. -/
def cutAt (mark : Char) (cs : List Char) : List Char × List Char :=
  (cs.takeWhile (· != mark), (cs.dropWhile (· != mark)).drop 1)

/-- Cut a text at every occurrence of a character. -/
def splitAt (mark : Char) : List Char → List (List Char)
  | [] => [[]]
  | c :: cs =>
    if c = mark then [] :: splitAt mark cs
    else match splitAt mark cs with
      | part :: parts => (c :: part) :: parts
      | [] => [[c]]

/-- The text of some bytes; bytes that spell no text become one replacement character each. -/
def charsOfBytes (bytes : List UInt8) : List Char :=
  match String.fromUTF8? ⟨bytes.toArray⟩ with
  | some s => s.toList
  | none => bytes.map fun b => if b < 128 then Char.ofNat b.toNat else '\uFFFD'

/-- Read the percent signs of a text; `bytes` are those that have been read since the last other character, in
reverse. -/
def decodeFrom (bytes : List UInt8) : List Char → List Char
  | '%' :: a :: b :: cs =>
    if isHexDigit a && isHexDigit b then
      decodeFrom (UInt8.ofNat (16 * digitValue a + digitValue b) :: bytes) cs
    else charsOfBytes bytes.reverse ++ '%' :: decodeFrom [] (a :: b :: cs)
  | c :: cs => charsOfBytes bytes.reverse ++ c :: decodeFrom [] cs
  | [] => charsOfBytes bytes.reverse

/-- The text that stands in an address. -/
def decode (cs : List Char) : String :=
  String.ofList (decodeFrom [] cs)

/-- A named value of a query, where a plus sign is a space. -/
def decodePair (cs : List Char) : String × String :=
  let (name, value) := cutAt '=' (cs.map fun c => if c = '+' then ' ' else c)
  (decode name, decode value)

/-- Read an address; what stands behind a number sign is not sent. -/
def ofText (text : String) : Address :=
  let (path, query) := cutAt '?' (cutAt '#' text.toList).1
  ⟨decode path, ((splitAt '&' query).filter (!·.isEmpty)).map decodePair⟩

end Address

end AlgebraTutor.Service
