import FuzzyHierarchy.Listing.Basic

/-
Writing a listing where room is limited. A writer takes pieces of text in turn. What fits of a piece
is written even if the whole does not fit, and the first piece that does not fit ends the writing.
-/

namespace FuzzyHierarchy

/-- A writer that holds at most `limit` bytes. -/
structure BoundedWriter where
  limit : Nat
  written : Array UInt8 := #[]

/-- The way in which writing can fail: no byte more can be written. -/
inductive WriteFailure where
  | writeZero
  deriving DecidableEq, Repr

namespace BoundedWriter

/-- The number of bytes that still fit. -/
def room (writer : BoundedWriter) : Nat := writer.limit - writer.written.size

/-- Writes what fits of a piece. The failure is given if that is not all of it. -/
def write (writer : BoundedWriter) (piece : String) : BoundedWriter × Option WriteFailure :=
  let bytes := piece.toUTF8.data
  ({ writer with written := writer.written ++ bytes.take writer.room },
    if bytes.size ≤ writer.room then none else some .writeZero)

/-- Writes the pieces in order up to the first failure. -/
def writeAll (writer : BoundedWriter) : List String → BoundedWriter × Option WriteFailure
  | [] => (writer, none)
  | piece :: rest =>
    match writer.write piece with
    | (writer, none) => writer.writeAll rest
    | (writer, some failure) => (writer, some failure)

end BoundedWriter

/-- Writes the listing of a classifier where `limit` bytes have room. -/
def Classifier.writeListing (classifier : Classifier) (limit : Nat) :
    Except Fault (BoundedWriter × Option WriteFailure) :=
  (BoundedWriter.writeAll { limit }) <$> classifier.listing

end FuzzyHierarchy
