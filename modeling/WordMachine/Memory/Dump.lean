import WordMachine.Word

/-!
# Sparse dumps

Most of a memory is zero.  A sparse dump shows only the stretches without a zero
byte, each with the address at which it starts.
-/

namespace WordMachine

/-- Ends the stretch that is open, if one is.  `run` holds its bytes, the last
one first, and `index` is the number of bytes before the end of the stretch. -/
def closeStretch (start : Word) (index : Nat) (run : List Byte)
    (done : List (Word × List Byte)) : List (Word × List Byte) :=
  match run with
  | [] => done
  | _ => (start + UInt16.ofNat (index - run.length), run.reverse) :: done

/-- The stretches of nonzero bytes, behind stretches already found. -/
def stretchesFrom (start : Word) (index : Nat) (run : List Byte)
    (done : List (Word × List Byte)) : List Byte → List (Word × List Byte)
  | [] => (closeStretch start index run done).reverse
  | b :: rest =>
    if b = 0 then stretchesFrom start (index + 1) [] (closeStretch start index run done) rest
    else stretchesFrom start (index + 1) (b :: run) done rest

/-- The stretches of nonzero bytes among bytes that start at a given address. -/
def stretches (start : Word) (bytes : List Byte) : List (Word × List Byte) :=
  stretchesFrom start 0 [] [] bytes

end WordMachine
