/-
  `libs/error.h`: the errors that the file system returns.
-/
import Mathlib.Data.Nat.Init

namespace Ucore

inductive Errno where
  | inval
  | noMem
  | noFreeProc
  | tooBig
  | noDev
  | naDev
  | busy
  | noEnt
  | isDir
  | notDir
  | exists
  | maxOpen
  | invalElf
  | fault
  | unspecified
  deriving DecidableEq, Repr

end Ucore
