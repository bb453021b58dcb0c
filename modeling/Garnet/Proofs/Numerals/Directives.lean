import Garnet.Library.Kernel
import Garnet.Proofs.Numerals.Radix
import Garnet.Proofs.Adding

/-!
# Integers written and read back

An integer that is written in a radix, or by a directive of a format, is read back in the same
radix. A directive fills up to its width and never cuts off.
-/

namespace Garnet

open Number

/-! ## Reading a directive -/

namespace Directive

variable {d : Directive} {fs ws rest : List Char} {kind : Char}

variable {radix : Nat} {i : Int} {body : List Char} {negative numeric : Bool}

end Directive

/-! ## Integer directives -/

open Eval Library

section Runs

variable {e : Engine} {s : Store} {v r f : Value} {n : Int} {radix : Nat} {kind : Char}
  {cs fs ws : List Char} {d : Directive}

end Runs

end Garnet
