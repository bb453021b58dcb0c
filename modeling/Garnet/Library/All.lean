import Garnet.Library.Comparable
import Garnet.Library.Enumerable
import Garnet.Library.Exceptions
import Garnet.Library.Floats
import Garnet.Library.Hashes
import Garnet.Library.Kernel
import Garnet.Library.Modules
import Garnet.Library.Objects
import Garnet.Library.Output
import Garnet.Library.Procs
import Garnet.Library.Ranges
import Garnet.Library.Regexps
import Garnet.Library.Strings
import Garnet.Library.Symbols
import Garnet.Library.Truth

/-!
# The whole library
-/

namespace Garnet.Library

/-- Every builtin operation; a builtin method refers to its place here. -/
def all : Array Entry :=
  [Objects.entries, Kernel.entries, Modules.entries, Comparable.entries, Enumerable.entries,
   Truth.entries, Integers.entries, Floats.entries, Strings.entries, Symbols.entries,
   Arrays.entries, Hashes.entries, Ranges.entries, Procs.entries, Exceptions.entries,
   Regexps.entries, Output.entries].flatten.toArray

/-- Runs the operation at a place of the library. -/
def run (index : Nat) : Native := fun recv args block =>
  match all[index]? with
  | some entry => entry.run recv args block
  | none => pure .nil

theorem run_eq {index : Nat} {entry : Entry} (h : all[index]? = some entry) :
    run index = entry.run := by
  funext recv args block
  unfold run
  rw [h]

end Garnet.Library
