import Mathlib.Data.List.Basic

/-!
# Characters

Strings of C as lists of bytes. A pointer into a string is what is left of the string from
there on; behind its end `*s` is the NUL.
-/

namespace Qwin.Chars

abbrev Str := List UInt8

abbrev ch (c : Char) : UInt8 := c.toUInt8

def deref (s : Str) : UInt8 := s.headD 0

@[simp] theorem deref_cons (c : UInt8) (s : Str) : deref (c :: s) = c := rfl

def isspace (c : UInt8) : Bool := 0x09 ≤ c ∧ c ≤ 0x0D ∨ c = 0x20

end Qwin.Chars
