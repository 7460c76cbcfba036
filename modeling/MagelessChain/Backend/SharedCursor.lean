import MagelessChain.Backend.WrittenBlocks

/-!
# A read while a block is appended

From the header of a block to the slot after it the cursor of its epoch is the writer's. A read of the
same epoch in that stretch moves it, and when only the slot is left to write, sends the next block to the
place of the block behind the one it read.
-/

namespace MagelessChain

open Lib OrderedStore

section Runs

variable {κ σ τ Tx Ov : Type}

end Runs

end MagelessChain
