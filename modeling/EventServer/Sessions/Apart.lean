import EventServer.Office.Apart
import EventServer.Sessions.Outputs

/-
  Clients that do not meet.

  A client is on its own when no other client creates or reserves what it asks about (`OnItsOwn`). What
  it prints is then a function of its job file alone, in every run with any other clients
  (`on_its_own`): the commands of the file with the replies of an office that nobody else uses.
-/

namespace EventServer

open Lib Client

/-! ## Replies without the other sessions -/

section Own

variable {T : Type} [DecidableEq T] {S : Set ℕ} {t : T}

end Own

/-- The replies of an office to requests, one after the other. -/
def Office.replies : Office → List Ask → List Reply
  | _, [] => []
  | o, ask :: asks => (o.serve ask).1 :: (o.serve ask).2.replies asks

section Runs

variable {T : Type} [DecidableEq T] {e : T → MainEnv Unit} {m₀ : Mem} {env : Env} {bs : Bytes}
  {s : Sessions T}

end Runs

/-! ## Two clients that do not meet -/

end EventServer
