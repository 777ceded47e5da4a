import Coordination.Event
import Coordination.Op

namespace Coordination

structure Record where
  zxid : Zxid
  time : Time
  session : SessionId
  ops : List Op
  events : List Event
  deriving DecidableEq, Repr

end Coordination
