import Coordination.Event
import Coordination.Plan

namespace Coordination

namespace Edit

def apply (s : Stamp) (t : Tree) : Edit → Tree
  | .create p node => t.insert p node s.zxid
  | .delete p => t.remove p s.zxid
  | .setData p data => t.setData p data s.zxid s.time

def events : Edit → List Event
  | .create p _ => Event.ofCreate p
  | .delete p => Event.ofDelete p
  | .setData p _ => Event.ofSetData p

end Edit

structure Commit where
  stamp : Stamp
  tree : Tree
  events : List Event
  outcomes : List Outcome
  deriving DecidableEq

/-- The tree takes the batch's number also where nothing is edited. -/
def Tree.commit (t : Tree) (plan : Plan) : Commit :=
  { stamp := plan.stamp
    tree := { plan.edits.foldl (Edit.apply plan.stamp) t with lastZxid := plan.stamp.zxid }
    events := plan.edits.flatMap Edit.events
    outcomes := plan.outcomes }

end Coordination
