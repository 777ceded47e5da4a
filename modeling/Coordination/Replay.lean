import Coordination.Commit
import Coordination.Fault
import Coordination.Journal.Record

/-!
A tree rebuilt from its journal: every recorded batch is checked and committed again under the
stamp it had. The numbers of the records must grow.
-/

namespace Coordination

def Record.stamp (r : Record) : Stamp :=
  { zxid := r.zxid, time := r.time, session := r.session }

namespace Tree

def replayOne (t : Tree) (r : Record) : Except Fault Tree :=
  if r.zxid ≤ t.lastZxid then .error (.journal (.outOfOrder r.zxid t.lastZxid))
  else
    match t.plan r.ops r.stamp with
    | .error rejection => .error (.journal (.rejected r.zxid rejection))
    | .ok plan => .ok (t.commit plan).tree

def replayFrom (t : Tree) : List Record → Except Fault Tree
  | [] => .ok t
  | r :: rs =>
      match t.replayOne r with
      | .error e => .error e
      | .ok t => t.replayFrom rs

end Tree

def replay (rs : List Record) : Except Fault Tree := Tree.initial.replayFrom rs

end Coordination
