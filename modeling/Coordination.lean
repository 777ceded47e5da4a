import Coordination.Format.Values
import Coordination.Server
import Coordination.Watch.Desk
import Coordination.Proofs.Namespace
import Coordination.Proofs.OneShot
import Coordination.Proofs.WatchedRead
import Coordination.Proofs.Chronicle
import Coordination.Proofs.Recovery
import Coordination.Proofs.SyncBarrier
import Coordination.Proofs.Attachment
import Coordination.Proofs.Identity
import Coordination.Proofs.SequentialNames
import Coordination.Proofs.Independence
import Coordination.Proofs.World
import Coordination.Proofs.Interference
import Coordination.Proofs.Ownership
import Coordination.Proofs.Departure
import Coordination.Proofs.Firing
import Coordination.Proofs.FlatNamespace
import Coordination.Proofs.ChangeSet
import Coordination.Proofs.SequentialCreate
import Coordination.Proofs.RoundTrip
import Coordination.Proofs.LengthWord
import Coordination.Proofs.Staging
import Coordination.Proofs.ResultLists
import Coordination.Proofs.InternalFaults
import Coordination.Proofs.Serialization
import Coordination.Proofs.Draining
import Coordination.Proofs.FormatLaws
import Coordination.Proofs.Indexes
