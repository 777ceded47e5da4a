import Coordination.Engine

namespace Coordination

open Journal (Sink)
open Watch (Handle Mask)

inductive Request where
  | submit (session : SessionId) (ops : List Op)
  | sync (session : SessionId)
  | watch (session : SessionId) (path : String) (mask : Mask) (required : Bool)
  deriving DecidableEq, Repr

/-- What a request fails with when the writer goes away with the request in its queue. -/
def Request.dropped : Request → ChannelFault
  | .submit .. => .batchDropped
  | .sync _ => .syncDropped
  | .watch .. => .watchDropped

structure Writer (σ : Type) where
  engine : Engine
  log : σ
  deriving DecidableEq

namespace Writer

variable {σ : Type} [Sink σ]

def submit (w : Writer σ) (now : Time) (s : SessionId) (ops : List Op) :
    Except Fault (List Outcome) × Writer σ :=
  let (r, engine, log) := w.engine.submit w.log now s ops
  (r, { engine, log })

omit [Sink σ] in
def sync (w : Writer σ) (s : SessionId) : Except Fault Zxid × Writer σ :=
  let (r, engine) := w.engine.sync s
  (r, { w with engine })

omit [Sink σ] in
def watchAndRead (w : Writer σ) (s : SessionId) (p : String) (mask : Mask) (required : Bool) :
    Except Fault (Tree × Option Handle) × Writer σ :=
  match w.engine.watchAndRead s p mask required with
  | .error f => (.error f, w)
  | .ok (r, engine) => (.ok r, { w with engine })

end Writer

end Coordination
