import Coordination.Engine
import Coordination.Proofs.Stepwise
import Mathlib.Logic.ExistsUnique

namespace Coordination

open Journal (Sink)

namespace Zxid

variable {z : Zxid}

theorem next_eq (h : z < maxZxid) : z.next = z + 1 :=
  Nat.mod_eq_of_lt (Nat.succ_lt_succ h)

/-- A number goes up by one, or falls to 0. -/
theorem next_eq_of_le (h : z ≤ z.next) : z.next = z + 1 := by
  have hlt : (z + 1) % UInt64.size < UInt64.size := Nat.mod_lt _ (by decide)
  have hle : (z + 1) % UInt64.size ≤ z + 1 := Nat.mod_le _ _
  refine next_eq (Nat.lt_of_le_of_ne (Nat.le_of_lt_succ (Nat.lt_of_le_of_lt h hlt)) ?_)
  rintro rfl
  exact absurd h (by decide)

theorem next_ne (z : Zxid) : z.next ≠ z := by
  intro he
  have hsucc := next_eq_of_le (Nat.le_of_eq he.symm)
  exact Nat.succ_ne_self z (hsucc.symm.trans he)

def after (z : Zxid) : Nat → Zxid
  | 0 => z
  | k + 1 => (z.after k).next

theorem after_add (z : Zxid) (k j : Nat) : z.after (k + j) = (z.after k).after j := by
  induction j with
  | zero => rfl
  | succ j ih => exact congrArg next ih

theorem after_eq {k : Nat} (h : z + k ≤ maxZxid) : z.after k = z + k := by
  induction k with
  | zero => rfl
  | succ k ih =>
      have hlt : z + k < maxZxid := h
      rw [after, ih (Nat.le_of_lt hlt), next_eq hlt]
      rfl

def passed (z z' : Zxid) : Nat := if z' = z then 0 else 1

theorem passed_self (z : Zxid) : z.passed z = 0 := if_pos rfl

theorem passed_next (z : Zxid) : z.passed z.next = 1 := if_neg (next_ne z)

end Zxid

theorem Draft.accept_edit?_eq_none_iff {d : Draft} {s : Stamp} {op : Op} {a : Acceptance}
    (h : d.accept s op = .ok a) : a.edit? = none ↔ op.mutates = false := by
  have hadm := (Draft.accept_spec h).1
  generalize a.edit? = e, a.outcome = o at hadm
  cases hadm <;> simp [Op.mutates]

theorem Draft.edits_acceptAll_eq_nil_iff {d : Draft} {s : Stamp} {i : Nat} {ops : List Op}
    {plan : Plan} (h : d.acceptAll s i ops = .ok plan) :
    plan.edits = [] ↔ ∀ op ∈ ops, op.mutates = false := by
  induction ops generalizing d i plan with
  | nil =>
      obtain rfl := Except.ok.inj h
      simp
  | cons op ops ih =>
      obtain ⟨a, rest, ha, hrest, rfl⟩ := acceptAll_cons_ok.1 h
      simp [ih hrest, accept_edit?_eq_none_iff ha]

theorem Tree.isReadOnly_iff {t : Tree} {ops : List Op} {s : Stamp} {plan : Plan}
    (h : t.plan ops s = .ok plan) :
    plan.isReadOnly = true ↔ ∀ op ∈ ops, op.mutates = false := by
  rw [Plan.isReadOnly, List.isEmpty_iff, Draft.edits_acceptAll_eq_nil_iff h]

namespace Engine

variable {σ : Type} [Sink σ]

structure Same (e e' : Engine) : Prop where
  tree : e'.tree = e.tree
  hub : e'.hub = e.hub
  halted : e'.halted = e.halted

def Announced (e : Engine) (zxid : Zxid) (events : List Event) (e' : Engine) : Prop :=
  match e.hub.publish zxid events with
  | .ok (_, hub) => e'.hub = hub ∧ e'.halted = none
  | .error f => e'.hub = e.hub ∧ e'.halted = some (.publish zxid f.message)

inductive Ending where
  | halted
  | rejected
  | readOnly
  | unrecorded
  | recorded
  deriving DecidableEq, Repr

/-- Whether a submit to `e` and `log` ended in the given way, where it answered `r` and left `e'`
and `log'`. -/
def Ends (e : Engine) (log : σ) (now : Time) (s : SessionId) (ops : List Op)
    (r : Except Fault (List Outcome)) (e' : Engine) (log' : σ) : Ending → Prop
  | .halted =>
      ∃ cause, e.halted = some cause ∧ r = .error (.halted cause) ∧ e' = e ∧ log' = log
  | .rejected =>
      e.halted = none ∧ ∃ rejection, e.tree.plan ops (e.stamp now s) = .error rejection ∧
        r = .error (.ofRejection ops.length rejection) ∧ e.Same e' ∧ log' = log
  | .readOnly =>
      e.halted = none ∧ (∀ op ∈ ops, op.mutates = false) ∧
        ∃ plan, e.tree.plan ops (e.stamp now s) = .ok plan ∧
          r = .ok plan.outcomes ∧ e.Same e' ∧ log' = log
  | .unrecorded =>
      e.halted = none ∧ (∃ op ∈ ops, op.mutates = true) ∧
        ∃ plan f, e.tree.plan ops (e.stamp now s) = .ok plan ∧
          Sink.append
            { zxid := e.lastZxid.next, time := now, session := s, ops
              events := (e.tree.commit plan).events } log = (.error f, log') ∧
          r = .error (.halted (.append e.lastZxid.next f.message)) ∧
          e'.tree = e.tree ∧ e'.hub = e.hub ∧
          e'.halted = some (.append e.lastZxid.next f.message)
  | .recorded =>
      e.halted = none ∧ (∃ op ∈ ops, op.mutates = true) ∧
        ∃ plan, e.tree.plan ops (e.stamp now s) = .ok plan ∧
          Sink.append
            { zxid := e.lastZxid.next, time := now, session := s, ops
              events := (e.tree.commit plan).events } log = (.ok (), log') ∧
          r = .ok (e.tree.commit plan).outcomes ∧
          e'.tree = (e.tree.commit plan).tree ∧ e'.lastZxid = e.lastZxid.next ∧
          e.Announced e.lastZxid.next (e.tree.commit plan).events e'

theorem announce_spec {e : Engine} {c : Commit} (h : e.halted = none) :
    (e.announce c).tree = e.tree ∧ e.Announced c.stamp.zxid c.events (e.announce c) := by
  unfold announce Announced
  cases e.hub.publish c.stamp.zxid c.events with
  | error f => exact ⟨rfl, rfl, rfl⟩
  | ok r => exact ⟨rfl, rfl, h⟩

theorem publish_ends {e : Engine} {log : σ} {now : Time} {s : SessionId} {ops : List Op}
    {plan : Plan} {n : Nat} (hrun : e.halted = none)
    (hplan : e.tree.plan ops (e.stamp now s) = .ok plan)
    (hedits : ∃ op ∈ ops, op.mutates = true) :
    let out := Engine.publish { e with nextBatch := n } log
      { id := e.nextBatch, session := s, ops, phase := .validating } (e.tree.commit plan)
    ∃ w, e.Ends log now s ops out.1 out.2.1 out.2.2 w := by
  have hstamp : plan.stamp = e.stamp now s := Draft.stamp_acceptAll hplan
  have hrec : record ops (e.tree.commit plan) =
      { zxid := e.lastZxid.next, time := now, session := s, ops
        events := (e.tree.commit plan).events } := by
    simp only [record, Tree.commit, hstamp, stamp]
  have hz : (e.tree.commit plan).stamp.zxid = e.lastZxid.next := by
    simp only [Tree.commit, hstamp, stamp]
  unfold Engine.publish
  dsimp only
  rw [hrec]
  split <;> rename_i happ
  · refine ⟨.unrecorded, hrun, hedits, plan, _, hplan, happ, ?_⟩
    simp [Batch.abort, Batch.move, halt, hz]
  · refine ⟨.recorded, hrun, hedits, plan, hplan, happ, ?_⟩
    have hann := announce_spec (c := e.tree.commit plan)
      (show (countCommitted { e with nextBatch := n, tree := (e.tree.commit plan).tree }).halted =
        none from hrun)
    rw [hz] at hann
    exact ⟨rfl, hann.1, (congrArg Tree.lastZxid hann.1).trans hz, hann.2⟩

theorem submit_ends (e : Engine) (log : σ) (now : Time) (s : SessionId) (ops : List Op) :
    let out := e.submit log now s ops
    ∃ w, e.Ends log now s ops out.1 out.2.1 out.2.2 w := by
  have hbegin : (Batch.submit e.nextBatch s ops).begin =
      .ok { id := e.nextBatch, session := s, ops, phase := .validating } := rfl
  dsimp only
  unfold submit
  split <;> rename_i hrun
  · exact ⟨.halted, _, hrun, rfl, rfl, rfl⟩
  · simp only [runBatch, hbegin]
    split <;> rename_i hplan
    · exact ⟨.rejected, hrun, _, hplan, rfl, ⟨rfl, rfl, rfl⟩, rfl⟩
    · split <;> rename_i hread
      · have hchecks := (Tree.isReadOnly_iff hplan).1 hread
        exact ⟨.readOnly, hrun, hchecks, _, hplan, rfl, ⟨rfl, rfl, rfl⟩, rfl⟩
      · have hedits : ∃ op ∈ ops, op.mutates = true := by
          rw [Tree.isReadOnly_iff hplan] at hread
          simpa using hread
        exact publish_ends hrun hplan hedits

theorem Ends.unique {e e' : Engine} {log log' : σ} {now : Time} {s : SessionId} {ops : List Op}
    {r : Except Fault (List Outcome)} {w w' : Ending}
    (h : e.Ends log now s ops r e' log' w) (h' : e.Ends log now s ops r e' log' w') : w = w' := by
  -- the halt tells the first way from the others, then the plan, the operations and the append do
  cases w <;> cases w' <;> simp only [Ends] at h h' <;> grind

end Engine

end Coordination
