import Coordination.Proofs.Chronicle
import Mathlib.Data.List.Induction

namespace Coordination

open Journal (Ledger Sink)

namespace Node

structure Fits (n : Node) : Prop where
  numChildren : n.stat.numChildren = n.children.size
  dataLength : n.stat.dataLength = n.data.length

structure Dated (z : Zxid) (n : Node) : Prop where
  czxid_le_mzxid : n.stat.czxid ≤ n.stat.mzxid
  mzxid_le : n.stat.mzxid ≤ z
  czxid_le_pzxid : n.stat.czxid ≤ n.stat.pzxid
  pzxid_le : n.stat.pzxid ≤ z

variable {n m : Node} {s : Stamp} {z z' : Zxid}

theorem Changed.fits (h : n.Changed s m) (hn : n.Fits) : m.Fits := by
  cases h with
  | same => exact hn
  | link => exact ⟨rfl, hn.dataLength⟩
  | unlink => exact ⟨rfl, hn.dataLength⟩
  | setData => exact ⟨hn.numChildren, rfl⟩

theorem Dated.mono (h : n.Dated z) (hz : z ≤ z') : n.Dated z' :=
  { h with mzxid_le := Nat.le_trans h.mzxid_le hz, pzxid_le := Nat.le_trans h.pzxid_le hz }

theorem Changed.dated (h : n.Changed s m) (hn : n.Dated s.zxid) : m.Dated s.zxid := by
  have hmzxid : n.stat.czxid ≤ s.zxid := Nat.le_trans hn.czxid_le_mzxid hn.mzxid_le
  have hpzxid : n.stat.czxid ≤ s.zxid := Nat.le_trans hn.czxid_le_pzxid hn.pzxid_le
  cases h with
  | same => exact hn
  | link => exact ⟨hn.czxid_le_mzxid, hn.mzxid_le, hpzxid, Nat.le_refl _⟩
  | unlink => exact ⟨hn.czxid_le_mzxid, hn.mzxid_le, hpzxid, Nat.le_refl _⟩
  | setData => exact ⟨hmzxid, Nat.le_refl _, hn.czxid_le_pzxid, hn.pzxid_le⟩

theorem dated_create (data : Bytes) (z : Zxid) (time : Time) (owner : SessionId) :
    (create data z time owner).Dated z :=
  ⟨Nat.le_refl z, Nat.le_refl z, Nat.le_refl z, Nat.le_refl z⟩

end Node

namespace Tree

open History

variable {t u x : Tree} {h h' : History} {s : Stamp} {ops : List Op} {plan : Plan}
variable {cs : List Commit} {rs : List Record} {P : Node → Prop}

def All (P : Node → Prop) (t : Tree) : Prop := ∀ p n, t.lookup p = some n → P n

theorem all_initial (h : P (Node.create [] 0 0 0)) : initial.All P := by
  intro p n hn
  rw [lookup_initial] at hn
  split at hn
  · exact Option.some.inj hn ▸ h
  · cases hn

section All

variable (hcreate : ∀ data owner, P (Node.create data s.zxid s.time owner))
variable (hchange : ∀ {n m}, Node.Changed s n m → P n → P m)
include hcreate hchange

theorem All.stepwise (ht : t.All P) (hsteps : Stepwise s t ops cs u) : u.All P := by
  induction hsteps with
  | nil => exact ht
  | cons hplan _ ih =>
      refine ih fun p m hm => ?_
      obtain ⟨e, o, hadm, -, hlook⟩ := Draft.admits_of_plan hplan
      rw [hlook] at hm
      rcases hadm.origin hm with ⟨n, hn, hchanged⟩ | ⟨data, owner, rfl⟩
      · exact hchange hchanged (ht p n hn)
      · exact hcreate data owner

theorem All.commit (ht : t.All P) (hplan : t.plan ops s = .ok plan) :
    (t.commit plan).tree.All P := by
  obtain ⟨cs, u, hsteps, htree⟩ := Stepwise.of_plan hplan
  have hu : u.All P := ht.stepwise hcreate hchange hsteps
  rw [htree]
  exact hu

end All

theorem Recorded.fits (hr : Recorded h t) : t.All Node.Fits := by
  induction hr with
  | initial => exact all_initial ⟨rfl, rfl⟩
  | commit _ hplan ih => exact ih.commit (fun _ _ => ⟨rfl, rfl⟩) Node.Changed.fits hplan

/-- Batches make `u` out of `t`, each under a number above the last one's, and this is what they
did. -/
inductive Leads (t : Tree) : History → Tree → Prop
  | refl : Leads t [] t
  | commit {h : History} {u : Tree} {s : Stamp} {ops : List Op} {plan : Plan} :
      Leads t h u → u.lastZxid < s.zxid → u.plan ops s = .ok plan →
      Leads t (h ++ deeds s ops plan.outcomes) (u.commit plan).tree

def Reachable (h : History) (t : Tree) : Prop := initial.Leads h t

theorem Leads.trans (hu : t.Leads h u) (hx : u.Leads h' x) : t.Leads (h ++ h') x := by
  induction hx with
  | refl => exact (List.append_nil h).symm ▸ hu
  | commit _ hz hplan ih =>
      rw [← List.append_assoc]
      exact ih.commit hz hplan

theorem Leads.recorded (hu : t.Leads h' u) (ht : Recorded h t) : Recorded (h ++ h') u := by
  induction hu with
  | refl => exact (List.append_nil h).symm ▸ ht
  | commit _ _ hplan ih =>
      rw [← List.append_assoc]
      exact ih.commit hplan

theorem Reachable.recorded (ht : Reachable h t) : Recorded h t := Leads.recorded ht .initial

theorem Leads.dated (hu : t.Leads h u) (ht : t.All (Node.Dated t.lastZxid)) :
    u.All (Node.Dated u.lastZxid) := by
  induction hu with
  | refl => exact ht
  | @commit h u s ops plan _ hz hplan ih =>
      rw [lastZxid_commit, Draft.stamp_acceptAll hplan]
      have hraised : u.All (Node.Dated s.zxid) := fun p n hn =>
        (ih p n hn).mono (Nat.le_of_lt hz)
      exact hraised.commit (fun data owner => Node.dated_create data s.zxid s.time owner)
        Node.Changed.dated hplan

theorem Reachable.dated (ht : Reachable h t) : t.All (Node.Dated t.lastZxid) :=
  Leads.dated ht (all_initial (Node.dated_create [] 0 0 0))

/-- A recorded batch committed on a tree with its history; one that is rejected does nothing. -/
def take (k : History × Tree) (r : Record) : History × Tree :=
  match k.2.plan r.ops r.stamp with
  | .error _ => k
  | .ok plan => (k.1 ++ deeds r.stamp r.ops plan.outcomes, (k.2.commit plan).tree)

def history (t : Tree) (rs : List Record) : History := (rs.foldl take ([], t)).1

variable {r : Record}

theorem take_of_plan {k : History × Tree} (hplan : k.2.plan r.ops r.stamp = .ok plan) :
    take k r = (k.1 ++ deeds r.stamp r.ops plan.outcomes, (k.2.commit plan).tree) := by
  rw [take, hplan]

theorem Recorded.history (hr : Recorded h t) (rs : List Record) :
    Recorded (h ++ t.history rs) (rs.foldl Tree.take ([], t)).2 := by
  induction rs using List.reverseRecOn with
  | nil => exact (List.append_nil h).symm ▸ hr
  | append_singleton rs r ih =>
      rw [Tree.history, List.foldl_append, List.foldl_cons, List.foldl_nil]
      unfold Tree.take
      split <;> rename_i hplan
      · exact ih
      · have hone := ih.commit hplan
        rwa [List.append_assoc] at hone

theorem Leads.of_replayFrom (hu : t.replayFrom rs = .ok u) :
    t.Leads (t.history rs) u ∧ (rs.foldl Tree.take ([], t)).2 = u := by
  induction rs using List.reverseRecOn generalizing u with
  | nil =>
      obtain rfl : t = u := Except.ok.inj hu
      exact ⟨.refl, rfl⟩
  | append_singleton rs r ih =>
      obtain ⟨x, hx, hone⟩ := replayFrom_concat_eq_ok.1 hu
      obtain ⟨hlead, rfl⟩ := ih hx
      obtain ⟨hz, plan, hplan, rfl⟩ := replayOne_eq_ok.1 hone
      rw [history, List.foldl_append, List.foldl_cons, List.foldl_nil, take_of_plan hplan]
      exact ⟨hlead.commit hz hplan, rfl⟩

end Tree

namespace Writer

open Coordination.Tree

variable {σ : Type} [Sink σ] {t : Tree}

theorem tree_move {w : Writer (Ledger σ)} (hw : (w.log.taken.foldl take ([], t)).2 = w.engine.tree)
    (m : Move) : ((w.move m).log.taken.foldl take ([], t)).2 = (w.move m).engine.tree := by
  rcases w.move_cases m with ⟨htaken, htree⟩ | ⟨r, plan, htaken, -, hplan, -, htree⟩
  · rw [htaken, htree]
    exact hw
  · rw [htaken, htree, List.foldl_append, List.foldl_cons, List.foldl_nil,
      take_of_plan (hw ▸ hplan), hw]

end Writer

namespace Tree

open History

variable {t u : Tree} {h : History} {rs : List Record}

end Tree

end Coordination
