import Coordination.Proofs.EventAgreement
import Coordination.Proofs.Moves

namespace Coordination

open Journal (Disk)
open Watch (Change Handle Mask Notification Registration Table)

/-- A watch registered at `p` by a session on channel `c`, with the tree that was read with it, in
the state of watches and tree `k` batches later. It may be gone for a reason of its own. -/
structure Watched (read : Tree) (p : String) (r : Registration) (c : Nat) (gone : Prop) (k : Nat)
    (t : Table) (u : Tree) : Prop where
  issued : t.Issued p r
  channel : c < t.channels.length
  since : u.lastZxid = read.lastZxid.after k
  notices : ∀ n ∈ t.carried r.handle, ∃ kind j, j < k ∧
    n = .event r.handle p kind (read.lastZxid.after (j + 1)) ∧ r.mask.contains kind = true
  agrees : r.handle ∈ t.standing → View.Agrees r.mask p read.lookup u.lookup
  left : r.handle ∉ t.standing → t.carried r.handle ≠ [] ∨ gone ∨ ¬t.Hears r.session c

namespace Watched

variable {read u u' : Tree} {p : String} {r : Registration} {c : Nat} {gone : Prop} {k j : Nat}
  {t : Table}

theorem since_add (h : Watched read p r c gone k t u) (hz : u'.lastZxid = u.lastZxid.after j) :
    u'.lastZxid = read.lastZxid.after (k + j) := by
  rw [hz, h.since, Zxid.after_add]

theorem notices_add (h : Watched read p r c gone k t u) :
    ∀ n ∈ t.carried r.handle, ∃ kind i, i < k + j ∧
      n = .event r.handle p kind (read.lastZxid.after (i + 1)) ∧ r.mask.contains kind = true := by
  intro n hn
  obtain ⟨kind, i, hi, hevent⟩ := h.notices n hn
  exact ⟨kind, i, Nat.lt_add_right j hi, hevent⟩

theorem untaken (h : Watched read p r c gone k t u) {m : Change}
    (hm : r.handle ∈ t.standing → ¬m.Takes p r) (hz : u'.lastZxid = u.lastZxid.after j)
    (hagree : ¬m.Takes p r → View.Agrees r.mask p u.lookup u'.lookup) :
    Watched read p r c gone (k + j) (t.change m) u' := by
  have hstand := h.issued.mem_standing_change m
  have hcarried : (t.change m).carried r.handle = t.carried r.handle :=
    h.issued.carried_change fun hs ht => absurd ht (hm hs)
  constructor
  · exact h.issued.change m
  · exact Nat.lt_of_lt_of_le h.channel (h.issued.sound.length_le_change m)
  · exact h.since_add hz
  · rw [hcarried]
    exact h.notices_add
  · intro hs
    obtain ⟨hs, ht⟩ := hstand.1 hs
    exact (h.agrees hs).trans (hagree ht)
  · intro hs
    have hs' : r.handle ∉ t.standing := fun hst => hs (hstand.2 ⟨hst, hm hst⟩)
    rw [hcarried]
    refine (h.left hs').imp_right (Or.imp_right fun hdeaf hear => hdeaf ?_)
    exact h.issued.sound.hears_of_change h.channel hear

theorem taken (h : Watched read p r c gone k t u) {m : Change} (hs : r.handle ∈ t.standing)
    (hm : m.Takes p r) (hz : u'.lastZxid = u.lastZxid.after j)
    (hpub : ∀ zxid es, m = .publish zxid es → j = 1 ∧ zxid = u'.lastZxid) :
    Watched read p r c (gone ∨ m = .cancel r.handle) (k + j) (t.change m) u' := by
  have hgone : r.handle ∉ (t.change m).standing := fun hst =>
    ((h.issued.mem_standing_change m).1 hst).2 hm
  have hchannel := Nat.lt_of_lt_of_le h.channel (h.issued.sound.length_le_change m)
  have hzxid := h.since_add hz
  -- a publish that is heard delivers the watch; any other change that takes it is a cancel, or
  -- leaves the session without its channel
  by_cases hear : ∃ zxid es d, m = .publish zxid es ∧ t.Hears r.session d
  · obtain ⟨zxid, es, d, rfl, hd⟩ := hear
    obtain ⟨kind, hkind, hperm⟩ := h.issued.carried_publish hs hm hd
    refine ⟨h.issued.change _, hchannel, hzxid, fun n hn => ?_, fun hst => absurd hst hgone,
      fun _ => .inl ?_⟩
    · rcases List.mem_cons.1 (hperm.mem_iff.1 hn) with rfl | hn
      · obtain ⟨rfl, rfl⟩ := hpub zxid es rfl
        exact ⟨kind, k, Nat.lt_succ_self k, by rw [hzxid], hkind⟩
      · exact h.notices_add n hn
    · intro hnil
      rw [hnil] at hperm
      exact absurd hperm.symm (List.cons_ne_nil _ _ ∘ List.Perm.eq_nil)
  · have hcarried : (t.change m).carried r.handle = t.carried r.handle := by
      refine h.issued.sound.carried_change fun zxid es he q r' hr' hh => ?_
      obtain ⟨rfl, rfl⟩ := h.issued.only hr' hh
      exact .inr fun d hd => hear ⟨zxid, es, d, he, hd⟩
    refine ⟨h.issued.change _, hchannel, hzxid, hcarried ▸ h.notices_add,
      fun hst => absurd hst hgone, fun _ => ?_⟩
    cases m with
    | cancel k =>
        obtain rfl : r.handle = k := hm
        exact .inr (.inl (.inr rfl))
    | detach s =>
        obtain rfl : r.session = s := hm
        refine .inr (.inr fun hd => ?_)
        have hatt := hd.1
        rw [Table.change, (h.issued.sound.frame_detach r.session).2.1] at hatt
        simp at hatt
    | publish zxid es =>
        refine .inr (.inr fun hd => hear ⟨zxid, es, c, rfl, ?_⟩)
        exact h.issued.sound.hears_of_change h.channel hd
    | _ => exact hm.elim

theorem mono (h : Watched read p r c gone k t u) {gone' : Prop} (hg : gone → gone') :
    Watched read p r c gone' k t u where
  issued := h.issued
  channel := h.channel
  since := h.since
  notices := h.notices
  agrees := h.agrees
  left := fun hs => (h.left hs).imp_right (Or.imp_left hg)

theorem change (h : Watched read p r c gone k t u) (m : Change)
    (hz : u'.lastZxid = u.lastZxid.after j)
    (hpub : ∀ zxid es, m = .publish zxid es → j = 1 ∧ zxid = u'.lastZxid)
    (hagree : ¬m.Takes p r → View.Agrees r.mask p u.lookup u'.lookup) :
    Watched read p r c (gone ∨ m = .cancel r.handle ∧ r.handle ∈ t.standing) (k + j)
      (t.change m) u' := by
  by_cases htake : r.handle ∈ t.standing ∧ m.Takes p r
  · obtain ⟨hs, hm⟩ := htake
    exact (h.taken hs hm hz hpub).mono (Or.imp_right fun he => ⟨he, hs⟩)
  · exact (h.untaken (fun hs hm => htake ⟨hs, hm⟩) hz hagree).mono .inl

end Watched

namespace Store

variable {read : Tree} {p : String} {r : Registration} {c k : Nat} {gone : Prop}
  {st : Store}

end Store

end Coordination
