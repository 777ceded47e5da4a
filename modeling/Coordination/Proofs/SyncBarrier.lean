import Coordination.Proofs.Channels
import Coordination.Proofs.Moves

namespace Coordination

open Journal (Disk Sink)
open Watch (Change Handle Hub Mask Notification Receipt Table)

/-- A reading of the numbers that goes up by one from each to the next, until there are no more. -/
structure Clock where
  read : Zxid → Nat
  next : ∀ z, read z < maxZxid → read z.next = read z + 1

namespace Clock

def plain : Clock where
  read z := z
  next _ h := Zxid.next_eq h

/-- How many numbers after `base` a number comes, around the largest if need be. -/
def since (base : Zxid) : Clock where
  read z := (z + (UInt64.size - base % UInt64.size)) % UInt64.size
  next z h := by
    have hsmall : (z + (UInt64.size - base % UInt64.size)) % UInt64.size + 1 < UInt64.size :=
      Nat.succ_lt_succ h
    rw [Zxid.next, Nat.mod_add_mod, Nat.add_right_comm, ← Nat.mod_add_mod, Nat.mod_eq_of_lt hsmall]

variable (clock : Clock) {z : Zxid}

end Clock

namespace Watch

/-- The order of a channel: numbers do not fall, and from a marker to an event they rise. -/
structure Notification.Precedes (clock : Clock) (m n : Notification) : Prop where
  le : clock.read m.zxid ≤ clock.read n.zxid
  lt : m.isEvent = false → n.isEvent = true → clock.read m.zxid < clock.read n.zxid

/-- What can be put on a channel while the published number goes from `z` to `z'`. -/
structure Stretch (clock : Clock) (z z' : Zxid) (ns : List Notification) : Prop where
  le : clock.read z ≤ clock.read z'
  ordered : ns.Pairwise (Notification.Precedes clock)
  above : ∀ n ∈ ns, clock.read z ≤ clock.read n.zxid ∧
    (n.isEvent = true → clock.read z < clock.read n.zxid)
  within : ∀ n ∈ ns, clock.read n.zxid ≤ clock.read z'

theorem Change.Sends.of_publish {t : Table} {c : Nat} {n : Notification} {zxid : Zxid}
    {es : List Event} (h : (Change.publish zxid es).Sends t c n) :
    n.isEvent = true ∧ n.zxid = zxid := by
  obtain ⟨p, r, e, -, -, -, -, rfl⟩ := h
  exact ⟨rfl, rfl⟩

theorem Hub.barrier_ok_iff {hub : Hub} {s : SessionId} (hp : hub.poisoned = false) (zxid : Zxid) :
    (hub.barrier s zxid).1 = .ok () ↔ ∃ c, hub.table.Hears s c := by
  simp only [barrier, lock, hp, Bool.false_eq_true, if_false]
  by_cases hs : ∃ c, hub.table.Hears s c
  · obtain ⟨c, hc⟩ := hs
    simp only [Table.deliver_of_hears hc, if_true, true_iff]
    exact ⟨c, hc⟩
  · simp [(Table.deliver_of_deaf (not_exists.1 hs)).1, hs]

namespace Stretch

variable {clock : Clock} {z z' z'' : Zxid} {ns ms : List Notification}

theorem nil (z : Zxid) : Stretch clock z z [] := ⟨Nat.le_refl _, .nil, by simp, by simp⟩

theorem append (h : Stretch clock z z' ns) (h' : Stretch clock z' z'' ms) :
    Stretch clock z z'' (ns ++ ms) where
  le := Nat.le_trans h.le h'.le
  ordered := by
    refine List.pairwise_append.2 ⟨h.ordered, h'.ordered, fun m hm n hn => ?_⟩
    obtain ⟨hle, hlt⟩ := h'.above n hn
    have hm := h.within m hm
    exact ⟨Nat.le_trans hm hle, fun _ he => Nat.lt_of_le_of_lt hm (hlt he)⟩
  above := by
    intro n hn
    rcases List.mem_append.1 hn with hn | hn
    · exact h.above n hn
    · obtain ⟨hle, hlt⟩ := h'.above n hn
      exact ⟨Nat.le_trans h.le hle, fun he => Nat.lt_of_le_of_lt h.le (hlt he)⟩
  within := by
    intro n hn
    rcases List.mem_append.1 hn with hn | hn
    · exact Nat.le_trans (h.within n hn) h'.le
    · exact h'.within n hn

theorem batch (hrise : clock.read z < clock.read z')
    (h : ∀ n ∈ ns, n.isEvent = true ∧ n.zxid = z') : Stretch clock z z' ns where
  le := Nat.le_of_lt hrise
  ordered := by
    refine List.pairwise_of_forall_mem_list fun m hm n hn => ?_
    obtain ⟨hm, hmz⟩ := h m hm
    refine ⟨Nat.le_of_eq ?_, fun he => absurd (hm.symm.trans he) (by decide)⟩
    rw [hmz, (h n hn).2]
  above := fun n hn => by
    rw [(h n hn).2]
    exact ⟨Nat.le_of_lt hrise, fun _ => hrise⟩
  within := fun n hn => Nat.le_of_eq (congrArg clock.read (h n hn).2)

end Stretch

end Watch

open Watch (Stretch)

namespace Writer

variable {σ : Type}

def lastZxid (w : Writer σ) : Zxid := w.engine.lastZxid

def sent (w : Writer σ) (c : Nat) : List Notification := w.engine.hub.table.sent c

def withHub (w : Writer σ) (hub : Hub) : Writer σ := { w with engine := w.engine.withHub hub }

inductive Turn (w w' : Writer σ) : Prop
  | still : w'.engine.tree = w.engine.tree → w'.engine.hub = w.engine.hub → Turn w w'
  | watches {m : Change} : w'.engine.tree = w.engine.tree → w'.engine.hub = w.engine.hub.change m →
      (∀ zxid es, m ≠ .publish zxid es) → (∀ s zxid, m = .mark s zxid → zxid = w.lastZxid) →
      Turn w w'
  | batch {es : List Event} : w'.lastZxid = w.lastZxid.next →
      w'.engine.hub = w.engine.hub.change (.publish w.lastZxid.next es) → Turn w w'

structure Ready (w : Writer σ) : Prop where
  unpoisoned : w.engine.hub.poisoned = false
  orderly : w.engine.hub.table.Orderly

variable {w w' : Writer σ} {s : SessionId} {z : Zxid}

theorem Ready.change (hw : w.Ready) {m : Change} (h : w'.engine.hub = w.engine.hub.change m) :
    w'.Ready where
  unpoisoned := by
    rw [h]
    exact hw.unpoisoned
  orderly := by
    rw [h]
    exact hw.orderly.change m

theorem Turn.ready (h : w.Turn w') (hw : w.Ready) : w'.Ready := by
  cases h with
  | still _ hhub => exact ⟨hhub ▸ hw.unpoisoned, hhub ▸ hw.orderly⟩
  | watches _ hhub _ _ => exact hw.change hhub
  | batch _ hhub => exact hw.change hhub

theorem Ready.sent_change (hw : w.Ready) {m : Change}
    (h : w'.engine.hub = w.engine.hub.change m) (c : Nat) :
    ∃ rest, w'.sent c = w.sent c ++ rest ∧ ∀ n ∈ rest, m.Sends w.engine.hub.table c n := by
  rw [sent, h]
  exact hw.orderly.sound.sent_change m c

theorem Turn.sent (h : w.Turn w') (hw : w.Ready) (c : Nat) :
    ∃ rest, w'.sent c = w.sent c ++ rest ∧
      ((w'.lastZxid = w.lastZxid ∧ ∀ n ∈ rest, n = .synced w.lastZxid) ∨
        w'.lastZxid = w.lastZxid.next ∧ ∀ n ∈ rest, n.isEvent = true ∧ n.zxid = w'.lastZxid) := by
  cases h with
  | still htree hhub =>
      refine ⟨[], ?_, .inl ⟨congrArg Tree.lastZxid htree, by simp⟩⟩
      rw [Writer.sent, hhub, List.append_nil, Writer.sent]
  | @watches m htree hhub hpub hmark =>
      obtain ⟨rest, hrest, hmem⟩ := hw.sent_change hhub c
      refine ⟨rest, hrest, .inl ⟨congrArg Tree.lastZxid htree, fun n hn => ?_⟩⟩
      have hsends := hmem n hn
      cases m with
      | mark s zxid => rw [hsends.2, hmark s zxid rfl]
      | publish zxid es => exact absurd rfl (hpub zxid es)
      | _ => exact hsends.elim
  | @batch es hz hhub =>
      obtain ⟨rest, hrest, hmem⟩ := hw.sent_change hhub c
      exact ⟨rest, hrest, .inr ⟨hz, fun n hn => hz ▸ (hmem n hn).of_publish⟩⟩

theorem Turn.lastZxid_eq (h : w.Turn w') (hw : w.Ready) :
    w'.lastZxid = w.lastZxid.after (w.lastZxid.passed w'.lastZxid) := by
  obtain ⟨-, -, ⟨hz, -⟩ | ⟨hz, -⟩⟩ := h.sent hw 0
  · rw [hz, Zxid.passed_self, Zxid.after]
  · rw [hz, Zxid.passed_next, Zxid.after, Zxid.after]

theorem turn_hub {hub : Hub} {m : Change} (hhub : hub = w.engine.hub.change m)
    (hpub : ∀ zxid es, m ≠ .publish zxid es) (hmark : ∀ s zxid, m ≠ .mark s zxid) :
    w.Turn (w.withHub hub) :=
  .watches rfl hhub hpub fun s zxid he => absurd he (hmark s zxid)

theorem turn_watchAndRead (w : Writer σ) (s : SessionId) (p : String) (mask : Mask)
    (required : Bool) : w.Turn (w.watchAndRead s p mask required).2 := by
  rcases w.watchAndRead_cases s p mask required with ⟨hw, -⟩ | ⟨-, -, hw⟩
  · exact .still (by rw [hw]) (by rw [hw])
  · rw [hw]
    exact turn_hub rfl (by simp) (by simp)

section Sync

theorem Ready.sync_engine (hw : w.Ready) (s : SessionId) :
    (w.sync s).2.engine = w.engine.withHub (w.engine.hub.change (.mark s w.lastZxid)) :=
  (Store.sync_snd w.engine s).trans (if_neg (by simp [hw.unpoisoned]))

theorem Ready.turn_sync (hw : w.Ready) (s : SessionId) : w.Turn (w.sync s).2 := by
  refine .watches (m := .mark s w.lastZxid) ?_ ?_ (by simp) ?_
  · rw [hw.sync_engine]
    rfl
  · rw [hw.sync_engine]
    rfl
  · rintro s' zxid ⟨rfl, rfl⟩
    rfl

theorem Ready.sync_ok_iff (hw : w.Ready) :
    (w.sync s).1 = .ok z ↔ z = w.lastZxid ∧ ∃ c, w.engine.hub.table.Hears s c := by
  have hanswer : (w.sync s).1 = (w.engine.sync s).1 := rfl
  rw [hanswer, Engine.sync, ← Hub.barrier_ok_iff hw.unpoisoned w.engine.lastZxid]
  split <;> rename_i hbar <;> rw [hbar]
  · simp
  · simp only [Except.ok.injEq, and_true]
    exact eq_comm

theorem Ready.sent_sync (hw : w.Ready) {c : Nat} (hc : w.engine.hub.table.Hears s c) (d : Nat) :
    (w.sync s).2.sent d = w.sent d ++ if d = c then [.synced w.lastZxid] else [] := by
  have hsent : (w.sync s).2.sent d =
      (w.engine.hub.table.deliver s (.synced w.lastZxid)).2.sent d := by
    rw [sent, hw.sync_engine]
    rfl
  rw [hsent]
  rcases w.engine.hub.table.sent_deliver s (.synced w.lastZxid) d with ⟨hd, he⟩ | ⟨hd, he⟩
  · obtain rfl := Option.some.inj (hd.1.symm.trans hc.1)
    rw [he, if_pos rfl, sent]
  · have hne : d ≠ c := by
      rintro rfl
      exact hd hc
    rw [he, if_neg hne, List.append_nil, sent]

end Sync

variable [Sink σ]

theorem Ready.submit_cases (hw : w.Ready) (now : Time) (s : SessionId) (ops : List Op) :
    ((w.submit now s ops).2.engine.tree = w.engine.tree ∧
        (w.submit now s ops).2.engine.hub = w.engine.hub) ∨
      (w.submit now s ops).2.lastZxid = w.lastZxid.next ∧
        ∃ es, (w.submit now s ops).2.engine.hub =
          w.engine.hub.change (.publish w.lastZxid.next es) := by
  obtain ⟨way, hway⟩ := Engine.submit_ends w.engine w.log now s ops
  cases way with
  | halted =>
      obtain ⟨cause, -, -, he, -⟩ := hway
      exact .inl ⟨congrArg Engine.tree he, congrArg Engine.hub he⟩
  | rejected =>
      obtain ⟨-, r, -, -, hsame, -⟩ := hway
      exact .inl ⟨hsame.tree, hsame.hub⟩
  | readOnly =>
      obtain ⟨-, -, plan, -, -, hsame, -⟩ := hway
      exact .inl ⟨hsame.tree, hsame.hub⟩
  | unrecorded =>
      obtain ⟨-, -, plan, f, -, -, -, htree, hhub, -⟩ := hway
      exact .inl ⟨htree, hhub⟩
  | recorded =>
      obtain ⟨-, -, plan, -, -, -, -, hz, hann⟩ := hway
      obtain ⟨hhub, -⟩ := Store.announced_hub hann
      rw [hw.unpoisoned, if_neg Bool.false_ne_true] at hhub
      exact .inr ⟨hz, _, hhub⟩

theorem Ready.turn_submit (hw : w.Ready) (now : Time) (s : SessionId) (ops : List Op) :
    w.Turn (w.submit now s ops).2 := by
  rcases hw.submit_cases now s ops with ⟨htree, hhub⟩ | ⟨hz, es, hhub⟩
  · exact .still htree hhub
  · exact .batch hz hhub

/-- One request that the writer answers, or one call of a session on the watches. -/
inductive Step (w : Writer σ) : Writer σ → Prop
  | submit (now : Time) (s : SessionId) (ops : List Op) : Step w (w.submit now s ops).2
  | sync (s : SessionId) : Step w (w.sync s).2
  | watchAndRead (s : SessionId) (p : String) (mask : Mask) (required : Bool) :
      Step w (w.watchAndRead s p mask required).2
  | attach {s : SessionId} {c : Nat} {hub : Hub} :
      w.engine.hub.attach s = .ok (c, hub) → Step w (w.withHub hub)
  | detach {s : SessionId} {n : Nat} {hub : Hub} :
      w.engine.hub.detach s = .ok (n, hub) → Step w (w.withHub hub)
  | register {s : SessionId} {p : String} {mask : Mask} {h : Handle} {hub : Hub} :
      w.engine.hub.register s p mask = .ok (h, hub) → Step w (w.withHub hub)
  | cancel {h : Handle} {b : Bool} {hub : Hub} :
      w.engine.hub.cancel h = .ok (b, hub) → Step w (w.withHub hub)
  | receive (c : Nat) (receipt : Receipt) :
      Step w (w.withHub (w.engine.hub.receive c receipt.apply))

theorem Step.turn (h : w.Step w') (hw : w.Ready) : w.Turn w' := by
  cases h with
  | submit now s ops => exact hw.turn_submit now s ops
  | sync s => exact hw.turn_sync s
  | watchAndRead s p mask required => exact w.turn_watchAndRead s p mask required
  | attach hatt =>
      obtain ⟨-, -, hhub⟩ := Hub.attach_ok hatt
      exact turn_hub hhub (by simp) (by simp)
  | detach hdet =>
      rw [Hub.detach_eq, hw.unpoisoned, if_neg Bool.false_ne_true] at hdet
      exact turn_hub (Prod.mk.inj (Except.ok.inj hdet)).2.symm (by simp) (by simp)
  | register hreg =>
      obtain ⟨-, -, -, hhub⟩ := Hub.register_ok hreg
      exact turn_hub hhub (by simp) (by simp)
  | cancel hcan =>
      rw [Hub.cancel_eq, hw.unpoisoned, if_neg Bool.false_ne_true] at hcan
      exact turn_hub (Prod.mk.inj (Except.ok.inj hcan)).2.symm (by simp) (by simp)
  | receive c receipt => exact turn_hub (m := .receive c receipt) rfl (by simp) (by simp)

/-- Steps that lead from one writer to another and commit so many batches. -/
inductive Leads (w : Writer σ) : Nat → Writer σ → Prop
  | refl : w.Leads 0 w
  | step {n : Nat} {w' w'' : Writer σ} :
      w.Leads n w' → w'.Step w'' → w.Leads (n + w'.lastZxid.passed w''.lastZxid) w''

variable {n k : Nat} {w'' : Writer σ}

theorem Leads.single (h : w.Step w') : w.Leads (w.lastZxid.passed w'.lastZxid) w' :=
  Nat.zero_add (w.lastZxid.passed w'.lastZxid) ▸ Leads.refl.step h

theorem Leads.self (w : Writer σ) : w.Leads (w.lastZxid.passed w.lastZxid) w :=
  (Zxid.passed_self w.lastZxid).symm ▸ .refl

theorem Leads.trans (h : w.Leads n w') (h' : w'.Leads k w'') : w.Leads (n + k) w'' := by
  induction h' with
  | refl => exact h
  | step _ hstep ih => exact Nat.add_assoc .. ▸ ih.step hstep

theorem Leads.ready (h : w.Leads n w') (hw : w.Ready) : w'.Ready := by
  induction h with
  | refl => exact hw
  | step _ hstep ih => exact (hstep.turn ih).ready ih

theorem Leads.lastZxid_eq (h : w.Leads n w') (hw : w.Ready) :
    w'.lastZxid = w.lastZxid.after n := by
  induction h with
  | refl => rfl
  | step hlead hstep ih =>
      have hready := hlead.ready hw
      rw [Zxid.after_add, ← ih]
      exact (hstep.turn hready).lastZxid_eq hready

theorem Leads.sent (h : w.Leads n w') (hw : w.Ready) (c : Nat) :
    ∃ rest, w'.sent c = w.sent c ++ rest := by
  induction h with
  | refl => exact ⟨[], (List.append_nil _).symm⟩
  | step hlead hstep ih =>
      have hready := hlead.ready hw
      obtain ⟨first, hfirst⟩ := ih
      obtain ⟨rest, hrest, -⟩ := (hstep.turn hready).sent hready c
      exact ⟨first ++ rest, by rw [hrest, hfirst, List.append_assoc]⟩

variable {t : Tree} {log : σ}

end Writer

namespace Store

variable {st : Store}

theorem leads_move (st : Store) (m : Move) :
    st.writer.Leads (st.tree.lastZxid.passed (st.move m).tree.lastZxid) (st.move m).writer := by
  cases m with
  | submit now s ops =>
      simp only [move, Store.submit]
      split
      · exact .self _
      · split
        · exact .self _
        · exact .single (.submit now s ops)
  | sync s =>
      simp only [move, Store.sync]
      split
      · exact .self _
      · exact .single (.sync s)
  | watchAndRead s p mask required =>
      simp only [move, Store.watchAndRead]
      split
      · exact .self _
      · exact .single (.watchAndRead s p mask required)
  | connect =>
      simp only [move, Store.connect]
      split <;> rename_i h
      · exact .self _
      · exact .single (.attach h)
  | detach s =>
      simp only [move]
      split <;> rename_i h
      · exact .single (.detach h)
      · exact .self _
  | watch s p mask =>
      simp only [move]
      split <;> rename_i h
      · exact .single (.register h)
      · exact .self _
  | cancel h =>
      simp only [move, Session.cancel]
      split <;> rename_i h
      · exact .self _
      · exact .single (.cancel h)
  | receive c receipt => exact .single (.receive c receipt)
  | stop => exact .self _

theorem leads_moveAll (st : Store) (ms : List Move) :
    st.writer.Leads (st.commits ms) (st.moveAll ms).writer := by
  induction ms generalizing st with
  | nil => exact .refl
  | cons m ms ih => exact (st.leads_move m).trans (ih _)

end Store

end Coordination
