import Coordination.Proofs.Departure
import Coordination.Proofs.SyncBarrier

/-!
The two ends of a channel. Notifications are put on at one end and taken off at the other, in order
(`Watch.Table.Flow`). What a session does comes down to moves on its own channel (`Session.Makes`),
so as long as sessions and the writer are the only ones to act, an open session hears its channel
and nobody else takes from it (`World.Attended`).
-/

namespace Coordination

open Journal (Disk)
open Watch (Change Hub Notification Receipt Table)

namespace Watch.Table

def taken (t : Table) (c : Nat) : Nat := ((t.channel? c).map Channel.taken).getD 0

variable {t t' t'' : Table} {c : Nat} {s : SessionId} {m : Notification} {ns : List Notification}
variable {added off added' off' : List Notification}

theorem queued_eq (t : Table) (c : Nat) : t.queued c = (t.sent c).drop (t.taken c) := by
  rw [queued, sent, taken]
  cases t.channel? c <;> rfl

theorem taken_congr (h : t'.channels = t.channels) (c : Nat) : t'.taken c = t.taken c := by
  rw [taken, channel?, h, taken, channel?]

theorem taken_of_le (h : t.channels.length ≤ c) : t.taken c = 0 := by
  rw [taken, channel?, List.getElem?_eq_none h]
  rfl

theorem taken_attach (t : Table) (s : SessionId) (c : Nat) :
    (t.attach s).2.taken c = t.taken c := by
  rcases Nat.lt_trichotomy c t.channels.length with hc | rfl | hc
  · simp only [taken, channel?, attach, List.getElem?_append_left hc]
  · simp [taken, channel?, attach, Channel.fresh]
  · rw [taken_of_le (Nat.le_of_lt hc)]
    exact taken_of_le (by simpa [attach] using Nat.succ_le_of_lt hc)

theorem taken_modifyChannel {d : Nat} {f : Channel → Channel}
    (hf : d = c → ∀ ch, (f ch).taken = ch.taken) : (t.modifyChannel d f).taken c = t.taken c := by
  simp only [taken, channel?, modifyChannel, List.getElem?_modify]
  cases t.channels[c]? with
  | none => rfl
  | some ch =>
      split <;> rename_i hd
      · exact hf hd ch
      · rfl

theorem Sound.taken_change (ht : t.Sound) {m : Change}
    (hm : ∀ receipt, m = .receive c receipt → receipt = .close) :
    (t.change m).taken c = t.taken c := by
  cases m with
  | attach s => exact taken_attach t s c
  | detach s => exact taken_congr (ht.frame_detach s).2.2 c
  | register s p mask => rfl
  | cancel h => exact taken_congr (frame_unlink t h).2.2 c
  | publish zxid es =>
      rw [taken, Table.change, channel?_publish, taken]
      cases t.channel? c <;> rfl
  | mark s zxid =>
      rw [taken, Table.change, channel?_deliver, taken]
      cases t.channel? c with
      | none => rfl
      | some ch => by_cases hs : t.Hears s c <;> simp [hs, Channel.send]
  | receive d receipt =>
      refine taken_modifyChannel fun hd ch => ?_
      obtain rfl := hm receipt (by rw [hd])
      rfl

theorem Hears.change (h : t.Hears s c) (ht : t.Sound) {m : Change} (hattach : m ≠ .attach s)
    (hdetach : m ≠ .detach s) (hclose : m ≠ .receive c .close) : (t.change m).Hears s c := by
  have hlt : c < t.channels.length := ht.opened h.1
  cases m with
  | attach s' =>
      obtain ⟨hatt, ch, hch, hl⟩ := h
      have hne : s ≠ s' := fun he => hattach (he ▸ rfl)
      refine ⟨?_, ch, ?_, hl⟩
      · simpa [Table.change, attach, Dict.get?_insert, hne] using hatt
      · simpa [Table.change, attach, channel?, List.getElem?_append_left hlt] using hch
  | detach s' =>
      obtain ⟨-, hatt, hch⟩ := ht.frame_detach s'
      have hne : s ≠ s' := fun he => hdetach (he ▸ rfl)
      simpa [Hears, Table.change, channel?, hatt, hch, Dict.get?_erase, hne] using h
  | register s' p mask => exact h
  | cancel k =>
      obtain ⟨-, hatt, hch⟩ := frame_unlink t k
      simpa only [Hears, Table.change, channel?, hatt, hch] using h
  | publish zxid es => exact hears_publish.2 h
  | mark s' zxid => exact (frame_deliver t s' _).hears.2 h
  | receive d receipt =>
      obtain ⟨hatt, ch, hch, hl⟩ := h
      rw [channel?] at hch
      refine ⟨hatt, if d = c then receipt.apply ch else ch, ?_, ?_⟩
      · simp only [Table.change, channel?, modifyChannel, List.getElem?_modify, hch]
        rfl
      · split <;> rename_i hd
        · cases receipt with
          | one => exact hl
          | all => exact hl
          | close => exact absurd (by rw [hd]) hclose
        · exact hl

theorem hears_attach (t : Table) (s : SessionId) :
    (t.change (.attach s)).Hears s t.channels.length :=
  ⟨by simp [Table.change, attach], .fresh,
    by simp [Table.change, attach, channel?], rfl⟩

theorem empty_attach (t : Table) (s : SessionId) :
    (t.change (.attach s)).sent t.channels.length = [] ∧
      (t.change (.attach s)).taken t.channels.length = 0 ∧
      (t.change (.attach s)).queued t.channels.length = [] := by
  have hsent : (t.change (.attach s)).sent t.channels.length = [] :=
    (sent_attach t s _).trans (sent_of_le (Nat.le_refl _))
  have htaken : (t.change (.attach s)).taken t.channels.length = 0 :=
    (taken_attach t s _).trans (taken_of_le (Nat.le_refl _))
  exact ⟨hsent, htaken, by rw [queued_eq, hsent, List.drop_nil]⟩

/-- From one table to the other, `added` is put on channel `c` and `off` is taken off it. -/
structure Flow (t t' : Table) (c : Nat) (added off : List Notification) : Prop where
  sent : t'.sent c = t.sent c ++ added
  taken : t'.taken c = t.taken c + off.length
  queued : t.queued c ++ added = off ++ t'.queued c

namespace Flow

theorem refl (t : Table) (c : Nat) : t.Flow t c [] [] := ⟨by simp, rfl, by simp⟩

theorem trans (h : t.Flow t' c added off) (h' : t'.Flow t'' c added' off') :
    t.Flow t'' c (added ++ added') (off ++ off') where
  sent := by rw [h'.sent, h.sent, List.append_assoc]
  taken := by rw [h'.taken, h.taken, List.length_append, Nat.add_assoc]
  queued := by
    calc
      t.queued c ++ (added ++ added') = t.queued c ++ added ++ added' := by rw [List.append_assoc]
      _ = off ++ (t'.queued c ++ added') := by rw [h.queued, List.append_assoc]
      _ = off ++ off' ++ t''.queued c := by rw [h'.queued, List.append_assoc]

theorem within (h : t.Flow t' c added off) (ht : t.taken c ≤ (t.sent c).length) :
    t'.taken c ≤ (t'.sent c).length := by
  have hlength := congrArg List.length h.queued
  simp only [List.length_append, queued_eq, List.length_drop] at hlength
  rw [h.sent, List.length_append] at hlength ⊢
  rw [h.taken] at hlength ⊢
  omega

theorem queued_eq_of_append (h : t.Flow t' c added off) (hq : t.queued c ++ added = off ++ ns) :
    t'.queued c = ns :=
  List.append_cancel_left (h.queued.symm.trans hq)

theorem balanced (h : t.Flow t' c added off) {before handed : List Notification}
    (hoff : off.filter Notification.isEvent = handed.filter Notification.isEvent)
    (hbefore : before.filter Notification.isEvent ++ (t.queued c).filter Notification.isEvent =
      (t.sent c).filter Notification.isEvent) :
    (before ++ handed).filter Notification.isEvent ++ (t'.queued c).filter Notification.isEvent =
      (t'.sent c).filter Notification.isEvent := by
  calc
    (before ++ handed).filter Notification.isEvent ++ (t'.queued c).filter Notification.isEvent =
      before.filter Notification.isEvent ++ (off ++ t'.queued c).filter Notification.isEvent := by
      rw [List.filter_append, ← hoff, List.filter_append, List.append_assoc]
    _ = (t.sent c).filter Notification.isEvent ++ added.filter Notification.isEvent := by
      rw [← h.queued, List.filter_append, ← List.append_assoc, hbefore]
    _ = (t'.sent c).filter Notification.isEvent := by rw [h.sent, List.filter_append]

theorem untaken (hsent : t'.sent c = t.sent c ++ added) (htaken : t'.taken c = t.taken c)
    (ht : t.taken c ≤ (t.sent c).length) : t.Flow t' c added [] where
  sent := hsent
  taken := htaken
  queued := by
    rw [queued_eq, queued_eq, hsent, htaken, List.drop_append_of_le_length ht]
    rfl

theorem receive_one (h : t.queued c = m :: ns) : t.Flow (t.change (.receive c .one)) c [] [m] := by
  have hsent : (t.change (.receive c .one)).sent c = t.sent c := sent_modifyChannel fun _ => rfl
  have htaken : (t.change (.receive c .one)).taken c = t.taken c + 1 := by
    rw [Table.queued] at h
    cases hch : t.channel? c with
    | none =>
        rw [hch] at h
        cases h
    | some ch =>
        rw [channel?] at hch
        simp [Table.taken, channel?, Table.change, modifyChannel, hch, Receipt.apply,
          Channel.takeOne]
  refine ⟨by rw [hsent, List.append_nil], htaken, ?_⟩
  have hrest : (t.change (.receive c .one)).queued c = ns := by
    rw [queued_eq, hsent, htaken, ← List.drop_drop, ← queued_eq, h]
    rfl
  rw [h, hrest, List.append_nil]
  rfl

end Flow

end Watch.Table

theorem Watch.Hub.unattached_of_attach {hub hub' : Hub} {s : SessionId} {c : Nat}
    (h : hub.attach s = .ok (c, hub')) : hub.table.attached.contains s = false := by
  unfold Hub.attach at h
  split at h
  · cases h
  · rename_i t hlock
    obtain rfl : hub.table = t := by
      rw [Hub.lock] at hlock
      split at hlock
      · cases hlock
      · exact Except.ok.inj hlock
    split at h <;> rename_i hs
    · cases h
    · simpa using hs

namespace Store

variable {st st' : Store} {m : Move} {P : Move → Prop} {s : SessionId} {c : Nat}

def Move.IsRequest : Move → Prop
  | .submit .. | .sync _ | .watchAndRead .. => True
  | _ => False

theorem sound_move (ht : st.hub.table.Sound) (m : Move) : (st.move m).hub.table.Sound := by
  rcases st.table_move m with htable | ⟨x, -, -, htable⟩ <;> rw [htable]
  · exact ht
  · exact ht.change x

theorem taken_move (ht : st.hub.table.Sound)
    (hm : ∀ receipt, m = .receive c receipt → receipt = .close) :
    (st.move m).hub.table.taken c = st.hub.table.taken c := by
  rcases st.table_move m with htable | ⟨x, hx, -, htable⟩ <;> rw [htable]
  refine ht.taken_change fun receipt he => hm receipt ?_
  subst he
  cases m <;> simp_all [Move.Brings, Move.change?]

theorem hears_move (ht : st.hub.table.Sound) (h : st.hub.table.Hears s c) (hconnect : m ≠ .connect)
    (hdetach : m ≠ .detach s) (hclose : m ≠ .receive c .close) :
    (st.move m).hub.table.Hears s c := by
  rcases st.table_move m with htable | ⟨x, hx, -, htable⟩ <;> rw [htable]
  · exact h
  · refine h.change ht ?_ ?_ ?_ <;> rintro rfl <;> cases m <;> simp_all [Move.Brings, Move.change?]

theorem unattached_of_connect {X : Session} (h : st.connect.1 = .ok X) :
    st.hub.table.attached.contains st.nextSession = false := by
  unfold Store.connect at h
  dsimp only at h
  split at h <;> rename_i hattach
  · cases h
  · exact Hub.unattached_of_attach hattach

namespace MovedBy

theorem taken (h : st.MovedBy P st') (ht : st.hub.table.Sound)
    (hP : ∀ receipt, P (.receive c receipt) → receipt = .close) :
    st'.hub.table.taken c = st.hub.table.taken c := by
  obtain ⟨ms, hms, rfl⟩ := h
  induction ms generalizing st with
  | nil => rfl
  | cons m ms ih =>
      obtain ⟨hm, hms⟩ := List.forall_mem_cons.1 hms
      exact (ih (sound_move ht m) hms).trans (taken_move ht fun receipt he => hP receipt (he ▸ hm))

theorem hears (h : st.MovedBy P st') (ht : st.hub.table.Sound) (hs : st.hub.table.Hears s c)
    (hconnect : ¬P .connect) (hdetach : ¬P (.detach s)) (hclose : ¬P (.receive c .close)) :
    st'.hub.table.Hears s c := by
  obtain ⟨ms, hms, rfl⟩ := h
  induction ms generalizing st with
  | nil => exact hs
  | cons m ms ih =>
      obtain ⟨hm, hms⟩ := List.forall_mem_cons.1 hms
      refine ih (sound_move ht m) (hears_move ht hs ?_ ?_ ?_) hms <;> rintro rfl
      · exact hconnect hm
      · exact hdetach hm
      · exact hclose hm

theorem running (h : st.MovedBy P st') (hP : ¬P .stop) : st'.running = st.running := by
  obtain ⟨ms, hms, rfl⟩ := h
  induction ms generalizing st with
  | nil => rfl
  | cons m ms ih =>
      obtain ⟨hm, hms⟩ := List.forall_mem_cons.1 hms
      exact (ih hms).trans (st.running_move fun he => hP (he ▸ hm))

end MovedBy

end Store

theorem Session.close_answered (X : Session) {st : Store} (hp : st.hub.poisoned = false) :
    (X.close st).1 = .ok () := by
  unfold Session.close
  rw [Hub.detach_eq, hp]
  split <;> rfl

namespace World

variable {w : World} {a : Act} {i : Nat} {X : Session}

/-- An act of a session or of the writer: nobody calls on the table, and the writer stays. -/
def Act.isOrdinary : Act → Bool
  | .call .. | .serve .. => true
  | .watches _ | .stop => false

def Act.call? (n : Nat) : Act → Option Session.Call
  | .call _ (.session k c) => if k = n then some c else none
  | .call _ (.drop k) => if k = n then some .close else none
  | _ => none

theorem call?_eq_some {call : Session.Call} (h : a.call? i = some call) :
    (∃ now, a = .call now (.session i call)) ∨ call = .close ∧ ∃ now, a = .call now (.drop i) := by
  cases a with
  | serve now request => cases h
  | watches c => cases h
  | stop => cases h
  | call now c =>
      cases c with
      | connect => cases h
      | session k c =>
          obtain ⟨rfl, he⟩ := Option.ite_none_right_eq_some.1 h
          obtain rfl := Option.some.inj he
          exact .inl ⟨now, rfl⟩
      | drop k =>
          obtain ⟨rfl, he⟩ := Option.ite_none_right_eq_some.1 h
          exact .inr ⟨(Option.some.inj he).symm, now, rfl⟩

def Makes (w : World) (a : Act) (m : Store.Move) : Prop :=
  m.IsRequest ∨ ∃ k Y call, w.session? k = some Y ∧ a.call? k = some call ∧ Y.Makes call m

theorem step_makes (hordinary : a.isOrdinary = true) (hconnect : a.connects = false) :
    w.store.MovedBy (w.Makes a) (w.step a).store := by
  cases a with
  | watches call => cases hordinary
  | stop => cases hordinary
  | serve now request =>
      cases request with
      | submit s ops => exact .one (m := .submit now s ops) (.inl trivial)
      | sync s => exact .one (m := .sync s) (.inl trivial)
      | watch s p mask required => exact .one (m := .watchAndRead s p mask required) (.inl trivial)
  | call now call =>
      cases call with
      | connect => cases hconnect
      | session k call =>
          simp only [store, step, Server.step]
          split
          · exact .refl _ _
          · rename_i Y hY
            exact (Y.perform_makes w.store now call).mono fun m hm =>
              .inr ⟨k, Y, call, hY, if_pos rfl, hm⟩
      | drop k =>
          simp only [store, step, Server.step]
          split
          · exact .refl _ _
          · rename_i Y hY
            exact (Y.drop_makes w.store).mono fun m hm => .inr ⟨k, Y, .close, hY, if_pos rfl, hm⟩

theorem step_moved (hordinary : a.isOrdinary = true) :
    w.store.MovedBy (· ≠ .stop) (w.step a).store := by
  cases hconnect : a.connects with
  | true =>
      obtain ⟨now, rfl⟩ := Act.eq_connect hconnect
      rw [store_connect]
      exact .one (m := .connect) (by simp)
  | false =>
      refine (step_makes hordinary hconnect).mono fun m hm => ?_
      rintro rfl
      rcases hm with hm | ⟨_, _, _, -, -, hm⟩ <;> exact hm

theorem step_quiet (hordinary : a.isOrdinary = true) (hbatch : w.batch? a = none) :
    w.store.MovedBy (fun m => ∀ now s ops, m ≠ .submit now s ops) (w.step a).store := by
  cases a with
  | watches call => cases hordinary
  | stop => cases hordinary
  | serve now request =>
      cases request with
      | submit s ops => cases hbatch
      | sync s => exact .one (m := .sync s) (by simp)
      | watch s p mask required => exact .one (m := .watchAndRead s p mask required) (by simp)
  | call now call =>
      have hmakes : ∀ {Y : Session} {call : Session.Call} {m : Store.Move}, call.ops? = none →
          Y.Makes call m → ∀ now s ops, m ≠ .submit now s ops := by
        rintro Y call m hops hm now s ops rfl
        cases hops.symm.trans hm.2
      cases call with
      | connect =>
          rw [store_connect]
          exact .one (m := .connect) (by simp)
      | session k call =>
          simp only [store, step, Server.step]
          split
          · exact .refl _ _
          · rename_i Y hY
            have hops : call.ops? = none := by
              cases hops : call.ops? with
              | none => rfl
              | some ops => simp [batch?, session?, hY, hops] at hbatch
            exact (Y.perform_makes w.store now call).mono fun _ => hmakes hops
      | drop k =>
          simp only [store, step, Server.step]
          split
          · exact .refl _ _
          · rename_i Y hY
            exact (Y.drop_makes w.store).mono fun _ => hmakes rfl

theorem led_step (hordinary : a.isOrdinary = true) :
    w.store.writer.Leads (w.tree.lastZxid.passed (w.step a).tree.lastZxid)
      (w.step a).store.writer := by
  cases hbatch : w.batch? a with
  | some b =>
      obtain ⟨s, ops⟩ := b
      rw [tree, tree]
      rcases store_of_batch hbatch with hst | ⟨now, hst⟩ <;> rw [hst]
      · exact .self _
      · exact w.store.leads_move (.submit now s ops)
  | none =>
      obtain ⟨ms, hms, hst⟩ := step_quiet hordinary hbatch
      obtain ⟨hzero, htree⟩ := w.store.commits_eq_zero hms
      rw [tree, tree, hst, htree, Zxid.passed_self, ← hzero]
      exact w.store.leads_moveAll ms

theorem unattached_of_opens {s : SessionId} (h : w.opens? a = some s) :
    w.table.attached.contains s = false := by
  obtain ⟨hconnect, rfl⟩ := opens?_eq h
  obtain ⟨now, rfl⟩ := Act.eq_connect hconnect
  simp only [opens?, Server.step, Server.connect] at h
  generalize hconn : w.server.store.connect = r at h
  obtain ⟨answer, st⟩ := r
  cases answer with
  | error f => cases h
  | ok Y => exact Store.unattached_of_connect (congrArg Prod.fst hconn)

/-- Sessions and the writer have been alone with a store. An open session hears its channel, and
nobody else holds that. -/
structure Attended (w : World) : Prop where
  held : ∃ ids, w.Held ids
  ready : w.store.writer.Ready
  running : w.store.running = true
  hears : ∀ {i X}, w.session? i = some X → X.active = true → w.table.Hears X.id X.channel
  apart : ∀ {i j X Y}, w.session? i = some X → w.session? j = some Y → X.channel = Y.channel → i = j

namespace Attended

theorem sound (h : w.Attended) : w.table.Sound :=
  h.held.elim fun _ => Held.sound

variable {Y : Session}

theorem takes_of_makes (h : w.Attended) (hX : w.session? i = some X) {receipt : Receipt}
    (hm : w.Makes a (.receive X.channel receipt)) (hne : receipt ≠ .close) :
    ∃ call, a.call? i = some call ∧ call.takes = true := by
  rcases hm with hm | ⟨k, Y, call, hY, hcall, hm⟩
  · exact hm.elim
  · cases receipt with
    | one =>
        obtain rfl := h.apart hX hY hm.1
        exact ⟨call, hcall, hm.2⟩
    | all => exact hm.elim
    | close => exact absurd rfl hne

theorem close_of_makes (h : w.Attended) (hX : w.session? i = some X)
    (hm : w.Makes a (.receive X.channel .close)) : a.call? i = some .close := by
  rcases hm with hm | ⟨k, Y, call, hY, hcall, hchannel, rfl⟩
  · exact hm.elim
  · obtain rfl := h.apart hX hY hchannel
    exact hcall

theorem close_of_detach (h : w.Attended) (hX : w.session? i = some X) (hactive : X.active = true)
    (hm : w.Makes a (.detach X.id)) : a.call? i = some .close := by
  rcases hm with hm | ⟨k, Y, call, hY, hcall, hid, hopen, rfl⟩
  · exact hm.elim
  -- two open sessions of one number hear the same channel, and no two hold one
  · have hears := (h.hears hX hactive).1
    rw [hid, (h.hears hY hopen).1] at hears
    obtain rfl := h.apart hX hY (Option.some.inj hears).symm
    exact hcall

theorem taken_step (h : w.Attended) (hordinary : a.isOrdinary = true)
    (hX : w.session? i = some X) (hcall : ∀ call, a.call? i = some call → call.takes = false) :
    (w.step a).table.taken X.channel = w.table.taken X.channel := by
  cases hconnect : a.connects with
  | true =>
      obtain ⟨now, rfl⟩ := Act.eq_connect hconnect
      rcases w.connect_cases now with ⟨-, -, htable⟩ | ⟨-, -, htable⟩ <;> rw [htable]
      exact h.sound.taken_change (by simp)
  | false =>
      refine (step_makes hordinary hconnect).taken h.sound fun receipt hm => ?_
      by_contra hne
      obtain ⟨call, hsome, htakes⟩ := h.takes_of_makes hX hm hne
      exact absurd ((hcall call hsome).symm.trans htakes) (by decide)

theorem hears_step (h : w.Attended) (hordinary : a.isOrdinary = true)
    (hX : w.session? i = some X) (hactive : X.active = true) (hcall : a.call? i ≠ some .close) :
    (w.step a).table.Hears X.id X.channel := by
  have hears := h.hears hX hactive
  cases hconnect : a.connects with
  | true =>
      obtain ⟨now, rfl⟩ := Act.eq_connect hconnect
      rcases w.connect_cases now with ⟨-, -, htable⟩ | ⟨hopens, -, htable⟩ <;> rw [htable]
      · exact hears
      · refine hears.change h.sound ?_ (by simp) (by simp)
        intro he
        have hattached : w.table.attached.contains X.id = true := by
          rw [Dict.contains, hears.1]
          rfl
        rw [← Change.attach.inj he, unattached_of_opens hopens] at hattached
        cases hattached
  | false =>
      refine (step_makes hordinary hconnect).hears h.sound hears ?_ ?_ ?_ <;> intro hm
      · rcases hm with hm | ⟨_, _, _, -, -, hm⟩ <;> exact hm
      · exact hcall (h.close_of_detach hX hactive hm)
      · exact hcall (h.close_of_makes hX hm)

theorem ne_close_of_active (h : w.Attended) (hY : (w.step a).session? i = some Y)
    (hactive : Y.active = true) : a.call? i ≠ some .close := by
  intro hcall
  rcases call?_eq_some hcall with ⟨now, rfl⟩ | ⟨-, now, rfl⟩
  · cases hX : w.session? i with
    | none =>
        have hX' : w.server.session? i = none := hX
        simp only [session?, step, Server.step, hX'] at hY
        cases hY
    | some X =>
        have hclosed : (w.step (.call now (.session i .close))).session? i =
            some { X with active := false } :=
          (step_close hX (X.close_answered h.ready.unpoisoned)).1
        obtain rfl := Option.some.inj (hY.symm.trans hclosed)
        cases hactive
  · cases hX : w.server.session? i with
    | none =>
        simp only [session?, step, Server.step, hX] at hY
        cases hY
    | some X =>
        simp only [session?, step, Server.step, hX] at hY
        rw [Server.session?, List.getElem?_set, if_pos rfl] at hY
        split at hY <;> cases hY

theorem step (h : w.Attended) (hordinary : a.isOrdinary = true) : (w.step a).Attended := by
  have hmoved := step_moved (w := w) hordinary
  obtain ⟨ids, hheld⟩ := h.held
  refine ⟨⟨_, hheld.step a⟩, ?_, ?_, fun {i Y} hY hactive => ?_, fun {i j X Y} hX hY he => ?_⟩
  · exact (led_step hordinary).ready h.ready
  · rw [hmoved.running (by simp)]
    exact h.running
  · rcases session?_step hY with ⟨X, hX, hb⟩ | ⟨-, -, -, hchannel, htable⟩
    · rw [hb.id, hb.channel]
      exact h.hears_step hordinary hX (hb.active hactive) (h.ne_close_of_active hY hactive)
    · rw [hchannel, htable]
      exact Table.hears_attach w.table Y.id
  · have hold : ∀ {k Z}, w.session? k = some Z → Z.channel < w.table.channels.length :=
      fun hZ => (hheld.channel _ _ hZ).opened
    rcases session?_step hX with ⟨X', hX', hbX⟩ | ⟨-, hi, -, hchannel, -⟩ <;>
      rcases session?_step hY with ⟨Y', hY', hbY⟩ | ⟨-, hj, -, hchannel', -⟩
    · exact h.apart hX' hY' (by rw [← hbX.channel, ← hbY.channel, he])
    · have hlt := hold hX'
      rw [← hbX.channel, he, hchannel'] at hlt
      exact absurd hlt (Nat.lt_irrefl _)
    · have hlt := hold hY'
      rw [← hbY.channel, ← he, hchannel] at hlt
      exact absurd hlt (Nat.lt_irrefl _)
    · rw [hi, hj]

theorem run (h : w.Attended) {acts : List Act} (hacts : ∀ a ∈ acts, a.isOrdinary = true) :
    (w.run acts).Attended := by
  induction acts generalizing w with
  | nil => exact h
  | cons a acts ih =>
      obtain ⟨ha, hacts⟩ := List.forall_mem_cons.1 hacts
      exact ih (h.step ha) hacts

end Attended

end World

end Coordination
