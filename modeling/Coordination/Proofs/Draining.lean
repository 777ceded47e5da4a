import Coordination.Proofs.Flow

/-!
A drain asks for a marker and takes up to the first one of that number, which may be an older marker
that was left behind. No event stands between the two (`Notification.first_marker`), so the events
that a session is handed, one at a time or by drains, are those put on its channel, in order.
-/

namespace Coordination

open Journal (Disk)
open Watch (Notification Table)

namespace Session

def Answer.handed : Answer → List Notification
  | .notification? n => n.toList
  | .received (.notification n) => [n]
  | .notifications ns => ns
  | _ => []

variable {X : Session} {st : Store} {z : Zxid} {m : Notification} {ns : List Notification}

theorem next_cons (h : X.queued st = m :: ns) :
    X.next st = (.notification m, st.move (.receive X.channel .one)) := by
  rw [next, h]
  rfl

theorem next_nil (h : X.queued st = []) :
    X.next st = (.waiting, st) ∨ X.next st = (.closed, st) := by
  rw [next, h]
  dsimp only
  split
  · exact .inl rfl
  · exact .inr rfl

theorem flow_next (h : X.queued st = m :: ns) :
    st.hub.table.Flow (st.move (.receive X.channel .one)).hub.table X.channel [] [m] :=
  .receive_one h

theorem queued_next (h : X.queued st = m :: ns) :
    X.queued (st.move (.receive X.channel .one)) = ns := by
  refine (flow_next h).queued_eq_of_append ?_
  rw [← queued, h, List.append_nil, List.singleton_append]

theorem takeUntil_first {before after : List Notification} (hfirst : .synced z ∉ before)
    {limit : Nat} (hlimit : before.length < limit)
    (hq : X.queued st = before ++ .synced z :: after) :
    (X.takeUntil st z limit).1 = .ok (before.filter Notification.isEvent) ∧
      st.hub.table.Flow (X.takeUntil st z limit).2.hub.table X.channel []
        (before ++ [.synced z]) := by
  induction before generalizing st limit with
  | nil =>
      obtain ⟨limit, rfl⟩ := Nat.exists_eq_add_one_of_ne_zero (Nat.ne_of_gt hlimit)
      rw [takeUntil, next_cons hq]
      simp only [if_pos]
      exact ⟨rfl, flow_next hq⟩
  | cons m before ih =>
      obtain ⟨limit, rfl⟩ :=
        Nat.exists_eq_add_one_of_ne_zero (Nat.ne_of_gt (Nat.zero_lt_of_lt hlimit))
      rw [List.mem_cons, not_or] at hfirst
      obtain ⟨hne, hfirst⟩ := hfirst
      obtain ⟨hanswer, hflow⟩ := ih hfirst (Nat.lt_of_succ_lt_succ hlimit) (queued_next hq)
      have hall := (flow_next hq).trans hflow
      rw [takeUntil, next_cons hq]
      cases m with
      | synced z' =>
          have hz : z' ≠ z := fun he => hne (he ▸ rfl)
          simp only [if_neg hz]
          exact ⟨hanswer, hall⟩
      | event h p k z' =>
          dsimp only
          generalize X.takeUntil (st.move (.receive X.channel .one)) z limit = r at hanswer hall ⊢
          obtain ⟨answer, st'⟩ := r
          obtain rfl : answer = .ok _ := hanswer
          exact ⟨rfl, hall⟩

theorem drain_of_closed (hX : X.active = false) :
    X.drainUntilSynced st = (.error (.sessionClosed X.id), st) := by
  have hcheck : X.checkActive = .error (.sessionClosed X.id) := if_neg (by simp [hX])
  simp only [drainUntilSynced, sync, hcheck]

theorem handed_reply {α : Type} {of : α → Answer} (hof : ∀ a, (of a).handed = [])
    (r : Except Fault α × Store) : (X.reply of r).1.handed = [] := by
  obtain ⟨answer, st⟩ := r
  cases answer with
  | ok a => exact hof a
  | error f => rfl

theorem handed_of_not_takes {call : Call} (hcall : call.takes = false) (now : Time) :
    (X.perform st now call).1.handed = [] := by
  cases call with
  | tryNext | next | drain => cases hcall
  | transaction | info => rfl
  | close =>
      simp only [perform]
      cases (X.close st).1 <;> rfl
  | _ => exact handed_reply (fun _ => rfl) _

theorem flow_perform_next {call : Call} (hcall : call = .next ∨ call = .tryNext) (st : Store)
    (now : Time) :
    (X.perform st now call).1.handed = (X.queued st).take 1 ∧
      st.hub.table.Flow (X.perform st now call).2.2.hub.table X.channel []
        ((X.queued st).take 1) := by
  cases hq : X.queued st with
  | nil =>
      rcases hcall with rfl | rfl <;> rcases next_nil hq with hnext | hnext <;>
        simp only [perform, tryNext, hnext] <;> exact ⟨rfl, .refl _ _⟩
  | cons m ns =>
      rcases hcall with rfl | rfl
      · simp only [perform, next_cons hq]
        exact ⟨rfl, flow_next hq⟩
      · simp only [perform, tryNext, next_cons hq]
        exact ⟨rfl, flow_next hq⟩

end Session

namespace World

variable {w : World} {i : Nat} {X : Session}

namespace Attended

theorem sync_eq (h : w.Attended) (hX : w.session? i = some X) (hactive : X.active = true) :
    X.sync w.store = (.ok w.store.writer.lastZxid, w.store.move (.sync X.id)) := by
  have hanswer : (w.store.writer.sync X.id).1 = .ok w.store.writer.lastZxid :=
    h.ready.sync_ok_iff.2 ⟨rfl, _, h.hears hX hactive⟩
  have hcheck : X.checkActive = .ok () := if_pos hactive
  have hrunning : w.store.checkRunning = .ok () := if_pos h.running
  simp only [Session.sync, Store.sync, Store.move, hcheck, hrunning, hanswer]

theorem flow_sync (h : w.Attended) (hX : w.session? i = some X) (hactive : X.active = true)
    (hwithin : w.table.taken X.channel ≤ (w.table.sent X.channel).length) :
    w.table.Flow (w.store.move (.sync X.id)).hub.table X.channel
      [.synced w.store.writer.lastZxid] [] := by
  refine .untaken ?_ (Store.taken_move h.sound (by simp)) hwithin
  have hrunning : w.store.checkRunning = .ok () := if_pos h.running
  have hsent := h.ready.sent_sync (h.hears hX hactive) X.channel
  rw [if_pos rfl] at hsent
  simp only [Store.move, Store.sync, hrunning]
  exact hsent

theorem drain_eq (h : w.Attended) (hX : w.session? i = some X) (hactive : X.active = true)
    (hwithin : w.table.taken X.channel ≤ (w.table.sent X.channel).length) :
    ∃ before after, X.queued w.store ++ [.synced w.store.writer.lastZxid] =
        before ++ .synced w.store.writer.lastZxid :: after ∧
      .synced w.store.writer.lastZxid ∉ before ∧
      (X.drainUntilSynced w.store).1 = .ok (before.filter Notification.isEvent) ∧
      w.table.Flow (X.drainUntilSynced w.store).2.hub.table X.channel
        [.synced w.store.writer.lastZxid] (before ++ [.synced w.store.writer.lastZxid]) := by
  have hmem : Notification.synced w.store.writer.lastZxid ∈
      X.queued w.store ++ [.synced w.store.writer.lastZxid] :=
    List.mem_append_right _ (List.mem_singleton.2 rfl)
  obtain ⟨before, after, hsplit, hfirst⟩ := List.eq_append_cons_of_mem hmem
  have hsync := h.flow_sync hX hactive hwithin
  have hqueued : X.queued (w.store.move (.sync X.id)) =
      before ++ .synced w.store.writer.lastZxid :: after := by
    rw [← hsplit]
    exact hsync.queued.symm
  refine ⟨before, after, hsplit, hfirst, ?_⟩
  have hlimit : before.length < (X.queued (w.store.move (.sync X.id))).length + 1 := by
    rw [hqueued, List.length_append, List.length_cons]
    omega
  obtain ⟨hanswer, htake⟩ := Session.takeUntil_first hfirst hlimit hqueued
  rw [Session.drainUntilSynced, h.sync_eq hX hactive]
  exact ⟨hanswer, hsync.trans htake⟩

end Attended

end World

def Server.Answer.handed : Server.Answer → List Notification
  | .session answer => answer.handed
  | _ => []

namespace World

def handed (w : World) (n : Nat) : Act → List Notification
  | .call now (.session k call) =>
      if k = n then (w.server.step now (.session k call)).1.handed else []
  | _ => []

def handedAll (w : World) (n : Nat) : List Act → List Notification
  | [] => []
  | a :: acts => w.handed n a ++ (w.step a).handedAll n acts

variable {w : World} {a : Act} {i n : Nat} {X Y : Session} {call : Session.Call}

theorem handedAll_append (w : World) (n : Nat) (acts acts' : List Act) :
    w.handedAll n (acts ++ acts') = w.handedAll n acts ++ (w.run acts).handedAll n acts' := by
  induction acts generalizing w with
  | nil => rfl
  | cons a acts ih =>
      rw [List.cons_append, handedAll, ih, handedAll, List.append_assoc]
      rfl

theorem handed_call (hX : w.session? i = some X) (now : Time) (call : Session.Call) :
    w.handed i (.call now (.session i call)) = (X.perform w.store now call).1.handed ∧
      (w.step (.call now (.session i call))).store = (X.perform w.store now call).2.2 := by
  have hX' : w.server.session? i = some X := hX
  constructor
  · simp only [handed, Server.step, hX', if_pos]
    rfl
  · simp only [store, step, Server.step, hX']

theorem handed_of_not_called (h : a.call? n = none) : w.handed n a = [] := by
  cases a with
  | serve now request => rfl
  | watches call => rfl
  | stop => rfl
  | call now call =>
      cases call with
      | connect => rfl
      | drop k => rfl
      | session k call =>
          have hk : k ≠ n := fun he => by simp [Act.call?, he] at h
          exact if_neg hk

theorem handed_of_not_held (h : w.session? n = none) (a : Act) : w.handed n a = [] := by
  cases hcall : a.call? n with
  | none => exact handed_of_not_called hcall
  | some call =>
      rcases call?_eq_some hcall with ⟨now, rfl⟩ | ⟨-, now, rfl⟩
      · have hnone : w.server.session? n = none := h
        simp only [handed, Server.step, hnone, if_pos]
        rfl
      · rfl

theorem handed_of_not_takes (hX : w.session? i = some X)
    (hcall : ∀ call, a.call? i = some call → call.takes = false) : w.handed i a = [] := by
  cases hsome : a.call? i with
  | none => exact handed_of_not_called hsome
  | some call =>
      rcases call?_eq_some hsome with ⟨now, rfl⟩ | ⟨-, now, rfl⟩
      · rw [(handed_call hX now call).1]
        exact Session.handed_of_not_takes (hcall call hsome) now
      · rfl

namespace Attended

theorem flow_drain (h : w.Attended) (hX : w.session? i = some X)
    (hwithin : w.table.taken X.channel ≤ (w.table.sent X.channel).length) (now : Time) :
    ∃ added off, w.table.Flow (X.perform w.store now .drain).2.2.hub.table X.channel added off ∧
      off.filter Notification.isEvent =
        (X.perform w.store now .drain).1.handed.filter Notification.isEvent := by
  cases hactive : X.active with
  | false =>
      simp only [Session.perform, Session.drain_of_closed hactive]
      exact ⟨[], [], .refl _ _, rfl⟩
  | true =>
      obtain ⟨before, after, -, -, hanswer, hflow⟩ := h.drain_eq hX hactive hwithin
      have hanswered : (X.perform w.store now .drain).1.handed =
          before.filter Notification.isEvent := by
        simp only [Session.perform, Session.reply, hanswer]
        rfl
      refine ⟨_, _, hflow, ?_⟩
      rw [hanswered, List.filter_append, List.filter_filter]
      simp only [Bool.and_self]
      exact List.append_nil _

/-- What a session is handed is taken off its channel in order, except for the markers that its
drains keep back. -/
theorem flow_step (h : w.Attended) (hordinary : a.isOrdinary = true) (hX : w.session? i = some X)
    (hwithin : w.table.taken X.channel ≤ (w.table.sent X.channel).length) :
    ∃ added off, w.table.Flow (w.step a).table X.channel added off ∧
      off.filter Notification.isEvent = (w.handed i a).filter Notification.isEvent ∧
      (a.call? i = none → off = w.handed i a) ∧
      (a.call? i = some .next → off = w.handed i a ∧ off = (X.queued w.store).take 1) := by
  by_cases htakes : ∃ call, a.call? i = some call ∧ call.takes = true
  · obtain ⟨call, hcall, htakes⟩ := htakes
    obtain ⟨now, rfl⟩ := (call?_eq_some hcall).resolve_right fun hdrop => by
      rw [hdrop.1] at htakes
      cases htakes
    obtain ⟨hhanded, hstore⟩ := handed_call hX now call
    rw [hhanded, hcall]
    have htable : (w.step (.call now (.session i call))).table =
        (X.perform w.store now call).2.2.hub.table := congrArg (·.hub.table) hstore
    rw [htable]
    by_cases hdrain : call = .drain
    · subst hdrain
      obtain ⟨added, off, hflow, hevents⟩ := h.flow_drain hX hwithin now
      exact ⟨added, off, hflow, hevents, by simp, by simp⟩
    · have hnext : call = .next ∨ call = .tryNext := by
        cases call <;> simp_all [Session.Call.takes]
      obtain ⟨hanswer, hflow⟩ := X.flow_perform_next hnext w.store now
      rw [hanswer]
      exact ⟨[], _, hflow, rfl, by simp, fun _ => ⟨rfl, rfl⟩⟩
  · have hnot : ∀ call, a.call? i = some call → call.takes = false := by
      intro call hcall
      exact Bool.eq_false_iff.2 fun htakes' => htakes ⟨call, hcall, htakes'⟩
    obtain ⟨ms, -, hst⟩ := step_moved (w := w) hordinary
    obtain ⟨added, hsent⟩ := (w.store.leads_moveAll ms).sent h.ready X.channel
    rw [← hst] at hsent
    rw [handed_of_not_takes hX hnot]
    refine ⟨added, [], .untaken hsent (h.taken_step hordinary hX hnot) hwithin, rfl, by simp, ?_⟩
    intro hcall
    exact absurd (hnot _ hcall) (by decide)

end Attended

/-- The events that the sessions have been handed and those that they have still to take make up all
that were put on their channels. -/
structure Accounted (w u : World) (acts : List Act) : Prop where
  within : ∀ {n X}, u.session? n = some X →
    u.table.taken X.channel ≤ (u.table.sent X.channel).length
  balanced : ∀ {n X}, u.session? n = some X →
    (w.handedAll n acts).filter Notification.isEvent ++
        (X.queued u.store).filter Notification.isEvent =
      (u.table.sent X.channel).filter Notification.isEvent
  unopened : ∀ {n}, u.server.sessions.length ≤ n → w.handedAll n acts = []

theorem session?_of_length_le (h : w.server.sessions.length ≤ n) : w.session? n = none := by
  rw [session?, Server.session?, List.getElem?_eq_none h]
  rfl

theorem Accounted.concat {u : World} {acts : List Act} (h : Accounted w u acts)
    (hu : u = w.run acts) (hattended : u.Attended) (hordinary : a.isOrdinary = true) :
    Accounted w (u.step a) (acts ++ [a]) := by
  have hhanded : ∀ n, w.handedAll n (acts ++ [a]) = w.handedAll n acts ++ u.handed n a := by
    intro n
    rw [handedAll_append, ← hu, handedAll, handedAll, List.append_nil]
  have hboth : ∀ {n Y}, (u.step a).session? n = some Y →
      (u.step a).table.taken Y.channel ≤ ((u.step a).table.sent Y.channel).length ∧
        (w.handedAll n (acts ++ [a])).filter Notification.isEvent ++
            (Y.queued (u.step a).store).filter Notification.isEvent =
          ((u.step a).table.sent Y.channel).filter Notification.isEvent := by
    intro n Y hY
    rw [hhanded]
    rcases session?_step hY with ⟨X, hX, hb⟩ | ⟨-, hn, -, hchannel, htable⟩
    · obtain ⟨added, off, hflow, hevents, -⟩ := hattended.flow_step hordinary hX (h.within hX)
      rw [Session.queued, hb.channel]
      exact ⟨hflow.within (h.within hX), hflow.balanced hevents (h.balanced hX)⟩
    -- a session that is opened has been handed nothing
    · have hlength := Nat.le_of_eq hn.symm
      obtain ⟨hsent, htaken, hqueued⟩ := Table.empty_attach u.table Y.id
      rw [h.unopened hlength, handed_of_not_held (session?_of_length_le hlength), Session.queued,
        hchannel]
      change (u.step a).table.taken _ ≤ _ ∧ _ ++ ((u.step a).table.queued _).filter _ = _
      rw [htable, hsent, htaken, hqueued]
      exact ⟨Nat.zero_le _, rfl⟩
  refine ⟨fun hY => (hboth hY).1, fun hY => (hboth hY).2, fun {n} hlength => ?_⟩
  have hle : u.server.sessions.length ≤ n := by
    rw [length_step] at hlength
    exact Nat.le_trans (Nat.le_add_right _ _) hlength
  rw [hhanded, h.unopened hle, handed_of_not_held (session?_of_length_le hle)]
  rfl

variable {disk : Disk} {config : Config} {st : Store}

end World

end Coordination
