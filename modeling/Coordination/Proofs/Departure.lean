import Coordination.Proofs.World
import Mathlib.Data.List.Induction

namespace Coordination

open Watch (Change Hub Mask Table)

namespace Watch

/-- Whether a change neither attaches session `s` nor registers anything for it. -/
def Change.Shuns (s : SessionId) : Change → Prop
  | .attach x | .register x _ _ => x ≠ s
  | _ => True

namespace Table

variable {t : Table} {s : SessionId} {k : Nat} {c : Change}

/-- The session `s`, whose channel was `k`, has left the table. -/
structure Departed (t : Table) (s : SessionId) (k : Nat) : Prop where
  channel : t.Private k s
  unattached : t.attached.contains s = false
  unwatched : ∀ p r, r ∈ t.registrations p → r.session ≠ s

theorem Departed.deaf (h : t.Departed s k) (s' : SessionId) : ¬t.Hears s' k := by
  intro hears
  obtain rfl := h.channel.own s' hears
  have hatt : t.attached.contains s' = true := by
    rw [Dict.contains, hears.1]
    rfl
  exact absurd (hatt.symm.trans h.unattached) (by decide)

theorem Departed.change (h : t.Departed s k) (ht : t.Sound) (hc : c.Shuns s) :
    (t.change c).Departed s k where
  channel := h.channel.change ht c
  unattached := Bool.eq_false_iff.2 fun hatt => by
    rcases ht.attached_of_change hatt with hatt | rfl
    · exact absurd (hatt.symm.trans h.unattached) (by decide)
    · exact hc rfl
  unwatched := fun p r hr => by
    rcases (ht.mem_registrations_change c).1 hr with ⟨hr, -⟩ | ⟨rfl, -⟩
    · exact h.unwatched p r hr
    · exact hc

theorem Departed.sent_change (h : t.Departed s k) (ht : t.Sound) (c : Change) :
    (t.change c).sent k = t.sent k := by
  refine ht.sent_change_of_silent fun n hsends => ?_
  cases c with
  | publish zxid es =>
      obtain ⟨p, r, e, -, hears, -⟩ := hsends
      exact h.deaf _ hears
  | mark s' zxid => exact h.deaf _ hsends.1
  | _ => exact hsends

theorem Departed.changeAll (h : t.Departed s k) (ht : t.Sound) {cs : List Change}
    (hcs : ∀ c ∈ cs, c.Shuns s) :
    (t.changeAll cs).Departed s k ∧ (t.changeAll cs).sent k = t.sent k := by
  induction cs generalizing t with
  | nil => exact ⟨h, rfl⟩
  | cons c cs ih =>
      obtain ⟨hc, hcs⟩ := List.forall_mem_cons.1 hcs
      obtain ⟨hend, hsent⟩ := ih (h.change ht hc) (ht.change c) hcs
      exact ⟨hend, hsent.trans (h.sent_change ht c)⟩

theorem Sound.departed_detach (ht : t.Sound) (hk : t.Private k s) :
    (t.change (.detach s)).Departed s k ∧ (t.change (.detach s)).sent k = t.sent k := by
  refine ⟨⟨hk.change ht _, ?_, fun p r hr hs => ?_⟩, ht.sent_change_of_silent fun _ => id⟩
  · rw [Table.change, (ht.frame_detach s).2.1, Bool.eq_false_iff, ne_eq, Dict.contains_erase]
    exact fun h => h.1 rfl
  · rcases (ht.mem_registrations_change _).1 hr with ⟨-, htake⟩ | ⟨he, -⟩
    · exact htake hs
    · cases he

end Table

namespace Hub

variable {hub : Hub} {s : SessionId}

theorem change_mark_of_unattached (h : hub.table.attached.contains s = false) (zxid : Zxid) :
    hub.change (.mark s zxid) = hub := by
  have hnone : hub.table.attached.get? s = none := by simpa [Dict.contains] using h
  simp [change, Table.change, Table.deliver, hnone, withTable]

theorem barrier_of_unattached (hp : hub.poisoned = false)
    (h : hub.table.attached.contains s = false) (zxid : Zxid) :
    (hub.barrier s zxid).1 = .error (.sessionClosed s) := by
  have hnone : hub.table.attached.get? s = none := by simpa [Dict.contains] using h
  simp [barrier, lock, hp, Table.deliver, hnone]

theorem register_of_unattached (hp : hub.poisoned = false)
    (h : hub.table.attached.contains s = false) {p : String} {mask : Mask}
    (hpath : Path.check p = .ok ()) (hmask : mask.isEmpty = false) :
    hub.register s p mask = .error (.sessionClosed s) := by
  simp [register, lock, hpath, hmask, hp, h]

end Hub

end Watch

namespace Store

variable {st : Store} {s : SessionId}

theorem sync_of_unattached (h : st.hub.table.attached.contains s = false) :
    (st.writer.sync s).2 = st.writer ∧
      (st.hub.poisoned = false → (st.writer.sync s).1 = .error (.sessionClosed s)) := by
  constructor
  · have hsnd : (st.writer.sync s).2 = { st.writer with engine := (st.engine.sync s).2 } := rfl
    have hmark : st.engine.hub.change (.mark s st.engine.lastZxid) = st.engine.hub :=
      Hub.change_mark_of_unattached h _
    rw [hsnd, sync_snd, hmark]
    split <;> rfl
  · intro hp
    have hbarrier := Hub.barrier_of_unattached hp h st.engine.lastZxid
    simp only [Writer.sync, Engine.sync]
    split <;> rename_i hb <;> rw [hub, engine, hb] at hbarrier
    · exact congrArg _ (Except.error.inj hbarrier)
    · cases hbarrier

theorem watchAndRead_of_unattached (h : st.hub.table.attached.contains s = false) (p : String)
    (mask : Mask) (required : Bool) :
    (st.writer.watchAndRead s p mask required).2 = st.writer ∧
      (st.hub.poisoned = false → Path.check p = .ok () → mask.isEmpty = false →
        (st.writer.watchAndRead s p mask required).1 =
          if required && !st.tree.contains p then .ok (st.tree, none)
          else .error (.sessionClosed s)) := by
  constructor
  · rcases st.writer.watchAndRead_cases s p mask required with ⟨hw, -⟩ | ⟨-, hatt, -⟩
    · exact hw
    · exact absurd (hatt.symm.trans h) (by decide)
  · intro hp hpath hmask
    have hregister : st.writer.engine.hub.register s p mask = .error (.sessionClosed s) :=
      Hub.register_of_unattached hp h hpath hmask
    rw [Writer.watchAndRead, Engine.watchAndRead, hregister, tree, engine]
    cases required && !st.writer.engine.tree.contains p <;> rfl

theorem serve_sync (h : st.hub.table.attached.contains s = false) (now : Time) :
    st.serve now (.sync s) = st := by
  rw [serve, Store.sync]
  split
  · rfl
  · exact congrArg st.withWriter (sync_of_unattached h).1

theorem serve_watch (h : st.hub.table.attached.contains s = false) (now : Time) (p : String)
    (mask : Mask) (required : Bool) : st.serve now (.watch s p mask required) = st := by
  rw [serve, Store.watchAndRead]
  split
  · rfl
  · exact congrArg st.withWriter (watchAndRead_of_unattached h p mask required).1

end Store

namespace Session

def Call.needsOpen : Call → Bool
  | .cancel _ | .tryNext | .next | .close | .info => false
  | _ => true

def Answer.fault? : Answer → Option Fault
  | .fault f => some f
  | .transaction _ _ _ a => a.fault?
  | _ => none

theorem Becomes.eq_of_closed {X Y : Session} (h : X.Becomes Y) (hX : X.active = false) : Y = X := by
  obtain ⟨id, channel, active⟩ := Y
  obtain ⟨rfl, rfl, hactive⟩ := h
  cases active with
  | false => rw [← hX]
  | true => exact absurd ((hactive rfl).symm.trans hX) (by decide)

theorem perform_of_closed {X : Session} (hX : X.active = false) {call : Call}
    (hcall : call.needsOpen = true) (st : Store) (now : Time) :
    (X.perform st now call).1.fault? = some (.sessionClosed X.id) ∧
      (X.perform st now call).2 = (X, st) := by
  have hcheck : X.checkActive = .error (.sessionClosed X.id) := if_neg (by simp [hX])
  have hmulti : ∀ ops, X.multi st now ops = (.error (.sessionClosed X.id), st) := by
    intro ops
    rw [multi, hcheck]
  have hread : ∀ p, X.checkRead p = .error (.sessionClosed X.id) := by
    intro p
    rw [checkRead, hcheck]
  have hwatched : ∀ p mask required,
      X.watchedRead st p mask required = (.error (.sessionClosed X.id), st) := by
    intro p mask required
    rw [watchedRead, hread]
  cases call with
  | transaction ops =>
      simp only [perform, commit_addAll, hmulti]
      exact ⟨rfl, trivial⟩
  | cancel | tryNext | next | close | info => cases hcall
  | _ =>
      simp only [perform, reply, create, delete, setData, single, exists?, getData, getChildren,
        existsWatched, getDataWatched, getChildrenWatched, watch, sync, drainUntilSynced, hmulti,
        hread, hwatched, hcheck]
      exact ⟨rfl, trivial⟩

end Session

namespace World

variable {w : World} {a : Act} {s : SessionId} {k : Nat} {ids : List SessionId}

theorem shuns_step (h : w.table.attached.contains s = false) (ht : w.table.Sound)
    (hattach : a ≠ .watches (.attach s)) (hopens : w.opens? a ≠ some s) :
    ∃ cs, (w.step a).table = w.table.changeAll cs ∧ ∀ c ∈ cs, c.Shuns s := by
  obtain ⟨cs, htable, hattaches, hregister⟩ := step_changes ht a
  refine ⟨cs, htable, fun c hc => ?_⟩
  cases c with
  | attach x =>
      rintro rfl
      exact (hattaches x hc).elim hattach hopens
  | register x p mask =>
      rintro rfl
      exact absurd ((hregister x p mask hc).symm.trans h) (by decide)
  | _ => trivial

theorem departed_step (h : w.table.Departed s k) (ht : w.table.Sound)
    (hattach : a ≠ .watches (.attach s)) (hopens : w.opens? a ≠ some s) :
    (w.step a).table.Departed s k ∧ (w.step a).table.sent k = w.table.sent k := by
  obtain ⟨cs, htable, hcs⟩ := shuns_step h.unattached ht hattach hopens
  rw [htable]
  exact h.changeAll ht hcs

theorem departed_run (h : w.table.Departed s k) (hw : w.Held ids) {acts : List Act}
    (hattach : .watches (.attach s) ∉ acts) (hopens : s ∉ w.connected acts) :
    (w.run acts).table.Departed s k ∧ (w.run acts).table.sent k = w.table.sent k := by
  induction acts generalizing w ids with
  | nil => exact ⟨h, rfl⟩
  | cons a acts ih =>
      rw [connected, List.mem_append, not_or] at hopens
      obtain ⟨hstep, hsent⟩ :=
        departed_step h hw.sound (fun he => hattach (he ▸ List.mem_cons_self))
        fun he => hopens.1 (Option.mem_toList.2 he)
      obtain ⟨hend, hsent'⟩ := ih hstep (hw.step a)
        (fun hmem => hattach (List.mem_cons_of_mem a hmem)) hopens.2
      exact ⟨hend, hsent'.trans hsent⟩

theorem Held.not_opens (hw : w.Held ids) {acts : List Act} (hids : (ids ++ w.connected acts).Nodup)
    {X : Session} (hX : w.session? k = some X) : X.id ∉ w.connected acts :=
  fun hmem => (List.nodup_append.1 hids).2.2 _ (List.mem_of_getElem? (hw.number k X hX)) _ hmem rfl

theorem Held.becomes (hw : w.Held ids) {X Y : Session} (hX : w.session? k = some X)
    {acts : List Act} (hY : (w.run acts).session? k = some Y) : X.Becomes Y := by
  induction acts using List.reverseRecOn generalizing Y with
  | nil =>
      obtain rfl := Option.some.inj (hX.symm.trans hY)
      exact .refl X
  | append_singleton acts a ih =>
      rw [run_concat] at hY
      rcases session?_step hY with ⟨X', hX', hb⟩ | ⟨-, hk, -⟩
      · exact (ih hX').trans hb
      -- new sessions come after all that were ever held
      · have hlt := (List.getElem?_eq_some_iff.1 (hw.number k X hX)).1
        have hlength := (hw.run acts).length
        rw [List.length_append] at hlength
        omega

theorem serve_call {Y : Session} {call : Session.Call} {now : Time} {f : Fault}
    (hY : w.session? k = some Y) (hfault : (Y.perform w.store now call).1.fault? = some f)
    (hsame : (Y.perform w.store now call).2 = (Y, w.store)) :
    ∃ a, w.server.step now (.session k call) = (.session a, w.server) ∧ a.fault? = some f := by
  have hslot : w.server.sessions[k]? = some (some Y) := Option.join_eq_some_iff.1 hY
  obtain ⟨hk, hget⟩ := List.getElem?_eq_some_iff.1 hslot
  refine ⟨(Y.perform w.store now call).1, ?_, hfault⟩
  have hY' : w.server.session? k = some Y := hY
  have hset : w.server.sessions.set k (some Y) = w.server.sessions :=
    hget ▸ List.set_getElem_self hk
  simp only [store] at hsame ⊢
  simp only [Server.step, hY', hsame, hset]

section Closing

variable {X Y : Session} {now : Time}

theorem step_close (hX : w.session? k = some X) (hclose : (X.close w.store).1 = .ok ()) :
    (w.step (.call now (.session k .close))).session? k = some { X with active := false } ∧
      (w.step (.call now (.session k .close))).table =
        if X.active then (w.table.change (.detach X.id)).change (.receive X.channel .close)
        else w.table := by
  obtain ⟨hclosed, htable⟩ := Session.close_ok hclose
  have hX' : w.server.session? k = some X := hX
  have hk : k < w.server.sessions.length := by
    rw [Server.session?, Option.join_eq_some_iff] at hX'
    exact (List.getElem?_eq_some_iff.1 hX').1
  constructor
  · simp only [session?, step, Server.step, hX']
    rw [Server.session?, List.getElem?_set_self hk]
    exact congrArg some hclosed
  · simp only [table, store, step, Server.step, hX']
    exact htable

theorem Held.departs (hw : w.Held ids) (hX : w.session? k = some X) (hactive : X.active = true)
    (hclose : (X.close w.store).1 = .ok ()) :
    (w.step (.call now (.session k .close))).table.Departed X.id X.channel ∧
      (w.step (.call now (.session k .close))).table.sent X.channel = w.table.sent X.channel := by
  obtain ⟨hdetached, hsent⟩ := hw.sound.departed_detach (hw.channel k X hX)
  have hsound := hw.sound.change (.detach X.id)
  rw [(step_close hX hclose).2, if_pos hactive]
  exact ⟨hdetached.change hsound trivial, (hdetached.sent_change hsound _).trans hsent⟩

variable {disk : Journal.Disk} {config : Config} {st : Store}

theorem departed_of_closed (hopen : Store.openOn disk config = .ok st) {acts : List Act}
    (hids : ((start st).connected acts).Nodup) (hY : ((start st).run acts).session? k = some Y)
    (hclosed : Y.active = false) (hattach : .watches (.attach Y.id) ∉ acts) :
    ((start st).run acts).table.Departed Y.id Y.channel := by
  induction acts using List.reverseRecOn generalizing Y with
  | nil => simp [session?, run, start, Server.host, Server.session?] at hY
  | append_singleton acts a ih =>
      rw [connected_append] at hids
      rw [run_concat] at hY ⊢
      have hw := held_run hopen acts
      have hstays : ∀ X, ((start st).run acts).session? k = some X → X.active = false →
          X.Becomes Y → (((start st).run acts).step a).table.Departed Y.id Y.channel := by
        intro X hX hactive hb
        rw [hb.id] at hattach
        rw [hb.id, hb.channel]
        have hbefore := ih (List.nodup_append.1 hids).1 hX hactive
          fun hmem => hattach (List.mem_append_left _ hmem)
        have hone : (((start st).run acts).run [a]).table.Departed X.id X.channel :=
          (departed_run hbefore hw (fun hmem => hattach (List.mem_append_right _ hmem))
            (hw.not_opens hids hX)).1
        exact hone
      -- either the session was closed before, or this very act closes it
      rcases session?_origin hY with hY | ⟨X, now, call, rfl, hX, rfl⟩ | ⟨-, -, hactive, -⟩
      · exact hstays Y hY hclosed (.refl Y)
      · cases hactive : X.active with
        | false => exact hstays X hX hactive (X.perform_becomes _ now call)
        | true =>
            obtain ⟨rfl, hclose⟩ := X.close_of_perform _ now hactive hclosed
            have hb := X.perform_becomes ((start st).run acts).store now .close
            rw [hb.id, hb.channel]
            exact (hw.departs hX hactive hclose).1
      · exact absurd (hactive.symm.trans hclosed) (by decide)

theorem departed_close (hopen : Store.openOn disk config = .ok st) {acts : List Act} (now : Time)
    (hids : ((start st).connected acts).Nodup) (hX : ((start st).run acts).session? k = some X)
    (hclose : (X.close ((start st).run acts).store).1 = .ok ())
    (hattach : X.active = false → .watches (.attach X.id) ∉ acts) :
    let w := (start st).run acts
    (w.step (.call now (.session k .close))).table.Departed X.id X.channel ∧
      (w.step (.call now (.session k .close))).table.sent X.channel = w.table.sent X.channel := by
  intro w
  cases hactive : X.active with
  | true => exact (held_run hopen acts).departs hX hactive hclose
  | false =>
      have hgone := departed_of_closed hopen hids hX hactive (hattach hactive)
      rw [(step_close hX hclose).2, hactive]
      exact ⟨hgone, rfl⟩

end Closing

/-- A close that has been answered is complete and final, whatever others do and whatever is still
in the queue of the writer, as long as nobody attaches the session's number. A later session gets
that number only after the numbers have come round. -/
theorem departure {disk : Journal.Disk} {config : Config} {st : Store}
    (hopen : Store.openOn disk config = .ok st) (before after : List Act) (now : Time) {k : Nat}
    {X : Session} (hX : ((start st).run before).session? k = some X)
    (hclose : (X.close ((start st).run before).store).1 = .ok ())
    (hafter : .watches (.attach X.id) ∉ after)
    (hbefore : X.active = false → .watches (.attach X.id) ∉ before) :
    let acts := before ++ .call now (.session k .close) :: after
    (connects acts ≤ UInt64.size → ((start st).connected acts).Nodup) ∧
    (((start st).connected acts).Nodup →
      let v := (start st).run before
      let u := (start st).run acts
      (∀ p r, r ∈ u.table.registrations p → r.session ≠ X.id) ∧
      u.table.sent X.channel = v.table.sent X.channel ∧
      (∀ now, u.step (.serve now (.sync X.id)) = u ∧
        ∀ p mask required, u.step (.serve now (.watch X.id p mask required)) = u) ∧
      (u.store.hub.poisoned = false →
        (u.store.writer.sync X.id).1 = .error (.sessionClosed X.id) ∧
        ∀ p mask required, Path.check p = .ok () → mask.isEmpty = false →
          (u.store.writer.watchAndRead X.id p mask required).1 =
            if required && !u.tree.contains p then .ok (u.tree, none)
            else .error (.sessionClosed X.id)) ∧
      ∀ Y, u.session? k = some Y → Y = { X with active := false } ∧
        ∀ now call, call.needsOpen = true →
          ∃ a, u.server.step now (.session k call) = (.session a, u.server) ∧
            a.fault? = some (.sessionClosed X.id)) := by
  intro acts
  refine ⟨nodup_connected (nextSession_lt hopen), fun hids => ?_⟩
  intro v u
  have hlater : ((start st).connected before ++
      (v.step (.call now (.session k .close))).connected after).Nodup := by
    rw [connected_append] at hids
    exact hids
  have hdeparted := departed_close hopen now (List.nodup_append.1 hlater).1 hX hclose hbefore
  have hmid : (v.step (.call now (.session k .close))).Held ((start st).connected before) :=
    List.append_nil ((start st).connected before) ▸
      (held_run hopen before).step (.call now (.session k .close))
  have hXmid : (v.step (.call now (.session k .close))).session? k =
      some { X with active := false } :=
    (step_close hX hclose).1
  have hfresh := hmid.not_opens hlater hXmid
  have hu : u = (v.step (.call now (.session k .close))).run after := run_append _ _ _
  obtain ⟨hend, hsent⟩ := departed_run hdeparted.1 hmid hafter hfresh
  rw [← hu] at hend hsent
  have hunattached : u.store.hub.table.attached.contains X.id = false := hend.unattached
  refine ⟨hend.unwatched, hsent.trans hdeparted.2, fun now => ⟨?_, fun p mask required => ?_⟩,
    fun hp => ⟨(Store.sync_of_unattached hunattached).2 hp, fun p mask required =>
      (Store.watchAndRead_of_unattached hunattached p mask required).2 hp⟩, fun Y hY => ?_⟩
  · exact congrArg u.withStore (Store.serve_sync hunattached now)
  · exact congrArg u.withStore (Store.serve_watch hunattached now p mask required)
  · have hb := hmid.becomes hXmid (hu ▸ hY)
    obtain rfl := hb.eq_of_closed rfl
    refine ⟨rfl, fun now call hcall => ?_⟩
    obtain ⟨hfault, hsame⟩ := Session.perform_of_closed (X := { X with active := false }) rfl hcall
      u.store now
    exact serve_call hY hfault hsame

theorem departure_queued :
    ∃ st, Store.openOn (.blank .file) .standard = .ok st ∧
      let before : List Act :=
        [.call 10 .connect, .call 20 .connect, .call 30 (.session 0 (.watch "/a" .all))]
      let after : List Act :=
        [.serve 50 (.watch 1 "/a" .data false), .call 60 (.session 1 (.create "/a" [] .persistent))]
      let v := (start st).run before
      let u := (start st).run (before ++ .call 40 (.session 0 .close) :: after)
      ∃ X, v.session? 0 = some X ∧ X.id = 1 ∧
        { handle := 1, session := 1, mask := .all } ∈ v.table.registrations "/a" ∧
        u.tree.contains "/a" = true ∧ u.table.sent X.channel = v.table.sent X.channel ∧
        (∀ p r, r ∈ u.table.registrations p → r.session ≠ 1) ∧
        (u.store.writer.watchAndRead 1 "/a" .data false).1 = .error (.sessionClosed 1) := by
  obtain ⟨st, hopen⟩ : ∃ st, Store.openOn (.blank .file) .standard = .ok st := ⟨_, rfl⟩
  refine ⟨st, hopen, ?_⟩
  intro before after v u
  obtain ⟨X, hX, hid, hactive, hclose, hstood, hmade, hp⟩ : ∃ X, v.session? 0 = some X ∧ X.id = 1 ∧
      X.active = true ∧ (X.close v.store).1 = .ok () ∧
      { handle := 1, session := 1, mask := .all } ∈ v.table.registrations "/a" ∧
      u.tree.contains "/a" = true ∧ u.store.hub.poisoned = false := by
    obtain rfl := Except.ok.inj hopen
    exact ⟨_, rfl, rfl, rfl, rfl, by decide +kernel, by decide +kernel, by decide +kernel⟩
  obtain ⟨hnumbers, hgone⟩ := departure hopen before after 40 hX hclose (by simp [after])
    (fun hclosed => absurd (hactive.symm.trans hclosed) (by decide))
  obtain ⟨hunwatched, hsent, -, hanswers, -⟩ := hgone (hnumbers (by decide))
  obtain ⟨-, hrefused⟩ := hanswers hp
  rw [hid] at hunwatched hrefused
  exact ⟨X, hX, hid, hstood, hmade, hsent, hunwatched, hrefused "/a" .data false rfl rfl⟩

end World

end Coordination
