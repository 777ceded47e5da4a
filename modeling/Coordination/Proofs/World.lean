import Coordination.Proofs.Attachment
import Coordination.Proofs.Moves
import Mathlib.Data.Nat.ModEq

/-!
A store in use: its sessions, the requests that its writer takes from the queue, and those who call
on its table of watches themselves. `step_changes` says what an act does to the table, `step_tree`
what to the namespace, and `connected_eq` which numbers the sessions get.
-/

namespace Coordination

open Watch (Change Desk Table)

namespace Watch.Table

structure Private (t : Table) (k : Nat) (s : SessionId) : Prop where
  opened : k < t.channels.length
  own : ∀ s', t.Hears s' k → s' = s

variable {t : Table} {k : Nat} {s : SessionId}

theorem Private.change (h : t.Private k s) (ht : t.Sound) (c : Change) :
    (t.change c).Private k s where
  opened := Nat.lt_of_lt_of_le h.opened (ht.length_le_change c)
  own := fun s' hears => h.own s' (ht.hears_of_change h.opened hears)

theorem Sound.changeAll (ht : t.Sound) (cs : List Change) : (t.changeAll cs).Sound := by
  induction cs generalizing t with
  | nil => exact ht
  | cons c cs ih => exact ih (ht.change c)

theorem Private.changeAll (h : t.Private k s) (ht : t.Sound) (cs : List Change) :
    (t.changeAll cs).Private k s := by
  induction cs generalizing t with
  | nil => exact h
  | cons c cs ih => exact ih (h.change ht c) (ht.change c)

theorem Sound.attached_of_changeAll (ht : t.Sound) {cs : List Change}
    (h : (t.changeAll cs).attached.contains s = true) :
    t.attached.contains s = true ∨ .attach s ∈ cs := by
  induction cs generalizing t with
  | nil => exact .inl h
  | cons c cs ih =>
      rcases ih (ht.change c) h with h | h
      · rcases ht.attached_of_change h with h | rfl
        · exact .inl h
        · exact .inr List.mem_cons_self
      · exact .inr (List.mem_cons_of_mem c h)

theorem private_attach (ht : t.Sound) (s : SessionId) :
    (t.change (.attach s)).Private t.channels.length s :=
  ⟨(serves_attach ht s).opened, fun _ => (serves_attach ht s).own⟩

end Watch.Table

/-- The writer takes a request from its queue, for whose answer nobody may wait any more. -/
def Store.serve (st : Store) (now : Time) : Request → Store
  | .submit s ops => (st.submit now s ops).2
  | .sync s => (st.sync s).2
  | .watch s p mask required => (st.watchAndRead s p mask required).2

theorem Store.connect_cases (st : Store) :
    (∃ f, st.hub.attach st.nextSession = .error f ∧ st.connect.1 = .error f ∧
        st.connect.2.hub = st.hub) ∨
      st.connect.1 = .ok
          { id := st.nextSession, channel := st.hub.table.channels.length, active := true } ∧
        st.connect.2.hub = st.hub.change (.attach st.nextSession) := by
  unfold Store.connect
  dsimp only
  split <;> rename_i hatt
  · exact .inl ⟨_, hatt, rfl, rfl⟩
  · obtain ⟨-, rfl, rfl⟩ := Watch.Hub.attach_ok hatt
    exact .inr ⟨rfl, rfl⟩

theorem Store.granted_moveAll {st : Store} (ht : st.hub.table.Sound) {ms : List Store.Move}
    (hms : ∀ m ∈ ms, m ≠ .connect) :
    ∃ cs, (st.moveAll ms).hub.table = st.hub.table.changeAll cs ∧ (∀ s, .attach s ∉ cs) ∧
      ∀ s p mask, .register s p mask ∈ cs → st.hub.table.attached.contains s = true := by
  induction ms generalizing st with
  | nil => exact ⟨[], rfl, by simp, by simp⟩
  | cons m ms ih =>
      obtain ⟨hm, hms⟩ := List.forall_mem_cons.1 hms
      rcases st.table_move m with hone | ⟨c, hc, hgranted, hone⟩
      · obtain ⟨cs, htable, hattach, hregister⟩ := ih (hone ▸ ht : (st.move m).hub.table.Sound) hms
        rw [hone] at htable hregister
        exact ⟨cs, htable, hattach, hregister⟩
      · obtain ⟨cs, htable, hattach, hregister⟩ :=
          ih (hone ▸ ht.change c : (st.move m).hub.table.Sound) hms
        rw [hone] at htable hregister
        have hno : ∀ s, c ≠ .attach s := by
          rintro s rfl
          cases m with
          | connect => exact hm rfl
          | submit now s' ops =>
              obtain ⟨zxid, es, he⟩ := hc
              cases he
          | _ => cases hc
        refine ⟨c :: cs, htable, fun s hs => ?_, fun s p mask hs => ?_⟩
        · rcases List.mem_cons.1 hs with he | hs
          · exact hno s he.symm
          · exact hattach s hs
        · rcases List.mem_cons.1 hs with rfl | hs
          · exact hgranted
          -- without a new session nobody is attached later who was not before
          · exact (ht.attached_of_change (hregister s p mask hs)).resolve_right (hno s)

structure World where
  server : Server
  /-- Receivers held by those who attach sessions to the table themselves. -/
  receivers : Dict SessionId Nat

namespace World

inductive Act where
  | call (now : Time) (call : Server.Call)
  | serve (now : Time) (request : Request)
  | watches (call : Watch.Call)
  | stop

def start (st : Store) : World := { server := .host st, receivers := .empty }

def store (w : World) : Store := w.server.store

def tree (w : World) : Tree := w.store.tree

def table (w : World) : Table := w.store.hub.table

def session? (w : World) (n : Nat) : Option Session := w.server.session? n

def desk (w : World) : Desk := { hub := w.store.hub, receivers := w.receivers }

def withStore (w : World) (st : Store) : World := { w with server := { w.server with store := st } }

def step (w : World) : Act → World
  | .call now call => { w with server := (w.server.step now call).2 }
  | .serve now request => w.withStore (w.store.serve now request)
  | .watches call =>
      let d := (w.desk.step call).2
      { w.withStore (w.store.withHub d.hub) with receivers := d.receivers }
  | .stop => w.withStore w.store.stop

def run (w : World) (acts : List Act) : World := acts.foldl step w

theorem run_concat (w : World) (acts : List Act) (a : Act) :
    w.run (acts ++ [a]) = (w.run acts).step a := by
  simp [run]

theorem run_append (w : World) (acts acts' : List Act) :
    w.run (acts ++ acts') = (w.run acts).run acts' :=
  List.foldl_append

variable {w : World} {a : Act} {s : SessionId}

def Act.connects : Act → Bool
  | .call _ .connect => true
  | _ => false

theorem Act.eq_connect (h : a.connects = true) : ∃ now, a = .call now .connect := by
  match a, h with
  | .call now .connect, _ => exact ⟨now, rfl⟩

def opens? (w : World) : Act → Option SessionId
  | .call now .connect =>
      match (w.server.step now .connect).1 with
      | .connected s => some s
      | _ => none
  | _ => none

theorem connect_cases (w : World) (now : Time) :
    (w.opens? (.call now .connect) = none ∧
        (w.step (.call now .connect)).server.sessions = w.server.sessions ∧
        (w.step (.call now .connect)).table = w.table) ∨
      w.opens? (.call now .connect) = some w.store.nextSession ∧
        (w.step (.call now .connect)).server.sessions = w.server.sessions ++
          [some { id := w.store.nextSession, channel := w.table.channels.length, active := true }] ∧
        (w.step (.call now .connect)).table = w.table.change (.attach w.store.nextSession) := by
  simp only [opens?, table, store, step, Server.step, Server.connect]
  have hcases := w.server.store.connect_cases
  generalize w.server.store.connect = r at hcases
  obtain ⟨answer, st⟩ := r
  rcases hcases with ⟨f, -, rfl, hhub⟩ | ⟨rfl, hhub⟩
  · exact .inl ⟨rfl, rfl, congrArg Watch.Hub.table hhub⟩
  · exact .inr ⟨rfl, rfl, congrArg Watch.Hub.table hhub⟩

theorem opens?_eq (h : w.opens? a = some s) : a.connects = true ∧ s = w.store.nextSession := by
  match a, h with
  | .call now .connect, h =>
      rcases w.connect_cases now with ⟨hnone, -⟩ | ⟨hsome, -, -⟩
      · rw [hnone] at h
        cases h
      · exact ⟨rfl, Option.some.inj (h.symm.trans hsome)⟩

def Attaches (w : World) (a : Act) (s : SessionId) : Prop :=
  a = .watches (.attach s) ∨ w.opens? a = some s

theorem store_connect (w : World) (now : Time) :
    (w.step (.call now .connect)).store = w.store.connect.2 := by
  simp only [store, step, Server.step, Server.connect]
  split <;> rename_i h <;> rw [h]

theorem step_moves (hconnect : a.connects = false) (hwatches : ∀ call, a ≠ .watches call) :
    ∃ ms, (∀ m ∈ ms, m ≠ .connect) ∧ (w.step a).store = w.store.moveAll ms := by
  cases a with
  | watches call => exact absurd rfl (hwatches call)
  | stop => exact ⟨[.stop], by simp, rfl⟩
  | serve now request =>
      cases request with
      | submit s ops => exact ⟨[.submit now s ops], by simp, rfl⟩
      | sync s => exact ⟨[.sync s], by simp, rfl⟩
      | watch s p mask required => exact ⟨[.watchAndRead s p mask required], by simp, rfl⟩
  | call now call =>
      cases call with
      | connect => cases hconnect
      | session n call =>
          simp only [store, step, Server.step]
          split
          · exact ⟨[], by simp, rfl⟩
          · exact Session.perform_moves _ w.store now call
      | drop n =>
          simp only [store, step, Server.step]
          split
          · exact ⟨[], by simp, rfl⟩
          · exact Session.drop_moves _ w.store

/-- What an act does to the table. Registrations are made for sessions only that were attached
before the act. -/
theorem step_changes (ht : w.table.Sound) (a : Act) :
    ∃ cs, (w.step a).table = w.table.changeAll cs ∧
      (∀ s, .attach s ∈ cs → w.Attaches a s) ∧
      ∀ s p mask, .register s p mask ∈ cs → w.table.attached.contains s = true := by
  by_cases hwatches : ∃ call, a = .watches call
  · obtain ⟨call, rfl⟩ := hwatches
    refine ⟨w.desk.changes call, w.desk.table_step call, fun s hs => ?_, fun s p mask hs => ?_⟩
    · rcases Desk.mem_changes hs with hs | ⟨k, receipt, he⟩
      · exact .inl (congrArg Act.watches (Desk.change?_eq_attach hs))
      · cases he
    · rcases Desk.mem_changes hs with hs | ⟨k, receipt, he⟩
      · exact Desk.attached_of_register hs
      · cases he
  · cases hconnect : a.connects with
    | true =>
        obtain ⟨now, rfl⟩ := Act.eq_connect hconnect
        rcases w.connect_cases now with ⟨-, -, htable⟩ | ⟨hopens, -, htable⟩
        · exact ⟨[], htable, by simp, by simp⟩
        · refine ⟨[.attach w.store.nextSession], htable, fun s hs => .inr ?_, by simp⟩
          obtain rfl := Change.attach.inj (List.mem_singleton.1 hs)
          exact hopens
    | false =>
        obtain ⟨ms, hms, hst⟩ := w.step_moves hconnect (not_exists.1 hwatches)
        obtain ⟨cs, htable, hattach, hregister⟩ := Store.granted_moveAll ht hms
        exact ⟨cs, (congrArg (·.hub.table) hst).trans htable,
          fun s hs => absurd hs (hattach s), hregister⟩

section Batches

def batch? (w : World) : Act → Option (SessionId × List Op)
  | .call _ (.session n call) =>
      match w.session? n, call.ops? with
      | some X, some ops => some (X.id, ops)
      | _, _ => none
  | .serve _ (.submit s ops) => some (s, ops)
  | _ => none

def Commits (w : World) (a : Act) (s : SessionId) (plan : Plan) : Prop :=
  ∃ now ops, w.batch? a = some (s, ops) ∧
    w.tree.plan ops (w.store.engine.stamp now s) = .ok plan ∧
    (w.step a).tree = (w.tree.commit plan).tree

theorem store_of_batch {ops : List Op} (h : w.batch? a = some (s, ops)) :
    (w.step a).store = w.store ∨ ∃ now, (w.step a).store = (w.store.submit now s ops).2 := by
  match a, h with
  | .serve now (.submit _ _), rfl => exact .inr ⟨now, rfl⟩
  | .call now (.session n call), h =>
      simp only [batch?] at h
      split at h
      · rename_i X ops' hX hops
        obtain ⟨rfl, rfl⟩ := Prod.mk.inj (Option.some.inj h)
        have hstep : (w.step (.call now (.session n call))).store =
            (X.perform w.store now call).2.2 := by
          rw [session?] at hX
          simp only [store, step, Server.step, hX]
        rw [hstep, X.perform_of_ops w.store now hops, Session.multi_snd]
        split
        · exact .inr ⟨now, rfl⟩
        · exact .inl rfl
      · cases h

theorem step_batch {ops : List Op} (h : w.batch? a = some (s, ops)) :
    ((w.step a).tree = w.tree ∧ (w.step a).table = w.table) ∨
      ∃ plan, w.Commits a s plan ∧
        ((w.step a).table = w.table ∨ (w.step a).table = w.table.change
          (.publish w.tree.lastZxid.next (w.tree.commit plan).events)) := by
  rcases store_of_batch h with hst | ⟨now, hst⟩
  · exact .inl ⟨congrArg Store.tree hst, congrArg (·.hub.table) hst⟩
  · rcases w.store.submit_spec now s ops with ⟨htree, -, hhub⟩ |
      ⟨plan, hplan, htree, -, hhub, -⟩
    · rw [← hst] at htree hhub
      exact .inl ⟨htree, congrArg Watch.Hub.table hhub⟩
    · rw [← hst] at htree hhub
      refine .inr ⟨plan, ⟨now, ops, h, hplan, htree⟩, ?_⟩
      split at hhub
      · exact .inl (congrArg Watch.Hub.table hhub)
      · exact .inr (congrArg Watch.Hub.table hhub)

theorem tree_step (h : w.batch? a = none) : (w.step a).tree = w.tree := by
  cases a with
  | stop => rfl
  | watches call => rfl
  | serve now request =>
      cases request with
      | submit s ops => cases h
      | sync s => exact w.store.tree_move (m := .sync s) (by simp)
      | watch s p mask required =>
          exact w.store.tree_move (m := .watchAndRead s p mask required) (by simp)
  | call now call =>
      cases call with
      | connect =>
          have htree := w.store.tree_move (m := .connect) (by simp)
          exact (congrArg Store.tree (w.store_connect now)).trans htree
      | session n call =>
          simp only [tree, store, step, Server.step]
          split
          · rfl
          · rename_i X hX
            have hops : call.ops? = none := by
              cases hops : call.ops? with
              | none => rfl
              | some ops => simp [batch?, session?, hX, hops] at h
            by_cases hcancel : ∃ k, call = .cancel k
            · obtain ⟨k, rfl⟩ := hcancel
              exact w.store.tree_move (m := .cancel k) (by simp)
            · exact (X.perform_leads w.store now hops (not_exists.1 hcancel)).tree_eq
      | drop n =>
          simp only [tree, store, step, Server.step]
          split
          · rfl
          · exact (Session.drop_leads _ w.store).tree_eq

theorem step_tree (w : World) (a : Act) :
    (w.step a).tree = w.tree ∨ ∃ s plan, w.Commits a s plan := by
  cases hbatch : w.batch? a with
  | none => exact .inl (tree_step hbatch)
  | some b =>
      obtain ⟨s, ops⟩ := b
      rcases step_batch hbatch with ⟨htree, -⟩ | ⟨plan, hcommits, -⟩
      · exact .inl htree
      · exact .inr ⟨s, plan, hcommits⟩

end Batches

def commits (w : World) : List Act → Nat
  | [] => 0
  | a :: acts => w.tree.lastZxid.passed (w.step a).tree.lastZxid + (w.step a).commits acts

def connected (w : World) : List Act → List SessionId
  | [] => []
  | a :: acts => (w.opens? a).toList ++ (w.step a).connected acts

theorem connected_append (w : World) (acts acts' : List Act) :
    w.connected (acts ++ acts') = w.connected acts ++ (w.run acts).connected acts' := by
  induction acts generalizing w with
  | nil => rfl
  | cons a acts ih =>
      rw [List.cons_append, connected, ih, connected, List.append_assoc]
      rfl

end World

structure Session.Becomes (X Y : Session) : Prop where
  id : Y.id = X.id
  channel : Y.channel = X.channel
  active : Y.active = true → X.active = true

theorem Session.Becomes.refl (X : Session) : X.Becomes X := ⟨rfl, rfl, fun h => h⟩

theorem Session.Becomes.trans {X Y Z : Session} (h : X.Becomes Y) (h' : Y.Becomes Z) :
    X.Becomes Z :=
  ⟨h'.id.trans h.id, h'.channel.trans h.channel, fun hz => h.active (h'.active hz)⟩

theorem Session.perform_becomes (X : Session) (st : Store) (now : Time) (call : Session.Call) :
    X.Becomes (X.perform st now call).2.1 := by
  rcases X.perform_session st now call with h | h
  · rw [h]
    exact .refl X
  · rw [h]
    exact ⟨rfl, rfl, fun ha => nomatch ha⟩

namespace World

variable {w : World} {a : Act} {s : SessionId} {ids : List SessionId}

theorem session?_set {n i : Nat} {o : Option Session} {v : Server} {Y : Session}
    (h : (v.sessions.set n o)[i]?.join = some Y) :
    (i = n ∧ o = some Y) ∨ v.session? i = some Y := by
  rw [List.getElem?_set] at h
  split at h
  · rename_i hn
    split at h
    · exact .inl ⟨hn.symm, h⟩
    · cases h
  · exact .inr h

theorem session?_origin {i : Nat} {Y : Session} (h : (w.step a).session? i = some Y) :
    w.session? i = some Y ∨
      (∃ X now call, a = .call now (.session i call) ∧ w.session? i = some X ∧
        Y = (X.perform w.store now call).2.1) ∨
      w.opens? a = some Y.id ∧ i = w.server.sessions.length ∧ Y.active = true ∧
        Y.channel = w.table.channels.length ∧ (w.step a).table = w.table.change (.attach Y.id) := by
  cases a with
  | serve now request => exact .inl h
  | watches call => exact .inl h
  | stop => exact .inl h
  | call now call =>
      cases call with
      | connect =>
          rcases w.connect_cases now with ⟨-, hsess, -⟩ | ⟨hopens, hsess, htable⟩
          · rw [session?, Server.session?, hsess] at h
            exact .inl h
          · rw [session?, Server.session?, hsess] at h
            rcases Nat.lt_or_ge i w.server.sessions.length with hi | hi
            · rw [List.getElem?_append_left hi] at h
              exact .inl h
            · rw [List.getElem?_append_right hi] at h
              match hk : i - w.server.sessions.length, h with
              | 0, h =>
                  obtain rfl := Option.some.inj h
                  have hi := Nat.le_antisymm (Nat.le_of_sub_eq_zero hk) hi
                  exact .inr (.inr ⟨hopens, hi, rfl, rfl, htable⟩)
      | session n call =>
          simp only [session?, step, Server.step] at h
          split at h
          · exact .inl h
          · rename_i X hX
            rcases session?_set h with ⟨rfl, he⟩ | h
            · exact .inr (.inl ⟨X, now, call, rfl, hX, (Option.some.inj he).symm⟩)
            · exact .inl h
      | drop n =>
          simp only [session?, step, Server.step] at h
          split at h
          · exact .inl h
          · rcases session?_set h with ⟨-, he⟩ | h
            · cases he
            · exact .inl h

theorem session?_step {i : Nat} {Y : Session} (h : (w.step a).session? i = some Y) :
    (∃ X, w.session? i = some X ∧ X.Becomes Y) ∨
      w.opens? a = some Y.id ∧ i = w.server.sessions.length ∧ Y.active = true ∧
        Y.channel = w.table.channels.length ∧ (w.step a).table = w.table.change (.attach Y.id) := by
  rcases session?_origin h with h | ⟨X, now, call, -, hX, rfl⟩ | hopened
  · exact .inl ⟨Y, h, .refl Y⟩
  · exact .inl ⟨X, hX, X.perform_becomes _ now call⟩
  · exact .inr hopened

theorem length_step (w : World) (a : Act) :
    (w.step a).server.sessions.length =
      w.server.sessions.length + (w.opens? a).toList.length := by
  cases a with
  | serve now request => rfl
  | watches call => rfl
  | stop => rfl
  | call now call =>
      cases call with
      | connect =>
          rcases w.connect_cases now with ⟨hopens, hsess, -⟩ | ⟨hopens, hsess, -⟩
          · rw [hopens, hsess]
            rfl
          · rw [hopens, hsess, List.length_append]
            rfl
      | session n call =>
          simp only [step, Server.step]
          split
          · rfl
          · simp [opens?]
      | drop n =>
          simp only [step, Server.step]
          split
          · rfl
          · simp [opens?]

structure Held (w : World) (ids : List SessionId) : Prop where
  sound : w.table.Sound
  length : w.server.sessions.length = ids.length
  number : ∀ i X, w.session? i = some X → ids[i]? = some X.id
  channel : ∀ i X, w.session? i = some X → w.table.Private X.channel X.id

theorem Held.step (h : w.Held ids) (a : Act) : (w.step a).Held (ids ++ (w.opens? a).toList) := by
  obtain ⟨cs, htable, -⟩ := step_changes h.sound a
  have hsound : (w.step a).table.Sound := htable ▸ h.sound.changeAll cs
  refine ⟨hsound, ?_, fun i Y hY => ?_, fun i Y hY => ?_⟩
  · rw [length_step, h.length, List.length_append]
  · rcases session?_step hY with ⟨X, hX, hb⟩ | ⟨hopens, rfl, -, -, -⟩
    · have hi := h.number i X hX
      rw [List.getElem?_append_left (List.getElem?_eq_some_iff.1 hi).1, hi, hb.id]
    · rw [hopens, h.length, List.getElem?_append_right (Nat.le_refl _), Nat.sub_self]
      rfl
  · rcases session?_step hY with ⟨X, hX, hb⟩ | ⟨-, -, -, hchannel, hattach⟩
    · rw [hb.id, hb.channel, htable]
      exact (h.channel i X hX).changeAll h.sound cs
    · rw [hchannel, hattach]
      exact Table.private_attach h.sound Y.id

theorem Held.run (h : w.Held ids) (acts : List Act) :
    (w.run acts).Held (ids ++ w.connected acts) := by
  induction acts generalizing w ids with
  | nil => exact (List.append_nil ids).symm ▸ h
  | cons a acts ih =>
      rw [connected, ← List.append_assoc]
      exact ih (h.step a)

variable {disk : Journal.Disk} {config : Config} {st : Store}

theorem held_start (hopen : Store.openOn disk config = .ok st) : (start st).Held [] := by
  have htable : (start st).table = .empty := congrArg Watch.Hub.table (Store.openOn_ok hopen).1
  refine ⟨htable ▸ Table.sound_empty, rfl, fun i X hX => ?_, fun i X hX => ?_⟩ <;>
    simp [session?, start, Server.host, Server.session?] at hX

theorem held_run (hopen : Store.openOn disk config = .ok st) (acts : List Act) :
    ((start st).run acts).Held ((start st).connected acts) :=
  (held_start hopen).run acts

section Numbers

def connects (acts : List Act) : Nat := acts.countP Act.connects

theorem connects_cons (a : Act) (acts : List Act) :
    connects (a :: acts) = connects acts + if a.connects then 1 else 0 :=
  List.countP_cons

theorem connects_append (acts acts' : List Act) :
    connects (acts ++ acts') = connects acts + connects acts' :=
  List.countP_append

theorem nextSession_step (w : World) (a : Act) :
    (w.step a).store.nextSession =
      if a.connects then Store.sessionAfter w.store.nextSession else w.store.nextSession := by
  cases hconnect : a.connects with
  | true =>
      obtain ⟨now, rfl⟩ := Act.eq_connect hconnect
      rw [store_connect, Store.connect]
      split <;> rfl
  | false =>
      by_cases hwatches : ∃ call, a = .watches call
      · obtain ⟨call, rfl⟩ := hwatches
        rfl
      · obtain ⟨ms, hms, hst⟩ := w.step_moves hconnect (not_exists.1 hwatches)
        rw [hst]
        exact Store.nextSession_moveAll hms w.store

/-- Sessions are numbered one after the other, and a number is used up also where the table refuses
the session. -/
theorem connected_eq (hn : w.store.nextSession < UInt64.size) (acts : List Act) :
    ∃ ks : List Nat, ks.Pairwise (· < ·) ∧ (∀ k ∈ ks, k < connects acts) ∧
      w.connected acts = ks.map fun k => (w.store.nextSession + k) % UInt64.size := by
  induction acts generalizing w with
  | nil => exact ⟨[], .nil, by simp, rfl⟩
  | cons a acts ih =>
      have hnext := w.nextSession_step a
      cases hconnect : a.connects with
      | false =>
          rw [hconnect, if_neg Bool.false_ne_true] at hnext
          have hopens : w.opens? a = none := by
            cases ho : w.opens? a with
            | none => rfl
            | some s => exact absurd (hconnect.symm.trans (opens?_eq ho).1) (by decide)
          obtain ⟨ks, hinc, hlt, heq⟩ := ih (hnext ▸ hn)
          refine ⟨ks, hinc, ?_, ?_⟩
          · simpa [connects, hconnect] using hlt
          · rw [connected, hopens, heq, hnext]
            rfl
      | true =>
          rw [hconnect, if_pos rfl, Store.sessionAfter] at hnext
          obtain ⟨ks, hinc, hlt, heq⟩ := ih (by rw [hnext]; exact Nat.mod_lt _ (by decide))
          have hlater : (w.step a).connected acts =
              (ks.map (· + 1)).map fun k => (w.store.nextSession + k) % UInt64.size := by
            rw [heq, hnext, List.map_map]
            refine List.map_congr_left fun k _ => ?_
            rw [Function.comp_apply, Nat.mod_add_mod, Nat.add_assoc, Nat.add_comm 1 k]
          have hmap : (ks.map (· + 1)).Pairwise (· < ·) :=
            List.pairwise_map.2 (hinc.imp Nat.succ_lt_succ)
          have hbound : ∀ k ∈ ks.map (· + 1), k < connects (a :: acts) := by
            intro k hk
            obtain ⟨k', hk', rfl⟩ := List.mem_map.1 hk
            simpa [connects, hconnect] using hlt k' hk'
          cases hopens : w.opens? a with
          | none =>
              exact ⟨ks.map (· + 1), hmap, hbound, by rw [connected, hopens, hlater]; rfl⟩
          | some s =>
              refine ⟨0 :: ks.map (· + 1), List.pairwise_cons.2 ⟨?_, hmap⟩,
                List.forall_mem_cons.2 ⟨?_, hbound⟩, ?_⟩
              · simp
              · simp [connects, hconnect]
              · rw [connected, hopens, (opens?_eq hopens).2, hlater, List.map_cons, Nat.add_zero,
                  Nat.mod_eq_of_lt hn]
                rfl

theorem nodup_connected (hn : w.store.nextSession < UInt64.size) {acts : List Act}
    (hacts : connects acts ≤ UInt64.size) : (w.connected acts).Nodup := by
  obtain ⟨ks, hinc, hlt, heq⟩ := connected_eq hn acts
  have hnodup : ks.Nodup := hinc.imp Nat.ne_of_lt
  rw [heq]
  refine hnodup.map_on fun k hk k' hk' he => ?_
  have hmod : k ≡ k' [MOD UInt64.size] := Nat.ModEq.add_left_cancel' _ he
  exact hmod.eq_of_lt_of_lt (Nat.lt_of_lt_of_le (hlt k hk) hacts)
    (Nat.lt_of_lt_of_le (hlt k' hk') hacts)

theorem nextSession_lt (hopen : Store.openOn disk config = .ok st) :
    (start st).store.nextSession < UInt64.size := by
  obtain ⟨t, log, -, rfl⟩ := Store.openOn_starts hopen
  exact Nat.mod_lt _ (by decide)

end Numbers

end World

end Coordination
