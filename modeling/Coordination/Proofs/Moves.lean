import Coordination.Proofs.Submission
import Coordination.Proofs.TableChange
import Coordination.Server

/-!
What can happen to a store, one move at a time. A move commits one batch, or it leaves the tree as
it is and changes the watches at most once (`Store.effect`). Whatever sessions ask for comes down to
moves (`Server.run_moved`).
-/

namespace Coordination

open Journal (Disk Sink)
open Watch (Change Handle Mask Receipt Table)

theorem Writer.watchAndRead_cases {σ : Type} (w : Writer σ) (s : SessionId) (p : String)
    (mask : Mask) (required : Bool) :
    ((w.watchAndRead s p mask required).2 = w ∧
        ∀ t h, (w.watchAndRead s p mask required).1 ≠ .ok (t, some h)) ∨
      (w.watchAndRead s p mask required).1 =
          .ok (w.engine.tree, some (w.engine.hub.table.lastHandle + 1)) ∧
        w.engine.hub.table.attached.contains s = true ∧
        (w.watchAndRead s p mask required).2 =
          { w with engine := w.engine.withHub (w.engine.hub.change (.register s p mask)) } := by
  unfold Writer.watchAndRead Engine.watchAndRead
  by_cases hread : (required && !w.engine.tree.contains p) = true
  · rw [if_pos hread]
    exact .inl ⟨rfl, by simp⟩
  · rw [if_neg hread]
    cases hreg : w.engine.hub.register s p mask with
    | error f => exact .inl ⟨rfl, by simp⟩
    | ok a =>
        obtain ⟨h, hub⟩ := a
        obtain ⟨-, hatt, rfl, rfl⟩ := Watch.Hub.register_ok hreg
        exact .inr ⟨rfl, hatt, rfl⟩

namespace Store

inductive Move where
  | submit (now : Time) (session : SessionId) (ops : List Op)
  | sync (session : SessionId)
  | watchAndRead (session : SessionId) (path : String) (mask : Mask) (required : Bool)
  | connect
  | detach (session : SessionId)
  | watch (session : SessionId) (path : String) (mask : Mask)
  | cancel (handle : Handle)
  | receive (channel : Nat) (receipt : Receipt)
  | stop

def move (st : Store) : Move → Store
  | .submit now s ops => (st.submit now s ops).2
  | .sync s => (st.sync s).2
  | .watchAndRead s p mask required => (st.watchAndRead s p mask required).2
  | .connect => st.connect.2
  | .detach s =>
      match st.hub.detach s with
      | .ok (_, hub) => st.withHub hub
      | .error _ => st
  | .watch s p mask =>
      match st.hub.register s p mask with
      | .ok (_, hub) => st.withHub hub
      | .error _ => st
  | .cancel h => (Session.cancel st h).2
  | .receive c receipt => st.withHub (st.hub.receive c receipt.apply)
  | .stop => st.stop

def moveAll (st : Store) (ms : List Move) : Store := ms.foldl move st

theorem moveAll_append (st : Store) (ms ms' : List Move) :
    st.moveAll (ms ++ ms') = (st.moveAll ms).moveAll ms' :=
  List.foldl_append

def commits (st : Store) : List Move → Nat
  | [] => 0
  | m :: ms => st.tree.lastZxid.passed (st.move m).tree.lastZxid + (st.move m).commits ms

/-- What a move does to the tree, to the journal and to the watches. An append that fails may have
written something, and it halts the engine. -/
inductive Effect (st st' : Store) (m : Move) : Prop
  | none : st'.tree = st.tree → (st'.engine.halted = .none → st'.writer.log = st.writer.log) →
      st'.hub.table = st.hub.table → Effect st st' m
  | watches {c : Change} : st'.tree = st.tree → st'.writer.log = st.writer.log →
      st'.hub.table = st.hub.table.change c → (∀ zxid es, c ≠ .publish zxid es) →
      (∀ h, c = .cancel h → m = .cancel h) → Effect st st' m
  | batch {now : Time} {s : SessionId} {ops : List Op} {plan : Plan} :
      m = .submit now s ops → st.tree.plan ops (st.engine.stamp now s) = .ok plan →
      st'.tree = (st.tree.commit plan).tree →
      Sink.append
        { zxid := st.tree.lastZxid.next, time := now, session := s, ops
          events := (st.tree.commit plan).events } st.writer.log = (.ok (), st'.writer.log) →
      st'.hub.table = st.hub.table.change
        (.publish st.tree.lastZxid.next (st.tree.commit plan).events) →
      st'.engine.halted = .none → Effect st st' m

variable {st : Store} {m : Move}

theorem announced_hub {e e' : Engine} {zxid : Zxid} {es : List Event}
    (h : e.Announced zxid es e') :
    (e'.hub = if e.hub.poisoned then e.hub else e.hub.change (.publish zxid es)) ∧
      (e.hub.poisoned = false → e'.halted = none) := by
  rw [Engine.Announced, Watch.Hub.publish_eq] at h
  cases hp : e.hub.poisoned <;> rw [hp] at h
  · exact ⟨h.1, fun _ => h.2⟩
  · exact ⟨h.1, fun hno => nomatch hno⟩

theorem submit_spec (st : Store) (now : Time) (s : SessionId) (ops : List Op) :
    ((st.submit now s ops).2.tree = st.tree ∧
        ((st.submit now s ops).2.engine.halted = .none →
          (st.submit now s ops).2.writer.log = st.writer.log) ∧
        (st.submit now s ops).2.hub = st.hub) ∨
      ∃ plan, st.tree.plan ops (st.engine.stamp now s) = .ok plan ∧
        (st.submit now s ops).2.tree = (st.tree.commit plan).tree ∧
        Sink.append
          { zxid := st.tree.lastZxid.next, time := now, session := s, ops
            events := (st.tree.commit plan).events } st.writer.log =
              (.ok (), (st.submit now s ops).2.writer.log) ∧
        (st.submit now s ops).2.hub =
          (if st.hub.poisoned then st.hub
            else st.hub.change (.publish st.tree.lastZxid.next (st.tree.commit plan).events)) ∧
        (st.hub.poisoned = false → (st.submit now s ops).2.engine.halted = none) := by
  unfold Store.submit
  split
  · exact .inl ⟨rfl, fun _ => rfl, rfl⟩
  · split
    · exact .inl ⟨rfl, fun _ => rfl, rfl⟩
    · obtain ⟨w, hw⟩ := Engine.submit_ends st.engine st.writer.log now s ops
      cases w with
      | halted =>
          obtain ⟨cause, -, -, he, hlog⟩ := hw
          exact .inl ⟨congrArg Engine.tree he, fun _ => hlog, congrArg Engine.hub he⟩
      | rejected =>
          obtain ⟨-, r, -, -, hsame, hlog⟩ := hw
          exact .inl ⟨hsame.tree, fun _ => hlog, hsame.hub⟩
      | readOnly =>
          obtain ⟨-, -, plan, -, -, hsame, hlog⟩ := hw
          exact .inl ⟨hsame.tree, fun _ => hlog, hsame.hub⟩
      | unrecorded =>
          obtain ⟨-, -, plan, f, -, -, -, htree, hhub, hhalted⟩ := hw
          exact .inl ⟨htree, fun hnone => absurd (hhalted.symm.trans hnone) (by simp), hhub⟩
      | recorded =>
          obtain ⟨-, -, plan, hplan, happ, -, htree, -, hann⟩ := hw
          obtain ⟨hhub, hhalted⟩ := announced_hub hann
          exact .inr ⟨plan, hplan, htree, happ, hhub, hhalted⟩

theorem sync_snd (e : Engine) (s : SessionId) :
    (e.sync s).2 =
      if e.hub.poisoned then e else e.withHub (e.hub.change (.mark s e.lastZxid)) := by
  have hsnd : (e.sync s).2 = e.withHub (e.hub.barrier s e.lastZxid).2 := by
    unfold Engine.sync
    split <;> rename_i hbar <;> rw [hbar]
  rw [hsnd, Watch.Hub.barrier_snd]
  cases e.hub.poisoned <;> rfl

theorem watchAndRead_spec (st : Store) (s : SessionId) (p : String) (mask : Mask)
    (required : Bool) :
    ((st.watchAndRead s p mask required).2 = st ∧
        ∀ t h, (st.watchAndRead s p mask required).1 ≠ .ok (t, some h)) ∨
      (st.watchAndRead s p mask required).1 = .ok (st.tree, some (st.hub.table.lastHandle + 1)) ∧
        st.hub.table.attached.contains s = true ∧
        (st.watchAndRead s p mask required).2 =
          st.withHub (st.hub.change (.register s p mask)) := by
  unfold Store.watchAndRead
  split
  · exact .inl ⟨rfl, by simp⟩
  · rcases st.writer.watchAndRead_cases s p mask required with ⟨hw, hno⟩ | ⟨hr, hatt, hw⟩
    · exact .inl ⟨congrArg st.withWriter hw, hno⟩
    · exact .inr ⟨hr, hatt, congrArg st.withWriter hw⟩

/-- The change of the watches that a move makes unless it is refused; the events of a batch apart.
-/
def Move.change? (st : Store) : Move → Option Change
  | .sync s => some (.mark s st.tree.lastZxid)
  | .watchAndRead s p mask _ | .watch s p mask => some (.register s p mask)
  | .connect => some (.attach st.nextSession)
  | .detach s => some (.detach s)
  | .cancel h => some (.cancel h)
  | .receive c receipt => some (.receive c receipt)
  | .submit .. | .stop => none

theorem change?_ne_publish {zxid : Zxid} {es : List Event} :
    m.change? st ≠ some (.publish zxid es) := by
  cases m <;> simp [Move.change?]

theorem writer_move (st : Store) (hm : ∀ now s ops, m ≠ .submit now s ops) :
    (st.move m).writer = st.writer ∨
      ∃ c, m.change? st = some c ∧ c.Granted st.hub.table ∧
        (st.move m).writer = (st.withHub (st.hub.change c)).writer := by
  cases m with
  | submit now s ops => exact absurd rfl (hm now s ops)
  | sync s =>
      simp only [move, Store.sync]
      split
      · exact .inl rfl
      · have hsnd : (st.writer.sync s).2 = { st.writer with engine := (st.engine.sync s).2 } := rfl
        simp only [hsnd, sync_snd]
        split
        · exact .inl rfl
        · exact .inr ⟨_, rfl, trivial, rfl⟩
  | watchAndRead s p mask required =>
      rcases st.watchAndRead_spec s p mask required with ⟨hst, -⟩ | ⟨-, hatt, hst⟩
      · exact .inl (congrArg Store.writer hst)
      · exact .inr ⟨_, rfl, hatt, congrArg Store.writer hst⟩
  | connect =>
      simp only [move, Store.connect]
      split <;> rename_i hatt
      · exact .inl rfl
      · obtain ⟨-, -, rfl⟩ := Watch.Hub.attach_ok hatt
        exact .inr ⟨_, rfl, trivial, rfl⟩
  | detach s =>
      simp only [move, Watch.Hub.detach_eq]
      cases st.hub.poisoned with
      | true => exact .inl rfl
      | false => exact .inr ⟨_, rfl, trivial, rfl⟩
  | watch s p mask =>
      simp only [move]
      split <;> rename_i hreg
      · obtain ⟨-, hatt, -, rfl⟩ := Watch.Hub.register_ok hreg
        exact .inr ⟨_, rfl, hatt, rfl⟩
      · exact .inl rfl
  | cancel h =>
      simp only [move, Session.cancel, Watch.Hub.cancel_eq]
      cases st.hub.poisoned with
      | true => exact .inl rfl
      | false => exact .inr ⟨_, rfl, trivial, rfl⟩
  | receive c receipt => exact .inr ⟨_, rfl, trivial, rfl⟩
  | stop => exact .inl rfl

def Move.Brings (st : Store) : Move → Change → Prop
  | .submit .., c => ∃ zxid es, c = .publish zxid es
  | m, c => m.change? st = some c

theorem table_move (st : Store) (m : Move) :
    (st.move m).hub.table = st.hub.table ∨
      ∃ c, m.Brings st c ∧ c.Granted st.hub.table ∧
        (st.move m).hub.table = st.hub.table.change c := by
  by_cases hm : ∃ now s ops, m = .submit now s ops
  · obtain ⟨now, s, ops, rfl⟩ := hm
    rcases st.submit_spec now s ops with ⟨-, -, hhub⟩ | ⟨plan, -, -, -, hhub, -⟩
    · exact .inl (congrArg Watch.Hub.table hhub)
    · split at hhub
      · exact .inl (congrArg Watch.Hub.table hhub)
      · exact .inr ⟨_, ⟨_, _, rfl⟩, trivial, congrArg Watch.Hub.table hhub⟩
  · have hnot : ∀ now s ops, m ≠ .submit now s ops := by simpa using hm
    rcases st.writer_move hnot with hw | ⟨c, hc, hgranted, hw⟩
    · exact .inl (congrArg (·.engine.hub.table) hw)
    · refine .inr ⟨c, ?_, hgranted, congrArg (·.engine.hub.table) hw⟩
      cases m with
      | submit now s ops => exact absurd rfl (hnot now s ops)
      | _ => exact hc

theorem tree_move (st : Store) (hm : ∀ now s ops, m ≠ .submit now s ops) :
    (st.move m).tree = st.tree := by
  rcases st.writer_move hm with hw | ⟨c, -, -, hw⟩ <;> exact (congrArg (·.engine.tree) hw :)

theorem halted_move {st : Store} (m : Move) (h : (st.move m).engine.halted = none) :
    st.engine.halted = none := by
  by_cases hm : ∃ now s ops, m = .submit now s ops
  · obtain ⟨now, s, ops, rfl⟩ := hm
    simp only [move, Store.submit] at h
    split at h
    · exact h
    · split at h
      · exact h
      · cases hhalted : st.engine.halted with
        | none => rfl
        | some cause =>
            have hsame : (st.engine.submit st.writer.log now s ops).2.1 = st.engine := by
              rw [Engine.submit, hhalted]
            exact absurd (hhalted.symm.trans ((congrArg Engine.halted hsame).symm.trans h))
              (by simp)
  · have hnot : ∀ now s ops, m ≠ .submit now s ops := by simpa using hm
    rcases st.writer_move hnot with hw | ⟨c, -, -, hw⟩
    · exact (congrArg (·.engine.halted) hw).symm.trans h
    · exact (congrArg (·.engine.halted) hw).symm.trans h

theorem halted_moveAll {st : Store} (ms : List Move) (h : (st.moveAll ms).engine.halted = none) :
    st.engine.halted = none := by
  induction ms generalizing st with
  | nil => exact h
  | cons m ms ih => exact halted_move m (ih h)

theorem commits_eq_zero {ms : List Move} (hms : ∀ m ∈ ms, ∀ now s ops, m ≠ .submit now s ops)
    (st : Store) : st.commits ms = 0 ∧ (st.moveAll ms).tree = st.tree := by
  induction ms generalizing st with
  | nil => exact ⟨rfl, rfl⟩
  | cons m ms ih =>
      obtain ⟨hm, hms⟩ := List.forall_mem_cons.1 hms
      obtain ⟨hzero, htree⟩ := ih hms (st.move m)
      have hone := st.tree_move hm
      exact ⟨by rw [commits, hzero, hone, Zxid.passed_self], htree.trans hone⟩

theorem table_moveAll {P : Change → Prop} {ms : List Move}
    (hms : ∀ m ∈ ms, ∀ st c, m.Brings st c → P c) (st : Store) :
    ∃ cs, (st.moveAll ms).hub.table = st.hub.table.changeAll cs ∧ ∀ c ∈ cs, P c := by
  induction ms generalizing st with
  | nil => exact ⟨[], rfl, by simp⟩
  | cons m ms ih =>
      obtain ⟨hm, hms⟩ := List.forall_mem_cons.1 hms
      obtain ⟨cs, htable, hcs⟩ := ih hms (st.move m)
      rcases st.table_move m with hone | ⟨c, hc, -, hone⟩
      · exact ⟨cs, htable.trans (by rw [hone]), hcs⟩
      · exact ⟨c :: cs, htable.trans (by rw [hone]; rfl),
          List.forall_mem_cons.2 ⟨hm st c hc, hcs⟩⟩

theorem move_eq_withWriter (st : Store) (hconnect : m ≠ .connect) (hstop : m ≠ .stop) :
    st.move m = st.withWriter (st.move m).writer := by
  cases m with
  | connect => exact absurd rfl hconnect
  | stop => exact absurd rfl hstop
  | submit now s ops =>
      simp only [move, Store.submit]
      split
      · rfl
      · split <;> rfl
  | sync s =>
      simp only [move, Store.sync]
      split <;> rfl
  | watchAndRead s p mask required =>
      simp only [move, Store.watchAndRead]
      split <;> rfl
  | detach s =>
      simp only [move]
      split <;> rfl
  | watch s p mask =>
      simp only [move]
      split <;> rfl
  | cancel h =>
      simp only [move, Session.cancel]
      split <;> rfl
  | receive c receipt => rfl

theorem nextSession_move (st : Store) (hm : m ≠ .connect) :
    (st.move m).nextSession = st.nextSession := by
  by_cases hstop : m = .stop
  · subst hstop
    rfl
  · rw [st.move_eq_withWriter hm hstop]
    rfl

theorem running_move (st : Store) (hm : m ≠ .stop) : (st.move m).running = st.running := by
  by_cases hconnect : m = .connect
  · subst hconnect
    simp only [move, Store.connect]
    split <;> rfl
  · rw [st.move_eq_withWriter hconnect hm]
    rfl

theorem nextSession_moveAll {ms : List Move} (hms : ∀ m ∈ ms, m ≠ .connect) (st : Store) :
    (st.moveAll ms).nextSession = st.nextSession := by
  induction ms generalizing st with
  | nil => rfl
  | cons m ms ih =>
      obtain ⟨hm, hms⟩ := List.forall_mem_cons.1 hms
      exact (ih hms _).trans (st.nextSession_move hm)

theorem effect (hp : st.hub.poisoned = false) (m : Move) :
    (st.move m).hub.poisoned = false ∧ st.Effect (st.move m) m := by
  by_cases hm : ∃ now s ops, m = .submit now s ops
  · obtain ⟨now, s, ops, rfl⟩ := hm
    rcases st.submit_spec now s ops with ⟨htree, hlog, hhub⟩ |
        ⟨plan, hplan, htree, happ, hhub, hhalted⟩
    · exact ⟨(congrArg Watch.Hub.poisoned hhub).trans hp,
        .none htree hlog (congrArg Watch.Hub.table hhub)⟩
    · rw [hp, if_neg Bool.false_ne_true] at hhub
      exact ⟨(congrArg Watch.Hub.poisoned hhub).trans hp,
        .batch rfl hplan htree happ (congrArg Watch.Hub.table hhub) (hhalted hp)⟩
  · have hnot : ∀ now s ops, m ≠ .submit now s ops := by simpa using hm
    rcases st.writer_move hnot with hw | ⟨c, hc, -, hw⟩
    · have hhub : (st.move m).hub = st.hub := congrArg (·.engine.hub) hw
      exact ⟨hhub ▸ hp, .none (congrArg (·.engine.tree) hw) (fun _ => congrArg Writer.log hw)
        (congrArg Watch.Hub.table hhub)⟩
    · have hhub : (st.move m).hub = st.hub.change c := congrArg (·.engine.hub) hw
      refine ⟨(congrArg Watch.Hub.poisoned hhub).trans hp,
        .watches (congrArg (·.engine.tree) hw) (congrArg Writer.log hw :)
          (congrArg Watch.Hub.table hhub) ?_ ?_⟩
      · rintro zxid es rfl
        exact change?_ne_publish hc
      · rintro h rfl
        cases m <;> simp_all [Move.change?]

theorem unpoisoned_moveAll (hp : st.hub.poisoned = false) (ms : List Move) :
    (st.moveAll ms).hub.poisoned = false := by
  induction ms generalizing st with
  | nil => exact hp
  | cons m ms ih => exact ih (effect hp m).1

def replayed (disk : Disk) (config : Config) : List Record :=
  if config.isJournaled then
    match disk.recover config.durability with
    | .ok (records, _) => records
    | .error _ => []
  else []

theorem openOn_starts {disk : Disk} {config : Config} (h : openOn disk config = .ok st) :
    ∃ t log, replay (replayed disk config) = .ok t ∧
      st = start config t log (firstSession (replayed disk config)) := by
  unfold openOn at h
  unfold replayed
  split at h
  · cases h
  · split at h <;> rename_i hjournal
    · rw [if_pos hjournal]
      cases hrecover : disk.recover config.durability with
      | error f => simp [hrecover] at h
      | ok a =>
          simp only [hrecover] at h ⊢
          split at h
          · cases h
          · rename_i t hreplay
            obtain rfl := Except.ok.inj h
            exact ⟨t, _, hreplay, rfl⟩
    · obtain rfl := Except.ok.inj h
      rw [if_neg hjournal]
      exact ⟨_, _, rfl, rfl⟩

def journaled : Config := { Config.standard with journalPath := some "journal" }

theorem exists_openOn {α : Type} {disk : Disk} {config : Config} {f : Store → α} {a : α}
    (h : (openOn disk config).toOption.map f = some a) :
    ∃ st, openOn disk config = .ok st ∧ f st = a := by
  cases hopen : openOn disk config with
  | error e =>
      rw [hopen] at h
      cases h
  | ok st =>
      rw [hopen] at h
      exact ⟨st, rfl, Option.some.inj h⟩

theorem openOn_ok {disk : Disk} {config : Config} (h : openOn disk config = .ok st) :
    st.hub = .empty ∧ st.config = config ∧ st.running = true := by
  obtain ⟨t, log, -, rfl⟩ := openOn_starts h
  exact ⟨rfl, rfl, rfl⟩

end Store

def Store.Moved (st st' : Store) : Prop := ∃ ms, st' = st.moveAll ms

theorem Store.Moved.refl (st : Store) : st.Moved st := ⟨[], rfl⟩

theorem Store.Moved.trans {st st' st'' : Store} (h : st.Moved st') (h' : st'.Moved st'') :
    st.Moved st'' := by
  obtain ⟨ms, rfl⟩ := h
  obtain ⟨ms', rfl⟩ := h'
  exact ⟨ms ++ ms', (Store.moveAll_append st ms ms').symm⟩

def Store.MovedBy (st : Store) (P : Store.Move → Prop) (st' : Store) : Prop :=
  ∃ ms, (∀ m ∈ ms, P m) ∧ st' = st.moveAll ms

namespace Store.MovedBy

variable {P Q : Move → Prop} {st st' st'' : Store}

theorem refl (P : Move → Prop) (st : Store) : st.MovedBy P st := ⟨[], by simp, rfl⟩

theorem one {m : Move} (hm : P m) : st.MovedBy P (st.move m) := ⟨[m], by simpa, rfl⟩

theorem trans (h : st.MovedBy P st') (h' : st'.MovedBy P st'') : st.MovedBy P st'' := by
  obtain ⟨ms, hms, rfl⟩ := h
  obtain ⟨ms', hms', rfl⟩ := h'
  refine ⟨ms ++ ms', fun m hm => ?_, (moveAll_append st ms ms').symm⟩
  exact (List.mem_append.1 hm).elim (hms m) (hms' m)

theorem mono (h : st.MovedBy P st') (hP : ∀ m, P m → Q m) : st.MovedBy Q st' := by
  obtain ⟨ms, hms, rfl⟩ := h
  exact ⟨ms, fun m hm => hP m (hms m hm), rfl⟩

end Store.MovedBy

namespace Session

/-- A move in the name of a session and on its own channel. Batches and cancellations are not meant:
the one is of the whole store, and the other may be of a watch of any session. -/
def Owns (s : Session) : Store.Move → Prop
  | .sync x | .watchAndRead x _ _ _ | .watch x _ _ | .detach x => x = s.id
  | .receive c _ => c = s.channel
  | _ => False

theorem Owns.ne_submit {s : Session} {m : Store.Move} (h : s.Owns m) (now : Time) (x : SessionId)
    (ops : List Op) : m ≠ .submit now x ops := by
  rintro rfl
  exact h

def Leads (s : Session) (st st' : Store) : Prop := ∃ ms, (∀ m ∈ ms, s.Owns m) ∧ st' = st.moveAll ms

theorem Leads.tree_eq {s : Session} {st st' : Store} (h : s.Leads st st') : st'.tree = st.tree := by
  obtain ⟨ms, hms, rfl⟩ := h
  exact (st.commits_eq_zero fun m hm => (hms m hm).ne_submit).2

variable (s : Session) (st : Store) (now : Time)

section Submitting

theorem single_snd (op : Op) : (s.single st now op).2 = (s.multi st now [op]).2 := by
  unfold single
  split <;> rename_i h <;> rw [h]
  split <;> rfl

theorem create_snd (p : String) (data : Bytes) (mode : CreateMode) :
    (s.create st now p data mode).2 = (s.multi st now [.create p data mode]).2 := by
  rw [← single_snd]
  unfold create
  split <;> rename_i h <;> rw [h]

theorem delete_snd (p : String) (version : Version) :
    (s.delete st now p version).2 = (s.multi st now [.delete p version]).2 := by
  rw [← single_snd]
  unfold delete
  split <;> rename_i h <;> rw [h]

theorem setData_snd (p : String) (data : Bytes) (version : Version) :
    (s.setData st now p data version).2 = (s.multi st now [.setData p data version]).2 := by
  rw [← single_snd]
  unfold setData
  split <;> rename_i h <;> rw [h]

def Call.ops? : Call → Option (List Op)
  | .multi ops | .transaction ops => some ops
  | .create p data mode => some [.create p data mode]
  | .delete p version => some [.delete p version]
  | .setData p data version => some [.setData p data version]
  | _ => none

theorem commit_addAll (ops : List Op) :
    ((Transaction.start s).addAll ops).commit st now = s.multi st now ops := by
  have haddAll : ∀ (t : Transaction) (ops : List Op),
      t.addAll ops = { session := t.session, ops := t.ops ++ ops } := by
    intro t ops
    induction ops generalizing t with
    | nil => simp [Transaction.addAll]
    | cons op ops ih =>
        rw [Transaction.addAll, List.foldl_cons]
        exact (ih (t.add op)).trans (by simp [Transaction.add])
  rw [haddAll, Transaction.commit]
  rfl

theorem perform_of_ops {call : Call} {ops : List Op} (h : call.ops? = some ops) :
    (s.perform st now call).2 = (s, (s.multi st now ops).2) := by
  cases call with
  | multi ops' =>
      obtain rfl := Option.some.inj h
      rfl
  | transaction ops' =>
      obtain rfl := Option.some.inj h
      simp only [perform, commit_addAll]
  | create p data mode =>
      obtain rfl := Option.some.inj h
      exact congrArg (Prod.mk s) (s.create_snd st now p data mode)
  | delete p version =>
      obtain rfl := Option.some.inj h
      exact congrArg (Prod.mk s) (s.delete_snd st now p version)
  | setData p data version =>
      obtain rfl := Option.some.inj h
      exact congrArg (Prod.mk s) (s.setData_snd st now p data version)
  | _ => cases h

theorem multi_snd (ops : List Op) :
    (s.multi st now ops).2 = if s.active then (st.submit now s.id ops).2 else st := by
  simp only [multi, checkActive]
  cases s.active <;> rfl

end Submitting

section Making

def Call.takes : Call → Bool
  | .tryNext | .next | .drain => true
  | _ => false

def Makes (s : Session) (call : Call) : Store.Move → Prop
  | .submit _ x ops => x = s.id ∧ call.ops? = some ops
  | .cancel h => call = .cancel h
  | .sync x | .watchAndRead x _ _ _ | .watch x _ _ => x = s.id
  | .detach x => x = s.id ∧ s.active = true ∧ call = .close
  | .receive c .one => c = s.channel ∧ call.takes = true
  | .receive c .close => c = s.channel ∧ call = .close
  | .receive _ .all | .connect | .stop => False

theorem Makes.ne_connect {s : Session} {call : Call} {m : Store.Move} (h : s.Makes call m) :
    m ≠ .connect := by
  rintro rfl
  exact h

theorem watchedRead_makes {call : Call} (p : String) (mask : Mask) (required : Bool) :
    st.MovedBy (s.Makes call) (s.watchedRead st p mask required).2 := by
  unfold watchedRead
  split
  · exact .refl _ st
  · exact .one (m := .watchAndRead s.id p mask required) rfl

theorem existsWatched_snd (p : String) :
    (s.existsWatched st p).2 = (s.watchedRead st p .data false).2 := by
  unfold existsWatched
  split <;> rename_i h <;> rw [h]

theorem getDataWatched_snd (p : String) :
    (s.getDataWatched st p).2 = (s.watchedRead st p .data true).2 := by
  unfold getDataWatched
  split <;> rename_i h <;> rw [h]
  split <;> rfl

theorem getChildrenWatched_snd (p : String) :
    (s.getChildrenWatched st p).2 = (s.watchedRead st p .children true).2 := by
  unfold getChildrenWatched
  split <;> rename_i h <;> rw [h]
  split <;> rfl

theorem watch_makes {call : Call} (p : String) (mask : Mask) :
    st.MovedBy (s.Makes call) (s.watch st p mask).2 := by
  unfold watch
  split
  · exact .refl _ st
  · have hone : st.MovedBy (s.Makes call) (st.move (.watch s.id p mask)) := .one rfl
    simp only [Store.move] at hone
    split <;> rename_i h <;> rw [h] at hone <;> exact hone

theorem next_makes {call : Call} (hcall : call.takes = true) :
    st.MovedBy (s.Makes call) (s.next st).2 := by
  unfold next
  split
  · exact .one (m := .receive s.channel .one) ⟨rfl, hcall⟩
  · exact .refl _ st

theorem tryNext_snd : (s.tryNext st).2 = (s.next st).2 := by
  unfold tryNext
  split <;> rename_i h <;> rw [h]

theorem sync_makes {call : Call} : st.MovedBy (s.Makes call) (s.sync st).2 := by
  unfold sync
  split
  · exact .refl _ st
  · exact .one (m := .sync s.id) rfl

theorem takeUntil_makes {call : Call} (hcall : call.takes = true) (target : Zxid) (limit : Nat) :
    st.MovedBy (s.Makes call) (s.takeUntil st target limit).2 := by
  induction limit generalizing st with
  | zero => exact .refl _ st
  | succ limit ih =>
      have hm := s.next_makes st hcall
      unfold takeUntil
      split <;> rename_i h <;> rw [h] at hm
      · split
        · exact hm
        · exact hm.trans (ih _)
      · rename_i st' _
        have hrest := ih st'
        split <;> rename_i h' <;> rw [h'] at hrest <;> exact hm.trans hrest
      · exact hm

theorem drainUntilSynced_makes : st.MovedBy (s.Makes .drain) (s.drainUntilSynced st).2 := by
  have hm : st.MovedBy (s.Makes .drain) (s.sync st).2 := s.sync_makes st
  unfold drainUntilSynced
  split <;> rename_i h <;> rw [h] at hm
  · exact hm
  · exact hm.trans (s.takeUntil_makes _ rfl _ _)

theorem close_makes : st.MovedBy (s.Makes .close) (s.close st).2.2 := by
  unfold close
  split <;> rename_i hactive
  · split <;> rename_i h
    · exact .refl _ st
    · refine ⟨[.detach s.id, .receive s.channel .close], by simp [Makes, hactive], ?_⟩
      simp only [Store.moveAll, List.foldl_cons, List.foldl_nil, Store.move, h]
      rfl
  · exact .refl _ st

theorem perform_session (call : Call) :
    (s.perform st now call).2.1 = s ∨ (s.perform st now call).2.1 = { s with active := false } := by
  cases call with
  | close =>
      simp only [perform, close]
      cases s.active with
      | false => exact .inl rfl
      | true =>
          cases st.hub.detach s.id with
          | error f => exact .inl rfl
          | ok a => exact .inr rfl
  | _ => exact .inl rfl

theorem close_ok {s : Session} {st : Store} (h : (s.close st).1 = .ok ()) :
    (s.close st).2.1 = { s with active := false } ∧
      (s.close st).2.2.hub.table =
        if s.active then
          (st.hub.table.change (.detach s.id)).change (.receive s.channel .close)
        else st.hub.table := by
  unfold close at h ⊢
  split at h <;> rename_i hactive
  · rw [if_pos hactive, if_pos hactive]
    rw [Watch.Hub.detach_eq] at h ⊢
    cases hp : st.hub.poisoned with
    | true => simp [hp] at h
    | false => exact ⟨rfl, rfl⟩
  · rw [if_neg hactive, if_neg hactive]
    obtain ⟨id, channel, active⟩ := s
    obtain rfl : active = false := Bool.eq_false_iff.2 hactive
    exact ⟨rfl, rfl⟩

theorem close_of_perform {call : Call} (hactive : s.active = true)
    (h : (s.perform st now call).2.1.active = false) : call = .close ∧ (s.close st).1 = .ok () := by
  cases call with
  | close =>
      refine ⟨rfl, ?_⟩
      simp only [perform, close, if_pos hactive] at h ⊢
      cases hdetach : st.hub.detach s.id with
      | error f =>
          rw [hdetach] at h
          exact absurd (hactive.symm.trans h) (by decide)
      | ok a => rfl
  | _ => exact absurd (hactive.symm.trans h) (by decide)

theorem drop_makes : st.MovedBy (s.Makes .close) (s.drop st) := by
  have hchannel : (s.close st).2.1.channel = s.channel := by
    rcases s.perform_session st 0 .close with h | h <;> exact (congrArg Session.channel h :)
  exact (s.close_makes st).trans
    (.one (m := .receive (s.close st).2.1.channel .close) ⟨hchannel, rfl⟩)

theorem perform_makes (call : Call) :
    st.MovedBy (s.Makes call) (s.perform st now call).2.2 := by
  cases hops : call.ops? with
  | some ops =>
      rw [s.perform_of_ops st now hops, multi_snd]
      split
      · exact .one (m := .submit now s.id ops) ⟨rfl, hops⟩
      · exact .refl _ st
  | none =>
      cases call with
      | existsWatched p => exact s.existsWatched_snd st p ▸ s.watchedRead_makes st p _ _
      | getDataWatched p => exact s.getDataWatched_snd st p ▸ s.watchedRead_makes st p _ _
      | getChildrenWatched p => exact s.getChildrenWatched_snd st p ▸ s.watchedRead_makes st p _ _
      | watch p mask => exact s.watch_makes st p mask
      | cancel h => exact .one (m := .cancel h) rfl
      | tryNext => exact s.tryNext_snd st ▸ s.next_makes st rfl
      | next => exact s.next_makes st rfl
      | sync => exact s.sync_makes st
      | drain => exact s.drainUntilSynced_makes st
      | close => exact s.close_makes st
      | multi | transaction | create | delete | setData => cases hops
      | _ => exact .refl _ st

theorem Makes.owns {s : Session} {call : Call} {m : Store.Move} (hops : call.ops? = none)
    (hcancel : ∀ h, call ≠ .cancel h) (h : s.Makes call m) : s.Owns m := by
  cases m with
  | submit now x ops => exact absurd (hops.symm.trans h.2) (by simp)
  | cancel k => exact absurd h (hcancel k)
  | sync x => exact h
  | watchAndRead x p mask required => exact h
  | watch x p mask => exact h
  | detach x => exact h.1
  | receive c receipt =>
      cases receipt with
      | one => exact h.1
      | close => exact h.1
      | all => exact h.elim
  | connect => exact h.elim
  | stop => exact h.elim

theorem perform_leads {call : Call} (hops : call.ops? = none) (hcancel : ∀ h, call ≠ .cancel h) :
    s.Leads st (s.perform st now call).2.2 :=
  (s.perform_makes st now call).mono fun _ => Makes.owns hops hcancel

theorem drop_leads : s.Leads st (s.drop st) :=
  (s.drop_makes st).mono fun _ => Makes.owns rfl (by simp)

end Making

theorem perform_moves (call : Call) :
    ∃ ms, (∀ m ∈ ms, m ≠ .connect) ∧ (s.perform st now call).2.2 = st.moveAll ms :=
  (s.perform_makes st now call).mono fun _ => Makes.ne_connect

theorem drop_moves : ∃ ms, (∀ m ∈ ms, m ≠ .connect) ∧ s.drop st = st.moveAll ms :=
  (s.drop_makes st).mono fun _ => Makes.ne_connect

end Session

namespace Server

theorem step_moved (v : Server) (now : Time) (call : Call) :
    v.store.Moved (v.step now call).2.store := by
  cases call with
  | connect =>
      refine ⟨[.connect], ?_⟩
      simp only [step, connect, Store.moveAll, List.foldl_cons, List.foldl_nil, Store.move]
      split <;> rename_i h <;> rw [h]
  | session n call =>
      simp only [step]
      split
      · exact .refl _
      · obtain ⟨ms, -, hst⟩ := Session.perform_moves _ v.store now call
        exact ⟨ms, hst⟩
  | drop n =>
      simp only [step]
      split
      · exact .refl _
      · obtain ⟨ms, -, hst⟩ := Session.drop_moves _ v.store
        exact ⟨ms, hst⟩

theorem run_moved (v : Server) (calls : List (Time × Call)) :
    v.store.Moved (v.run calls).store := by
  induction calls generalizing v with
  | nil => exact .refl _
  | cons c cs ih => exact (v.step_moved c.1 c.2).trans (ih _)

end Server

end Coordination
