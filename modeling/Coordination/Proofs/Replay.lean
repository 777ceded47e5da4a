import Coordination.Proofs.Submission
import Coordination.Writer

namespace Coordination

open Journal (Sink)
open Watch (Hub)

namespace Tree

variable {t u : Tree} {rs : List Record}

theorem replayOne_eq_ok {r : Record} :
    t.replayOne r = .ok u ↔
      t.lastZxid < r.zxid ∧
        ∃ plan, t.plan r.ops r.stamp = .ok plan ∧ (t.commit plan).tree = u := by
  unfold replayOne
  split <;> rename_i hz
  · simp [Nat.not_lt.2 hz]
  · split <;> rename_i hplan
    · simp [hplan]
    · simp [hplan, Nat.lt_of_not_le hz]

theorem replayFrom_concat_eq_ok {r : Record} :
    t.replayFrom (rs ++ [r]) = .ok u ↔
      ∃ v, t.replayFrom rs = .ok v ∧ v.replayOne r = .ok u := by
  induction rs generalizing t with
  | nil =>
      simp only [List.nil_append, replayFrom, Except.ok.injEq, exists_eq_left']
      cases t.replayOne r <;> simp
  | cons r' rs ih =>
      simp only [List.cons_append, replayFrom]
      cases t.replayOne r' with
      | error e => simp
      | ok t' => exact ih

theorem lastZxid_replayOne {r : Record} (h : t.replayOne r = .ok u) : u.lastZxid = r.zxid := by
  obtain ⟨-, plan, hplan, rfl⟩ := replayOne_eq_ok.1 h
  rw [lastZxid_commit, Draft.stamp_acceptAll hplan, Record.stamp]

theorem lastZxid_replayFrom (h : t.replayFrom rs = .ok u) :
    u.lastZxid = (rs.getLast?.map Record.zxid).getD t.lastZxid := by
  rcases List.eq_nil_or_concat rs with rfl | ⟨rs, r, rfl⟩
  · obtain rfl : t = u := Except.ok.inj h
    rfl
  · rw [List.concat_eq_append] at h ⊢
    obtain ⟨v, -, hr⟩ := replayFrom_concat_eq_ok.1 h
    simp [lastZxid_replayOne hr]

end Tree

namespace Journal

structure Ledger (σ : Type) where
  log : σ
  taken : List Record

variable {σ : Type} [Sink σ]

instance : Sink (Ledger σ) where
  append r l :=
    match Sink.append r l.log with
    | (.ok (), log) => (.ok (), { log, taken := l.taken ++ [r] })
    | (.error f, log) => (.error f, { l with log })

theorem append_ledger_ok {r : Record} {l l' : Ledger σ} (h : Sink.append r l = (.ok (), l')) :
    l'.taken = l.taken ++ [r] := by
  simp only [Sink.append] at h
  split at h
  · rw [← (Prod.mk.inj h).2]
  · cases (Prod.mk.inj h).1

theorem append_ledger_error {r : Record} {l l' : Ledger σ} {f : Fault}
    (h : Sink.append r l = (.error f, l')) : l'.taken = l.taken := by
  simp only [Sink.append] at h
  split at h
  · cases (Prod.mk.inj h).1
  · rw [← (Prod.mk.inj h).2]

end Journal

open Journal (Ledger)

namespace Engine

variable {σ : Type} [Sink σ]

def plain {α : Type} (r : α × Engine × Ledger σ) : α × Engine × σ := (r.1, r.2.1, r.2.2.log)

theorem plain_publish (e : Engine) (l : Ledger σ) (batch : Batch) (c : Commit) :
    plain (e.publish l batch c) = e.publish l.log batch c := by
  unfold Engine.publish
  simp only [Sink.append]
  rcases Sink.append (record batch.ops c) l.log with ⟨f | ⟨⟩, log⟩
  · dsimp only
    cases batch.abort <;> rfl
  · dsimp only
    cases batch.commit <;> rfl

theorem plain_submit (e : Engine) (l : Ledger σ) (now : Time) (s : SessionId) (ops : List Op) :
    plain (e.submit l now s ops) = e.submit l.log now s ops := by
  unfold submit
  cases e.halted with
  | some cause => rfl
  | none =>
      dsimp only
      unfold runBatch
      cases (Batch.submit e.nextBatch s ops).begin with
      | error f => rfl
      | ok batch =>
          dsimp only
          split
          · cases batch.abort <;> rfl
          · split
            · cases batch.commit <;> rfl
            · exact plain_publish ..

end Engine

namespace Writer

variable {σ : Type} [Sink σ]

/-- A submit, or anything that happens to the watches between two of them. -/
inductive Move where
  | submit (now : Time) (session : SessionId) (ops : List Op)
  | watches (hub : Hub)

def move (w : Writer σ) : Move → Writer σ
  | .submit now s ops => (w.submit now s ops).2
  | .watches hub => { w with engine := w.engine.withHub hub }

def run (w : Writer σ) (ms : List Move) : Writer σ := ms.foldl move w

def withLedger (w : Writer σ) : Writer (Ledger σ) :=
  { engine := w.engine, log := { log := w.log, taken := [] } }

omit [Sink σ] in
def plain (w : Writer (Ledger σ)) : Writer σ := { engine := w.engine, log := w.log.log }

def taken (w : Writer σ) (ms : List Move) : List Record := (w.withLedger.run ms).log.taken

theorem plain_move (w : Writer (Ledger σ)) (m : Move) : (w.move m).plain = w.plain.move m := by
  cases m with
  | watches hub => rfl
  | submit now s ops =>
      have h := Engine.plain_submit w.engine w.log now s ops
      simp only [move, submit, plain, ← h]
      rfl

theorem plain_run (w : Writer (Ledger σ)) (ms : List Move) :
    (w.run ms).plain = w.plain.run ms := by
  induction ms generalizing w with
  | nil => rfl
  | cons m ms ih => rw [run, List.foldl_cons, ← run, ih, plain_move, run, run, List.foldl_cons]

theorem move_cases (w : Writer (Ledger σ)) (m : Move) :
    ((w.move m).log.taken = w.log.taken ∧ (w.move m).engine.tree = w.engine.tree) ∨
      ∃ r plan, (w.move m).log.taken = w.log.taken ++ [r] ∧
        r.zxid = w.engine.tree.lastZxid.next ∧ w.engine.tree.plan r.ops r.stamp = .ok plan ∧
        (w.engine.tree.commit plan).events = r.events ∧
        (w.move m).engine.tree = (w.engine.tree.commit plan).tree := by
  cases m with
  | watches hub => exact .inl ⟨rfl, rfl⟩
  | submit now s ops =>
      simp only [move, submit]
      obtain ⟨way, hway⟩ := Engine.submit_ends w.engine w.log now s ops
      cases way with
      | halted =>
          obtain ⟨_, -, -, he, hlog⟩ := hway
          exact .inl ⟨congrArg Ledger.taken hlog, congrArg Engine.tree he⟩
      | rejected =>
          obtain ⟨-, _, -, -, hsame, hlog⟩ := hway
          exact .inl ⟨congrArg Ledger.taken hlog, hsame.tree⟩
      | readOnly =>
          obtain ⟨-, -, _, -, -, hsame, hlog⟩ := hway
          exact .inl ⟨congrArg Ledger.taken hlog, hsame.tree⟩
      | unrecorded =>
          obtain ⟨-, -, _, _, -, happ, -, htree, -⟩ := hway
          exact .inl ⟨Journal.append_ledger_error happ, htree⟩
      | recorded =>
          obtain ⟨-, -, plan, hplan, happ, -, htree, -⟩ := hway
          exact .inr ⟨_, plan, Journal.append_ledger_ok happ, rfl, hplan, rfl, htree⟩

end Writer

structure Explains (t₀ : Tree) (taken : List Record) (t : Tree) : Prop where
  rebuilt : t₀.replayFrom taken = .ok t
  lastZxid : t.lastZxid = t₀.lastZxid + taken.length
  consecutive : taken.map Record.zxid = List.range' (t₀.lastZxid + 1) taken.length
  derived : ∀ before r after, taken = before ++ r :: after →
    ∃ u plan, t₀.replayFrom before = .ok u ∧ u.plan r.ops r.stamp = .ok plan ∧
      (u.commit plan).events = r.events

namespace Explains

variable {t₀ t : Tree} {taken : List Record}

theorem start (t : Tree) : Explains t [] t where
  rebuilt := rfl
  lastZxid := rfl
  consecutive := rfl
  derived := fun before r after he => by simp at he

theorem record (h : Explains t₀ taken t) (hroom : t₀.lastZxid + taken.length < maxZxid)
    {r : Record} {plan : Plan} (hz : r.zxid = t.lastZxid.next)
    (hplan : t.plan r.ops r.stamp = .ok plan) (hevents : (t.commit plan).events = r.events) :
    Explains t₀ (taken ++ [r]) (t.commit plan).tree := by
  have hnext : r.zxid = t.lastZxid + 1 := hz.trans (Zxid.next_eq (h.lastZxid ▸ hroom))
  constructor
  · have hone : t.replayOne r = .ok (t.commit plan).tree :=
      Tree.replayOne_eq_ok.2 ⟨hnext ▸ Nat.lt_succ_self t.lastZxid, plan, hplan, rfl⟩
    exact Tree.replayFrom_concat_eq_ok.2 ⟨t, h.rebuilt, hone⟩
  · have hs : plan.stamp = r.stamp := Draft.stamp_acceptAll hplan
    rw [Tree.lastZxid_commit, hs, Record.stamp, hnext, h.lastZxid, List.length_append]
    rfl
  · rw [List.map_append, h.consecutive, List.length_append, List.length_singleton,
      List.range'_1_concat, List.map_singleton, hnext, h.lastZxid, Nat.add_right_comm]
  · intro before r' after he
    rcases List.eq_nil_or_concat after with rfl | ⟨after, last, rfl⟩
    · obtain ⟨rfl, hr⟩ := List.append_inj' he rfl
      obtain rfl := List.head_eq_of_cons_eq hr
      exact ⟨t, plan, h.rebuilt, hplan, hevents⟩
    · rw [List.concat_eq_append, ← List.cons_append, ← List.append_assoc] at he
      exact h.derived before r' after (List.append_inj' he rfl).1

end Explains

/-- The records explain the tree as long as they are not more than can be numbered. -/
def Explained (t₀ : Tree) (taken : List Record) (t : Tree) : Prop :=
  t₀.lastZxid + taken.length ≤ maxZxid → Explains t₀ taken t

namespace Explained

variable {σ : Type} [Sink σ] {t₀ : Tree} {w : Writer (Ledger σ)}

theorem move (h : Explained t₀ w.log.taken w.engine.tree) (m : Writer.Move) :
    Explained t₀ (w.move m).log.taken (w.move m).engine.tree := by
  rcases w.move_cases m with ⟨htaken, htree⟩ | ⟨r, plan, htaken, hz, hplan, hevents, htree⟩
  · rw [htaken, htree]
    exact h
  · rw [htaken, htree]
    intro hroom
    rw [List.length_append, List.length_singleton] at hroom
    exact (h (Nat.le_of_lt hroom)).record hroom hz hplan hevents

theorem run (h : Explained t₀ w.log.taken w.engine.tree) (ms : List Writer.Move) :
    Explained t₀ (w.run ms).log.taken (w.run ms).engine.tree := by
  induction ms generalizing w with
  | nil => exact h
  | cons m ms ih => exact ih (h.move m)

end Explained

theorem Writer.explains {σ : Type} [Sink σ] (w : Writer σ) (ms : List Writer.Move)
    (hroom : w.engine.tree.lastZxid + (w.taken ms).length ≤ maxZxid) :
    Explains w.engine.tree (w.taken ms) (w.run ms).engine.tree := by
  have hstart : Explained w.engine.tree w.withLedger.log.taken w.withLedger.engine.tree :=
    fun _ => .start _
  have hend := hstart.run ms hroom
  have hplain : (w.withLedger.run ms).engine = (w.run ms).engine :=
    congrArg Writer.engine (w.withLedger.plain_run ms)
  rwa [hplain] at hend

end Coordination
