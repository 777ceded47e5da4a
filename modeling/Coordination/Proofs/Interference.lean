import Coordination.Proofs.World

namespace Coordination

open Watch (Change Table)

namespace Watch

/-- Whether a change leaves the registrations of session `s` alone and sends nothing to it. -/
def Change.Spares (s : SessionId) : Change → Prop
  | .attach x | .detach x | .register x _ _ | .mark x _ => x ≠ s
  | .receive .. => True
  | .cancel _ | .publish .. => False

namespace Table

variable {t : Table} {s : SessionId} {k : Nat} {c : Change}

theorem Sound.spared_change (ht : t.Sound) (hk : t.Private k s) (hc : c.Spares s) :
    (∀ p r, r.session = s → (r ∈ (t.change c).registrations p ↔ r ∈ t.registrations p)) ∧
      (t.change c).sent k = t.sent k := by
  constructor
  · intro p r hr
    rw [ht.mem_registrations_change]
    constructor
    · rintro (⟨hmem, -⟩ | ⟨rfl, -⟩)
      · exact hmem
      · exact absurd hr hc
    · intro hmem
      refine .inl ⟨hmem, fun htake => ?_⟩
      cases c with
      | detach x => exact hc (htake.symm.trans hr)
      | cancel | publish => exact hc
      | _ => exact htake
  · refine ht.sent_change_of_silent fun n hsends => ?_
    cases c with
    | mark x zxid => exact hc (hk.own x hsends.1)
    | publish => exact hc
    | _ => exact hsends

theorem Sound.spared_changeAll (ht : t.Sound) (hk : t.Private k s) {cs : List Change}
    (hcs : ∀ c ∈ cs, c.Spares s) :
    (∀ p r, r.session = s → (r ∈ (t.changeAll cs).registrations p ↔ r ∈ t.registrations p)) ∧
      (t.changeAll cs).sent k = t.sent k := by
  induction cs generalizing t with
  | nil => exact ⟨fun _ _ _ => .rfl, rfl⟩
  | cons c cs ih =>
      obtain ⟨hc, hcs⟩ := List.forall_mem_cons.1 hcs
      obtain ⟨hregs, hsent⟩ := ht.spared_change hk hc
      obtain ⟨hregs', hsent'⟩ := ih (ht.change c) (hk.change ht c) hcs
      exact ⟨fun p r hr => (hregs' p r hr).trans (hregs p r hr), hsent'.trans hsent⟩

end Table

end Watch

theorem Session.Owns.spares {X : Session} {m : Store.Move} (hm : X.Owns m) {s : SessionId}
    (hs : X.id ≠ s) {st : Store} {c : Change} (hc : m.Brings st c) : c.Spares s := by
  cases m with
  | sync | watchAndRead | watch | detach =>
      obtain rfl := Option.some.inj hc
      exact fun he => hs (hm.symm.trans he)
  | receive k receipt =>
      obtain rfl := Option.some.inj hc
      trivial
  | _ => exact hm.elim

theorem Session.Leads.spares {X : Session} {st st' : Store} (h : X.Leads st st') {s : SessionId}
    (hs : X.id ≠ s) :
    ∃ cs, st'.hub.table = st.hub.table.changeAll cs ∧ ∀ c ∈ cs, c.Spares s := by
  obtain ⟨ms, hms, rfl⟩ := h
  exact Store.table_moveAll (fun m hm st c hc => (hms m hm).spares hs hc) st

def Request.session : Request → SessionId
  | .submit s _ => s
  | .sync s => s
  | .watch s _ _ _ => s

namespace World

/-- What is done through the `i`-th session, whose number is `s`. Its requests are served in their
turn. -/
inductive Act.By (i : Nat) (s : SessionId) : Act → Prop
  | call (now : Time) (call : Session.Call) : By i s (.call now (.session i call))
  | drop (now : Time) : By i s (.call now (.drop i))
  | serve (now : Time) {request : Request} : request.session = s → By i s (.serve now request)

variable {w : World} {a : Act} {i : Nat} {A : Session} {s : SessionId}

/-- The three ways in which an act of one session can reach the table, seen from another. -/
inductive Reaches (w : World) (a : Act) (i : Nat) (A : Session) (s : SessionId) : Prop
  | spares {cs : List Change} : (w.step a).table = w.table.changeAll cs →
      (∀ c ∈ cs, c.Spares s) → Reaches w a i A s
  | cancels {now : Time} {h : Watch.Handle} : a = .call now (.session i (.cancel h)) →
      (w.step a).table = w.table.change (.cancel h) → Reaches w a i A s
  | commits {plan : Plan} : w.Commits a A.id plan →
      (w.step a).table = w.table.change
        (.publish w.tree.lastZxid.next (w.tree.commit plan).events) → Reaches w a i A s

theorem reaches_same (h : (w.step a).table = w.table) : w.Reaches a i A s := by
  have hnone : (w.step a).table = w.table.changeAll [] := h
  exact .spares hnone (by simp)

theorem reaches_batch {ops : List Op} (h : w.batch? a = some (A.id, ops)) : w.Reaches a i A s := by
  rcases step_batch h with ⟨-, htable⟩ | ⟨plan, hcommits, htable | htable⟩
  · exact reaches_same htable
  · exact reaches_same htable
  · exact .commits hcommits htable

theorem reaches_move {m : Store.Move} (hstore : (w.step a).store = w.store.move m)
    (hm : A.Owns m) (hs : A.id ≠ s) : w.Reaches a i A s := by
  rcases w.store.table_move m with htable | ⟨c, hc, -, htable⟩
  · exact reaches_same ((congrArg (·.hub.table) hstore).trans htable)
  · have hone : (w.step a).table = w.table.changeAll [c] :=
      (congrArg (·.hub.table) hstore).trans htable
    refine .spares hone fun c' hc' => ?_
    obtain rfl := List.mem_singleton.1 hc'
    exact hm.spares hs hc

theorem reaches_leads (hlead : A.Leads w.store (w.step a).store) (hs : A.id ≠ s) :
    w.Reaches a i A s := by
  obtain ⟨cs, htable, hcs⟩ := hlead.spares hs
  exact .spares htable hcs

theorem reaches (hA : w.session? i = some A) (hby : Act.By i A.id a) (hs : A.id ≠ s) :
    w.Reaches a i A s := by
  have hA' : w.server.session? i = some A := hA
  cases hby with
  | serve now hr =>
      rename_i request
      cases request with
      | submit x ops =>
          obtain rfl : x = A.id := hr
          have hbatch : w.batch? (.serve now (.submit A.id ops)) = some (A.id, ops) := rfl
          exact reaches_batch hbatch
      | sync x => exact reaches_move (m := .sync x) rfl hr hs
      | watch x p mask required =>
          exact reaches_move (m := .watchAndRead x p mask required) rfl hr hs
  | drop now =>
      refine reaches_leads ?_ hs
      simp only [store, step, Server.step, hA']
      exact A.drop_leads w.server.store
  | call now call =>
      have hstore : (w.step (.call now (.session i call))).store =
          (A.perform w.store now call).2.2 := by
        simp only [store, step, Server.step, hA']
      cases hops : call.ops? with
      | some ops =>
          have hbatch : w.batch? (.call now (.session i call)) = some (A.id, ops) := by
            simp only [batch?, hA, hops]
          exact reaches_batch hbatch
      | none =>
          by_cases hcancel : ∃ h, call = .cancel h
          · obtain ⟨h, rfl⟩ := hcancel
            rcases w.store.table_move (.cancel h) with htable | ⟨c, hc, -, htable⟩
            · exact reaches_same ((congrArg (·.hub.table) hstore).trans htable)
            · obtain rfl := Option.some.inj hc
              exact .cancels rfl ((congrArg (·.hub.table) hstore).trans htable)
          · refine reaches_leads ?_ hs
            rw [hstore]
            exact A.perform_leads w.store now hops (not_exists.1 hcancel)

theorem Held.ids_ne {ids : List SessionId} (hw : w.Held ids) (hids : ids.Nodup) {j : Nat}
    {B : Session} (hij : i ≠ j) (hA : w.session? i = some A) (hB : w.session? j = some B) :
    A.id ≠ B.id := by
  intro he
  have hi := hw.number i A hA
  have hj := hw.number j B hB
  have hlt : i < ids.length := (List.getElem?_eq_some_iff.1 hi).1
  exact hij ((List.getElem?_inj hlt hids).1 (hi.trans (he ▸ hj.symm)))

/-- Sessions keep apart, but for the handles of watches, which are good for anybody. Two sessions
that are held have the same number only after the numbers have come round. -/
theorem interference {disk : Journal.Disk} {config : Config} {st : Store}
    (hopen : Store.openOn disk config = .ok st) (acts : List Act) {i j : Nat} {A B : Session}
    (hij : i ≠ j) (hA : ((start st).run acts).session? i = some A)
    (hB : ((start st).run acts).session? j = some B) :
    (connects acts ≤ UInt64.size → A.id ≠ B.id) ∧
    (A.id ≠ B.id → ∀ a, Act.By i A.id a →
      let w := (start st).run acts
      (∀ p r, r.session = B.id → r ∈ (w.step a).table.registrations p →
        r ∈ w.table.registrations p) ∧
      (∀ p r, r.session = B.id → r ∈ w.table.registrations p →
        r ∈ (w.step a).table.registrations p ∨
          (∃ now, a = .call now (.session i (.cancel r.handle))) ∨
          ∃ plan, w.Commits a A.id plan ∧
            ∃ e ∈ (w.tree.commit plan).events, r.awaits p e = true) ∧
      ∃ rest, (w.step a).table.sent B.channel = w.table.sent B.channel ++ rest ∧
        ∀ n ∈ rest, ∃ plan, w.Commits a A.id plan ∧
          ∃ p r e, r ∈ w.table.registrations p ∧ r.session = B.id ∧
            e ∈ (w.tree.commit plan).events ∧ r.awaits p e = true ∧
            n = r.notice w.tree.lastZxid.next e) := by
  have hheld := held_run hopen acts
  refine ⟨fun hcount => ?_, fun hne a hby => ?_⟩
  · exact hheld.ids_ne (nodup_connected (nextSession_lt hopen) hcount) hij hA hB
  intro w
  have hs : w.table.Sound := hheld.sound
  have hk : w.table.Private B.channel B.id := hheld.channel j B hB
  cases reaches hA hby hne with
  | spares htable hcs =>
      obtain ⟨hregs, hsent⟩ := hs.spared_changeAll hk hcs
      rw [htable]
      exact ⟨fun p r hr => (hregs p r hr).1, fun p r hr hmem => .inl ((hregs p r hr).2 hmem),
        [], hsent.trans (List.append_nil _).symm, by simp⟩
  | @cancels now h ha htable =>
      have hiff : ∀ p r, r ∈ (w.step a).table.registrations p ↔
          r ∈ w.table.registrations p ∧ r.handle ≠ h := by
        intro p r
        rw [htable, hs.mem_registrations_change]
        exact or_iff_left (by simp)
      refine ⟨fun p r _ hmem => ((hiff p r).1 hmem).1, fun p r _ hmem => ?_,
        [], ?_, by simp⟩
      · by_cases hh : r.handle = h
        · exact .inr (.inl ⟨now, hh ▸ ha⟩)
        · exact .inl ((hiff p r).2 ⟨hmem, hh⟩)
      · rw [htable, hs.sent_change_of_silent fun _ => id, List.append_nil]
  | @commits plan hcommits htable =>
      have hiff : ∀ p r, r ∈ (w.step a).table.registrations p ↔
          r ∈ w.table.registrations p ∧
            ¬∃ e ∈ (w.tree.commit plan).events, r.awaits p e = true := by
        intro p r
        rw [htable, hs.mem_registrations_change]
        exact or_iff_left (by simp)
      obtain ⟨rest, hrest, hmem⟩ := hs.sent_change
        (.publish w.tree.lastZxid.next (w.tree.commit plan).events) B.channel
      rw [← htable] at hrest
      refine ⟨fun p r _ hmem => ((hiff p r).1 hmem).1, fun p r _ hmem => ?_, rest, hrest, ?_⟩
      · by_cases htake : ∃ e ∈ (w.tree.commit plan).events, r.awaits p e = true
        · exact .inr (.inr ⟨plan, hcommits, htake⟩)
        · exact .inl ((hiff p r).2 ⟨hmem, htake⟩)
      · intro n hn
        obtain ⟨p, r, e, hr, hears, he, ha, rfl⟩ := hmem n hn
        exact ⟨plan, hcommits, p, r, e, hr, hk.own _ hears, he, ha, rfl⟩

theorem interference_close :
    ∃ st, Store.openOn (.blank .file) .standard = .ok st ∧
      let acts : List Act := [.call 10 .connect, .call 20 .connect,
        .call 30 (.session 1 (.watch "/" .children))]
      let w := (start st).run acts
      (∃ A, w.session? 0 = some A ∧ A.id = 1) ∧ (∃ B, w.session? 1 = some B ∧ B.id = 2) ∧
        { handle := 1, session := 2, mask := .children } ∈
          (w.step (.call 40 (.session 0 .close))).table.registrations "/" := by
  obtain ⟨st, hopen⟩ : ∃ st, Store.openOn (.blank .file) .standard = .ok st := ⟨_, rfl⟩
  refine ⟨st, hopen, ?_⟩
  intro acts w
  obtain ⟨A, B, hA, hB, hone, htwo, hmem⟩ : ∃ A B, w.session? 0 = some A ∧ w.session? 1 = some B ∧
      A.id = 1 ∧ B.id = 2 ∧
      { handle := 1, session := 2, mask := .children } ∈ w.table.registrations "/" := by
    obtain rfl := Except.ok.inj hopen
    exact ⟨_, _, rfl, rfl, rfl, rfl, List.mem_singleton_self _⟩
  obtain ⟨hnumbers, happart⟩ := interference hopen acts (by decide : 0 ≠ 1) hA hB
  obtain ⟨-, hstays, -⟩ := happart (hnumbers (by decide)) (.call 40 (.session 0 .close)) (.call ..)
  refine ⟨⟨A, hA, hone⟩, ⟨B, hB, htwo⟩, ?_⟩
  rcases hstays "/" _ htwo.symm hmem with hmem | ⟨now, hcancel⟩ | ⟨plan, hcommits, -⟩
  · exact hmem
  · cases hcancel
  · obtain ⟨now, ops, hbatch, -⟩ := hcommits
    rw [batch?, hA] at hbatch
    cases hbatch

/-- A session cancels the watch of another, whose handle is easily guessed. -/
theorem interference_cancelled :
    ∃ st, Store.openOn (.blank .file) .standard = .ok st ∧
      let acts : List Act := [.call 10 .connect, .call 20 .connect,
        .call 30 (.session 1 (.watch "/" .all))]
      let w := (start st).run acts
      let a : Act := .call 40 (.session 0 (.cancel 1))
      ∃ A B r, w.session? 0 = some A ∧ w.session? 1 = some B ∧ A.id ≠ B.id ∧ r.session = B.id ∧
        r ∈ w.table.registrations "/" ∧ r ∉ (w.step a).table.registrations "/" ∧
        ∀ s plan, ¬w.Commits a s plan := by
  refine ⟨_, rfl, _, _, { handle := 1, session := 2, mask := .all }, rfl, rfl, by decide, rfl,
    List.mem_singleton_self _, by decide +kernel, ?_⟩
  rintro s plan ⟨now, ops, hbatch, -⟩
  cases hbatch

end World

end Coordination
