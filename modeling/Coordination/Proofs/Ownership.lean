import Coordination.Proofs.World
import Coordination.Proofs.Namespace

namespace Coordination

namespace Node

structure Kin (n m : Node) : Prop where
  czxid : m.stat.czxid = n.stat.czxid
  owner : m.stat.owner = n.stat.owner

variable {n m k : Node} {s : Stamp}

theorem Kin.refl (n : Node) : n.Kin n := ⟨rfl, rfl⟩

theorem Kin.trans (h : n.Kin m) (h' : m.Kin k) : n.Kin k :=
  ⟨h'.czxid.trans h.czxid, h'.owner.trans h.owner⟩

theorem Changed.kin (h : n.Changed s m) : n.Kin m := by
  cases h <;> exact ⟨rfl, rfl⟩

end Node

namespace View

variable {v : View} {s : Stamp} {p : String} {m n : Node}

theorem kin_editAll {es : List Edit} (hm : v.editAll s es p = some m) :
    (∃ n, v p = some n ∧ n.Kin m) ∨ ∃ n, .create p n ∈ es ∧ n.Kin m := by
  induction es generalizing v with
  | nil => exact .inl ⟨m, hm, .refl m⟩
  | cons e es ih =>
      rw [editAll_cons] at hm
      rcases ih hm with ⟨n, hn, hkin⟩ | ⟨n, hn, hkin⟩
      · rcases origin_edit hn with ⟨n', hn', hchanged⟩ | rfl
        · exact .inl ⟨n', hn', hchanged.kin.trans hkin⟩
        · exact .inr ⟨n, List.mem_cons_self, hkin⟩
      · exact .inr ⟨n, List.mem_cons_of_mem e hn, hkin⟩

theorem Admits.made {op : Op} {o : Outcome} (h : v.Admits s op (some (.create p n)) o) :
    n.stat.czxid = s.zxid ∧ (n.stat.owner = 0 ∨ n.stat.owner = s.session) := by
  cases h with
  | @create _ _ _ _ mode _ _ _ _ _ _ _ hn =>
      subst hn
      refine ⟨rfl, ?_⟩
      cases hmode : mode.ephemeral with
      | true => exact .inr rfl
      | false => exact .inl rfl

end View

namespace Tree

/-- Every owner is accounted for; `P` says where the batches of a session have made nodes. -/
def Attributed (P : String → Zxid → SessionId → Prop) (t : Tree) : Prop :=
  ∀ p n, t.lookup p = some n → n.stat.owner = 0 ∨ P p n.stat.czxid n.stat.owner

variable {P : String → Zxid → SessionId → Prop} {t u : Tree} {s : Stamp}

theorem Attributed.mono {Q : String → Zxid → SessionId → Prop} (h : t.Attributed P)
    (hPQ : ∀ p z s, P p z s → Q p z s) : t.Attributed Q :=
  fun p n hn => (h p n hn).imp_right (hPQ _ _ _)

theorem attributed_initial : initial.Attributed P := by
  intro p n hn
  rw [lookup_initial] at hn
  split at hn
  · obtain rfl := Option.some.inj hn
    exact .inl rfl
  · cases hn

theorem Attributed.commit (h : t.Attributed P) {ops : List Op} {plan : Plan}
    (hplan : t.plan ops s = .ok plan)
    (hP : ∀ p n, .create p n ∈ plan.edits → P p s.zxid s.session) :
    (t.commit plan).tree.Attributed P := by
  intro p m hm
  rw [lookup_commit] at hm
  rcases View.kin_editAll hm with ⟨n, hn, hkin⟩ | ⟨n, hn, hkin⟩
  · rw [hkin.czxid, hkin.owner]
    exact h p n hn
  · obtain ⟨v, op, o, -, hadm⟩ := Draft.admits_of_mem hplan hn
    obtain ⟨hczxid, howner⟩ := hadm.made
    rw [hkin.czxid, hkin.owner, hczxid]
    refine howner.imp_right fun hs => ?_
    rw [hs]
    exact hP p n hn

theorem Attributed.replayFrom {rs : List Record} (h : t.Attributed P)
    (hu : t.replayFrom rs = .ok u) (hP : ∀ r ∈ rs, ∀ p, P p r.zxid r.session) :
    u.Attributed P := by
  induction rs generalizing t with
  | nil =>
      obtain rfl : t = u := Except.ok.inj hu
      exact h
  | cons r rs ih =>
      obtain ⟨hr, hrs⟩ := List.forall_mem_cons.1 hP
      simp only [Tree.replayFrom] at hu
      split at hu
      · cases hu
      · rename_i t' hone
        obtain ⟨-, plan, hplan, rfl⟩ := replayOne_eq_ok.1 hone
        exact ih (h.commit hplan fun p _ _ => hr p) hu hrs

end Tree

def lastSession (rs : List Record) : Nat := (rs.map Record.session).foldl max 0

theorem session_le_lastSession {rs : List Record} {r : Record} (hr : r ∈ rs) :
    r.session ≤ lastSession rs := by
  have hle : ∀ (ns : List Nat) (m : Nat), m ≤ ns.foldl max m ∧ ∀ n ∈ ns, n ≤ ns.foldl max m := by
    intro ns
    induction ns with
    | nil => simp
    | cons k ns ih =>
        intro m
        obtain ⟨hm, hns⟩ := ih (max m k)
        exact ⟨Nat.le_trans (Nat.le_max_left m k) hm,
          List.forall_mem_cons.2 ⟨Nat.le_trans (Nat.le_max_right m k) hm, hns⟩⟩
  exact (hle _ 0).2 r.session (List.mem_map_of_mem hr)

namespace World

variable {w : World} {a : Act} {acts : List Act}

def Made (w : World) (acts : List Act) (p : String) (z : Zxid) (s : SessionId) : Prop :=
  ∃ before a after plan n, acts = before ++ a :: after ∧ (w.run before).Commits a s plan ∧
    plan.stamp.zxid = z ∧ .create p n ∈ plan.edits

theorem Made.later {p : String} {z : Zxid} {s : SessionId} (h : (w.step a).Made acts p z s) :
    w.Made (a :: acts) p z s := by
  obtain ⟨before, a', after, plan, n, rfl, hcommits, hz, hn⟩ := h
  exact ⟨a :: before, a', after, plan, n, rfl, hcommits, hz, hn⟩

theorem attributed_run {P : String → Zxid → SessionId → Prop} (h : w.tree.Attributed P) :
    (w.run acts).tree.Attributed fun p z s => P p z s ∨ w.Made acts p z s := by
  -- `P` is generalised, for what has been made so far is accounted for in the rest of the run
  induction acts generalizing w P with
  | nil => exact h.mono fun _ _ _ => .inl
  | cons a acts ih =>
      have hstep : (w.step a).tree.Attributed fun p z s => P p z s ∨ w.Made (a :: acts) p z s := by
        rcases w.step_tree a with htree | ⟨s, plan, hcommits⟩
        · rw [htree]
          exact h.mono fun _ _ _ => .inl
        · obtain ⟨now, ops, -, hplan, htree⟩ := id hcommits
          rw [htree]
          refine (h.mono fun _ _ _ => .inl).commit hplan fun p n hn => .inr ?_
          have hstamp := Draft.stamp_acceptAll hplan
          exact ⟨[], a, acts, plan, n, rfl, hcommits, congrArg Stamp.zxid hstamp, hn⟩
      exact (ih hstep).mono fun p z s hmade => hmade.elim id fun hlater => .inr hlater.later

theorem Held.batch_session {ids : List SessionId} (hw : w.Held ids) {s : SessionId}
    {ops : List Op} (h : w.batch? a = some (s, ops)) :
    s ∈ ids ∨ ∃ now, a = .serve now (.submit s ops) := by
  match a, h with
  | .serve now (.submit _ _), rfl => exact .inr ⟨now, rfl⟩
  | .call now (.session n call), h =>
      simp only [batch?] at h
      split at h
      · rename_i X ops' hX hops
        obtain ⟨rfl, rfl⟩ := Prod.mk.inj (Option.some.inj h)
        exact .inl (List.mem_of_getElem? (hw.number n X hX))
      · cases h

section Numbers

theorem connected_increasing (hn : w.store.nextSession < UInt64.size)
    (hlimit : connects acts + w.store.nextSession ≤ UInt64.size) :
    (w.connected acts).Pairwise (· < ·) ∧ ∀ s ∈ w.connected acts, w.store.nextSession ≤ s := by
  obtain ⟨ks, hinc, hlt, heq⟩ := connected_eq hn acts
  have hplain : w.connected acts = ks.map (w.store.nextSession + ·) := by
    rw [heq]
    refine List.map_congr_left fun k hk => Nat.mod_eq_of_lt ?_
    rw [Nat.add_comm]
    exact Nat.lt_of_lt_of_le (Nat.add_lt_add_right (hlt k hk) _) hlimit
  rw [hplain]
  refine ⟨List.pairwise_map.2 (hinc.imp fun h => Nat.add_lt_add_left h _), fun s hs => ?_⟩
  obtain ⟨k, -, rfl⟩ := List.mem_map.1 hs
  exact Nat.le_add_right _ _

theorem connects_pos {s : SessionId} (h : s ∈ w.connected acts) : 0 < connects acts := by
  induction acts generalizing w with
  | nil => cases h
  | cons a acts ih =>
      rw [connected, List.mem_append] at h
      rcases h with h | h
      · have hconnect := (opens?_eq (Option.mem_toList.1 h)).1
        simp [connects, hconnect]
      · exact Nat.lt_of_lt_of_le (ih h) (List.sublist_cons_self a acts).countP_le

/-- The table holds sessions of smaller numbers only, so that the next one is not attached yet. -/
def Numbered (w : World) : Prop :=
  ∀ s, w.table.attached.contains s = true → s < w.store.nextSession

theorem Numbered.step (h : w.Numbered) (ht : w.table.Sound)
    (hattach : ∀ s, a ≠ .watches (.attach s))
    (hlimit : a.connects = true → w.store.nextSession + 1 < UInt64.size) :
    (w.step a).Numbered := by
  intro s hs
  obtain ⟨cs, htable, hcs, -⟩ := step_changes ht a
  rw [htable] at hs
  rw [nextSession_step]
  have hnew : .attach s ∈ cs → a.connects = true ∧ s = w.store.nextSession := fun hmem =>
    opens?_eq ((hcs s hmem).resolve_left (hattach s))
  split <;> rename_i hconnect
  · rw [Store.sessionAfter, Nat.mod_eq_of_lt (hlimit hconnect)]
    rcases ht.attached_of_changeAll hs with hs | hs
    · exact Nat.lt_succ_of_lt (h s hs)
    · exact Nat.lt_succ_of_le (Nat.le_of_eq (hnew hs).2)
  · rcases ht.attached_of_changeAll hs with hs | hs
    · exact h s hs
    · exact absurd (hnew hs).1 hconnect

theorem numbered_run {ids : List SessionId} (h : w.Numbered) (hw : w.Held ids)
    (hattach : ∀ s, .watches (.attach s) ∉ acts)
    (hlimit : connects acts + w.store.nextSession < UInt64.size) : (w.run acts).Numbered := by
  induction acts generalizing w ids with
  | nil => exact h
  | cons a acts ih =>
      have hroom : a.connects = true → connects acts + (w.store.nextSession + 1) < UInt64.size := by
        intro hconnect
        rwa [connects_cons, if_pos hconnect, Nat.add_assoc, Nat.add_comm 1] at hlimit
      have hnext : a.connects = true → w.store.nextSession + 1 < UInt64.size := fun hconnect =>
        Nat.lt_of_le_of_lt (Nat.le_add_left _ _) (hroom hconnect)
      have hrest : connects acts + (w.step a).store.nextSession < UInt64.size := by
        rw [nextSession_step]
        split <;> rename_i hconnect
        · rw [Store.sessionAfter, Nat.mod_eq_of_lt (hnext hconnect)]
          exact hroom hconnect
        · rwa [connects_cons, if_neg hconnect] at hlimit
      have hstep : (w.step a).Numbered :=
        h.step hw.sound (fun s he => hattach s (he ▸ List.mem_cons_self)) hnext
      exact ih hstep (hw.step a) (fun s hs => hattach s (List.mem_cons_of_mem a hs)) hrest

theorem attached_of_refused {now : Time} {s : SessionId}
    (h : (w.server.step now .connect).1 = .fault (.request (.alreadyAttached s))) :
    w.table.attached.contains w.store.nextSession = true := by
  simp only [Server.step, Server.connect] at h
  have hcases := w.server.store.connect_cases
  generalize w.server.store.connect = r at h hcases
  obtain ⟨answer, st⟩ := r
  rcases hcases with ⟨f, hatt, rfl, -⟩ | ⟨rfl, -⟩
  · obtain rfl := Server.Answer.fault.inj h
    exact Watch.Hub.attached_of_refused hatt
  · cases h

end Numbers

section Opened

variable {disk : Journal.Disk} {config : Config} {st : Store}

theorem nextSession_start (hopen : Store.openOn disk config = .ok st) :
    (start st).store.nextSession =
      (lastSession (Store.replayed disk config) + 1) % UInt64.size := by
  obtain ⟨t, log, -, rfl⟩ := Store.openOn_starts hopen
  rfl

theorem room_start (hopen : Store.openOn disk config = .ok st) {n : Nat}
    (hlimit : lastSession (Store.replayed disk config) + n < UInt64.size) :
    n + (start st).store.nextSession ≤ UInt64.size := by
  have hle := Nat.mod_le (lastSession (Store.replayed disk config) + 1) UInt64.size
  rw [nextSession_start hopen]
  omega

theorem lastSession_lt (hopen : Store.openOn disk config = .ok st)
    (hlimit : lastSession (Store.replayed disk config) + connects acts < UInt64.size)
    {s : SessionId} (hs : s ∈ (start st).connected acts) :
    lastSession (Store.replayed disk config) < s := by
  have hpos := connects_pos hs
  have hle := (connected_increasing (nextSession_lt hopen) (room_start hopen hlimit)).2 s hs
  rw [nextSession_start hopen, Nat.mod_eq_of_lt (by omega)] at hle
  exact hle

theorem not_refused (hopen : Store.openOn disk config = .ok st)
    (hattach : ∀ s, .watches (.attach s) ∉ acts)
    (hlimit : lastSession (Store.replayed disk config) + (connects acts + 1) < UInt64.size)
    (now : Time) (s : SessionId) :
    (((start st).run acts).server.step now .connect).1 ≠
      .fault (.request (.alreadyAttached s)) := by
  intro hrefused
  have hroom := room_start hopen hlimit
  have hstart : (start st).Numbered := by
    intro s hs
    have htable : (start st).table = .empty := congrArg Watch.Hub.table (Store.openOn_ok hopen).1
    rw [htable] at hs
    cases hs
  have hnumbered := numbered_run hstart (held_start hopen) hattach (by omega)
  exact absurd (hnumbered _ (attached_of_refused hrefused)) (Nat.lt_irrefl _)

theorem attributed_start (hopen : Store.openOn disk config = .ok st) :
    (start st).tree.Attributed fun _ z s =>
      ∃ r ∈ Store.replayed disk config, r.zxid = z ∧ r.session = s := by
  obtain ⟨t, log, hreplay, rfl⟩ := Store.openOn_starts hopen
  exact Tree.attributed_initial.replayFrom hreplay fun r hr _ => ⟨r, hr, rfl, rfl⟩

end Opened

/-- The sessions of a store are told apart from each other and from all owners that were there
before them. -/
theorem ownership {disk : Journal.Disk} {config : Config} {st : Store}
    (hopen : Store.openOn disk config = .ok st) (acts : List Act)
    (hsubmits : ∀ before now s ops after, acts = before ++ .serve now (.submit s ops) :: after →
      s ∈ (start st).connected before)
    (hlimit : lastSession (Store.replayed disk config) + connects acts < UInt64.size) :
    ((start st).connected acts).Pairwise (· < ·) ∧
    (∀ s ∈ (start st).connected acts,
      0 < s ∧ ∀ r ∈ Store.replayed disk config, r.session < s) ∧
    ((∀ s, .watches (.attach s) ∉ acts) →
      ∀ before now after, acts = before ++ .call now .connect :: after →
        ∀ s, (((start st).run before).server.step now .connect).1 ≠
          .fault (.request (.alreadyAttached s))) ∧
    ∀ earlier later, acts = earlier ++ later →
      ∀ p n, ((start st).run earlier).tree.lookup p = some n →
        (n.stat.owner = 0 ∨
          (∃ r ∈ Store.replayed disk config, r.zxid = n.stat.czxid ∧ r.session = n.stat.owner) ∨
          n.stat.owner ∈ (start st).connected earlier ∧
            (start st).Made earlier p n.stat.czxid n.stat.owner) ∧
        ∀ s ∈ ((start st).run earlier).connected later, s ≠ n.stat.owner := by
  have hinc := (connected_increasing (nextSession_lt hopen) (room_start hopen hlimit)).1
  have hbeyond : ∀ s ∈ (start st).connected acts, lastSession (Store.replayed disk config) < s :=
    fun s => lastSession_lt hopen hlimit
  refine ⟨hinc, fun s hs => ⟨Nat.zero_lt_of_lt (hbeyond s hs), fun r hr =>
    Nat.lt_of_le_of_lt (session_le_lastSession hr) (hbeyond s hs)⟩, ?_, ?_⟩
  · rintro hattach before now after rfl s
    have hconnect : Act.connects (.call now .connect) = true := rfl
    rw [connects_append, connects_cons, if_pos hconnect] at hlimit
    exact not_refused hopen (fun s hs => hattach s (List.mem_append_left _ hs)) (by omega) now s
  · rintro earlier later rfl p n hlook
    rw [connected_append] at hinc hbeyond
    have hmade : ∀ {p z s}, (start st).Made earlier p z s → s ∈ (start st).connected earlier := by
      rintro p z s ⟨before, a, after, plan, n, rfl, ⟨now, ops, hbatch, -⟩, -⟩
      rw [connected_append]
      refine List.mem_append_left _ ?_
      rcases (held_run hopen before).batch_session hbatch with hs | ⟨now, rfl⟩
      · exact hs
      · exact hsubmits before now s ops (after ++ later) (by simp)
    have hlater : ∀ s ∈ ((start st).run earlier).connected later,
        lastSession (Store.replayed disk config) < s ∧
          ∀ s' ∈ (start st).connected earlier, s' < s := fun s hs =>
      ⟨hbeyond s (List.mem_append_right _ hs), fun s' hs' =>
        (List.pairwise_append.1 hinc).2.2 s' hs' s hs⟩
    rcases attributed_run (attributed_start hopen) p n hlook with hzero | ⟨r, hr, hz, hs⟩ | howner
    · refine ⟨.inl hzero, fun s hs => ?_⟩
      exact hzero ▸ Nat.ne_of_gt (Nat.zero_lt_of_lt (hlater s hs).1)
    · refine ⟨.inr (.inl ⟨r, hr, hz, hs⟩), fun s' hs' => ?_⟩
      exact hs ▸ Nat.ne_of_gt (Nat.lt_of_le_of_lt (session_le_lastSession hr) (hlater s' hs').1)
    · refine ⟨.inr (.inr ⟨hmade howner, howner⟩), fun s hs => ?_⟩
      exact Nat.ne_of_gt ((hlater s hs).2 _ (hmade howner))

theorem ownership_reopened :
    ∃ first st, Store.openOn (.blank .file) Store.journaled = .ok first ∧
      let disk := ((start first).run
        [.call 10 .connect, .call 20 (.session 0 (.create "/a" [] .ephemeralOnly))]).store.disk
      Store.openOn disk Store.journaled = .ok st ∧
      let acts : List Act :=
        [.call 30 .connect, .call 40 (.session 0 (.create "/b" [] .ephemeralOnly))]
      (start st).connected acts = [2] ∧
        ∃ a b, ((start st).run acts).tree.lookup "/a" = some a ∧ a.stat.owner = 1 ∧
          ((start st).run acts).tree.lookup "/b" = some b ∧
          (start st).Made acts "/b" b.stat.czxid 2 := by
  obtain ⟨first, hfirst⟩ : ∃ st, Store.openOn (.blank .file) Store.journaled = .ok st := ⟨_, rfl⟩
  let disk := ((start first).run
    [.call 10 .connect, .call 20 (.session 0 (.create "/a" [] .ephemeralOnly))]).store.disk
  let acts : List Act :=
    [.call 30 .connect, .call 40 (.session 0 (.create "/b" [] .ephemeralOnly))]
  let owner (st : Store) (p : String) := (((start st).run acts).tree.lookup p).map (·.stat.owner)
  have hafter : (Store.openOn disk Store.journaled).toOption.map
      (fun st => ((start st).connected acts, owner st "/a", owner st "/b")) =
        some ([2], some 1, some 2) := by
    obtain rfl := Except.ok.inj hfirst
    decide +kernel
  have hrecords : lastSession (Store.replayed disk Store.journaled) = 1 := by
    obtain rfl := Except.ok.inj hfirst
    decide +kernel
  obtain ⟨st, hopen, hafter⟩ := Store.exists_openOn hafter
  obtain ⟨hids, howners⟩ := Prod.mk.inj hafter
  obtain ⟨ha, hb⟩ := Prod.mk.inj howners
  obtain ⟨a, ha, hone⟩ := Option.map_eq_some_iff.1 ha
  obtain ⟨b, hb, htwo⟩ := Option.map_eq_some_iff.1 hb
  have hnone : ∀ now s ops, Act.serve now (.submit s ops) ∉ acts := by simp [acts]
  obtain ⟨-, hbeyond, -, howned⟩ := ownership hopen acts
    (fun before now s ops after he => absurd (he ▸ by simp) (hnone now s ops))
    (by rw [hrecords]; decide)
  refine ⟨first, st, hfirst, hopen, hids, a, b, ha, hone, hb, ?_⟩
  have hlast : 2 ∈ (start st).connected acts := hids ▸ List.mem_singleton_self 2
  rcases (howned acts [] (List.append_nil _).symm "/b" b hb).1 with
    hzero | ⟨r, hr, -, hs⟩ | ⟨-, hmade⟩
  · exact absurd (htwo.symm.trans hzero) (by decide)
  · exact absurd (hs.trans htwo) (Nat.ne_of_lt ((hbeyond 2 hlast).2 r hr))
  · exact htwo ▸ hmade

end World

end Coordination
