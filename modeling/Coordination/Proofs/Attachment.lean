import Coordination.Proofs.Channels
import Coordination.Proofs.OneShot

namespace Coordination.Watch

namespace Table

variable {t t' : Table} {s s' : SessionId} {p : String} {r : Registration} {c : Nat}
variable {n : Notification} {zxid : Zxid} {e : Event}

def Housed (t : Table) (s : SessionId) : Prop :=
  ∀ p r, r ∈ t.registrations p → r.session = s → t.attached.contains s = true

section Forgetting

theorem attached_deliver_of_deaf (hs : ∀ c, ¬t.Hears s c) :
    (t.deliver s n).2.attached = t.attached.erase s := by
  unfold deliver
  split
  · rename_i hnone
    refine Dict.ext_get? fun k => ?_
    rw [Dict.get?_erase]
    split <;> rename_i hk
    · rw [hk, hnone]
    · rfl
  · rename_i c hc
    split
    · rename_i ch hch
      have hl : ch.listening ≠ true := fun hl => hs c ⟨hc, ch, hch, hl⟩
      rw [if_neg hl]
    · rfl

theorem contains_deliver (t : Table) (s s' : SessionId) (n : Notification) :
    (t.deliver s' n).2.attached.contains s = true ↔
      t.attached.contains s = true ∧ ¬(s' = s ∧ ∀ c, ¬t.Hears s c) := by
  by_cases hs : ∃ c, t.Hears s' c
  · obtain ⟨c, hc⟩ := hs
    rw [deliver_of_hears hc]
    refine (and_iff_left ?_).symm
    rintro ⟨rfl, hdeaf⟩
    exact hdeaf c hc
  · rw [attached_deliver_of_deaf (not_exists.1 hs), Dict.contains_erase]
    by_cases he : s = s'
    · subst he
      simp [not_exists.1 hs]
    · simp [he, Ne.symm he]

theorem contains_told :
    (t.told zxid e r).attached.contains s = true ↔
      t.attached.contains s = true ∧ ¬(r.session = s ∧ ∀ c, ¬t.Hears s c) :=
  contains_deliver { t with paths := t.paths.erase r.handle } s r.session (r.notice zxid e)

theorem contains_fire (t : Table) (rs : List Registration) :
    (t.fire zxid e rs).2.attached.contains s = true ↔
      t.attached.contains s = true ∧ ¬((∃ r ∈ rs, r.session = s) ∧ ∀ c, ¬t.Hears s c) := by
  induction rs generalizing t with
  | nil => simp [fire_nil]
  | cons r rs ih =>
      have hdeaf : (∀ c, ¬(t.told zxid e r).Hears s c) ↔ ∀ c, ¬t.Hears s c :=
        forall_congr' fun c => not_congr (frame_told t).hears
      rw [fire_cons, ih, contains_told, hdeaf, List.exists_mem_cons_iff, or_and_right, not_or,
        and_assoc]

theorem contains_publishOne (t : Table) (zxid : Zxid) (e : Event) :
    (t.publishOne zxid e).2.attached.contains s = true ↔
      t.attached.contains s = true ∧
        ¬((∃ p r, r ∈ t.registrations p ∧ r.session = s ∧ r.awaits p e = true) ∧
          ∀ c, ¬t.Hears s c) := by
  have hmatched : (∃ r ∈ (t.registrations e.path).filter (·.mask.contains e.kind), r.session = s) ↔
      ∃ p r, r ∈ t.registrations p ∧ r.session = s ∧ r.awaits p e = true := by
    simp only [List.mem_filter, Registration.awaits, Bool.and_eq_true, beq_iff_eq]
    constructor
    · rintro ⟨r, ⟨hr, hk⟩, hs⟩
      exact ⟨e.path, r, hr, hs, rfl, hk⟩
    · rintro ⟨p, r, hr, hs, rfl, hk⟩
      exact ⟨r, ⟨hr, hk⟩, hs⟩
  rw [publishOne_eq, contains_fire, hmatched]
  rfl

def Called (t : Table) (s : SessionId) (es : List Event) : Prop :=
  ∃ p r, r ∈ t.registrations p ∧ r.session = s ∧ ∃ e ∈ es, r.awaits p e = true

theorem called_cons (zxid : Zxid) {es : List Event} :
    t.Called s (e :: es) ↔
      (∃ p r, r ∈ t.registrations p ∧ r.session = s ∧ r.awaits p e = true) ∨
        (t.publishOne zxid e).2.Called s es := by
  simp only [Called, registrations_publishOne, List.mem_filter, List.exists_mem_cons_iff]
  constructor
  · rintro ⟨p, r, hr, hs, he | hes⟩
    · exact .inl ⟨p, r, hr, hs, he⟩
    · by_cases he : r.awaits p e = true
      · exact .inl ⟨p, r, hr, hs, he⟩
      · exact .inr ⟨p, r, ⟨hr, by simpa using he⟩, hs, hes⟩
  · rintro (⟨p, r, hr, hs, he⟩ | ⟨p, r, ⟨hr, -⟩, hs, hes⟩)
    · exact ⟨p, r, hr, hs, .inl he⟩
    · exact ⟨p, r, hr, hs, .inr hes⟩

theorem contains_publish (t : Table) (zxid : Zxid) (es : List Event) :
    (t.publish zxid es).2.attached.contains s = true ↔
      t.attached.contains s = true ∧ ¬(t.Called s es ∧ ∀ c, ¬t.Hears s c) := by
  induction es generalizing t with
  | nil => simp [publish_nil, Called]
  | cons e es ih =>
      have hdeaf : (∀ c, ¬(t.publishOne zxid e).2.Hears s c) ↔ ∀ c, ¬t.Hears s c :=
        forall_congr' fun c => not_congr hears_publishOne
      rw [publish_cons, ih, contains_publishOne, hdeaf, called_cons zxid, or_and_right, not_or,
        and_assoc]

end Forgetting

end Table

def Change.Forgets (t : Table) (s : SessionId) : Change → Prop
  | .publish _ es => t.Called s es ∧ ∀ c, ¬t.Hears s c
  | .mark s' _ => s' = s ∧ ∀ c, ¬t.Hears s c
  | _ => False

/-- Whether a change makes the table forget an attached session and not all its registrations. -/
def Change.Strands (t : Table) (s : SessionId) (m : Change) : Prop :=
  t.attached.contains s = true ∧ m.Forgets t s ∧
    ∃ p r, r ∈ t.registrations p ∧ r.session = s ∧ ¬m.Takes p r

namespace Table

variable {t : Table} {s : SessionId} {c : Nat}

theorem contains_change (ht : t.Sound) (m : Change) (hattach : ∀ s', m ≠ .attach s')
    (hdetach : m ≠ .detach s) :
    (t.change m).attached.contains s = true ↔ t.attached.contains s = true ∧ ¬m.Forgets t s := by
  cases m with
  | attach s' => exact absurd rfl (hattach s')
  | detach s' =>
      have hne : s ≠ s' := fun he => hdetach (he ▸ rfl)
      rw [change, (ht.frame_detach s').2.1, Dict.contains_erase]
      simp [Change.Forgets, hne]
  | register s' p mask => simp [change, register, Change.Forgets]
  | cancel h =>
      rw [change, (frame_unlink t h).2.1]
      simp [Change.Forgets]
  | publish zxid es => exact contains_publish t zxid es
  | mark s' zxid => exact contains_deliver t s s' (.synced zxid)
  | receive d receipt => simp [change, modifyChannel, Change.Forgets]

theorem Sound.attached_of_change (ht : t.Sound) {m : Change}
    (h : (t.change m).attached.contains s = true) :
    t.attached.contains s = true ∨ m = .attach s := by
  by_cases hattach : ∃ s', m = .attach s'
  · obtain ⟨s', rfl⟩ := hattach
    rcases Dict.contains_insert.1 h with rfl | h
    · exact .inr rfl
    · exact .inl h
  · by_cases hdetach : m = .detach s
    · subst hdetach
      rw [Table.change, (ht.frame_detach s).2.1, Dict.contains_erase] at h
      exact absurd rfl h.1
    · exact .inl ((contains_change ht m (not_exists.1 hattach) hdetach).1 h).1

theorem Housed.change (h : t.Housed s) (ht : t.Sound) (m : Change)
    (hregister : ∀ p mask, m = .register s p mask → t.attached.contains s = true) :
    (t.change m).Housed s ↔ ¬m.Strands t s := by
  constructor
  · rintro hafter ⟨hatt, hforget, p, r, hr, hs, htake⟩
    have hr' : r ∈ (t.change m).registrations p :=
      (ht.mem_registrations_change m).2 (.inl ⟨hr, htake⟩)
    have hattach : ∀ s', m ≠ .attach s' := by
      rintro s' rfl
      exact hforget
    have hdetach : m ≠ .detach s := by
      rintro rfl
      exact hforget
    exact ((contains_change ht m hattach hdetach).1 (hafter p r hr' hs)).2 hforget
  · intro hno p r hr hs
    rcases (ht.mem_registrations_change m).1 hr with ⟨hr, htake⟩ | ⟨rfl, -⟩
    · have hatt := h p r hr hs
      by_cases hattach : ∃ s', m = .attach s'
      · obtain ⟨s', rfl⟩ := hattach
        exact Dict.contains_insert.2 (.inr hatt)
      · have hdetach : m ≠ .detach s := by
          rintro rfl
          exact htake hs
        refine (contains_change ht m (not_exists.1 hattach) hdetach).2 ⟨hatt, fun hforget => ?_⟩
        exact hno ⟨hatt, hforget, p, r, hr, hs, htake⟩
    · exact hregister p r.mask (hs ▸ rfl)

/-- Channel `c` was opened for the session `s`. What that has registered is known, and so is what
events on the channel are about. -/
structure Serves (t : Table) (c : Nat) (s : SessionId) (known : String → Registration → Prop) :
    Prop where
  opened : c < t.channels.length
  own : ∀ {s'}, t.Hears s' c → s' = s
  standing : ∀ {p r}, r ∈ t.registrations p → r.session = s → known p r
  events : ∀ n ∈ t.sent c, ∀ h, n.handle? = some h →
    ∃ p r, known p r ∧ r.session = s ∧ r.handle = h

variable {known known' : String → Registration → Prop}

theorem Serves.change (h : t.Serves c s known) (ht : t.Sound) {m : Change}
    (hmono : ∀ p r, known p r → known' p r)
    (hnew : ∀ p mask, m = .register s p mask →
      known' p { handle := t.lastHandle + 1, session := s, mask }) :
    (t.change m).Serves c s known' where
  opened := Nat.lt_of_lt_of_le h.opened (ht.length_le_change m)
  own := fun hears => h.own (ht.hears_of_change h.opened hears)
  standing := by
    intro p r hr hs
    rcases (ht.mem_registrations_change m).1 hr with ⟨hr, -⟩ | ⟨rfl, hh⟩
    · exact hmono p r (h.standing hr hs)
    · obtain ⟨handle, session, mask⟩ := r
      subst hs hh
      exact hnew p mask rfl
  events := by
    intro n hn k hk
    obtain ⟨rest, hrest, hmem⟩ := ht.sent_change m c
    rw [hrest] at hn
    rcases List.mem_append.1 hn with hn | hn
    · obtain ⟨p, r, hknown, hr⟩ := h.events n hn k hk
      exact ⟨p, r, hmono p r hknown, hr⟩
    · have hsends := hmem n hn
      cases m with
      | publish zxid es =>
          obtain ⟨p, r, e, hr, hears, -, -, rfl⟩ := hsends
          have hs := h.own hears
          exact ⟨p, r, hmono p r (h.standing hr hs), hs, Option.some.inj hk⟩
      | mark s' zxid =>
          obtain ⟨-, rfl⟩ := hsends
          cases hk
      | _ => exact hsends.elim

theorem Serves.mono (h : t.Serves c s known) (hmono : ∀ p r, known p r → known' p r) :
    t.Serves c s known' where
  opened := h.opened
  own := h.own
  standing := fun hr hs => hmono _ _ (h.standing hr hs)
  events := by
    intro n hn k hk
    obtain ⟨p, r, hknown, hr⟩ := h.events n hn k hk
    exact ⟨p, r, hmono p r hknown, hr⟩

theorem Serves.changeAll {ms : List Change} (h : t.Serves c s known) (ht : t.Sound)
    (hms : ∀ m ∈ ms, ∀ s p mask, m ≠ .register s p mask) :
    (t.changeAll ms).Serves c s known := by
  induction ms generalizing t with
  | nil => exact h
  | cons m ms ih =>
      have hm := h.change ht (fun _ _ => id) fun p mask he =>
        absurd he (hms m List.mem_cons_self s p mask)
      exact ih hm (ht.change m) fun m' hm' => hms m' (List.mem_cons_of_mem m hm')

theorem serves_attach (ht : t.Sound) (s : SessionId) :
    (t.change (.attach s)).Serves t.channels.length s fun p r => r ∈ t.registrations p where
  opened := by simp [Table.change, Table.attach]
  own := by
    rintro s' ⟨hatt, -⟩
    simp only [Table.change, Table.attach, Dict.get?_insert] at hatt
    split at hatt
    · assumption
    · exact absurd (ht.opened hatt) (Nat.lt_irrefl _)
  standing := fun hr _ => hr
  events := by
    intro n hn
    rw [Table.change, sent_attach, sent_of_le (Nat.le_refl _)] at hn
    cases hn

end Table

namespace Desk

open Table

variable {d : Desk} {s : SessionId} {c : Call} {ys : List Entry}

def change? (d : Desk) : Call → Option Change
  | .attach s =>
      match d.hub.attach s with
      | .ok _ => some (.attach s)
      | .error _ => none
  | .register s p mask =>
      match d.hub.register s p mask with
      | .ok _ => some (.register s p mask)
      | .error _ => none
  | .detach s => if d.hub.poisoned then none else some (.detach s)
  | .cancel h => if d.hub.poisoned then none else some (.cancel h)
  | .publish zxid es => if d.hub.poisoned then none else some (.publish zxid es)
  | .barrier s zxid => if d.hub.poisoned then none else some (.mark s zxid)
  | _ => none

def receipts (d : Desk) (s : SessionId) (receipt : Receipt) : List Change :=
  ((d.receivers.get? s).map (.receive · receipt)).toList

def changes (d : Desk) : Call → List Change
  | .attach s =>
      match d.hub.attach s with
      | .ok _ => .attach s :: d.receipts s .close
      | .error _ => []
  | .drain s => d.receipts s .all
  | .dropReceiver s => d.receipts s .close
  | c => (d.change? c).toList

theorem table_release (d : Desk) (s : SessionId) :
    (d.release s).hub.table = d.hub.table.changeAll (d.receipts s .close) := by
  unfold release receipts
  cases d.receivers.get? s <;> rfl

theorem table_step (d : Desk) (c : Call) :
    (d.step c).2.hub.table = d.hub.table.changeAll (d.changes c) := by
  cases c with
  | attach s =>
      simp only [step, attach, changes]
      cases hatt : d.hub.attach s with
      | error f => rfl
      | ok a =>
          obtain ⟨k, hub⟩ := a
          obtain ⟨-, -, rfl⟩ := Hub.attach_ok hatt
          exact table_release (d.withHub (d.hub.change (.attach s))) s
  | register s p mask =>
      simp only [step, settle, changes, change?]
      cases hreg : d.hub.register s p mask with
      | error f => rfl
      | ok a =>
          obtain ⟨h, hub⟩ := a
          obtain ⟨-, -, -, rfl⟩ := Hub.register_ok hreg
          rfl
  | detach s =>
      simp only [step, settle, changes, change?, Hub.detach_eq]
      cases d.hub.poisoned <;> rfl
  | cancel h =>
      simp only [step, settle, changes, change?, Hub.cancel_eq]
      cases d.hub.poisoned <;> rfl
  | publish zxid es =>
      simp only [step, settle, changes, change?, Hub.publish_eq]
      cases d.hub.poisoned <;> rfl
  | barrier s zxid =>
      rw [hub_barrier, Hub.barrier_snd]
      simp only [changes, change?]
      cases d.hub.poisoned <;> rfl
  | watching p =>
      simp only [step]
      split <;> rfl
  | drain s =>
      simp only [step, drain, changes, receipts]
      cases d.receivers.get? s <;> rfl
  | dropReceiver s => exact table_release d s
  | poison => rfl

theorem mem_changes {m : Change} (h : m ∈ d.changes c) :
    d.change? c = some m ∨ ∃ k receipt, m = .receive k receipt := by
  have hreceipts : ∀ {s receipt}, m ∈ d.receipts s receipt →
      ∃ k receipt, m = .receive k receipt := by
    intro s receipt hm
    obtain ⟨k, -, rfl⟩ := Option.map_eq_some_iff.1 (Option.mem_toList.1 hm)
    exact ⟨k, receipt, rfl⟩
  cases c with
  | attach s =>
      simp only [changes, change?] at h ⊢
      split at h
      · rcases List.mem_cons.1 h with rfl | h
        · exact .inl rfl
        · exact .inr (hreceipts h)
      · cases h
  | drain s => exact .inr (hreceipts h)
  | dropReceiver s => exact .inr (hreceipts h)
  | _ => exact .inl (Option.mem_toList.1 h)

theorem change?_eq_attach (h : d.change? c = some (.attach s)) : c = .attach s := by
  cases c with
  | attach s' => cases hatt : d.hub.attach s' <;> simp_all [change?]
  | register s' p mask => cases hreg : d.hub.register s' p mask <;> simp [change?, hreg] at h
  | _ => simp [change?] at h

structure Ensues (t t' : Table) : Prop where
  byPath : t'.byPath = t.byPath
  attached : t'.attached = t.attached

theorem ensues_receipts (d : Desk) (t : Table) (s : SessionId) (receipt : Receipt) :
    Ensues t (t.changeAll (d.receipts s receipt)) := by
  unfold receipts
  cases d.receivers.get? s <;> exact ⟨rfl, rfl⟩

theorem step_ensues (d : Desk) (c : Call) :
    Ensues (d.hub.table.changeAll (d.change? c).toList) (d.step c).2.hub.table := by
  rw [table_step]
  cases c with
  | attach s =>
      simp only [changes, change?]
      cases d.hub.attach s with
      | error f => exact ⟨rfl, rfl⟩
      | ok a => exact ensues_receipts d _ s .close
  | drain s => exact ensues_receipts d _ s .all
  | dropReceiver s => exact ensues_receipts d _ s .close
  | _ => exact ⟨rfl, rfl⟩

theorem Ensues.housed_iff {t t' : Table} (h : Ensues t t') : t'.Housed s ↔ t.Housed s := by
  simp only [Housed, registrations, h.byPath, h.attached]

/-- A call that finds the receiver of an attached session gone, where a registration of the session
is left that the call does not take. -/
structure Entry.Strands (y : Entry) (s : SessionId) : Prop where
  unpoisoned : y.before.hub.poisoned = false
  attached : y.before.hub.table.attached.contains s = true
  deaf : ∀ c, ¬y.before.hub.table.Hears s c
  tried : (∃ zxid, y.call = .barrier s zxid) ∨
    ∃ zxid es, y.call = .publish zxid es ∧ y.before.hub.table.Called s es
  left : ∃ p r, r ∈ y.before.hub.table.registrations p ∧ r.session = s ∧
    ∀ zxid es, y.call = .publish zxid es → ∀ e ∈ es, r.awaits p e = false

theorem change?_eq_publish {zxid : Zxid} {es : List Event} :
    d.change? c = some (.publish zxid es) ↔ d.hub.poisoned = false ∧ c = .publish zxid es := by
  cases c with
  | attach s => cases h : d.hub.attach s <;> simp [change?, h]
  | register s p mask => cases h : d.hub.register s p mask <;> simp [change?, h]
  | _ => cases h : d.hub.poisoned <;> simp [change?, h]

theorem change?_eq_mark {zxid : Zxid} :
    d.change? c = some (.mark s zxid) ↔ d.hub.poisoned = false ∧ c = .barrier s zxid := by
  cases c with
  | attach s => cases h : d.hub.attach s <;> simp [change?, h]
  | register s p mask => cases h : d.hub.register s p mask <;> simp [change?, h]
  | _ => cases h : d.hub.poisoned <;> simp [change?, h]

theorem strands_iff :
    (d.entry c).Strands s ↔ ∃ m, d.change? c = some m ∧ m.Strands d.hub.table s := by
  constructor
  · rintro ⟨hp, hatt, hdeaf, ⟨zxid, he⟩ | ⟨zxid, es, he, hcalled⟩, p, r, hr, hs, hleft⟩
    · exact ⟨_, change?_eq_mark.2 ⟨hp, he⟩, hatt, ⟨rfl, hdeaf⟩, p, r, hr, hs, id⟩
    · refine ⟨_, change?_eq_publish.2 ⟨hp, he⟩, hatt, ⟨hcalled, hdeaf⟩, p, r, hr, hs, ?_⟩
      rintro ⟨e, hmem, ha⟩
      exact absurd (ha.symm.trans (hleft zxid es he e hmem)) (by decide)
  · rintro ⟨m, hm, hatt, hforget, p, r, hr, hs, htake⟩
    cases m with
    | publish zxid es =>
        obtain ⟨hp, rfl⟩ := change?_eq_publish.1 hm
        refine ⟨hp, hatt, hforget.2, .inr ⟨zxid, es, rfl, hforget.1⟩, p, r, hr, hs, ?_⟩
        rintro zxid es ⟨rfl, rfl⟩ e hmem
        exact Bool.eq_false_iff.2 fun ha => htake ⟨e, hmem, ha⟩
    | mark s' zxid =>
        obtain ⟨rfl, hdeaf⟩ := hforget
        obtain ⟨hp, rfl⟩ := change?_eq_mark.1 hm
        exact ⟨hp, hatt, hdeaf, .inl ⟨zxid, rfl⟩, p, r, hr, hs, by rintro zxid es ⟨⟩⟩
    | _ => exact hforget.elim

theorem attached_of_register {p : String} {mask : Mask}
    (h : d.change? c = some (.register s p mask)) : d.hub.table.attached.contains s = true := by
  cases c with
  | register s' q mask' =>
      cases hreg : d.hub.register s' q mask' with
      | error f => simp [change?, hreg] at h
      | ok a =>
          simp only [change?, hreg, Option.some.injEq, Change.register.injEq] at h
          obtain ⟨rfl, -, -⟩ := h
          exact (Hub.register_ok hreg).2.1
  | attach s' => cases hatt : d.hub.attach s' <;> simp [change?, hatt] at h
  | _ => cases hp : d.hub.poisoned <;> simp [change?, hp] at h

theorem housed_step (h : d.hub.table.Housed s) (ht : d.hub.table.Sound) (c : Call) :
    (d.step c).2.hub.table.Housed s ↔ ¬(d.entry c).Strands s := by
  rw [(step_ensues d c).housed_iff, strands_iff]
  cases hm : d.change? c with
  | none => simpa [changeAll] using h
  | some m =>
      have hchange := h.change ht m fun p mask he => attached_of_register (he ▸ hm)
      simpa [changeAll] using hchange

theorem Kept.housed_iff (hk : d.Kept ys) (h : d.hub.table.Housed s) (calls : List Call) :
    (∀ k, (d.run (calls.take k)).hub.table.Housed s) ↔ ∀ y ∈ d.history calls, ¬y.Strands s := by
  induction calls generalizing d ys with
  | nil =>
      refine ⟨fun _ => by simp [history], fun _ k => ?_⟩
      rw [List.take_nil]
      exact h
  | cons c cs ih =>
      have hstep := housed_step h hk.orderly.sound c
      rw [history, List.forall_mem_cons, ← hstep]
      constructor
      · intro hall
        have hfirst := hall 1
        exact ⟨hfirst, (ih (hk.step c) hfirst).1 fun k => hall (k + 1)⟩
      · rintro ⟨hfirst, hrest⟩ k
        cases k with
        | zero => exact h
        | succ k => exact (ih (hk.step c) hfirst).2 hrest k

theorem attach_done (h : (d.step (.attach s)).1 = .done) :
    d.hub.table.attached.contains s = false ∧
      (d.step (.attach s)).2.receivers.get? s = some d.hub.table.channels.length ∧
      ∃ ms, (d.step (.attach s)).2.hub.table = (d.hub.table.change (.attach s)).changeAll ms ∧
        ∀ m ∈ ms, m.Idle := by
  have hdone : (d.attach s).1 = .done := h
  unfold attach at hdone
  cases hatt : d.hub.attach s with
  | error f =>
      rw [hatt] at hdone
      cases hdone
  | ok a =>
      obtain ⟨k, hub⟩ := a
      obtain ⟨hp, rfl, rfl⟩ := Hub.attach_ok hatt
      obtain ⟨ms, htable, -, hms⟩ := release_does (d.withHub (d.hub.change (.attach s))) s
      refine ⟨?_, ?_, ms, ?_, hms⟩
      · by_contra hc
        rw [Bool.not_eq_false] at hc
        simp [Hub.attach, Hub.lock, hp, hc] at hatt
      · simp only [step, attach, hatt, Dict.get?_insert_self]
      · simp only [step, attach, hatt]
        exact htable

def Known (t : Table) (later : List Entry) (p : String) (r : Registration) : Prop :=
  (p, r) ∈ made later ∨ r ∈ t.registrations p

theorem Known.concat {t : Table} {later : List Entry} {p : String} {r : Registration}
    (h : Known t later p r) (y : Entry) : Known t (later ++ [y]) p r := by
  refine h.imp_left fun hmade => ?_
  rw [made, List.filterMap_append]
  exact List.mem_append_left _ hmade

theorem Kept.serves (hk : d.Kept ys) {t : Table} {later : List Entry} {n : Nat}
    (h : d.hub.table.Serves n s (Known t later)) (calls : List Call) :
    (d.run calls).hub.table.Serves n s (Known t (later ++ d.history calls)) := by
  induction calls generalizing d ys later with
  | nil => exact (List.append_nil later).symm ▸ h
  | cons c cs ih =>
      obtain ⟨ms, htable, -, hd⟩ := step_does d c
      have hstep : (d.step c).2.hub.table.Serves n s (Known t (later ++ [d.entry c])) := by
        have hmono : ∀ p r, Known t later p r → Known t (later ++ [d.entry c]) p r :=
          fun p r hknown => hknown.concat _
        rw [htable]
        rcases hd.made with ⟨-, hms⟩ | ⟨s', p, mask, rfl, rfl, hsome⟩
        · exact (h.changeAll hk.orderly.sound hms).mono hmono
        · refine h.change (m := .register s' p mask) hk.orderly.sound hmono ?_
          rintro q mask' ⟨rfl, rfl, rfl⟩
          refine .inl ?_
          rw [made, List.filterMap_append]
          exact List.mem_append_right _ (List.mem_filterMap.2 ⟨_, List.mem_singleton_self _, hsome⟩)
      have hrest := ih (hk.step c) hstep
      rw [List.append_assoc] at hrest
      exact hrest

/-- Registrations of a session stand without an entry of it in the table from the first call on that
strands it, and from no other. What an attachment's channel carries is about registrations that were
made for the session after the attachment, or about such as an earlier call had stranded. -/
theorem attachment (calls : List Call) (s : SessionId) :
    ((∀ k, (run .empty (calls.take k)).hub.table.Housed s) ↔
      ∀ y ∈ history .empty calls, ¬y.Strands s) ∧
    ∀ before after, calls = before ++ .attach s :: after →
      ((run .empty before).step (.attach s)).1 = .done →
      let c := (run .empty before).hub.table.channels.length
      (run .empty (before ++ [.attach s])).receivers.get? s = some c ∧
      ∀ n ∈ (run .empty calls).hub.table.sent c, ∀ h, n.handle? = some h →
        ∃ p r, r.session = s ∧ r.handle = h ∧
          ((p, r) ∈ made ((run .empty (before ++ [.attach s])).history after) ∨
            r ∈ (run .empty before).hub.table.registrations p ∧
              ∃ y ∈ history .empty before, y.Strands s) := by
  have hempty : empty.hub.table.Housed s := by
    intro p r hr
    simp [empty, Hub.empty, Table.empty, registrations] at hr
  refine ⟨kept_empty.housed_iff hempty calls, ?_⟩
  rintro before after rfl hdone c
  have hk := kept_run before
  obtain ⟨hfresh, hreceiver, ms, htable, hms⟩ := attach_done hdone
  have hrun : run .empty (before ++ [.attach s]) = ((run .empty before).step (.attach s)).2 := by
    simp [run]
  have hserves : (run .empty (before ++ [.attach s])).hub.table.Serves c s
      (Known (run .empty before).hub.table []) := by
    rw [hrun, htable]
    exact ((Table.serves_attach hk.orderly.sound s).mono fun p r => .inr).changeAll
      (hk.orderly.sound.change _) fun m hm => (hms m hm).ne_register
  have hend := (kept_run (before ++ [.attach s])).serves hserves after
  refine ⟨hrun ▸ hreceiver, fun n hn h hh => ?_⟩
  rw [List.append_cons, run, List.foldl_append] at hn
  obtain ⟨p, r, hknown, hs, hr⟩ := hend.events n hn h hh
  refine ⟨p, r, hs, hr, hknown.imp_right fun hleft => ⟨hleft, ?_⟩⟩
  by_contra hno
  have hhoused := (kept_empty.housed_iff hempty before).2
    (fun y hy hstrands => hno ⟨y, hy, hstrands⟩) before.length
  rw [List.take_length] at hhoused
  exact absurd ((hhoused p r hleft hs).symm.trans hfresh) (by decide)

/-- The receiver of a session that watches two paths is gone when an event on the first is
published. The watch of the second stays, and the session's next receiver hears of it. -/
theorem attachment_stranded :
    let calls : List Call :=
      [.attach 1, .register 1 "/a" .all, .register 1 "/b" .all, .dropReceiver 1,
        .publish 5 [⟨"/a", .deleted⟩], .attach 1, .publish 6 [⟨"/b", .deleted⟩]]
    ¬(run .empty (calls.take 5)).hub.table.Housed 1 ∧
      ((run .empty (calls.take 5)).step (.attach 1)).1 = .done ∧
      (run .empty calls).receivers.get? 1 = some 1 ∧
      (run .empty calls).hub.table.sent 1 = [.event 2 "/b" .deleted 6] ∧
      made ((run .empty (calls.take 6)).history (calls.drop 6)) = [] := by
  intro calls
  refine ⟨fun h => ?_, by decide +kernel, by decide +kernel, by decide +kernel, by decide +kernel⟩
  have hstands : { handle := 2, session := 1, mask := .all } ∈
      (run .empty (calls.take 5)).hub.table.registrations "/b" := by decide +kernel
  exact absurd (h "/b" _ hstands rfl) (by decide +kernel)

theorem attachment_detached :
    let before : List Call :=
      [.attach 1, .register 1 "/a" .all, .register 1 "/b" .all, .dropReceiver 1, .detach 1]
    let after : List Call := [.register 1 "/b" .all, .publish 6 [⟨"/b", .deleted⟩]]
    ((run .empty before).step (.attach 1)).1 = .done ∧
      .event 3 "/b" .deleted 6 ∈ (run .empty (before ++ .attach 1 :: after)).hub.table.sent 1 ∧
      ∃ p r, r.session = 1 ∧ r.handle = 3 ∧
        (p, r) ∈ made ((run .empty (before ++ [.attach 1])).history after) := by
  intro before after
  obtain ⟨-, hserved⟩ := attachment (before ++ .attach 1 :: after) 1
  have hdone : ((run .empty before).step (.attach 1)).1 = .done := by decide +kernel
  obtain ⟨-, hevents⟩ := hserved before after rfl hdone
  have hchannel : (run .empty before).hub.table.channels.length = 1 := by decide +kernel
  rw [hchannel] at hevents
  have hsent : .event 3 "/b" .deleted 6 ∈
      (run .empty (before ++ .attach 1 :: after)).hub.table.sent 1 := by decide +kernel
  obtain ⟨p, r, hs, hr, hmade | ⟨hleft, -⟩⟩ := hevents _ hsent 3 rfl
  · exact ⟨hdone, hsent, p, r, hs, hr, hmade⟩
  · have hnone : (run .empty before).hub.table.byPath = .empty := by decide +kernel
    simp [registrations, hnone] at hleft

end Desk

end Coordination.Watch
