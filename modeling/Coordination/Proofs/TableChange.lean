import Coordination.Proofs.Delivery

/-!
Everything that can happen to a table of watches, as one kind of step. A registration that stands
stays until it is taken (`mem_registrations_change`), and nothing is put on a channel for it before
an event takes it (`carried_change`).
-/

namespace Coordination.Watch

inductive Receipt where
  | one
  | all
  | close
  deriving DecidableEq, Repr

def Receipt.apply : Receipt → Channel → Channel
  | .one => Channel.takeOne
  | .all => Channel.takeAll
  | .close => Channel.close

inductive Change where
  | attach (session : SessionId)
  | detach (session : SessionId)
  | register (session : SessionId) (path : String) (mask : Mask)
  | cancel (handle : Handle)
  | publish (zxid : Zxid) (events : List Event)
  | mark (session : SessionId) (zxid : Zxid)
  | receive (channel : Nat) (receipt : Receipt)

def Change.Takes (p : String) (r : Registration) : Change → Prop
  | .detach s => r.session = s
  | .cancel h => r.handle = h
  | .publish _ es => ∃ e ∈ es, r.awaits p e = true
  | _ => False

def Change.Granted (t : Table) : Change → Prop
  | .register s _ _ => t.attached.contains s = true
  | _ => True

def Change.Idle : Change → Prop
  | .attach _ | .mark .. | .receive .. => True
  | _ => False

theorem Change.Idle.not_takes {m : Change} (hm : m.Idle) (p : String) (r : Registration) :
    ¬m.Takes p r := by
  cases m with
  | attach s => exact id
  | mark s zxid => exact id
  | receive c receipt => exact id
  | _ => exact hm.elim

theorem Change.Idle.ne_register {m : Change} (hm : m.Idle) (s : SessionId) (p : String)
    (mask : Mask) : m ≠ .register s p mask := by
  rintro rfl
  exact hm

namespace Table

def change (t : Table) : Change → Table
  | .attach s => (t.attach s).2
  | .detach s => t.detach s
  | .register s p mask => (t.register s p mask).2
  | .cancel h => t.unlink h
  | .publish zxid es => (t.publish zxid es).2
  | .mark s zxid => (t.deliver s (.synced zxid)).2
  | .receive c receipt => t.modifyChannel c receipt.apply

def changeAll (t : Table) (ms : List Change) : Table := ms.foldl change t

variable {t : Table} {p : String} {r : Registration} {h : Handle} {s : SessionId} {c : Nat}

theorem Sound.deliver (ht : t.Sound) (s : SessionId) (n : Notification) :
    (t.deliver s n).2.Sound := by
  have hf := frame_deliver t s n
  constructor
  · intro h p
    rw [paths_deliver, hf.registrations]
    exact ht.index h p
  · intro p
    rw [hf.registrations]
    exact ht.increasing p
  · intro p r hr
    rw [hf.registrations] at hr
    rw [hf.lastHandle]
    exact ht.bounded hr
  · intro p rs hrs
    rw [hf.byPath] at hrs
    exact ht.listed hrs
  · intro s c hc
    rw [hf.length]
    exact ht.opened (hf.attached hc)

theorem Sound.receive (ht : t.Sound) (c : Nat) (f : Channel → Channel) :
    (t.modifyChannel c f).Sound where
  index := ht.index
  increasing := ht.increasing
  bounded := ht.bounded
  listed := ht.listed
  opened := by
    intro s d hd
    rw [modifyChannel, List.length_modify]
    exact ht.opened hd

theorem Sound.change (ht : t.Sound) (m : Change) : (t.change m).Sound := by
  cases m with
  | attach s => exact ht.attach s
  | detach s => exact ht.detach s
  | register s p mask => exact ht.register s p mask
  | cancel h => exact ht.unlink h
  | publish zxid es => exact ht.publish zxid es
  | mark s zxid => exact ht.deliver s (.synced zxid)
  | receive c receipt => exact ht.receive c receipt.apply

theorem Sound.mem_registrations_change (ht : t.Sound) (m : Change) :
    r ∈ (t.change m).registrations p ↔
      (r ∈ t.registrations p ∧ ¬m.Takes p r) ∨
        (m = .register r.session p r.mask ∧ r.handle = t.lastHandle + 1) := by
  cases m with
  | attach s =>
      have hregs : (t.change (.attach s)).registrations p = t.registrations p := rfl
      simp [hregs, Change.Takes]
  | detach s =>
      have hregs : (t.change (.detach s)).registrations p = _ := ht.registrations_detach s p
      simp [hregs, Change.Takes]
  | register s q mask =>
      have hregs : (t.change (.register s q mask)).registrations p = _ :=
        registrations_register t s q p mask
      rw [hregs]
      by_cases hp : p = q
      · subst hp
        obtain ⟨handle, session, mask'⟩ := r
        simp only [if_true, List.mem_append, List.mem_singleton, Change.Takes, not_false_eq_true,
          and_true, Registration.mk.injEq, Change.register.injEq, true_and]
        refine or_congr .rfl ⟨?_, ?_⟩
        · rintro ⟨rfl, rfl, rfl⟩
          exact ⟨⟨rfl, rfl⟩, rfl⟩
        · rintro ⟨⟨rfl, rfl⟩, rfl⟩
          exact ⟨rfl, rfl, rfl⟩
      · simp [hp, Ne.symm hp, Change.Takes]
  | cancel h =>
      have hregs : (t.change (.cancel h)).registrations p = _ := ht.registrations_unlink h p
      simp [hregs, Change.Takes]
  | publish zxid es =>
      have hregs : (t.change (.publish zxid es)).registrations p = _ :=
        registrations_publish t zxid es p
      simp [hregs, Change.Takes]
  | mark s zxid =>
      have hregs : (t.change (.mark s zxid)).registrations p = _ :=
        (frame_deliver t s (.synced zxid)).registrations p
      simp [hregs, Change.Takes]
  | receive c receipt =>
      have hregs : (t.change (.receive c receipt)).registrations p = t.registrations p := rfl
      simp [hregs, Change.Takes]

theorem lastHandle_change (ht : t.Sound) (m : Change) :
    (t.change m).lastHandle = t.lastHandle ∨
      (∃ s p mask, m = .register s p mask) ∧ (t.change m).lastHandle = t.lastHandle + 1 := by
  cases m with
  | attach s => exact .inl rfl
  | detach s => exact .inl (ht.frame_detach s).1
  | register s p mask => exact .inr ⟨⟨s, p, mask, rfl⟩, rfl⟩
  | cancel h => exact .inl (frame_unlink t h).1
  | publish zxid es => exact .inl (frame_publish t zxid es).1
  | mark s zxid => exact .inl (frame_deliver t s _).lastHandle
  | receive c receipt => exact .inl rfl

theorem Sound.lastHandle_le_change (ht : t.Sound) (m : Change) :
    t.lastHandle ≤ (t.change m).lastHandle := by
  rcases lastHandle_change ht m with he | ⟨-, he⟩
  · exact Nat.le_of_eq he.symm
  · rw [he]
    exact Nat.le_succ _

theorem Sound.length_le_change (ht : t.Sound) (m : Change) :
    t.channels.length ≤ (t.change m).channels.length := by
  cases m with
  | attach s => simp [Table.change, Table.attach]
  | detach s => exact Nat.le_of_eq (congrArg List.length (ht.frame_detach s).2.2).symm
  | register s p mask => exact Nat.le_refl _
  | cancel h => exact Nat.le_of_eq (congrArg List.length (frame_unlink t h).2.2).symm
  | publish zxid es => exact Nat.le_of_eq (frame_publish t zxid es).2.symm
  | mark s zxid => exact Nat.le_of_eq (frame_deliver t s _).length.symm
  | receive c receipt => simp [Table.change, modifyChannel]

theorem Sound.hears_of_change (ht : t.Sound) {m : Change} (hc : c < t.channels.length)
    (hs : (t.change m).Hears s c) : t.Hears s c := by
  cases m with
  | attach s' =>
      obtain ⟨hatt, ch, hch, hl⟩ := hs
      simp only [Table.change, Table.attach, channel?] at hatt hch
      rw [Dict.get?_insert] at hatt
      split at hatt
      · obtain rfl := Option.some.inj hatt
        exact absurd hc (Nat.lt_irrefl _)
      · rw [List.getElem?_append_left hc] at hch
        exact ⟨hatt, ch, hch, hl⟩
  | detach s' =>
      obtain ⟨-, hatt, hch⟩ := ht.frame_detach s'
      obtain ⟨hc', hl⟩ := hs
      simp only [Table.change, hatt] at hc'
      rw [Dict.get?_erase] at hc'
      split at hc'
      · cases hc'
      · simp only [Table.change, channel?, hch] at hl
        exact ⟨hc', hl⟩
  | register s' p mask => exact hs
  | cancel h =>
      obtain ⟨-, hatt, hch⟩ := frame_unlink t h
      simpa only [Hears, Table.change, channel?, hatt, hch] using hs
  | publish zxid es => exact hears_publish.1 hs
  | mark s' zxid => exact (frame_deliver t s' _).hears.1 hs
  | receive d receipt =>
      refine hears_modifyChannel (fun ch hl => ?_) hs
      cases receipt with
      | one => exact hl
      | all => exact hl
      | close => cases hl

theorem Sound.carried_change (ht : t.Sound) {m : Change}
    (hm : ∀ zxid es, m = .publish zxid es → ∀ p r, r ∈ t.registrations p → r.handle = h →
      (∀ e ∈ es, r.awaits p e = false) ∨ ∀ c, ¬t.Hears r.session c) :
    (t.change m).carried h = t.carried h := by
  cases m with
  | attach s =>
      simp [Table.change, Table.attach, carried, Channel.fresh]
  | detach s => exact carried_congr (ht.frame_detach s).2.2 h
  | register s p mask => rfl
  | cancel k => exact carried_congr (frame_unlink t k).2.2 h
  | publish zxid es => exact carried_publish_of_silent (hm zxid es rfl)
  | mark s zxid => exact carried_deliver_of_ne (by simp [Notification.handle?])
  | receive c receipt =>
      refine carried_modifyChannel fun ch => ?_
      cases receipt <;> rfl

theorem Sound.carried_change_of_lt (ht : t.Sound) (hh : t.lastHandle < h) (m : Change) :
    (t.change m).carried h = t.carried h := by
  refine ht.carried_change fun zxid es _ p r hr he => ?_
  have hle := ht.bounded hr
  rw [he] at hle
  exact absurd hle (Nat.not_le_of_lt hh)

structure Orderly (t : Table) : Prop where
  sound : t.Sound
  silent : ∀ {h}, t.lastHandle < h → t.carried h = []

theorem orderly_empty : empty.Orderly where
  sound := sound_empty
  silent := fun _ => rfl

theorem Orderly.change (ht : t.Orderly) (m : Change) : (t.change m).Orderly where
  sound := ht.sound.change m
  silent := by
    intro h hh
    have hlt : t.lastHandle < h := Nat.lt_of_le_of_lt (ht.sound.lastHandle_le_change m) hh
    exact (ht.sound.carried_change_of_lt hlt m).trans (ht.silent hlt)

theorem Orderly.changeAll (ht : t.Orderly) (ms : List Change) : (t.changeAll ms).Orderly := by
  induction ms generalizing t with
  | nil => exact ht
  | cons m ms ih => exact ih (ht.change m)

theorem Sound.changeAll_of_not_register (ht : t.Sound) {ms : List Change}
    (hms : ∀ m ∈ ms, ∀ s p mask, m ≠ .register s p mask) :
    (t.changeAll ms).lastHandle = t.lastHandle ∧
      ∀ {p r}, r ∈ (t.changeAll ms).registrations p → r ∈ t.registrations p := by
  induction ms generalizing t with
  | nil => exact ⟨rfl, id⟩
  | cons m ms ih =>
      have hnew := hms m (by simp)
      have hlast : (t.change m).lastHandle = t.lastHandle := by
        rcases lastHandle_change ht m with he | ⟨⟨s, p, mask, rfl⟩, -⟩
        · exact he
        · exact absurd rfl (hnew s p mask)
      obtain ⟨hlast', hregs'⟩ := ih (ht.change m) fun m' hm' => hms m' (by simp [hm'])
      refine ⟨hlast'.trans hlast, fun {p r} hr => ?_⟩
      rcases (ht.mem_registrations_change m).1 (hregs' hr) with ⟨hr, -⟩ | ⟨he, -⟩
      · exact hr
      · exact absurd he (hnew r.session p r.mask)

/-- A handle that has been given to `r`, made at `p`, and to no other registration. -/
structure Issued (t : Table) (p : String) (r : Registration) : Prop where
  sound : t.Sound
  bounded : r.handle ≤ t.lastHandle
  only : ∀ {q r'}, r' ∈ t.registrations q → r'.handle = r.handle → q = p ∧ r' = r

theorem Sound.issued_register (ht : t.Sound) (s : SessionId) (p : String) (mask : Mask) :
    (t.change (.register s p mask)).Issued p
      { handle := t.lastHandle + 1, session := s, mask } where
  sound := ht.register s p mask
  bounded := Nat.le_refl _
  only := by
    intro q r' hr' he
    rcases (ht.mem_registrations_change _).1 hr' with ⟨hr', -⟩ | ⟨hm, -⟩
    · have hle := ht.bounded hr'
      rw [he] at hle
      exact absurd hle (Nat.not_succ_le_self _)
    · obtain ⟨handle, session, mask'⟩ := r'
      obtain ⟨rfl, rfl, rfl⟩ := Change.register.inj hm
      exact ⟨rfl, by simpa using he⟩

theorem Issued.mem_standing_iff (hr : t.Issued p r) :
    r.handle ∈ t.standing ↔ r ∈ t.registrations p := by
  rw [mem_standing]
  constructor
  · rintro ⟨q, r', hr', he⟩
    obtain ⟨rfl, rfl⟩ := hr.only hr' he
    exact hr'
  · exact fun hp => ⟨p, r, hp, rfl⟩

theorem Issued.handle_ne (hr : t.Issued p r) : r.handle ≠ t.lastHandle + 1 := by
  intro he
  have hle := hr.bounded
  rw [he] at hle
  exact Nat.not_succ_le_self _ hle

theorem Issued.mem_standing_change (hr : t.Issued p r) (m : Change) :
    r.handle ∈ (t.change m).standing ↔ r.handle ∈ t.standing ∧ ¬m.Takes p r := by
  rw [hr.mem_standing_iff, mem_standing]
  constructor
  · rintro ⟨q, r', hr', he⟩
    rcases (hr.sound.mem_registrations_change m).1 hr' with ⟨hr', hm⟩ | ⟨-, hnew⟩
    · obtain ⟨rfl, rfl⟩ := hr.only hr' he
      exact ⟨hr', hm⟩
    · exact absurd (he.symm.trans hnew) hr.handle_ne
  · rintro ⟨hp, hm⟩
    exact ⟨p, r, (hr.sound.mem_registrations_change m).2 (.inl ⟨hp, hm⟩), rfl⟩

theorem Issued.change (hr : t.Issued p r) (m : Change) : (t.change m).Issued p r where
  sound := hr.sound.change m
  bounded := Nat.le_trans hr.bounded (hr.sound.lastHandle_le_change m)
  only := by
    intro q r' hr' he
    rcases (hr.sound.mem_registrations_change m).1 hr' with ⟨hr', -⟩ | ⟨-, hnew⟩
    · exact hr.only hr' he
    · exact absurd (he.symm.trans hnew) hr.handle_ne

theorem Issued.changeAll (hr : t.Issued p r) (ms : List Change) : (t.changeAll ms).Issued p r := by
  induction ms generalizing t with
  | nil => exact hr
  | cons m ms ih => exact ih (hr.change m)

theorem Issued.carried_change (hr : t.Issued p r) {m : Change}
    (hm : r.handle ∈ t.standing → m.Takes p r → ∀ c, ¬t.Hears r.session c) :
    (t.change m).carried r.handle = t.carried r.handle := by
  refine hr.sound.carried_change fun zxid es hpub q r' hr' he => ?_
  obtain ⟨rfl, rfl⟩ := hr.only hr' he
  by_cases ht : m.Takes q r'
  · exact .inr (hm (hr.mem_standing_iff.2 hr') ht)
  · subst hpub
    refine .inl fun e he => ?_
    by_contra ha
    exact ht ⟨e, he, by simpa using ha⟩

theorem Issued.untaken (hr : t.Issued p r) {ms : List Change}
    (hms : r.handle ∈ t.standing → ∀ m ∈ ms, ¬m.Takes p r) :
    (r.handle ∈ (t.changeAll ms).standing ↔ r.handle ∈ t.standing) ∧
      (t.changeAll ms).carried r.handle = t.carried r.handle := by
  induction ms generalizing t with
  | nil => exact ⟨.rfl, rfl⟩
  | cons m ms ih =>
      have hstand : r.handle ∈ (t.change m).standing ↔ r.handle ∈ t.standing := by
        rw [hr.mem_standing_change m]
        exact and_iff_left_of_imp fun hs => hms hs m (by simp)
      have hcarried : (t.change m).carried r.handle = t.carried r.handle :=
        hr.carried_change fun hs hm => absurd hm (hms hs m (by simp))
      obtain ⟨hstand', hcarried'⟩ := ih (hr.change m) fun hs m' hm' =>
        hms (hstand.1 hs) m' (by simp [hm'])
      exact ⟨hstand'.trans hstand, hcarried'.trans hcarried⟩

theorem Issued.carried_publish (hr : t.Issued p r) {zxid : Zxid} {es : List Event}
    (hstand : r.handle ∈ t.standing) (hm : (Change.publish zxid es).Takes p r)
    (hc : t.Hears r.session c) :
    ∃ kind, r.mask.contains kind = true ∧
      ((t.change (.publish zxid es)).carried r.handle).Perm
        (.event r.handle p kind zxid :: t.carried r.handle) := by
  obtain ⟨e, he⟩ := Option.isSome_iff_exists.1 (List.find?_isSome.2 hm)
  have ha : r.awaits p e = true := List.find?_some he
  rw [Registration.awaits, Bool.and_eq_true, beq_iff_eq] at ha
  obtain ⟨hp, hkind⟩ := ha
  refine ⟨e.kind, hkind, ?_⟩
  rw [← hp]
  exact carried_publish_of_hears hr.sound (hr.mem_standing_iff.1 hstand) he hc

end Table

namespace Hub

variable {hub hub' : Hub} {s : SessionId} {p : String} {mask : Mask}

def change (hub : Hub) (m : Change) : Hub := hub.withTable (hub.table.change m)

theorem attach_ok {c : Nat} (h : hub.attach s = .ok (c, hub')) :
    hub.poisoned = false ∧ c = hub.table.channels.length ∧ hub' = hub.change (.attach s) := by
  unfold attach lock at h
  split at h
  · cases h
  · rename_i t hlock
    split at hlock
    · cases hlock
    · rename_i hp
      obtain rfl := Except.ok.inj hlock
      split at h
      · cases h
      · obtain ⟨rfl, rfl⟩ := Prod.mk.inj (Except.ok.inj h)
        exact ⟨by simpa using hp, rfl, rfl⟩

theorem attached_of_refused {s' : SessionId}
    (h : hub.attach s = .error (.request (.alreadyAttached s'))) :
    hub.table.attached.contains s = true := by
  unfold attach lock at h
  cases hp : hub.poisoned with
  | true => simp [hp] at h
  | false =>
      by_contra hfree
      simp [hp, hfree] at h

theorem register_ok {handle : Handle} (h : hub.register s p mask = .ok (handle, hub')) :
    hub.poisoned = false ∧ hub.table.attached.contains s = true ∧
      handle = hub.table.lastHandle + 1 ∧ hub' = hub.change (.register s p mask) := by
  unfold register lock at h
  split at h
  · cases h
  · split at h
    · cases h
    · split at h
      · cases h
      · rename_i t hlock
        split at hlock
        · cases hlock
        · rename_i hp
          obtain rfl := Except.ok.inj hlock
          split at h
          · rename_i hs
            obtain ⟨rfl, rfl⟩ := Prod.mk.inj (Except.ok.inj h)
            exact ⟨by simpa using hp, hs, rfl, rfl⟩
          · cases h

theorem detach_eq (hub : Hub) (s : SessionId) :
    hub.detach s =
      if hub.poisoned then .error (.lock .poisoned)
      else .ok ((hub.table.owned s).length, hub.change (.detach s)) := by
  unfold detach lock
  cases hub.poisoned <;> rfl

theorem cancel_eq (hub : Hub) (h : Handle) :
    hub.cancel h =
      if hub.poisoned then .error (.lock .poisoned)
      else .ok (hub.table.isPending h, hub.change (.cancel h)) := by
  unfold cancel lock
  cases hub.poisoned <;> rfl

theorem publish_eq (hub : Hub) (zxid : Zxid) (es : List Event) :
    hub.publish zxid es =
      if hub.poisoned then .error (.lock .poisoned)
      else .ok ((hub.table.publish zxid es).1, hub.change (.publish zxid es)) := by
  unfold publish lock
  cases hub.poisoned <;> rfl

theorem barrier_snd (hub : Hub) (s : SessionId) (zxid : Zxid) :
    (hub.barrier s zxid).2 = if hub.poisoned then hub else hub.change (.mark s zxid) := by
  unfold barrier lock
  cases hub.poisoned <;> rfl

end Hub

end Coordination.Watch
