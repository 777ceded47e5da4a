import Coordination.Proofs.Registration

namespace Coordination.Watch

def Notification.handle? : Notification → Option Handle
  | .event h _ _ _ => some h
  | .synced _ => none

def Registration.notice (r : Registration) (zxid : Zxid) (e : Event) : Notification :=
  .event r.handle e.path e.kind zxid

def Registration.awaits (r : Registration) (p : String) (e : Event) : Bool :=
  e.path == p && r.mask.contains e.kind

namespace Table

/-- What was ever put on a channel for one registration. -/
def carried (t : Table) (h : Handle) : List Notification :=
  t.channels.flatMap fun ch => ch.sent.filter fun n => n.handle? == some h

/-- The channel of an attached session, with a receiver that takes what is sent. -/
def Hears (t : Table) (s : SessionId) (c : Nat) : Prop :=
  t.attached.get? s = some c ∧ ∃ ch, t.channel? c = some ch ∧ ch.listening = true

variable {t t' : Table} {p q : String} {r r' : Registration} {h : Handle} {s : SessionId}
variable {c : Nat} {n : Notification}

section Channels

theorem carried_congr (hc : t'.channels = t.channels) (h : Handle) :
    t'.carried h = t.carried h := by
  rw [carried, hc, carried]

theorem carried_modifyChannel {f : Channel → Channel}
    (hf : ∀ ch, (f ch).sent.filter (fun n => n.handle? == some h) =
      ch.sent.filter fun n => n.handle? == some h) :
    (t.modifyChannel c f).carried h = t.carried h := by
  have hmap : ∀ l : List Channel,
      (l.modify c f).map (fun ch => ch.sent.filter fun n => n.handle? == some h) =
        l.map fun ch => ch.sent.filter fun n => n.handle? == some h := by
    intro l
    apply List.ext_getElem?
    intro i
    rw [List.getElem?_map, List.getElem?_map, List.getElem?_modify]
    by_cases hi : c = i
    · cases l[i]? <;> simp [hi, hf]
    · simp [hi]
  simp only [carried, modifyChannel, List.flatMap_def, hmap]

theorem carried_send_of_ne (hn : n.handle? ≠ some h) :
    (t.modifyChannel c (·.send n)).carried h = t.carried h := by
  apply carried_modifyChannel
  intro ch
  simp [Channel.send, hn]

theorem carried_send (hc : c < t.channels.length) (hn : n.handle? = some h) :
    ((t.modifyChannel c (·.send n)).carried h).Perm (n :: t.carried h) := by
  obtain ⟨before, ch, after, hl, -, hm⟩ := List.exists_of_modify (·.send n) hc
  have hone : ([n].filter fun n => n.handle? == some h) = [n] := by simp [hn]
  simp only [carried, modifyChannel, hm]
  rw [hl]
  simp only [List.flatMap_append, List.flatMap_cons, Channel.send, List.filter_append, hone]
  simp only [← List.append_assoc]
  rw [List.append_assoc _ [n], List.singleton_append]
  exact List.perm_middle

theorem hears_modifyChannel {f : Channel → Channel} (hf : ∀ ch, (f ch).listening = true →
    ch.listening = true) {d : Nat} (hd : (t.modifyChannel c f).Hears s d) : t.Hears s d := by
  obtain ⟨hs, ch, hch, hl⟩ := hd
  refine ⟨hs, ?_⟩
  rw [channel?, modifyChannel, List.getElem?_modify] at hch
  obtain ⟨ch', hch', rfl⟩ := Option.map_eq_some_iff.1 hch
  refine ⟨ch', hch', ?_⟩
  by_cases hcd : c = d
  · exact hf ch' (by simpa [hcd] using hl)
  · simpa [hcd] using hl

theorem hears_send {d : Nat} : (t.modifyChannel c (·.send n)).Hears s d ↔ t.Hears s d := by
  constructor
  · exact hears_modifyChannel (f := (·.send n)) fun ch hl => hl
  · rintro ⟨hs, ch, hch, hl⟩
    have hch' : (t.channels.modify c (·.send n))[d]? =
        some (if c = d then ch.send n else ch) := by
      rw [channel?] at hch
      rw [List.getElem?_modify, hch]
      by_cases hcd : c = d <;> simp [hcd]
    refine ⟨hs, _, hch', ?_⟩
    by_cases hcd : c = d <;> simpa [hcd, Channel.send] using hl

end Channels

section Deliver

/-- Two tables that differ in no way that a registration could tell, its place in the index and the
channels' contents apart. -/
structure Frame (t t' : Table) : Prop where
  byPath : t'.byPath = t.byPath
  lastHandle : t'.lastHandle = t.lastHandle
  length : t'.channels.length = t.channels.length
  attached : ∀ {s c}, t'.attached.get? s = some c → t.attached.get? s = some c
  hears : ∀ {s c}, t'.Hears s c ↔ t.Hears s c

theorem Frame.refl (t : Table) : t.Frame t := ⟨rfl, rfl, rfl, id, .rfl⟩

theorem Frame.trans {t'' : Table} (h : t.Frame t') (h' : t'.Frame t'') : t.Frame t'' where
  byPath := h'.byPath.trans h.byPath
  lastHandle := h'.lastHandle.trans h.lastHandle
  length := h'.length.trans h.length
  attached := fun hs => h.attached (h'.attached hs)
  hears := h'.hears.trans h.hears

theorem Frame.registrations (h : t.Frame t') (p : String) :
    t'.registrations p = t.registrations p := by
  rw [Table.registrations, h.byPath, Table.registrations]

theorem deliver_of_hears (hs : t.Hears s c) :
    t.deliver s n = (true, t.modifyChannel c (·.send n)) := by
  obtain ⟨hs, ch, hch, hl⟩ := hs
  simp [deliver, hs, hch, hl]

theorem deliver_of_deaf (hs : ∀ c, ¬t.Hears s c) :
    (t.deliver s n).1 = false ∧ (t.deliver s n).2.channels = t.channels ∧
      (t.deliver s n).2.paths = t.paths ∧ t.Frame (t.deliver s n).2 := by
  have hforget : ∀ c, t.attached.get? s = some c →
      t.Frame { t with attached := t.attached.erase s } := by
    intro c hc
    refine ⟨rfl, rfl, rfl, ?_, ?_⟩
    · intro s' c' hs'
      rw [Dict.get?_erase] at hs'
      split at hs'
      · cases hs'
      · exact hs'
    · intro s' c'
      constructor
      · rintro ⟨hs', hl⟩
        rw [Dict.get?_erase] at hs'
        split at hs'
        · cases hs'
        · exact ⟨hs', hl⟩
      · intro hs'
        have hne : s' ≠ s := fun he => hs c' (he ▸ hs')
        exact ⟨(Dict.get?_erase_of_ne _ hne).trans hs'.1, hs'.2⟩
  unfold deliver
  split
  · exact ⟨rfl, rfl, rfl, .refl t⟩
  · rename_i c hc
    split
    · rename_i ch hch
      have hl : ch.listening ≠ true := fun hl => hs c ⟨hc, ch, hch, hl⟩
      rw [if_neg hl]
      exact ⟨rfl, rfl, rfl, hforget c hc⟩
    · exact ⟨rfl, rfl, rfl, hforget c hc⟩

theorem frame_send : t.Frame (t.modifyChannel c (·.send n)) where
  byPath := rfl
  lastHandle := rfl
  length := List.length_modify ..
  attached := id
  hears := hears_send

theorem frame_deliver (t : Table) (s : SessionId) (n : Notification) :
    t.Frame (t.deliver s n).2 := by
  by_cases hs : ∃ c, t.Hears s c
  · obtain ⟨c, hc⟩ := hs
    rw [deliver_of_hears hc]
    exact frame_send
  · exact (deliver_of_deaf (not_exists.1 hs)).2.2.2

theorem paths_deliver (t : Table) (s : SessionId) (n : Notification) :
    (t.deliver s n).2.paths = t.paths := by
  by_cases hs : ∃ c, t.Hears s c
  · obtain ⟨c, hc⟩ := hs
    rw [deliver_of_hears hc]
    rfl
  · exact (deliver_of_deaf (not_exists.1 hs)).2.2.1

theorem carried_deliver_of_ne (hn : n.handle? ≠ some h) :
    (t.deliver s n).2.carried h = t.carried h := by
  by_cases hs : ∃ c, t.Hears s c
  · obtain ⟨c, hc⟩ := hs
    rw [deliver_of_hears hc]
    exact carried_send_of_ne hn
  · exact carried_congr (deliver_of_deaf (not_exists.1 hs)).2.1 h

theorem carried_deliver_of_hears (hs : t.Hears s c) (hn : n.handle? = some h) :
    ((t.deliver s n).2.carried h).Perm (n :: t.carried h) := by
  rw [deliver_of_hears hs]
  obtain ⟨-, ch, hch, -⟩ := hs
  exact carried_send (List.getElem?_eq_some_iff.1 hch).1 hn

end Deliver

section Fire

variable {zxid : Zxid} {e : Event} {rs : List Registration}

def told (t : Table) (zxid : Zxid) (e : Event) (r : Registration) : Table :=
  ({ t with paths := t.paths.erase r.handle }.deliver r.session (r.notice zxid e)).2

theorem fire_nil (t : Table) : (t.fire zxid e []).2 = t := rfl

theorem fire_cons (t : Table) :
    (t.fire zxid e (r :: rs)).2 = ((t.told zxid e r).fire zxid e rs).2 :=
  rfl

theorem frame_erasePath (t : Table) (h : Handle) : t.Frame { t with paths := t.paths.erase h } :=
  ⟨rfl, rfl, rfl, id, .rfl⟩

theorem frame_told (t : Table) : t.Frame (t.told zxid e r) :=
  (frame_erasePath t r.handle).trans (frame_deliver _ _ _)

theorem frame_fire (t : Table) : t.Frame (t.fire zxid e rs).2 := by
  induction rs generalizing t with
  | nil => exact .refl t
  | cons r rs ih =>
      rw [fire_cons]
      exact (frame_told t).trans (ih _)

theorem paths_fire (t : Table) (h : Handle) :
    (t.fire zxid e rs).2.paths.get? h =
      if h ∈ rs.map (·.handle) then none else t.paths.get? h := by
  induction rs generalizing t with
  | nil => simp [fire_nil]
  | cons r rs ih =>
      have htold : (t.told zxid e r).paths.get? h =
          if h = r.handle then none else t.paths.get? h := by
        rw [told, paths_deliver, Dict.get?_erase]
      rw [fire_cons, ih, htold]
      by_cases hr : h = r.handle <;> simp [hr]

theorem carried_told_of_ne (hr : r.handle ≠ h) : (t.told zxid e r).carried h = t.carried h := by
  have hn : (r.notice zxid e).handle? ≠ some h := fun he => hr (Option.some.inj he)
  rw [told, carried_deliver_of_ne hn]
  rfl

theorem carried_told_of_deaf (hs : ∀ c, ¬t.Hears r.session c) :
    (t.told zxid e r).carried h = t.carried h := by
  have hs' : ∀ c, ¬{ t with paths := t.paths.erase r.handle }.Hears r.session c := hs
  rw [told, carried_congr (deliver_of_deaf hs').2.1]
  rfl

theorem carried_told_of_hears (hs : t.Hears r.session c) :
    ((t.told zxid e r).carried r.handle).Perm (r.notice zxid e :: t.carried r.handle) :=
  carried_deliver_of_hears (t := { t with paths := t.paths.erase r.handle }) hs rfl

theorem carried_fire_of_silent (hs : ∀ r ∈ rs, r.handle = h → ∀ c, ¬t.Hears r.session c) :
    (t.fire zxid e rs).2.carried h = t.carried h := by
  induction rs generalizing t with
  | nil => rfl
  | cons r rs ih =>
      have htold : (t.told zxid e r).carried h = t.carried h := by
        by_cases hr : r.handle = h
        · exact carried_told_of_deaf (hs r (by simp) hr)
        · exact carried_told_of_ne hr
      rw [fire_cons, ih, htold]
      intro r' hr' he c hc
      exact hs r' (by simp [hr']) he c ((frame_told t).hears.1 hc)

theorem carried_fire_of_hears (hrs : (rs.map (·.handle)).Nodup) (hr : r ∈ rs)
    (hs : t.Hears r.session c) :
    ((t.fire zxid e rs).2.carried r.handle).Perm (r.notice zxid e :: t.carried r.handle) := by
  induction rs generalizing t with
  | nil => cases hr
  | cons r' rs ih =>
      obtain ⟨hnotin, hrest⟩ := List.nodup_cons.1 hrs
      rw [fire_cons]
      rcases List.mem_cons.1 hr with rfl | hr
      · rw [carried_fire_of_silent]
        · exact carried_told_of_hears hs
        · intro r' hr' he
          exact absurd (List.mem_map.2 ⟨r', hr', he⟩) hnotin
      · have hne : r'.handle ≠ r.handle := fun he => hnotin (List.mem_map.2 ⟨r, hr, he.symm⟩)
        have hone : (t.told zxid e r').carried r.handle = t.carried r.handle :=
          carried_told_of_ne hne
        rw [← hone]
        exact ih hrest hr ((frame_told t).hears.2 hs)

end Fire

section Publish

variable {zxid : Zxid} {e : Event} {es : List Event}

theorem publishOne_eq (t : Table) (zxid : Zxid) (e : Event) :
    t.publishOne zxid e =
      (t.setRegistrations e.path
        ((t.registrations e.path).filter (!·.mask.contains e.kind))).fire zxid e
          ((t.registrations e.path).filter (·.mask.contains e.kind)) := rfl

theorem registrations_publishOne (t : Table) (zxid : Zxid) (e : Event) (p : String) :
    (t.publishOne zxid e).2.registrations p =
      (t.registrations p).filter (fun r => !r.awaits p e) := by
  rw [publishOne_eq, (frame_fire _).registrations, registrations_setRegistrations]
  split <;> rename_i hp
  · simp [Registration.awaits, hp]
  · have hne : (e.path == p) = false := by simpa using Ne.symm hp
    simp [Registration.awaits, hne]

theorem frame_publishOne (t : Table) (zxid : Zxid) (e : Event) :
    (t.publishOne zxid e).2.lastHandle = t.lastHandle ∧
      (t.publishOne zxid e).2.channels.length = t.channels.length ∧
      (∀ {s c}, (t.publishOne zxid e).2.attached.get? s = some c → t.attached.get? s = some c) ∧
      ∀ {s c}, (t.publishOne zxid e).2.Hears s c ↔ t.Hears s c := by
  have hf : Frame (t.setRegistrations e.path
      ((t.registrations e.path).filter (!·.mask.contains e.kind))) (t.publishOne zxid e).2 :=
    frame_fire _
  exact ⟨hf.lastHandle, hf.length, hf.attached, hf.hears⟩

theorem hears_publishOne {c : Nat} : (t.publishOne zxid e).2.Hears s c ↔ t.Hears s c :=
  (frame_publishOne t zxid e).2.2.2

theorem Sound.publishOne (ht : t.Sound) (zxid : Zxid) (e : Event) :
    (t.publishOne zxid e).2.Sound := by
  obtain ⟨hlast, hlen, hatt, -⟩ := frame_publishOne t zxid e
  have hpaths : ∀ h, (t.publishOne zxid e).2.paths.get? h =
      if h ∈ ((t.registrations e.path).filter (·.mask.contains e.kind)).map (·.handle) then none
      else t.paths.get? h := paths_fire _
  apply ht.filter (fun p r => !r.awaits p e) (registrations_publishOne t zxid e)
  · intro p r hr
    have hp : t.paths.get? r.handle = some p := (ht.index _ _).2 ⟨r, hr, rfl⟩
    have hiff : r.handle ∈ ((t.registrations e.path).filter (·.mask.contains e.kind)).map
        (·.handle) ↔ r.awaits p e = true := by
      rw [Registration.awaits, Bool.and_eq_true, beq_iff_eq]
      constructor
      · intro hm
        obtain ⟨r', hr', he⟩ := List.mem_map.1 hm
        obtain ⟨hr', hk⟩ := List.mem_filter.1 hr'
        obtain ⟨rfl, rfl⟩ := ht.unique hr' hr he
        exact ⟨rfl, hk⟩
      · rintro ⟨rfl, hk⟩
        exact List.mem_map.2 ⟨r, List.mem_filter.2 ⟨hr, hk⟩, rfl⟩
    rw [hpaths, hp]
    by_cases ha : r.awaits p e = true
    · rw [if_pos (hiff.2 ha), ha]
      rfl
    · rw [if_neg (mt hiff.1 ha)]
      simp [ha]
  · intro h hh
    rw [hpaths, hh, ite_self]
  · intro p rs hrs
    rw [publishOne_eq, (frame_fire _).byPath] at hrs
    exact listed_setRegistrations ht.listed hrs
  · exact hlast
  · intro s c hc
    rw [hlen]
    exact ht.opened (hatt hc)

theorem carried_publishOne_of_hears (ht : t.Sound) {c : Nat} (hr : r ∈ t.registrations p)
    (he : r.awaits p e = true) (hs : t.Hears r.session c) :
    ((t.publishOne zxid e).2.carried r.handle).Perm (r.notice zxid e :: t.carried r.handle) := by
  rw [Registration.awaits, Bool.and_eq_true, beq_iff_eq] at he
  obtain ⟨rfl, hk⟩ := he
  have hnodup := (ht.nodup e.path).sublist
    (List.Sublist.map Registration.handle
      (List.filter_sublist (p := fun r : Registration => r.mask.contains e.kind)))
  exact carried_fire_of_hears hnodup (List.mem_filter.2 ⟨hr, hk⟩) hs

theorem carried_publishOne_of_silent (hs : ∀ p r, r ∈ t.registrations p → r.handle = h →
      r.awaits p e = false ∨ ∀ c, ¬t.Hears r.session c) :
    (t.publishOne zxid e).2.carried h = t.carried h := by
  rw [publishOne_eq, carried_fire_of_silent]
  · rfl
  · intro r hr he c hc
    obtain ⟨hr, hk⟩ := List.mem_filter.1 hr
    rcases hs e.path r hr he with hn | hdeaf
    · simp [Registration.awaits, hk] at hn
    · exact hdeaf c hc

theorem publish_nil (t : Table) (zxid : Zxid) : (t.publish zxid []).2 = t := rfl

theorem publish_cons (t : Table) (zxid : Zxid) (e : Event) (es : List Event) :
    (t.publish zxid (e :: es)).2 = ((t.publishOne zxid e).2.publish zxid es).2 := rfl

theorem registrations_publish (t : Table) (zxid : Zxid) (es : List Event) (p : String) :
    (t.publish zxid es).2.registrations p =
      (t.registrations p).filter (fun r => !es.any (r.awaits p)) := by
  induction es generalizing t with
  | nil => simp [publish_nil]
  | cons e es ih =>
      rw [publish_cons, ih, registrations_publishOne, List.filter_filter]
      congr 1
      funext r
      rw [List.any_cons, Bool.not_or, Bool.and_comm]

theorem Sound.publish (ht : t.Sound) (zxid : Zxid) (es : List Event) :
    (t.publish zxid es).2.Sound := by
  induction es generalizing t with
  | nil => exact ht
  | cons e es ih =>
      rw [publish_cons]
      exact ih (ht.publishOne zxid e)

theorem frame_publish (t : Table) (zxid : Zxid) (es : List Event) :
    (t.publish zxid es).2.lastHandle = t.lastHandle ∧
      (t.publish zxid es).2.channels.length = t.channels.length := by
  induction es generalizing t with
  | nil => exact ⟨rfl, rfl⟩
  | cons e es ih =>
      obtain ⟨hlast, hlen, -⟩ := frame_publishOne t zxid e
      rw [publish_cons]
      exact ⟨(ih _).1.trans hlast, (ih _).2.trans hlen⟩

theorem hears_publish {c : Nat} : (t.publish zxid es).2.Hears s c ↔ t.Hears s c := by
  induction es generalizing t with
  | nil => exact .rfl
  | cons e es ih =>
      rw [publish_cons, ih]
      exact hears_publishOne

theorem carried_publish_of_silent (hs : ∀ p r, r ∈ t.registrations p → r.handle = h →
      (∀ e ∈ es, r.awaits p e = false) ∨ ∀ c, ¬t.Hears r.session c) :
    (t.publish zxid es).2.carried h = t.carried h := by
  induction es generalizing t with
  | nil => rfl
  | cons e es ih =>
      have hone : (t.publishOne zxid e).2.carried h = t.carried h := by
        apply carried_publishOne_of_silent
        intro p r hr he
        exact (hs p r hr he).imp_left fun hn => hn e (by simp)
      rw [publish_cons, ih, hone]
      intro p r hr he
      rw [registrations_publishOne] at hr
      rcases hs p r (List.mem_filter.1 hr).1 he with hn | hdeaf
      · exact .inl fun e' he' => hn e' (by simp [he'])
      · exact .inr fun c hc => hdeaf c (hears_publishOne.1 hc)

theorem carried_publish_of_hears (ht : t.Sound) {c : Nat} (hr : r ∈ t.registrations p)
    (he : es.find? (r.awaits p) = some e) (hs : t.Hears r.session c) :
    ((t.publish zxid es).2.carried r.handle).Perm (r.notice zxid e :: t.carried r.handle) := by
  induction es generalizing t with
  | nil => cases he
  | cons e' es ih =>
      rw [publish_cons]
      by_cases ha : r.awaits p e' = true
      · rw [List.find?_cons_of_pos ha, Option.some.injEq] at he
        subst he
        rw [carried_publish_of_silent]
        · exact carried_publishOne_of_hears ht hr ha hs
        · intro q r' hr' hh
          rw [registrations_publishOne] at hr'
          obtain ⟨hr', hn⟩ := List.mem_filter.1 hr'
          obtain ⟨rfl, rfl⟩ := ht.unique hr' hr hh
          simp [ha] at hn
      · rw [List.find?_cons_of_neg ha] at he
        have hstay : r ∈ (t.publishOne zxid e').2.registrations p := by
          rw [registrations_publishOne]
          exact List.mem_filter.2 ⟨hr, by simpa using ha⟩
        have hone : (t.publishOne zxid e').2.carried r.handle = t.carried r.handle := by
          apply carried_publishOne_of_silent
          intro q r' hr' hh
          obtain ⟨rfl, rfl⟩ := ht.unique hr' hr hh
          exact .inl (by simpa using ha)
        rw [← hone]
        exact ih (ht.publishOne zxid e') hstay he (hears_publishOne.2 hs)

end Publish

end Table

end Coordination.Watch
