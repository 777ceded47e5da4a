import Coordination.Proofs.TableChange

namespace Coordination.Watch

namespace Registration

/-- The first of the events that a registration at `p` awaits, with its index. -/
def firing? (r : Registration) (p : String) (es : List Event) : Option (Event × Nat) :=
  es.zipIdx.find? fun x => r.awaits p x.1

variable {r : Registration} {p : String} {e e' : Event} {es : List Event} {i : Nat}

theorem awaits_self (r : Registration) (e : Event) :
    r.awaits e.path e = r.mask.contains e.kind := by
  rw [awaits, beq_self_eq_true, Bool.true_and]

theorem firing?_cons (r : Registration) (p : String) (e : Event) (es : List Event) :
    r.firing? p (e :: es) =
      if r.awaits p e then some (e, 0) else (r.firing? p es).map fun x => (x.1, x.2 + 1) := by
  rw [firing?, List.zipIdx_cons, List.find?_cons, Nat.zero_add, List.zipIdx_succ, List.find?_map]
  cases r.awaits p e <;> rfl

theorem firing?_cons_zero : r.firing? p (e :: es) = some (e, 0) ↔ r.awaits p e = true := by
  rw [firing?_cons]
  cases r.awaits p e <;> simp

theorem firing?_cons_succ :
    r.firing? p (e :: es) = some (e', i + 1) ↔
      r.awaits p e = false ∧ r.firing? p es = some (e', i) := by
  rw [firing?_cons]
  cases r.awaits p e <;> simp

theorem awaits_of_firing? (h : r.firing? p es = some (e, i)) : e ∈ es ∧ r.awaits p e = true :=
  ⟨List.fst_mem_of_mem_zipIdx (List.mem_of_find?_eq_some h),
    List.find?_some (p := fun x : Event × Nat => r.awaits p x.1) h⟩

end Registration

structure Firing where
  index : Nat
  event : Event
  registration : Registration

namespace Firing

def notice (x : Firing) (zxid : Zxid) : Notification := x.registration.notice zxid x.event

def later (x : Firing) : Firing := { x with index := x.index + 1 }

end Firing

def Change.Sends (t : Table) (c : Nat) (n : Notification) : Change → Prop
  | .publish zxid es =>
      ∃ p r e, r ∈ t.registrations p ∧ t.Hears r.session c ∧ e ∈ es ∧ r.awaits p e = true ∧
        n = r.notice zxid e
  | .mark s zxid => t.Hears s c ∧ n = .synced zxid
  | _ => False

namespace Table

def sent (t : Table) (c : Nat) : List Notification := ((t.channel? c).map Channel.sent).getD []

variable {t t' : Table} {c d : Nat}

theorem sent_congr (h : t'.channels = t.channels) (c : Nat) : t'.sent c = t.sent c := by
  rw [sent, channel?, h, sent, channel?]

theorem sent_eq {ch : Channel} (h : t.channel? c = some ch) : t.sent c = ch.sent := by
  rw [sent, h]
  rfl

theorem sent_of_le (h : t.channels.length ≤ c) : t.sent c = [] := by
  rw [sent, channel?, List.getElem?_eq_none h]
  rfl

theorem sent_attach (t : Table) (s : SessionId) (c : Nat) : (t.attach s).2.sent c = t.sent c := by
  rcases Nat.lt_or_ge c t.channels.length with hc | hc
  · simp only [sent, channel?, attach, List.getElem?_append_left hc]
  · rw [sent_of_le hc]
    rcases Nat.eq_or_lt_of_le hc with rfl | hc
    · have hnew : (t.attach s).2.channel? t.channels.length = some .fresh := by
        simp [channel?, attach]
      exact sent_eq hnew
    · exact sent_of_le (by simpa [attach] using Nat.succ_le_of_lt hc)

theorem sent_modifyChannel {f : Channel → Channel} (hf : ∀ ch, (f ch).sent = ch.sent) :
    (t.modifyChannel d f).sent c = t.sent c := by
  simp only [sent, channel?, modifyChannel, List.getElem?_modify]
  cases t.channels[c]? with
  | none => rfl
  | some ch => by_cases hd : d = c <;> simp [hd, hf]

section Deliver

instance (t : Table) (s : SessionId) (c : Nat) : Decidable (t.Hears s c) :=
  decidable_of_iff (t.attached.get? s = some c ∧ (t.channel? c).any (·.listening) = true) <| by
    simp [Hears, Option.any_eq_true]

theorem channel?_deliver (t : Table) (s : SessionId) (n : Notification) (c : Nat) :
    (t.deliver s n).2.channel? c =
      (t.channel? c).map fun ch => if t.Hears s c then ch.send n else ch := by
  by_cases hs : ∃ d, t.Hears s d
  · obtain ⟨d, hd⟩ := hs
    have hdc : d = c ↔ t.Hears s c :=
      ⟨fun he => he ▸ hd, fun hc => Option.some.inj (hd.1.symm.trans hc.1)⟩
    rw [deliver_of_hears hd, channel?, modifyChannel, List.getElem?_modify, channel?]
    simp only [hdc]
    rfl
  · have hno : ¬t.Hears s c := not_exists.1 hs c
    rw [channel?, (deliver_of_deaf (not_exists.1 hs)).2.1, channel?]
    simp [hno]

theorem sent_deliver (t : Table) (s : SessionId) (n : Notification) (c : Nat) :
    (t.Hears s c ∧ (t.deliver s n).2.sent c = t.sent c ++ [n]) ∨
      (¬t.Hears s c ∧ (t.deliver s n).2.sent c = t.sent c) := by
  rw [sent, sent, channel?_deliver, Option.map_map]
  by_cases hs : t.Hears s c
  · obtain ⟨ch, hch, -⟩ := hs.2
    exact .inl ⟨hs, by simp [hch, hs, Channel.send]⟩
  · exact .inr ⟨hs, by simp [hs, Function.comp_def]⟩

end Deliver

section Publish

variable {zxid : Zxid} {e : Event} {es : List Event} {x : Firing}

/-- What the events fire, each registration at the first event that it awaits. -/
def firings (t : Table) (es : List Event) : List Firing :=
  es.zipIdx.flatMap fun (e, i) =>
    ((t.registrations e.path).filter fun r => r.firing? e.path es = some (e, i)).map (⟨i, e, ·⟩)

/-- What the firings put on a channel. -/
def due (t : Table) (c : Nat) (zxid : Zxid) (es : List Event) : List Notification :=
  ((t.firings es).filter fun x => t.Hears x.registration.session c).map (·.notice zxid)

theorem mem_firings :
    x ∈ t.firings es ↔ x.registration ∈ t.registrations x.event.path ∧
      x.registration.firing? x.event.path es = some (x.event, x.index) := by
  obtain ⟨i, e, r⟩ := x
  simp only [firings, List.mem_flatMap, List.mem_map, List.mem_filter, decide_eq_true_eq]
  constructor
  · rintro ⟨⟨e', i'⟩, -, r', ⟨hr, hf⟩, he⟩
    obtain ⟨rfl, rfl, rfl⟩ := Firing.mk.inj he
    exact ⟨hr, hf⟩
  · rintro ⟨hr, hf⟩
    exact ⟨(e, i), List.mem_of_find?_eq_some hf, r, ⟨hr, hf⟩, rfl⟩

theorem firings_cons (t : Table) (zxid : Zxid) (e : Event) (es : List Event) :
    t.firings (e :: es) =
      ((t.registrations e.path).filter (·.mask.contains e.kind)).map (⟨0, e, ·⟩) ++
        ((t.publishOne zxid e).2.firings es).map Firing.later := by
  have hfirst : ∀ r : Registration,
      decide (r.firing? e.path (e :: es) = some (e, 0)) = r.mask.contains e.kind := by
    intro r
    simp only [Registration.firing?_cons_zero, r.awaits_self, Bool.decide_eq_true]
  have hrest : ∀ (r : Registration) (e' : Event) (i : Nat),
      decide (r.firing? e'.path (e :: es) = some (e', i + 1)) =
        (decide (r.firing? e'.path es = some (e', i)) && !r.awaits e'.path e) := by
    intro r e' i
    rw [decide_eq_decide.2 Registration.firing?_cons_succ, Bool.decide_and, Bool.and_comm]
    cases r.awaits e'.path e <;> rfl
  simp only [firings, List.zipIdx_cons, List.flatMap_cons, Nat.zero_add, List.zipIdx_succ,
    List.flatMap_map, List.map_flatMap, List.map_map, registrations_publishOne, List.filter_filter,
    hfirst, hrest]
  rfl

theorem due_cons (t : Table) (c : Nat) (zxid : Zxid) (e : Event) (es : List Event) :
    t.due c zxid (e :: es) =
      (((t.registrations e.path).filter (·.mask.contains e.kind)).filter
        fun r => t.Hears r.session c).map (·.notice zxid e) ++
          (t.publishOne zxid e).2.due c zxid es := by
  simp only [due, firings_cons t zxid, List.filter_append, List.filter_map, List.map_append,
    List.map_map, hears_publishOne]
  rfl

theorem channel?_fire (t : Table) (zxid : Zxid) (e : Event) (rs : List Registration) (c : Nat) :
    (t.fire zxid e rs).2.channel? c = (t.channel? c).map fun ch =>
      { ch with
        sent := ch.sent ++ (rs.filter fun r => t.Hears r.session c).map (·.notice zxid e) } := by
  induction rs generalizing t with
  | nil => simp [fire_nil]
  | cons r rs ih =>
      have htold : (t.told zxid e r).channel? c = (t.channel? c).map fun ch =>
          if t.Hears r.session c then ch.send (r.notice zxid e) else ch :=
        channel?_deliver { t with paths := t.paths.erase r.handle } r.session (r.notice zxid e) c
      rw [fire_cons, ih, htold, Option.map_map]
      simp only [(frame_told t).hears, List.filter_cons]
      congr 1
      funext ch
      by_cases hr : t.Hears r.session c <;> simp [hr, Channel.send]

theorem channel?_publish (t : Table) (zxid : Zxid) (es : List Event) (c : Nat) :
    (t.publish zxid es).2.channel? c =
      (t.channel? c).map fun ch => { ch with sent := ch.sent ++ t.due c zxid es } := by
  induction es generalizing t with
  | nil => simp [publish_nil, due, firings]
  | cons e es ih =>
      have hone : (t.publishOne zxid e).2.channel? c = _ := channel?_fire _ zxid e _ c
      rw [publish_cons, ih, hone, due_cons, Option.map_map]
      simp only [← List.append_assoc]
      rfl

theorem sent_publish (t : Table) (zxid : Zxid) (es : List Event) (c : Nat) :
    (t.publish zxid es).2.sent c = t.sent c ++ t.due c zxid es := by
  rw [sent, channel?_publish, sent]
  cases hc : t.channel? c with
  | some ch => rfl
  | none =>
      have hdeaf : ∀ s, ¬t.Hears s c := by
        rintro s ⟨-, ch, hch, -⟩
        exact absurd (hch.symm.trans hc) (by simp)
      simp [due, hdeaf]

theorem sends_of_mem_due {n : Notification} (h : n ∈ t.due c zxid es) :
    (Change.publish zxid es).Sends t c n := by
  obtain ⟨x, hx, rfl⟩ := List.mem_map.1 h
  obtain ⟨hx, hears⟩ := List.mem_filter.1 hx
  obtain ⟨hr, hf⟩ := mem_firings.1 hx
  obtain ⟨he, ha⟩ := Registration.awaits_of_firing? hf
  exact ⟨x.event.path, x.registration, x.event, hr, of_decide_eq_true hears, he, ha, rfl⟩

end Publish

theorem Sound.sent_change (ht : t.Sound) (m : Change) (c : Nat) :
    ∃ rest, (t.change m).sent c = t.sent c ++ rest ∧ ∀ n ∈ rest, m.Sends t c n := by
  have hsame : (t.change m).sent c = t.sent c →
      ∃ rest, (t.change m).sent c = t.sent c ++ rest ∧ ∀ n ∈ rest, m.Sends t c n := fun h =>
    ⟨[], h.trans (List.append_nil _).symm, by simp⟩
  cases m with
  | attach s => exact hsame (sent_attach t s c)
  | detach s => exact hsame (sent_congr (ht.frame_detach s).2.2 c)
  | register s p mask => exact hsame rfl
  | cancel h => exact hsame (sent_congr (frame_unlink t h).2.2 c)
  | publish zxid es => exact ⟨_, sent_publish t zxid es c, fun n => sends_of_mem_due⟩
  | mark s zxid =>
      rcases sent_deliver t s (.synced zxid) c with ⟨hears, hone⟩ | ⟨-, hone⟩
      · exact ⟨[.synced zxid], hone, fun n hn => ⟨hears, List.mem_singleton.1 hn⟩⟩
      · exact hsame hone
  | receive d receipt => exact hsame (sent_modifyChannel fun ch => by cases receipt <;> rfl)

theorem Sound.sent_change_of_silent (ht : t.Sound) {m : Change} (h : ∀ n, ¬m.Sends t c n) :
    (t.change m).sent c = t.sent c := by
  obtain ⟨rest, hrest, hmem⟩ := ht.sent_change m c
  have hnil : rest = [] := List.eq_nil_iff_forall_not_mem.2 fun n hn => h n (hmem n hn)
  rw [hrest, hnil, List.append_nil]

end Table

end Coordination.Watch
