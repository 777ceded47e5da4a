import Coordination.Proofs.Channels
import Coordination.Proofs.OneShot

namespace Coordination.Watch

/-- Earlier events come first, and of one event the registration that was made first. -/
def Firing.Before (x y : Firing) : Prop :=
  x.index < y.index ∨ x.index = y.index ∧ x.registration.handle < y.registration.handle

theorem Registration.firing?_eq_none {r : Registration} {p : String} {es : List Event} :
    r.firing? p es = none ↔ es.any (r.awaits p) = false := by
  induction es with
  | nil => simp [firing?]
  | cons e es ih =>
      rw [firing?_cons, List.any_cons]
      cases r.awaits p e <;> simp [ih]

namespace Table

variable {t : Table} {zxid : Zxid} {e : Event} {es : List Event} {rs : List Registration} {c : Nat}

theorem registrations_publish_eq (t : Table) (zxid : Zxid) (es : List Event) (p : String) :
    (t.publish zxid es).2.registrations p =
      (t.registrations p).filter fun r => r.firing? p es = none := by
  rw [registrations_publish]
  refine List.filter_congr fun r _ => ?_
  simp only [Registration.firing?_eq_none]
  cases es.any (r.awaits p) <;> rfl

theorem Sound.isPending_publish_iff (ht : t.Sound) {p : String} {r : Registration}
    (hr : r ∈ t.registrations p) :
    (t.publish zxid es).2.isPending r.handle = true ↔ r.firing? p es = none := by
  rw [(ht.publish zxid es).isPending_iff, mem_standing]
  constructor
  · rintro ⟨q, r', hr', he⟩
    rw [registrations_publish_eq, List.mem_filter, decide_eq_true_eq] at hr'
    obtain ⟨rfl, rfl⟩ := ht.unique hr'.1 hr he
    exact hr'.2
  · intro hf
    refine ⟨p, r, ?_, rfl⟩
    rw [registrations_publish_eq, List.mem_filter, decide_eq_true_eq]
    exact ⟨hr, hf⟩

section Order

variable {x y : Firing}

theorem Sound.firings_before (ht : t.Sound) (es : List Event) :
    (t.firings es).Pairwise Firing.Before := by
  induction es generalizing t with
  | nil => exact .nil
  | cons e es ih =>
      rw [firings_cons t 0, List.pairwise_append, List.pairwise_map, List.pairwise_map]
      refine ⟨?_, ?_, ?_⟩
      · exact ((ht.increasing e.path).filter _).imp fun h => .inr ⟨rfl, h⟩
      · refine (ih (ht.publishOne 0 e)).imp fun h => ?_
        exact h.imp Nat.succ_lt_succ fun h => ⟨congrArg Nat.succ h.1, h.2⟩
      · intro x hx y hy
        obtain ⟨r, -, rfl⟩ := List.mem_map.1 hx
        obtain ⟨z, -, rfl⟩ := List.mem_map.1 hy
        exact .inl (Nat.succ_pos z.index)

theorem Sound.firings_inj (ht : t.Sound) (hx : x ∈ t.firings es) (hy : y ∈ t.firings es)
    (h : x.registration.handle = y.registration.handle) : x = y := by
  obtain ⟨i, e, r⟩ := x
  obtain ⟨j, f, r'⟩ := y
  obtain ⟨hr, hf⟩ := mem_firings.1 hx
  obtain ⟨hr', hf'⟩ := mem_firings.1 hy
  obtain ⟨hp, rfl⟩ := ht.unique hr hr' h
  simp only at hp hf hf'
  rw [← hp, hf] at hf'
  obtain ⟨rfl, rfl⟩ := Prod.mk.inj (Option.some.inj hf')
  rfl

theorem Sound.nodup_firings (ht : t.Sound) (es : List Event) : (t.firings es).Nodup := by
  refine (ht.firings_before es).imp fun {x y} h he => ?_
  subst he
  exact h.elim (Nat.lt_irrefl _) fun h => Nat.lt_irrefl _ h.2

theorem Sound.filter_due (ht : t.Sound) {p : String} {r : Registration} {i : Nat}
    (hr : r ∈ t.registrations p) (hf : r.firing? p es = some (e, i)) (c : Nat) (zxid : Zxid) :
    (t.due c zxid es).filter (·.handle? == some r.handle) =
      if t.Hears r.session c then [.event r.handle p e.kind zxid] else [] := by
  have ha := (Registration.awaits_of_firing? hf).2
  rw [Registration.awaits, Bool.and_eq_true, beq_iff_eq] at ha
  obtain ⟨rfl, -⟩ := ha
  have hx : ⟨i, e, r⟩ ∈ t.firings es := mem_firings.2 ⟨hr, hf⟩
  have hone : (t.firings es).filter (·.registration.handle == r.handle) = [⟨i, e, r⟩] := by
    refine List.perm_singleton.1 <| (List.perm_ext_iff_of_nodup ((ht.nodup_firings es).filter _)
      (List.nodup_singleton _)).2 fun y => ?_
    rw [List.mem_filter, beq_iff_eq, List.mem_singleton]
    exact ⟨fun hy => ht.firings_inj hy.1 hx hy.2, fun hy => hy ▸ ⟨hx, rfl⟩⟩
  have hhandle : ((fun n => n.handle? == some r.handle) ∘ fun x : Firing => x.notice zxid) =
      fun x => x.registration.handle == r.handle := rfl
  rw [due, List.filter_map, hhandle, List.filter_comm, hone, List.filter_singleton]
  by_cases hc : t.Hears r.session c
  · simp only [hc, decide_true, if_true]
    rfl
  · simp [hc]

end Order

section Count

def volume (t : Table) : Nat := (t.channels.flatMap Channel.sent).length

theorem volume_eq (t : Table) :
    t.volume = ((List.range t.channels.length).flatMap t.sent).length := by
  have hmap : t.channels.map Channel.sent = (List.range t.channels.length).map t.sent := by
    apply List.ext_getElem?
    intro i
    rw [List.getElem?_map, List.getElem?_map]
    rcases Nat.lt_or_ge i t.channels.length with hi | hi
    · simp [sent, channel?, hi]
    · simp [hi]
  rw [volume, List.flatMap_def, List.flatMap_def, hmap]

theorem volume_deliver (t : Table) (s : SessionId) (n : Notification) :
    (t.deliver s n).2.volume = t.volume + if (t.deliver s n).1 then 1 else 0 := by
  by_cases hs : ∃ d, t.Hears s d
  · obtain ⟨d, hd⟩ := hs
    obtain ⟨-, ch, hch, -⟩ := id hd
    obtain ⟨before, ch, after, hl, -, hm⟩ :=
      List.exists_of_modify (·.send n) (List.getElem?_eq_some_iff.1 hch).1
    rw [deliver_of_hears hd, volume, volume, modifyChannel, hm, hl]
    simp only [List.flatMap_append, List.flatMap_cons, List.length_append, Channel.send,
      List.length_singleton, if_true]
    omega
  · obtain ⟨hno, hch, -⟩ := deliver_of_deaf (n := n) (not_exists.1 hs)
    rw [volume, hch, hno]
    rfl

theorem volume_fire (t : Table) (zxid : Zxid) (e : Event) (rs : List Registration) :
    (t.fire zxid e rs).2.volume = t.volume + (t.fire zxid e rs).1 := by
  induction rs generalizing t with
  | nil => rfl
  | cons r rs ih =>
      let left := { t with paths := t.paths.erase r.handle }
      have hone : (t.told zxid e r).volume =
          t.volume + if (left.deliver r.session (r.notice zxid e)).1 then 1 else 0 :=
        volume_deliver left r.session (r.notice zxid e)
      have hcount : (t.fire zxid e (r :: rs)).1 =
          if (left.deliver r.session (r.notice zxid e)).1 then
            ((t.told zxid e r).fire zxid e rs).1 + 1
          else ((t.told zxid e r).fire zxid e rs).1 := rfl
      rw [fire_cons, ih, hone, hcount]
      split <;> omega

theorem volume_publish (t : Table) (zxid : Zxid) (es : List Event) :
    (t.publish zxid es).2.volume = t.volume + (t.publish zxid es).1 := by
  induction es generalizing t with
  | nil => rfl
  | cons e es ih =>
      have hone : (t.publishOne zxid e).2.volume = t.volume + (t.publishOne zxid e).1 :=
        volume_fire _ zxid e _
      rw [publish_cons, ih, hone, Nat.add_assoc]
      rfl

theorem length_flatMap_append {α β : Type} (l : List α) (f g : α → List β) :
    (l.flatMap fun x => f x ++ g x).length = (l.flatMap f).length + (l.flatMap g).length := by
  induction l with
  | nil => rfl
  | cons x l ih =>
      simp only [List.flatMap_cons, List.length_append, ih]
      omega

theorem publish_fst (t : Table) (zxid : Zxid) (es : List Event) :
    (t.publish zxid es).1 =
      ((List.range t.channels.length).flatMap fun c => t.due c zxid es).length := by
  have hvolume := volume_publish t zxid es
  rw [volume_eq, volume_eq, (frame_publish t zxid es).2,
    List.flatMap_congr fun c _ => sent_publish t zxid es c, length_flatMap_append] at hvolume
  exact (Nat.add_left_cancel hvolume).symm

end Count

end Table

namespace Desk

open Table

theorem step_publish {d : Desk} (hp : d.hub.poisoned = false) (zxid : Zxid) (es : List Event) :
    d.step (.publish zxid es) =
      (.count (d.hub.table.publish zxid es).1, d.withHub (d.hub.change (.publish zxid es))) := by
  simp only [step, settle, Hub.publish_eq, hp, Bool.false_eq_true, if_false]

/-- Each registration that awaits one of the events leaves at the first that it awaits, and where
its session hears that is put on the session's channel; the others stay, in their order. A channel
gets what it is due behind all that it had, by events and then by registrations. -/
theorem publish_firing (calls : List Call) (zxid : Zxid) (es : List Event) :
    let d := run .empty calls
    let t := d.hub.table
    let after := (d.step (.publish zxid es)).2.hub.table
    (.poison ∈ calls → d.step (.publish zxid es) = (.fault (.lock .poisoned), d)) ∧
    (.poison ∉ calls →
      (d.step (.publish zxid es)).1 =
        .count ((List.range t.channels.length).flatMap fun c => t.due c zxid es).length ∧
      (∀ p, after.registrations p = (t.registrations p).filter fun r => r.firing? p es = none) ∧
      (∀ p r, r ∈ t.registrations p →
        (after.isPending r.handle = true ↔ r.firing? p es = none) ∧
        ∀ e i, r.firing? p es = some (e, i) → ∀ c,
          (t.due c zxid es).filter (·.handle? == some r.handle) =
            if t.Hears r.session c then [.event r.handle p e.kind zxid] else []) ∧
      (∀ c, after.channel? c =
        (t.channel? c).map fun ch => { ch with sent := ch.sent ++ t.due c zxid es }) ∧
      (t.firings es).Pairwise Firing.Before ∧
      ∀ x, x ∈ t.firings es ↔ x.registration ∈ t.registrations x.event.path ∧
        x.registration.firing? x.event.path es = some (x.event, x.index)) := by
  intro d t after
  have hk := kept_run calls
  have ht : t.Sound := hk.orderly.sound
  refine ⟨fun hpoison => ?_, fun hpoison => ?_⟩
  · have hp : d.hub.poisoned = true := hk.poisoned.2 (mem_history_call.2 hpoison)
    simp only [step, settle, Hub.publish_eq, hp, if_true]
  have hp : d.hub.poisoned = false :=
    hk.unpoisoned fun y hy he => hpoison (mem_history_call.1 ⟨y, hy, he⟩)
  have hstep := step_publish hp zxid es
  have hafter : after = (t.publish zxid es).2 := congrArg (·.2.hub.table) hstep
  rw [hafter, hstep, publish_fst]
  exact ⟨rfl, registrations_publish_eq t zxid es,
    fun p r hr => ⟨ht.isPending_publish_iff hr, fun e i hf c => ht.filter_due hr hf c zxid⟩,
    channel?_publish t zxid es, ht.firings_before es, fun x => mem_firings⟩

theorem publish_firing_deaf :
    let calls : List Call :=
      [.attach 1, .attach 2, .register 1 "/a" .data, .register 2 "/a" .all, .register 1 "/a" .all,
        .register 2 "/b" .all, .dropReceiver 2]
    let es : List Event := [⟨"/a", .childrenChanged⟩, ⟨"/a", .dataChanged⟩]
    let after := ((run .empty calls).step (.publish 7 es)).2.hub.table
    .poison ∉ calls ∧ ((run .empty calls).step (.publish 7 es)).1 = .count 2 ∧
      after.sent 0 = [.event 3 "/a" .childrenChanged 7, .event 1 "/a" .dataChanged 7] ∧
      after.sent 1 = [] ∧ after.registrations "/a" = [] ∧ after.isPending 4 = true := by
  intro calls es after
  have hpoison : .poison ∉ calls := by decide
  obtain ⟨-, hfired⟩ := publish_firing calls 7 es
  obtain ⟨hcount, hleft, hpending, hchannel, -, -⟩ := hfired hpoison
  refine ⟨hpoison, hcount.trans (by decide +kernel), ?_, ?_, ?_, ?_⟩
  · rw [sent, hchannel]
    decide +kernel
  · rw [sent, hchannel]
    decide +kernel
  · rw [hleft]
    decide +kernel
  · exact (hpending "/b" { handle := 4, session := 2, mask := .all } (by decide +kernel)).1.2
      (by decide +kernel)

end Desk

end Coordination.Watch
