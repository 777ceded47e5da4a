import Coordination.Proofs.TableChange
import Coordination.Watch.Desk

/-!
The life of a registration. From the call that makes it, a registration is at every moment of a run
in one of four stages, the last three of which it never leaves, and at most one notification is ever
put on a channel for it (`registration_life`).
-/

namespace Coordination.Watch

namespace Desk

open Table

def Does (d : Desk) : Call → Answer → List Change → Prop
  | .register s p mask, a, ms =>
      (a = .handle (d.hub.table.lastHandle + 1) ∧ ms = [.register s p mask]) ∨
        (∃ f, a = .fault f) ∧ ms = []
  | .cancel h, a, ms =>
      (d.hub.poisoned = false ∧ a = .flag (d.hub.table.isPending h) ∧ ms = [.cancel h]) ∨
        d.hub.poisoned = true ∧ (∃ f, a = .fault f) ∧ ms = []
  | .detach s, a, ms =>
      (d.hub.poisoned = false ∧ a = .count (d.hub.table.owned s).length ∧ ms = [.detach s]) ∨
        d.hub.poisoned = true ∧ (∃ f, a = .fault f) ∧ ms = []
  | .publish zxid es, a, ms =>
      ((∃ n, a = .count n) ∧ ms = [.publish zxid es]) ∨ (∃ f, a = .fault f) ∧ ms = []
  | _, _, ms => ∀ m ∈ ms, m.Idle

theorem release_does (d : Desk) (s : SessionId) :
    ∃ ms, (d.release s).hub.table = d.hub.table.changeAll ms ∧
      (d.release s).hub.poisoned = d.hub.poisoned ∧ ∀ m ∈ ms, m.Idle := by
  unfold release
  split
  · exact ⟨[], rfl, rfl, by simp⟩
  · rename_i c hc
    exact ⟨[.receive c .close], rfl, rfl, by simp [Change.Idle]⟩

theorem attach_does (d : Desk) (s : SessionId) :
    ∃ ms, (d.attach s).2.hub.table = d.hub.table.changeAll ms ∧
      (d.attach s).2.hub.poisoned = d.hub.poisoned ∧ ∀ m ∈ ms, m.Idle := by
  unfold attach
  split <;> rename_i hatt
  · exact ⟨[], rfl, rfl, by simp⟩
  · obtain ⟨-, -, rfl⟩ := Hub.attach_ok hatt
    obtain ⟨ms, htable, hpoison, hms⟩ := release_does (d.withHub (d.hub.change (.attach s))) s
    refine ⟨.attach s :: ms, htable, hpoison, ?_⟩
    intro m hm
    rcases List.mem_cons.1 hm with rfl | hm
    · exact trivial
    · exact hms m hm

theorem hub_barrier (d : Desk) (s : SessionId) (zxid : Zxid) :
    (d.step (.barrier s zxid)).2.hub = (d.hub.barrier s zxid).2 := by
  simp only [step]
  split <;> rename_i hbar <;> rw [hbar] <;> rfl

theorem step_does (d : Desk) (c : Call) :
    ∃ ms, (d.step c).2.hub.table = d.hub.table.changeAll ms ∧
      (d.step c).2.hub.poisoned = (d.hub.poisoned || c == .poison) ∧ d.Does c (d.step c).1 ms := by
  cases c with
  | attach s =>
      obtain ⟨ms, htable, hpoison, hdoes⟩ := attach_does d s
      exact ⟨ms, htable, hpoison.trans (Bool.or_false _).symm, hdoes⟩
  | detach s =>
      simp only [step, settle, Hub.detach_eq]
      cases hp : d.hub.poisoned with
      | true => exact ⟨[], rfl, hp, .inr ⟨hp, ⟨_, rfl⟩, rfl⟩⟩
      | false => exact ⟨[.detach s], rfl, hp, .inl ⟨hp, rfl, rfl⟩⟩
  | register s p mask =>
      simp only [step, settle]
      split <;> rename_i hreg
      · exact ⟨[], rfl, by simp, .inr ⟨⟨_, rfl⟩, rfl⟩⟩
      · obtain ⟨-, -, rfl, rfl⟩ := Hub.register_ok hreg
        exact ⟨[.register s p mask], rfl, (Bool.or_false _).symm, .inl ⟨rfl, rfl⟩⟩
  | cancel h =>
      simp only [step, settle, Hub.cancel_eq]
      cases hp : d.hub.poisoned with
      | true => exact ⟨[], rfl, hp, .inr ⟨hp, ⟨_, rfl⟩, rfl⟩⟩
      | false => exact ⟨[.cancel h], rfl, hp, .inl ⟨hp, rfl, rfl⟩⟩
  | publish zxid es =>
      simp only [step, settle, Hub.publish_eq]
      cases hp : d.hub.poisoned with
      | true => exact ⟨[], rfl, hp, .inr ⟨⟨_, rfl⟩, rfl⟩⟩
      | false => exact ⟨[.publish zxid es], rfl, hp, .inl ⟨⟨_, rfl⟩, rfl⟩⟩
  | barrier s zxid =>
      rw [hub_barrier, Hub.barrier_snd]
      cases hp : d.hub.poisoned with
      | true => exact ⟨[], rfl, hp, by simp [Does]⟩
      | false => exact ⟨[.mark s zxid], rfl, hp, by simp [Does, Change.Idle]⟩
  | watching p =>
      simp only [step]
      split <;> exact ⟨[], rfl, by simp, by simp [Does]⟩
  | drain s =>
      simp only [step, drain]
      split
      · exact ⟨[], rfl, by simp, by simp [Does]⟩
      · rename_i c hc
        exact ⟨[.receive c .all], rfl, (Bool.or_false _).symm, by simp [Does, Change.Idle]⟩
  | dropReceiver s =>
      obtain ⟨ms, htable, hpoison, hms⟩ := release_does d s
      exact ⟨ms, htable, hpoison.trans (Bool.or_false _).symm, hms⟩
  | poison => exact ⟨[], rfl, by simp [step, withHub, Hub.poison], by simp [Does]⟩

structure Entry where
  before : Desk
  call : Call
  answer : Answer

def entry (d : Desk) (c : Call) : Entry := { before := d, call := c, answer := (d.step c).1 }

def history (d : Desk) : List Call → List Entry
  | [] => []
  | c :: cs => d.entry c :: (d.step c).2.history cs

def Entry.Cancels (y : Entry) (h : Handle) : Prop := y.call = .cancel h ∧ y.answer = .flag true

/-- A call that drops a registration which was pending at `p`: its session is detached, or an event
is published that it awaits while its session has no open channel. -/
def Entry.Drops (y : Entry) (p : String) (r : Registration) : Prop :=
  r.handle ∈ y.before.hub.table.standing ∧ (∃ n, y.answer = .count n) ∧
    (y.call = .detach r.session ∨
      ∃ zxid es, y.call = .publish zxid es ∧ (∃ e ∈ es, r.awaits p e = true) ∧
        ∀ c, ¬y.before.hub.table.Hears r.session c)

inductive Stage where
  | pending
  | delivered
  | cancelled
  | dropped
  deriving DecidableEq, Repr

def In (d : Desk) (later : List Entry) (p : String) (r : Registration) : Stage → Prop
  | .pending => r.handle ∈ d.hub.table.standing
  | .delivered => d.hub.table.carried r.handle ≠ []
  | .cancelled => ∃ y ∈ later, y.Cancels r.handle
  | .dropped => ∃ y ∈ later, y.Drops p r

structure Followed (d : Desk) (later : List Entry) (p : String) (r : Registration) (w : Stage) :
    Prop where
  issued : d.hub.table.Issued p r
  stage : ∀ w', d.In later p r w' ↔ w' = w
  once : (d.hub.table.carried r.handle).length ≤ 1
  notice : ∀ n ∈ d.hub.table.carried r.handle, ∃ kind zxid es,
    n = .event r.handle p kind zxid ∧ r.mask.contains kind = true ∧
      ∃ y ∈ later, y.call = .publish zxid es

variable {d d' : Desk} {later : List Entry} {p : String} {r : Registration} {w : Stage} {y : Entry}

theorem Followed.stands_iff (hf : d.Followed later p r w) :
    r.handle ∈ d.hub.table.standing ↔ w = .pending :=
  (hf.stage .pending).trans eq_comm

theorem Followed.carried_eq_nil (hf : d.Followed later p r w) (hw : w ≠ .delivered) :
    d.hub.table.carried r.handle = [] := by
  by_contra hne
  exact hw ((hf.stage .delivered).1 hne).symm

theorem Followed.same (hf : d.Followed later p r w) (hi : d'.hub.table.Issued p r)
    (hstand : r.handle ∈ d'.hub.table.standing ↔ r.handle ∈ d.hub.table.standing)
    (hcarried : d'.hub.table.carried r.handle = d.hub.table.carried r.handle)
    (hcancel : ¬y.Cancels r.handle) (hdrop : ¬y.Drops p r) :
    d'.Followed (later ++ [y]) p r w where
  issued := hi
  stage := by
    intro w'
    rw [← hf.stage w']
    cases w' with
    | pending => exact hstand
    | delivered => simp only [In, hcarried]
    | cancelled => simp [In, or_and_right, exists_or, hcancel]
    | dropped => simp [In, or_and_right, exists_or, hdrop]
  once := hcarried ▸ hf.once
  notice := by
    intro n hn
    rw [hcarried] at hn
    obtain ⟨kind, zxid, es, he, hk, x, hx, hcall⟩ := hf.notice n hn
    exact ⟨kind, zxid, es, he, hk, x, List.mem_append_left _ hx, hcall⟩

theorem Followed.leave (hf : d.Followed later p r .pending) (hi : d'.hub.table.Issued p r)
    (hgone : r.handle ∉ d'.hub.table.standing)
    (hcarried : d'.hub.table.carried r.handle = d.hub.table.carried r.handle)
    (hw : w = .cancelled ∧ y.Cancels r.handle ∧ ¬y.Drops p r ∨
      w = .dropped ∧ ¬y.Cancels r.handle ∧ y.Drops p r) :
    d'.Followed (later ++ [y]) p r w := by
  have hnil : d'.hub.table.carried r.handle = [] :=
    hcarried.trans (hf.carried_eq_nil (by decide))
  have hcancelled : ¬∃ x ∈ later, x.Cancels r.handle := fun h => by
    cases (hf.stage .cancelled).1 h
  have hdropped : ¬∃ x ∈ later, x.Drops p r := fun h => by
    cases (hf.stage .dropped).1 h
  refine ⟨hi, ?_, by simp [hnil], by simp [hnil]⟩
  intro w'
  rcases hw with ⟨rfl, hc, hd⟩ | ⟨rfl, hc, hd⟩ <;> cases w' <;>
    simp [In, or_and_right, exists_or, hgone, hnil, hc, hd, hcancelled, hdropped]

theorem Followed.deliver (hf : d.Followed later p r .pending) (hi : d'.hub.table.Issued p r)
    {kind : EventKind} {zxid : Zxid} {es : List Event}
    (hgone : r.handle ∉ d'.hub.table.standing) (hk : r.mask.contains kind = true)
    (hcarried : (d'.hub.table.carried r.handle).Perm
      (.event r.handle p kind zxid :: d.hub.table.carried r.handle))
    (hcall : y.call = .publish zxid es) (hcancel : ¬y.Cancels r.handle) (hdrop : ¬y.Drops p r) :
    d'.Followed (later ++ [y]) p r .delivered := by
  rw [hf.carried_eq_nil (by decide), List.perm_singleton] at hcarried
  have hcancelled : ¬∃ x ∈ later, x.Cancels r.handle := fun h => by
    cases (hf.stage .cancelled).1 h
  have hdropped : ¬∃ x ∈ later, x.Drops p r := fun h => by
    cases (hf.stage .dropped).1 h
  refine ⟨hi, ?_, by simp [hcarried], ?_⟩
  · intro w'
    cases w' <;>
      simp [In, or_and_right, exists_or, hgone, hcarried, hcancel, hdrop, hcancelled, hdropped]
  · intro n hn
    rw [hcarried, List.mem_singleton] at hn
    exact ⟨kind, zxid, es, hn, hk, y, by simp, hcall⟩

theorem Does.stands_of_cancels {c : Call} {ms : List Change} (hd : d.Does c (d.step c).1 ms)
    (hs : d.hub.table.Sound) {h : Handle} (hc : (d.entry c).Cancels h) :
    h ∈ d.hub.table.standing ∧ .cancel h ∈ ms := by
  obtain ⟨rfl, ha⟩ := hc
  rcases hd with ⟨-, hflag, rfl⟩ | ⟨-, ⟨f, hfault⟩, -⟩
  · have hp : d.hub.table.isPending h = true := Answer.flag.inj (hflag.symm.trans ha)
    exact ⟨hs.isPending_iff.1 hp, by simp⟩
  · exact absurd (hfault.symm.trans ha) (by simp)

theorem Does.takes_of_drops {c : Call} {ms : List Change} (hd : d.Does c (d.step c).1 ms)
    (hc : (d.entry c).Drops p r) :
    r.handle ∈ d.hub.table.standing ∧ ∃ m ∈ ms, m.Takes p r := by
  obtain ⟨hstand, ⟨n, ha⟩, rfl | ⟨zxid, es, rfl, hm, -⟩⟩ := hc
  · rcases hd with ⟨-, -, rfl⟩ | ⟨-, ⟨f, hfault⟩, -⟩
    · exact ⟨hstand, .detach r.session, by simp, rfl⟩
    · exact absurd (hfault.symm.trans ha) (by simp)
  · rcases hd with ⟨-, rfl⟩ | ⟨⟨f, hfault⟩, -⟩
    · exact ⟨hstand, .publish zxid es, by simp, hm⟩
    · exact absurd (hfault.symm.trans ha) (by simp)

theorem Followed.taken (hf : d.Followed later p r .pending) {c : Call} {ms : List Change}
    (htable : (d.step c).2.hub.table = d.hub.table.changeAll ms) (hd : d.Does c (d.step c).1 ms)
    {m : Change} (hm : m ∈ ms) (htake : m.Takes p r) :
    ∃ w, (d.step c).2.Followed (later ++ [d.entry c]) p r w := by
  have hstand : r.handle ∈ d.hub.table.standing := hf.stands_iff.2 rfl
  have hi : (d.step c).2.hub.table.Issued p r := htable ▸ hf.issued.changeAll ms
  have hgone : ∀ m, m.Takes p r → r.handle ∉ (d.hub.table.change m).standing := by
    intro m hm h
    exact ((hf.issued.mem_standing_change m).1 h).2 hm
  cases c with
  | cancel h =>
      rcases hd with ⟨-, ha, rfl⟩ | ⟨-, -, rfl⟩
      · obtain rfl := List.mem_singleton.1 hm
        have he : r.handle = h := htake
        subst he
        have hflag : (d.step (.cancel r.handle)).1 = .flag true :=
          ha.trans (congrArg _ (hf.issued.sound.isPending_iff.2 hstand))
        have hch : (d.step (.cancel r.handle)).2.hub.table =
            d.hub.table.change (.cancel r.handle) := htable
        refine ⟨.cancelled, hf.leave hi (hch ▸ hgone _ htake) ?_
          (.inl ⟨rfl, ⟨rfl, hflag⟩, ?_⟩)⟩
        · rw [hch]
          exact hf.issued.sound.carried_change fun _ _ he => nomatch he
        · rintro ⟨-, ⟨n, hn⟩, -⟩
          exact absurd (hn.symm.trans hflag) (by simp)
      · cases hm
  | detach s =>
      rcases hd with ⟨-, ha, rfl⟩ | ⟨-, -, rfl⟩
      · obtain rfl := List.mem_singleton.1 hm
        have he : r.session = s := htake
        subst he
        have hch : (d.step (.detach r.session)).2.hub.table =
            d.hub.table.change (.detach r.session) := htable
        refine ⟨.dropped, hf.leave hi (hch ▸ hgone _ htake) ?_
          (.inr ⟨rfl, by simp [Entry.Cancels, entry], hstand, ⟨_, ha⟩, .inl rfl⟩)⟩
        rw [hch]
        exact hf.issued.sound.carried_change fun _ _ he => nomatch he
      · cases hm
  | publish zxid es =>
      rcases hd with ⟨ha, rfl⟩ | ⟨-, rfl⟩
      · obtain rfl := List.mem_singleton.1 hm
        have hch : (d.step (.publish zxid es)).2.hub.table =
            d.hub.table.change (.publish zxid es) := htable
        have hcancel : ¬(d.entry (.publish zxid es)).Cancels r.handle := by
          simp [Entry.Cancels, entry]
        by_cases hhear : ∃ c, d.hub.table.Hears r.session c
        · obtain ⟨c, hc⟩ := hhear
          obtain ⟨kind, hk, hcarried⟩ := hf.issued.carried_publish hstand htake hc
          refine ⟨.delivered, hf.deliver hi (hch ▸ hgone _ htake) hk (hch ▸ hcarried) rfl
            hcancel ?_⟩
          rintro ⟨-, -, he | ⟨-, -, -, -, hdeaf⟩⟩
          · cases he
          · exact hdeaf c hc
        · have hdeaf : ∀ c, ¬d.hub.table.Hears r.session c := not_exists.1 hhear
          refine ⟨.dropped, hf.leave hi (hch ▸ hgone _ htake) ?_
            (.inr ⟨rfl, hcancel, hstand, ha, .inr ⟨zxid, es, rfl, htake, hdeaf⟩⟩)⟩
          rw [hch]
          exact hf.issued.carried_change fun _ _ => hdeaf
      · cases hm
  | register s q mask =>
      rcases hd with ⟨-, rfl⟩ | ⟨-, rfl⟩
      · obtain rfl := List.mem_singleton.1 hm
        exact htake.elim
      · cases hm
  | _ => exact absurd htake ((hd m hm).not_takes p r)

theorem Followed.step (hf : d.Followed later p r w) (c : Call) :
    ∃ w', (d.step c).2.Followed (later ++ [d.entry c]) p r w' ∧ (w ≠ .pending → w' = w) := by
  obtain ⟨ms, htable, -, hd⟩ := step_does d c
  -- a call that does not take the registration leaves all that its stage is read from
  by_cases htake : r.handle ∈ d.hub.table.standing ∧ ∃ m ∈ ms, m.Takes p r
  · obtain ⟨hstand, m, hm, ht⟩ := htake
    obtain rfl := hf.stands_iff.1 hstand
    obtain ⟨w', hw'⟩ := hf.taken htable hd hm ht
    exact ⟨w', hw', fun h => absurd rfl h⟩
  · have hleft : r.handle ∈ d.hub.table.standing → ∀ m ∈ ms, ¬m.Takes p r :=
      fun hs m hm ht => htake ⟨hs, m, hm, ht⟩
    obtain ⟨hstand, hcarried⟩ := hf.issued.untaken hleft
    refine ⟨w, hf.same (htable ▸ hf.issued.changeAll ms) (htable ▸ hstand) (htable ▸ hcarried)
      ?_ ?_, fun _ => rfl⟩
    · intro hc
      obtain ⟨hs, hmem⟩ := hd.stands_of_cancels hf.issued.sound hc
      exact htake ⟨hs, _, hmem, rfl⟩
    · intro hc
      exact htake (hd.takes_of_drops hc)

theorem Followed.run (hf : d.Followed later p r w) (calls : List Call) :
    ∃ w', (d.run calls).Followed (later ++ d.history calls) p r w' ∧ (w ≠ .pending → w' = w) := by
  induction calls generalizing d later w with
  | nil => exact ⟨w, (List.append_nil later).symm ▸ hf, fun _ => rfl⟩
  | cons c cs ih =>
      obtain ⟨w₁, hf₁, hw₁⟩ := hf.step c
      obtain ⟨w₂, hf₂, hw₂⟩ := ih hf₁
      rw [List.append_assoc] at hf₂
      refine ⟨w₂, hf₂, fun hw => ?_⟩
      have he := hw₁ hw
      rw [hw₂ (he ▸ hw), he]

def Entry.made? (y : Entry) : Option (String × Registration) :=
  match y.call, y.answer with
  | .register s p mask, .handle h => some (p, { handle := h, session := s, mask })
  | _, _ => none

def made (ys : List Entry) : List (String × Registration) := ys.filterMap Entry.made?

def pending (d : Desk) (ys : List Entry) (f : Registration → Bool) : Nat :=
  (made ys).countP fun x => f x.2 && decide (x.2.handle ∈ d.hub.table.standing)

theorem Does.made {c : Call} {ms : List Change} (hd : d.Does c (d.step c).1 ms) :
    ((d.entry c).made? = none ∧ ∀ m ∈ ms, ∀ s p mask, m ≠ .register s p mask) ∨
      ∃ s p mask, c = .register s p mask ∧ ms = [.register s p mask] ∧
        (d.entry c).made? =
          some (p, { handle := d.hub.table.lastHandle + 1, session := s, mask }) := by
  cases c with
  | register s p mask =>
      rcases hd with ⟨ha, rfl⟩ | ⟨⟨f, ha⟩, rfl⟩
      · exact .inr ⟨s, p, mask, rfl, rfl, by simp [Entry.made?, entry, ha]⟩
      · exact .inl ⟨by simp [Entry.made?, entry, ha], by simp⟩
  | cancel h =>
      rcases hd with ⟨-, -, rfl⟩ | ⟨-, -, rfl⟩
      · exact .inl ⟨rfl, by simp⟩
      · exact .inl ⟨rfl, by simp⟩
  | detach s =>
      rcases hd with ⟨-, -, rfl⟩ | ⟨-, -, rfl⟩
      · exact .inl ⟨rfl, by simp⟩
      · exact .inl ⟨rfl, by simp⟩
  | publish zxid es =>
      rcases hd with ⟨-, rfl⟩ | ⟨-, rfl⟩
      · exact .inl ⟨rfl, by simp⟩
      · exact .inl ⟨rfl, by simp⟩
  | _ => exact .inl ⟨rfl, fun m hm => (hd m hm).ne_register⟩

structure Kept (d : Desk) (ys : List Entry) : Prop where
  orderly : d.hub.table.Orderly
  poisoned : d.hub.poisoned = true ↔ ∃ y ∈ ys, y.call = .poison
  increasing : (made ys).Pairwise (·.2.handle < ·.2.handle)
  bounded : ∀ x ∈ made ys, x.2.handle ≤ d.hub.table.lastHandle
  listed : ∀ {p r}, r ∈ d.hub.table.registrations p → (p, r) ∈ made ys
  lives : ∀ {before y after p r}, ys = before ++ y :: after → y.made? = some (p, r) →
    ∃ w, d.Followed after p r w

theorem kept_empty : empty.Kept [] where
  orderly := orderly_empty
  poisoned := by simp [empty, Hub.empty]
  increasing := .nil
  bounded := by simp [made]
  listed := by simp [empty, Hub.empty, Table.empty, registrations]
  lives := by simp

variable {ys : List Entry}

theorem Kept.followed (hk : d.Kept ys) {s : SessionId} {mask : Mask}
    (htable : d'.hub.table = d.hub.table.change (.register s p mask)) :
    d'.Followed [] p { handle := d.hub.table.lastHandle + 1, session := s, mask } .pending := by
  have hi := hk.orderly.sound.issued_register s p mask
  have hnil : (d.hub.table.change (.register s p mask)).carried (d.hub.table.lastHandle + 1) = [] :=
    hk.orderly.silent (Nat.lt_succ_self _)
  have hstand : d.hub.table.lastHandle + 1 ∈
      (d.hub.table.change (.register s p mask)).standing :=
    hi.mem_standing_iff.2 ((hk.orderly.sound.mem_registrations_change _).2 (.inr ⟨rfl, rfl⟩))
  rw [← htable] at hi hnil hstand
  refine ⟨hi, fun w' => ?_, by simp [hnil], by simp [hnil]⟩
  cases w' <;> simp [In, hstand, hnil]

theorem Kept.step (hk : d.Kept ys) (c : Call) : (d.step c).2.Kept (ys ++ [d.entry c]) := by
  obtain ⟨ms, htable, hpoison, hd⟩ := step_does d c
  have hpoisoned : (d.step c).2.hub.poisoned = true ↔
      ∃ y ∈ ys ++ [d.entry c], y.call = .poison := by
    simp [hpoison, hk.poisoned, or_and_right, exists_or, entry]
  have hlives : (∀ {p r}, (d.entry c).made? = some (p, r) →
        ∃ w, (d.step c).2.Followed [] p r w) →
      ∀ {before y after p r}, ys ++ [d.entry c] = before ++ y :: after → y.made? = some (p, r) →
        ∃ w, (d.step c).2.Followed after p r w := by
    intro hnew before y after p r hys hy
    -- the registration was made by this call, or by an earlier one and is followed one call further
    rcases List.eq_nil_or_concat after with rfl | ⟨after', z, rfl⟩
    · obtain ⟨-, hlast⟩ := List.append_inj' hys rfl
      obtain rfl := (List.cons.inj hlast).1
      exact hnew hy
    · rw [List.concat_eq_append, ← List.cons_append, ← List.append_assoc] at hys
      rw [List.concat_eq_append]
      obtain ⟨hold, hlast⟩ := List.append_inj' hys rfl
      obtain rfl := (List.cons.inj hlast).1
      obtain ⟨w, hw⟩ := hk.lives hold hy
      obtain ⟨w', hw', -⟩ := hw.step c
      exact ⟨w', hw'⟩
  rcases hd.made with ⟨hnone, hms⟩ | ⟨s, p, mask, rfl, rfl, hsome⟩
  · have hmade : made (ys ++ [d.entry c]) = made ys := by simp [made, hnone]
    obtain ⟨hlast, hregs⟩ := hk.orderly.sound.changeAll_of_not_register hms
    rw [← htable] at hlast hregs
    constructor
    · exact htable ▸ hk.orderly.changeAll ms
    · exact hpoisoned
    · exact hmade ▸ hk.increasing
    · rw [hmade, hlast]
      exact hk.bounded
    · intro p r hr
      exact hmade ▸ hk.listed (hregs hr)
    · exact hlives fun hy => absurd (hnone.symm.trans hy) (by simp)
  · have hch : (d.step (.register s p mask)).2.hub.table =
        d.hub.table.change (.register s p mask) := htable
    have hmade : made (ys ++ [d.entry (.register s p mask)]) =
        made ys ++ [(p, { handle := d.hub.table.lastHandle + 1, session := s, mask })] := by
      simp [made, hsome]
    constructor
    · exact hch ▸ hk.orderly.change _
    · exact hpoisoned
    · rw [hmade, List.pairwise_append]
      refine ⟨hk.increasing, List.pairwise_singleton .., fun x hx y hy => ?_⟩
      obtain rfl := List.mem_singleton.1 hy
      exact Nat.lt_succ_of_le (hk.bounded x hx)
    · intro x hx
      rw [hch]
      rw [hmade, List.mem_append, List.mem_singleton] at hx
      rcases hx with hx | rfl
      · exact Nat.le_succ_of_le (hk.bounded x hx)
      · exact Nat.le_refl _
    · intro q r hr
      rw [hch] at hr
      rw [hmade, List.mem_append, List.mem_singleton]
      rcases (hk.orderly.sound.mem_registrations_change _).1 hr with ⟨hr, -⟩ | ⟨hm, hh⟩
      · exact .inl (hk.listed hr)
      · obtain ⟨handle, session, mask'⟩ := r
        obtain ⟨rfl, rfl, rfl⟩ := Change.register.inj hm
        obtain rfl := hh
        exact .inr rfl
    · refine hlives fun {q r} hy => ?_
      obtain ⟨rfl, rfl⟩ := Prod.mk.inj (Option.some.inj (hsome.symm.trans hy))
      exact ⟨.pending, hk.followed hch⟩

theorem Kept.run (hk : d.Kept ys) (calls : List Call) :
    (d.run calls).Kept (ys ++ d.history calls) := by
  induction calls generalizing d ys with
  | nil => exact (List.append_nil ys).symm ▸ hk
  | cons c cs ih =>
      have h := ih (hk.step c)
      rw [List.append_assoc] at h
      exact h

theorem Kept.nodup_made (hk : d.Kept ys) : ((made ys).map (·.2.handle)).Nodup := by
  have hlt : ((made ys).map (·.2.handle)).Pairwise (· < ·) := List.pairwise_map.2 hk.increasing
  exact hlt.imp Nat.ne_of_lt

theorem Kept.pending_eq (hk : d.Kept ys) (f : Registration → Bool) :
    d.pending ys f = (d.hub.table.byPath.values.flatten.filter f).length := by
  have hmade : ∀ g : String × Registration → Bool,
      (((made ys).filter g).map (·.2.handle)).Nodup := fun g =>
    hk.nodup_made.sublist (List.filter_sublist.map _)
  have hstand : ((d.hub.table.byPath.values.flatten.filter f).map (·.handle)).Nodup :=
    hk.orderly.sound.nodup_standing.sublist (List.filter_sublist.map _)
  have hperm : List.Perm
      (((made ys).filter fun x => f x.2 && decide (x.2.handle ∈ d.hub.table.standing)).map
        (·.2.handle))
      ((d.hub.table.byPath.values.flatten.filter f).map (·.handle)) := by
    refine (List.perm_ext_iff_of_nodup (hmade _) hstand).2 fun h => ?_
    simp only [List.mem_map, List.mem_filter, Bool.and_eq_true, decide_eq_true_eq,
      mem_flatten_values]
    constructor
    · rintro ⟨⟨p, r⟩, ⟨hx, hf, hs⟩, rfl⟩
      obtain ⟨q, r', hr', he⟩ := mem_standing.1 hs
      obtain ⟨rfl, rfl⟩ := Prod.mk.inj
        (List.inj_on_of_nodup_map hk.nodup_made (hk.listed hr') hx he)
      exact ⟨r', ⟨⟨q, hr'⟩, hf⟩, rfl⟩
    · rintro ⟨r, ⟨⟨p, hr⟩, hf⟩, rfl⟩
      exact ⟨(p, r), ⟨hk.listed hr, hf, mem_standing.2 ⟨p, r, hr, rfl⟩⟩, rfl⟩
  rw [pending, List.countP_eq_length_filter]
  simpa only [List.length_map] using hperm.length_eq

theorem mem_history_call {calls : List Call} {c : Call} :
    (∃ y ∈ d.history calls, y.call = c) ↔ c ∈ calls := by
  induction calls generalizing d with
  | nil => simp [history]
  | cons c' cs ih =>
      rw [history, List.exists_mem_cons_iff, ih, List.mem_cons]
      exact or_congr_left eq_comm

theorem kept_run (calls : List Call) : (run .empty calls).Kept (history .empty calls) :=
  kept_empty.run calls

theorem Kept.unpoisoned (hk : d.Kept ys) (hp : ∀ y ∈ ys, y.call ≠ .poison) :
    d.hub.poisoned = false := by
  rw [Bool.eq_false_iff]
  intro h
  obtain ⟨y, hy, he⟩ := hk.poisoned.1 h
  exact hp y hy he

/-- Handles only grow. A registration that a run made is in exactly one stage at the run's end, is
delivered at most once and only for an event of a later publish, and stays in its stage, if it is
not pending, however the run goes on. As long as no holder of the lock dies, what `cancel`, `detach`
and `size` answer is what the run says is pending. -/
theorem registration_life (calls : List Call) :
    (made (history .empty calls)).Pairwise (·.2.handle < ·.2.handle) ∧
      (∀ before y after p r, history .empty calls = before ++ y :: after →
        y.made? = some (p, r) →
          ∃ w, (run .empty calls).Followed after p r w ∧
            (w ≠ .pending → ∀ more, (run .empty (calls ++ more)).Followed
              (after ++ (run .empty calls).history more) p r w)) ∧
      (.poison ∉ calls →
        (∀ h, ∃ b, ((run .empty calls).step (.cancel h)).1 = .flag b ∧
          (b = true ↔ ∃ x ∈ made (history .empty calls), x.2.handle = h ∧
            h ∈ (run .empty calls).hub.table.standing)) ∧
        (∀ s, ((run .empty calls).step (.detach s)).1 =
          .count ((run .empty calls).pending (history .empty calls) (·.session == s))) ∧
        (run .empty calls).hub.size =
          .ok ((run .empty calls).pending (history .empty calls) fun _ => true)) := by
  have hk := kept_run calls
  refine ⟨hk.increasing, ?_, fun hpoison => ?_⟩
  · intro before y after p r hys hy
    obtain ⟨w, hw⟩ := hk.lives hys hy
    refine ⟨w, hw, fun hne more => ?_⟩
    obtain ⟨w', hw', hsame⟩ := hw.run more
    rw [run, List.foldl_append]
    exact hsame hne ▸ hw'
  have hp : (run .empty calls).hub.poisoned = false := by
    refine hk.unpoisoned fun y hy he => hpoison (mem_history_call.1 ⟨y, hy, he⟩)
  refine ⟨fun h => ?_, fun s => ?_, ?_⟩
  · refine ⟨(run .empty calls).hub.table.isPending h, ?_, ?_⟩
    · simp [step, settle, Hub.cancel_eq, hp]
    · rw [hk.orderly.sound.isPending_iff]
      constructor
      · intro hs
        obtain ⟨p, r, hr, rfl⟩ := mem_standing.1 hs
        exact ⟨(p, r), hk.listed hr, rfl, hs⟩
      · rintro ⟨x, -, -, hs⟩
        exact hs
  · have howned : ((run .empty calls).hub.table.owned s).length =
        (run .empty calls).pending (history .empty calls) (·.session == s) := by
      rw [hk.pending_eq, owned, List.length_map]
    simp only [step, settle, Hub.detach_eq, hp, Bool.false_eq_true, if_false, howned]
  · have hsize : (run .empty calls).hub.table.size =
        (run .empty calls).pending (history .empty calls) fun _ => true := by
      rw [hk.pending_eq, hk.orderly.sound.size_eq, standing, List.length_map,
        List.filter_eq_self.2 fun _ _ => rfl]
    simp only [Hub.size, Hub.lock, hp, Bool.false_eq_true, if_false, Except.map, hsize]

theorem registration_life_visit :
    let calls : List Call :=
      [.attach 1, .register 1 "/a" .data, .register 1 "/a" .children,
        .publish 5 [⟨"/a", .created⟩], .detach 1]
    ∃ w, (run .empty calls).Followed ((history .empty calls).drop 2) "/a"
        { handle := 1, session := 1, mask := .data } w ∧
      (run .empty calls).In ((history .empty calls).drop 2) "/a"
        { handle := 1, session := 1, mask := .data } .delivered ∧
      (run .empty calls).hub.size = .ok 0 := by
  intro calls
  obtain ⟨-, hlife, hanswers⟩ := registration_life calls
  obtain ⟨w, hw, -⟩ := hlife [_] _ ((history .empty calls).drop 2) "/a"
    { handle := 1, session := 1, mask := .data } rfl rfl
  refine ⟨w, hw, List.cons_ne_nil _ _, (hanswers (by decide)).2.2.trans ?_⟩
  rfl

end Desk

end Coordination.Watch
