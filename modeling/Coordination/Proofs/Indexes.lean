import Coordination.Proofs.OneShot
import Coordination.Proofs.PathGrammar
import Mathlib.Algebra.BigOperators.Finprod

namespace Coordination.Watch

def Change.Proper : Change → Prop
  | .register _ p mask => Path.check p = .ok () ∧ mask.isEmpty = false
  | _ => True

namespace Table

def Proper (t : Table) : Prop :=
  ∀ p r, r ∈ t.registrations p → (Change.register r.session p r.mask).Proper

structure Indexed (t : Table) : Prop where
  index : ∀ h p, t.paths.get? h = some p ↔ t.standing.count h = 1 ∧ h ∈ t.watching p
  listed : ∀ {p rs}, t.byPath.get? p = some rs → rs ≠ []
  increasing : ∀ p, (t.watching p).Pairwise (· < ·)
  bounded : ∀ {h p}, h ∈ t.watching p → h ≤ t.lastHandle
  path : ∀ {p rs}, t.byPath.get? p = some rs → Path.check p = .ok ()
  mask : ∀ {p r}, r ∈ t.registrations p → r.mask.isEmpty = false
  size : t.size = ∑ᶠ p, (t.watching p).length

variable {t : Table} {p : String} {h : Handle} {rs : List Registration}

theorem proper_empty : empty.Proper := by
  intro p r hr
  simp [empty, registrations] at hr

theorem Proper.change (hp : t.Proper) (ht : t.Sound) {m : Change} (hm : m.Proper) :
    (t.change m).Proper := by
  intro p r hr
  rcases (ht.mem_registrations_change m).1 hr with ⟨hr, -⟩ | ⟨rfl, -⟩
  · exact hp p r hr
  · exact hm

theorem Proper.changeAll (hp : t.Proper) (ht : t.Sound) {ms : List Change}
    (hms : ∀ m ∈ ms, m.Proper) : (t.changeAll ms).Proper := by
  induction ms generalizing t with
  | nil => exact hp
  | cons m ms ih =>
      exact ih (hp.change ht (hms m (by simp))) (ht.change m) fun m' hm' => hms m' (by simp [hm'])

theorem registrations_of_get? (hrs : t.byPath.get? p = some rs) : t.registrations p = rs := by
  simp [registrations, hrs]

theorem mem_keys_of_mem_watching (hh : h ∈ t.watching p) : p ∈ t.byPath.keys := by
  obtain ⟨r, hr, -⟩ := mem_watching.1 hh
  rw [← Dict.contains_iff_mem_keys, Dict.contains, Option.isSome_iff_ne_none]
  intro hnone
  simp [registrations, hnone] at hr

theorem mem_standing_of_mem_watching (hh : h ∈ t.watching p) : h ∈ t.standing := by
  obtain ⟨r, hr, rfl⟩ := mem_watching.1 hh
  exact mem_standing.2 ⟨p, r, hr, rfl⟩

theorem length_standing (t : Table) : t.standing.length = ∑ᶠ p, (t.watching p).length := by
  have hsupport : (Function.support fun p => (t.watching p).length) ⊆ ↑t.byPath.keys.toFinset := by
    intro p hp
    obtain ⟨h, hh⟩ := List.exists_mem_of_length_pos (Nat.pos_of_ne_zero hp)
    exact List.mem_toFinset.2 (mem_keys_of_mem_watching hh)
  rw [finsum_eq_sum_of_support_subset _ hsupport, List.sum_toFinset _ t.byPath.nodup_keys,
    standing_eq, List.length_flatMap]

theorem Sound.get?_paths_iff (ht : t.Sound) :
    t.paths.get? h = some p ↔ t.standing.count h = 1 ∧ h ∈ t.watching p := by
  rw [ht.index, ← mem_watching]
  exact (and_iff_right_of_imp fun hh =>
    List.count_eq_one_of_mem ht.nodup_standing (mem_standing_of_mem_watching hh)).symm

theorem Sound.indexed (ht : t.Sound) (hp : t.Proper) : t.Indexed where
  index := fun _ _ => ht.get?_paths_iff
  listed := ht.listed
  increasing := fun p => List.pairwise_map.2 (ht.increasing p)
  bounded := by
    intro h p hh
    obtain ⟨r, hr, rfl⟩ := mem_watching.1 hh
    exact ht.bounded hr
  path := by
    intro p rs hrs
    obtain ⟨r, hr⟩ := List.exists_mem_of_ne_nil rs (ht.listed hrs)
    exact (hp p r (registrations_of_get? hrs ▸ hr)).1
  mask := fun hr => (hp _ _ hr).2
  size := ht.size_eq.trans t.length_standing

end Table

theorem Hub.proper_of_register {hub : Hub} {s : SessionId} {p : String} {mask : Mask}
    {a : Handle × Hub} (h : hub.register s p mask = .ok a) : (Change.register s p mask).Proper := by
  unfold register at h
  split at h <;> rename_i hpath
  · cases h
  · split at h <;> rename_i hmask
    · cases h
    · exact ⟨hpath, Bool.eq_false_iff.2 hmask⟩

namespace Desk

open Table

variable {d : Desk} {c : Call}

theorem Does.proper {ms : List Change} (hd : d.Does c (d.step c).1 ms) : ∀ m ∈ ms, m.Proper := by
  intro m hm
  rcases hd.made with ⟨-, hms⟩ | ⟨s, p, mask, rfl, rfl, -⟩
  · cases m with
    | register s p mask => exact absurd rfl (hms _ hm s p mask)
    | _ => trivial
  · obtain rfl := List.mem_singleton.1 hm
    rcases hd with ⟨ha, -⟩ | ⟨-, hnil⟩
    · simp only [step, settle] at ha
      split at ha <;> rename_i hreg
      · cases ha
      · exact Hub.proper_of_register hreg
    · cases hnil

theorem proper_step (hp : d.hub.table.Proper) (ht : d.hub.table.Sound) (c : Call) :
    (d.step c).2.hub.table.Proper := by
  obtain ⟨ms, htable, -, hd⟩ := step_does d c
  exact htable ▸ hp.changeAll ht hd.proper

theorem proper_run {ys : List Entry} (hp : d.hub.table.Proper) (hk : d.Kept ys)
    (calls : List Call) : (d.run calls).hub.table.Proper := by
  induction calls generalizing d ys with
  | nil => exact hp
  | cons c cs ih => exact ih (proper_step hp hk.orderly.sound c) (hk.step c)

/-- After any run a handle is sent to a path exactly when one registration stands under it and that
one in the list of the path. No list is empty, and each is in the order in which handles were given
out. As long as no holder of the lock dies, `size` is what all paths together are watched by. -/
theorem indexes_agree (calls : List Call) :
    (run .empty calls).hub.table.Indexed ∧
      (.poison ∉ calls →
        (∀ p, (run .empty calls).hub.watching p = .ok ((run .empty calls).hub.table.watching p)) ∧
        (run .empty calls).hub.size =
          .ok (∑ᶠ p, ((run .empty calls).hub.table.watching p).length)) := by
  have hk := kept_run calls
  have hindexed := hk.orderly.sound.indexed (proper_run proper_empty kept_empty calls)
  refine ⟨hindexed, fun hpoison => ?_⟩
  have hp : (run .empty calls).hub.poisoned = false :=
    hk.unpoisoned fun y hy he => hpoison (mem_history_call.1 ⟨y, hy, he⟩)
  have hlock : (run .empty calls).hub.lock = .ok (run .empty calls).hub.table := by
    simp [Hub.lock, hp]
  refine ⟨fun p => ?_, ?_⟩
  · rw [Hub.watching, hlock]
    rfl
  · rw [Hub.size, hlock, ← hindexed.size]
    rfl

theorem indexes_agree_deaf :
    let calls : List Call :=
      [.attach 1, .attach 2, .register 1 "/a" .data, .register 2 "/a" .children,
        .register 2 "/b" .all, .dropReceiver 1, .publish 4 [⟨"/a", .created⟩], .cancel 3]
    let t := (run .empty calls).hub.table
    t.paths.get? 2 = some "/a" ∧ t.standing.count 2 = 1 ∧ 2 ∈ t.watching "/a" ∧
      t.byPath.get? "/b" = none ∧ .poison ∉ calls ∧
      (run .empty calls).hub.size = .ok 1 ∧ ∑ᶠ p, (t.watching p).length = 1 := by
  intro calls t
  obtain ⟨hindexed, hanswers⟩ := indexes_agree calls
  have hpoison : .poison ∉ calls := by decide
  have hpath : t.paths.get? 2 = some "/a" := by rfl
  have hsize : (run .empty calls).hub.size = .ok 1 := by rfl
  obtain ⟨hcount, hmem⟩ := (hindexed.index 2 "/a").1 hpath
  refine ⟨hpath, hcount, hmem, by rfl, hpoison, hsize, ?_⟩
  exact Except.ok.inj ((hanswers hpoison).2.symm.trans hsize)

end Desk

end Coordination.Watch
