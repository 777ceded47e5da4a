import Coordination.Watch.Hub
import Mathlib.Data.List.Nodup

/-!
Who stands in a table of watches. `Sound` says that the lists by path and the index of handles hold
the same registrations, each under a handle of its own; taking registrations out and putting one in
keep it.
-/

namespace Coordination.Watch

namespace Table

structure Sound (t : Table) : Prop where
  index : ∀ h p, t.paths.get? h = some p ↔ ∃ r ∈ t.registrations p, r.handle = h
  increasing : ∀ p, (t.registrations p).Pairwise (·.handle < ·.handle)
  bounded : ∀ {p r}, r ∈ t.registrations p → r.handle ≤ t.lastHandle
  listed : ∀ {p rs}, t.byPath.get? p = some rs → rs ≠ []
  opened : ∀ {s c}, t.attached.get? s = some c → c < t.channels.length

variable {t t' : Table} {p q : String} {r r' : Registration} {h : Handle} {s : SessionId}

theorem sound_empty : empty.Sound where
  index := by
    intro h p
    simp [empty, registrations]
  increasing := fun p => .nil
  bounded := by
    intro p r hr
    simp [empty, registrations] at hr
  listed := by
    intro p rs hrs
    simp [empty] at hrs
  opened := by
    intro s c hc
    simp [empty] at hc

theorem Sound.nodup (ht : t.Sound) (p : String) : ((t.registrations p).map (·.handle)).Nodup := by
  have hlt : ((t.registrations p).map (·.handle)).Pairwise (· < ·) :=
    List.pairwise_map.2 (ht.increasing p)
  exact hlt.imp Nat.ne_of_lt

theorem Sound.unique (ht : t.Sound) (hr : r ∈ t.registrations p) (hr' : r' ∈ t.registrations q)
    (he : r.handle = r'.handle) : p = q ∧ r = r' := by
  have hp : t.paths.get? r.handle = some p := (ht.index _ _).2 ⟨r, hr, rfl⟩
  have hq : t.paths.get? r.handle = some q := (ht.index _ _).2 ⟨r', hr', he.symm⟩
  have hpq : p = q := Option.some.inj (hp.symm.trans hq)
  subst hpq
  exact ⟨rfl, List.inj_on_of_nodup_map (ht.nodup p) hr hr' he⟩

section Lists

theorem registrations_setRegistrations (t : Table) (p q : String) (rs : List Registration) :
    (t.setRegistrations p rs).registrations q = if q = p then rs else t.registrations q := by
  simp only [registrations, setRegistrations]
  split <;> rename_i hrs
  · rw [Dict.get?_erase]
    split
    · simp [List.isEmpty_iff.1 hrs]
    · rfl
  · rw [Dict.get?_insert]
    split <;> rfl

theorem listed_setRegistrations (ht : ∀ {q rs}, t.byPath.get? q = some rs → rs ≠ [])
    {rs rs' : List Registration} (h : (t.setRegistrations p rs).byPath.get? q = some rs') :
    rs' ≠ [] := by
  simp only [setRegistrations] at h
  split at h <;> rename_i hrs
  · rw [Dict.get?_erase] at h
    split at h
    · cases h
    · exact ht h
  · rw [Dict.get?_insert] at h
    split at h
    · obtain rfl := Option.some.inj h
      simpa using hrs
    · exact ht h

theorem Sound.filter (ht : t.Sound) (keep : String → Registration → Bool)
    (hregs : ∀ p, t'.registrations p = (t.registrations p).filter (keep p))
    (hpaths : ∀ {p r}, r ∈ t.registrations p →
      t'.paths.get? r.handle = if keep p r then some p else none)
    (hnone : ∀ {h}, t.paths.get? h = none → t'.paths.get? h = none)
    (hlisted : ∀ {p rs}, t'.byPath.get? p = some rs → rs ≠ [])
    (hlast : t'.lastHandle = t.lastHandle)
    (hopened : ∀ {s c}, t'.attached.get? s = some c → c < t'.channels.length) : t'.Sound where
  index := by
    intro h p
    constructor
    · intro hp
      cases hq : t.paths.get? h with
      | none => rw [hnone hq] at hp; cases hp
      | some q =>
          obtain ⟨r, hr, rfl⟩ := (ht.index h q).1 hq
          rw [hpaths hr] at hp
          split at hp
          · rename_i hk
            obtain rfl := Option.some.inj hp
            exact ⟨r, by rw [hregs]; exact List.mem_filter.2 ⟨hr, hk⟩, rfl⟩
          · cases hp
    · rintro ⟨r, hr, rfl⟩
      rw [hregs] at hr
      obtain ⟨hr, hk⟩ := List.mem_filter.1 hr
      rw [hpaths hr, if_pos hk]
  increasing := fun p => by
    rw [hregs]
    exact (ht.increasing p).filter _
  bounded := by
    intro p r hr
    rw [hregs] at hr
    rw [hlast]
    exact ht.bounded (List.mem_filter.1 hr).1
  listed := hlisted
  opened := hopened

theorem paths_unlink (t : Table) (h k : Handle) :
    (t.unlink h).paths.get? k = if k = h then none else t.paths.get? k := by
  unfold unlink
  split <;> rename_i hp
  · split <;> rename_i hk
    · rw [hk, hp]
    · rfl
  · exact Dict.get?_erase ..

theorem Sound.registrations_unlink (ht : t.Sound) (h : Handle) (p : String) :
    (t.unlink h).registrations p = (t.registrations p).filter (·.handle != h) := by
  have hself : t.paths.get? h ≠ some p →
      (t.registrations p).filter (·.handle != h) = t.registrations p := by
    intro hp
    refine List.filter_eq_self.2 fun r hr => ?_
    have hne : r.handle ≠ h := fun he => hp ((ht.index h p).2 ⟨r, hr, he⟩)
    simpa using hne
  unfold unlink
  split <;> rename_i hp
  · exact (hself (by simp [hp])).symm
  · rename_i q
    rw [registrations_setRegistrations]
    split <;> rename_i hq
    · rw [hq]
    · rw [hself (by simpa [hp] using Ne.symm hq)]
      rfl

theorem frame_unlink (t : Table) (h : Handle) :
    (t.unlink h).lastHandle = t.lastHandle ∧ (t.unlink h).attached = t.attached ∧
      (t.unlink h).channels = t.channels := by
  unfold unlink
  split <;> exact ⟨rfl, rfl, rfl⟩

theorem Sound.unlink (ht : t.Sound) (h : Handle) : (t.unlink h).Sound := by
  obtain ⟨hlast, hatt, hch⟩ := frame_unlink t h
  apply ht.filter (fun _ r => r.handle != h) (ht.registrations_unlink h)
  · intro p r hr
    have hp : t.paths.get? r.handle = some p := (ht.index _ _).2 ⟨r, hr, rfl⟩
    rw [paths_unlink, hp]
    by_cases he : r.handle = h <;> simp [he]
  · intro k hk
    rw [paths_unlink, hk, ite_self]
  · intro p rs hrs
    unfold Table.unlink at hrs
    split at hrs
    · exact ht.listed hrs
    · exact listed_setRegistrations (t := { t with paths := _ }) ht.listed hrs
  · exact hlast
  · intro s c hc
    rw [hatt] at hc
    rw [hch]
    exact ht.opened hc

end Lists

section Standing

def standing (t : Table) : List Handle := t.byPath.values.flatten.map (·.handle)

theorem mem_flatten_values : r ∈ t.byPath.values.flatten ↔ ∃ p, r ∈ t.registrations p := by
  simp only [List.mem_flatten, Dict.mem_values, registrations]
  constructor
  · rintro ⟨rs, ⟨p, hp⟩, hr⟩
    exact ⟨p, by simpa [hp] using hr⟩
  · rintro ⟨p, hr⟩
    cases hp : t.byPath.get? p with
    | none => simp [hp] at hr
    | some rs => exact ⟨rs, ⟨p, hp⟩, by simpa [hp] using hr⟩

theorem mem_standing : h ∈ t.standing ↔ ∃ p r, r ∈ t.registrations p ∧ r.handle = h := by
  simp only [standing, List.mem_map, mem_flatten_values]
  constructor
  · rintro ⟨r, ⟨p, hr⟩, rfl⟩
    exact ⟨p, r, hr, rfl⟩
  · rintro ⟨p, r, hr, rfl⟩
    exact ⟨r, ⟨p, hr⟩, rfl⟩

theorem Sound.isPending_iff (ht : t.Sound) : t.isPending h = true ↔ h ∈ t.standing := by
  rw [mem_standing, isPending, Dict.contains, Option.isSome_iff_exists]
  constructor
  · rintro ⟨p, hp⟩
    obtain ⟨r, hr, rfl⟩ := (ht.index h p).1 hp
    exact ⟨p, r, hr, rfl⟩
  · rintro ⟨p, r, hr, rfl⟩
    exact ⟨p, (ht.index _ _).2 ⟨r, hr, rfl⟩⟩

theorem standing_eq (t : Table) : t.standing = t.byPath.keys.flatMap t.watching := by
  have hentry : ∀ e ∈ t.byPath.toList, t.watching e.1 = e.2.map (·.handle) := by
    intro e he
    rw [watching, registrations, Dict.mem_toList.1 (show (e.1, e.2) ∈ t.byPath.toList from he)]
    rfl
  simp only [standing, Dict.values, Dict.keys, List.flatMap_def, List.map_flatten, List.map_map]
  exact congrArg _ (List.map_congr_left fun e he => (hentry e he).symm)

theorem mem_watching : h ∈ t.watching p ↔ ∃ r ∈ t.registrations p, r.handle = h := List.mem_map

theorem Sound.nodup_standing (ht : t.Sound) : t.standing.Nodup := by
  rw [standing_eq, List.nodup_flatMap]
  refine ⟨fun p _ => ht.nodup p, t.byPath.nodup_keys.imp fun {p q} hne h hp hq => ?_⟩
  obtain ⟨r, hr, rfl⟩ := mem_watching.1 hp
  obtain ⟨r', hr', he⟩ := mem_watching.1 hq
  exact hne (ht.unique hr hr' he.symm).1

theorem Sound.size_eq (ht : t.Sound) : t.size = t.standing.length := by
  have hkeys : t.size = t.paths.keys.length := by simp [size, Dict.size, Dict.keys]
  rw [hkeys]
  refine List.Perm.length_eq
    ((List.perm_ext_iff_of_nodup t.paths.nodup_keys ht.nodup_standing).2 ?_)
  intro h
  rw [← Dict.contains_iff_mem_keys]
  exact ht.isPending_iff

theorem mem_owned :
    h ∈ t.owned s ↔ ∃ p r, r ∈ t.registrations p ∧ r.session = s ∧ r.handle = h := by
  simp only [owned, List.mem_map, List.mem_filter, mem_flatten_values, beq_iff_eq]
  constructor
  · rintro ⟨r, ⟨⟨p, hr⟩, hs⟩, rfl⟩
    exact ⟨p, r, hr, hs, rfl⟩
  · rintro ⟨p, r, hr, hs, rfl⟩
    exact ⟨r, ⟨⟨p, hr⟩, hs⟩, rfl⟩

end Standing

theorem Sound.unlinkAll (ht : t.Sound) (hs : List Handle) :
    (hs.foldl Table.unlink t).Sound ∧
      (∀ p, (hs.foldl Table.unlink t).registrations p =
        (t.registrations p).filter (fun r => !hs.contains r.handle)) ∧
      (hs.foldl Table.unlink t).lastHandle = t.lastHandle ∧
      (hs.foldl Table.unlink t).attached = t.attached ∧
      (hs.foldl Table.unlink t).channels = t.channels := by
  induction hs generalizing t with
  | nil => exact ⟨ht, by simp, rfl, rfl, rfl⟩
  | cons h hs ih =>
      obtain ⟨hlast, hatt, hch⟩ := frame_unlink t h
      obtain ⟨hsound, hregs, hlast', hatt', hch'⟩ := ih (ht.unlink h)
      refine ⟨hsound, fun p => ?_, hlast'.trans hlast, hatt'.trans hatt, hch'.trans hch⟩
      rw [List.foldl_cons, hregs, ht.registrations_unlink, List.filter_filter]
      congr 1
      funext r
      rw [List.contains_cons, Bool.not_or, Bool.and_comm]
      rfl

theorem Sound.forget (ht : t.Sound) (s : SessionId) :
    Sound { t with attached := t.attached.erase s } where
  index := ht.index
  increasing := ht.increasing
  bounded := ht.bounded
  listed := ht.listed
  opened := by
    intro s' c hc
    rw [Dict.get?_erase] at hc
    split at hc
    · cases hc
    · exact ht.opened hc

theorem Sound.detach (ht : t.Sound) (s : SessionId) : (t.detach s).Sound :=
  ((ht.forget s).unlinkAll (t.owned s)).1

theorem Sound.registrations_detach (ht : t.Sound) (s : SessionId) (p : String) :
    (t.detach s).registrations p = (t.registrations p).filter (·.session != s) := by
  have hregs := ((ht.forget s).unlinkAll (t.owned s)).2.1 p
  rw [Table.detach, hregs]
  refine List.filter_congr fun r hr => ?_
  have hiff : r.handle ∈ t.owned s ↔ r.session = s := by
    rw [mem_owned]
    constructor
    · rintro ⟨q, r', hr', hs, he⟩
      obtain ⟨-, rfl⟩ := ht.unique hr' hr he
      exact hs
    · exact fun hs => ⟨p, r, hr, hs, rfl⟩
  by_cases hs : r.session = s
  · simp [hs, hiff.2 hs]
  · simp [hs, mt hiff.1 hs]

theorem Sound.frame_detach (ht : t.Sound) (s : SessionId) :
    (t.detach s).lastHandle = t.lastHandle ∧ (t.detach s).attached = t.attached.erase s ∧
      (t.detach s).channels = t.channels :=
  ((ht.forget s).unlinkAll (t.owned s)).2.2

theorem Sound.attach (ht : t.Sound) (s : SessionId) : (t.attach s).2.Sound where
  index := ht.index
  increasing := ht.increasing
  bounded := ht.bounded
  listed := ht.listed
  opened := by
    intro s' c hc
    simp only [Table.attach] at hc ⊢
    rw [Dict.get?_insert] at hc
    rw [List.length_append]
    split at hc
    · obtain rfl := Option.some.inj hc
      simp
    · exact Nat.lt_add_right _ (ht.opened hc)

theorem registrations_register (t : Table) (s : SessionId) (p q : String) (mask : Mask) :
    (t.register s p mask).2.registrations q =
      if q = p then t.registrations p ++ [{ handle := t.lastHandle + 1, session := s, mask }]
      else t.registrations q := by
  simp only [register, registrations, Dict.get?_insert]
  split <;> rfl

theorem Sound.fresh (ht : t.Sound) (p : String) : t.paths.get? (t.lastHandle + 1) ≠ some p := by
  intro hp
  obtain ⟨r, hr, he⟩ := (ht.index _ _).1 hp
  have hle := ht.bounded hr
  rw [he] at hle
  exact Nat.not_succ_le_self _ hle

theorem Sound.register (ht : t.Sound) (s : SessionId) (p : String) (mask : Mask) :
    (t.register s p mask).2.Sound where
  index := by
    intro h q
    have hpaths : (t.register s p mask).2.paths.get? h =
        if h = t.lastHandle + 1 then some p else t.paths.get? h := Dict.get?_insert ..
    rw [hpaths, registrations_register]
    split <;> rename_i hh
    · subst hh
      by_cases hq : q = p
      · simp [hq]
      · have hne := ht.fresh q
        rw [ne_eq, ht.index] at hne
        simp only [hq, if_false, hne, iff_false]
        exact fun he => hq (Option.some.inj he).symm
    · rw [ht.index]
      by_cases hq : q = p
      · simp only [hq, if_true, List.mem_append, List.mem_singleton, or_and_right, exists_or,
          exists_eq_left]
        constructor
        · exact .inl
        · exact fun he => he.resolve_right fun he => hh he.symm
      · rw [if_neg hq]
  increasing := by
    intro q
    rw [registrations_register]
    split
    · rw [List.pairwise_append]
      refine ⟨ht.increasing p, by simp, ?_⟩
      intro r hr r' hr'
      rw [List.mem_singleton.1 hr']
      exact Nat.lt_succ_of_le (ht.bounded hr)
    · exact ht.increasing q
  bounded := by
    intro q r hr
    rw [registrations_register] at hr
    change r.handle ≤ t.lastHandle + 1
    split at hr
    · rcases List.mem_append.1 hr with hr | hr
      · exact Nat.le_succ_of_le (ht.bounded hr)
      · obtain rfl := List.mem_singleton.1 hr
        exact Nat.le_refl _
    · exact Nat.le_succ_of_le (ht.bounded hr)
  listed := by
    intro q rs hrs
    simp only [Table.register, Dict.get?_insert] at hrs
    split at hrs
    · rw [← Option.some.inj hrs]
      simp
    · exact ht.listed hrs
  opened := ht.opened

end Table

end Coordination.Watch
