/-!
Finite maps as lists sorted by key. Lookup after insertion and removal is given by
`get?_insert` and `get?_erase`; two maps with the same lookups are equal (`ext_get?`),
so a map has one representation.
-/

namespace Coordination

structure Dict (κ α : Type) [Ord κ] where
  toList : List (κ × α)
  sorted : toList.Pairwise fun a b => compare a.1 b.1 = .lt

namespace Dict

section Entries

variable {κ α : Type} [Ord κ]

def lookup (k : κ) : List (κ × α) → Option α
  | [] => none
  | e :: es => if compare k e.1 = .eq then some e.2 else lookup k es

def place (k : κ) (a : α) : List (κ × α) → List (κ × α)
  | [] => [(k, a)]
  | e :: es =>
      match compare k e.1 with
      | .lt => (k, a) :: e :: es
      | .eq => (k, a) :: es
      | .gt => e :: place k a es

theorem mem_place {k : κ} {a : α} {e : κ × α} :
    ∀ {es : List (κ × α)}, e ∈ place k a es → e = (k, a) ∨ e ∈ es := by
  intro es
  induction es with
  | nil => simp [place]
  | cons f fs ih =>
      simp only [place]
      split
      · simp
      · simp only [List.mem_cons]
        exact fun h => h.imp_right .inr
      · simp only [List.mem_cons]
        intro h
        rcases h with h | h
        · exact .inr (.inl h)
        · exact (ih h).imp_right .inr

theorem length_place_le (k : κ) (a : α) (es : List (κ × α)) :
    (place k a es).length ≤ es.length + 1 := by
  induction es with
  | nil => simp [place]
  | cons e es ih =>
      simp only [place]
      split
      · simp
      · simp
      · simpa using ih

theorem lookup_eq_none {k : κ} {es : List (κ × α)} (h : ∀ e ∈ es, compare k e.1 ≠ .eq) :
    lookup k es = none := by
  induction es with
  | nil => rfl
  | cons e es ih =>
      simp only [lookup, if_neg (h e (List.mem_cons_self ..))]
      exact ih fun f hf => h f (List.mem_cons_of_mem _ hf)

variable [Std.TransOrd κ] [Std.LawfulEqOrd κ]

theorem sorted_place (k : κ) (a : α) :
    ∀ {es : List (κ × α)}, es.Pairwise (fun a b => compare a.1 b.1 = .lt) →
      (place k a es).Pairwise fun a b => compare a.1 b.1 = .lt := by
  intro es
  induction es with
  | nil => simp [place]
  | cons e es ih =>
      intro h
      obtain ⟨hd, tl⟩ := List.pairwise_cons.1 h
      simp only [place]
      split <;> rename_i hk
      · refine List.pairwise_cons.2 ⟨fun f hf => ?_, h⟩
        rcases List.mem_cons.1 hf with rfl | hf
        · exact hk
        · exact Std.TransCmp.lt_trans hk (hd f hf)
      · have : k = e.1 := Std.LawfulEqOrd.eq_of_compare hk
        exact List.pairwise_cons.2 ⟨fun f hf => this ▸ hd f hf, tl⟩
      · refine List.pairwise_cons.2 ⟨fun f hf => ?_, ih tl⟩
        rcases mem_place hf with rfl | hf
        · exact Std.OrientedCmp.lt_of_gt hk
        · exact hd f hf

theorem lookup_place (k k' : κ) (a : α) (es : List (κ × α)) :
    lookup k' (place k a es) = if compare k' k = .eq then some a else lookup k' es := by
  induction es with
  | nil => rfl
  | cons e es ih =>
      simp only [place]
      split <;> rename_i hk
      · rfl
      · have he : k = e.1 := Std.LawfulEqOrd.eq_of_compare hk
        simp only [lookup, ← he]
        split <;> rfl
      · simp only [lookup, ih]
        by_cases h' : compare k' e.1 = .eq
        · have he : k' = e.1 := Std.LawfulEqOrd.eq_of_compare h'
          have hne : compare k' k ≠ .eq := by
            rw [he, Std.OrientedCmp.gt_iff_lt.1 hk]
            decide
          simp [h', hne]
        · simp [h']

end Entries

variable {κ α : Type} [Ord κ]

instance [DecidableEq κ] [DecidableEq α] : DecidableEq (Dict κ α) := fun d e =>
  if h : d.toList = e.toList then
    .isTrue (by cases d; cases e; cases h; rfl)
  else
    .isFalse fun he => h (he ▸ rfl)

def empty : Dict κ α := ⟨[], .nil⟩

instance : Inhabited (Dict κ α) := ⟨empty⟩

instance : EmptyCollection (Dict κ α) := ⟨empty⟩

def get? (d : Dict κ α) (k : κ) : Option α := lookup k d.toList

def contains (d : Dict κ α) (k : κ) : Bool := (d.get? k).isSome

def size (d : Dict κ α) : Nat := d.toList.length

def isEmpty (d : Dict κ α) : Bool := d.toList.isEmpty

def keys (d : Dict κ α) : List κ := d.toList.map (·.1)

def values (d : Dict κ α) : List α := d.toList.map (·.2)

def erase (d : Dict κ α) (k : κ) : Dict κ α :=
  ⟨d.toList.filter fun e => compare k e.1 != .eq, d.sorted.filter _⟩

@[simp] theorem get?_empty (k : κ) : (empty : Dict κ α).get? k = none := rfl

theorem contains_of_isEmpty {d : Dict κ α} (h : d.isEmpty = true) (k : κ) :
    d.contains k = false := by
  have hnil : d.toList = [] := List.isEmpty_iff.1 h
  rw [contains, get?, hnil]
  rfl

theorem size_erase_le (d : Dict κ α) (k : κ) : (d.erase k).size ≤ d.size :=
  List.length_filter_le _ _

variable [Std.TransOrd κ] [Std.LawfulEqOrd κ]

def insert (d : Dict κ α) (k : κ) (a : α) : Dict κ α :=
  ⟨place k a d.toList, sorted_place k a d.sorted⟩

def modify (d : Dict κ α) (k : κ) (f : α → α) : Dict κ α :=
  match d.get? k with
  | some a => d.insert k (f a)
  | none => d

/-- Of entries with the same key the last one stays. -/
def ofList (es : List (κ × α)) : Dict κ α :=
  es.foldl (fun d e => d.insert e.1 e.2) empty

theorem get?_insert [DecidableEq κ] (d : Dict κ α) (k k' : κ) (a : α) :
    (d.insert k a).get? k' = if k' = k then some a else d.get? k' := by
  simp [get?, insert, lookup_place]

@[simp] theorem get?_insert_self (d : Dict κ α) (k : κ) (a : α) :
    (d.insert k a).get? k = some a := by
  simp [get?, insert, lookup_place]

omit [Std.TransOrd κ] in
theorem get?_erase [DecidableEq κ] (d : Dict κ α) (k k' : κ) :
    (d.erase k).get? k' = if k' = k then none else d.get? k' := by
  simp only [get?, erase]
  induction d.toList with
  | nil => simp [lookup]
  | cons e es ih =>
      simp only [List.filter_cons]
      by_cases h : k = e.1
      · by_cases h' : k' = k
        · simp_all
        · simp_all [lookup]
      · by_cases h' : k' = k
        · simp_all [lookup]
        · simp_all [lookup]

omit [Std.TransOrd κ] in
@[simp] theorem get?_erase_self (d : Dict κ α) (k : κ) : (d.erase k).get? k = none := by
  classical simp [get?_erase]

omit [Std.TransOrd κ] in
theorem get?_erase_of_ne (d : Dict κ α) {k k' : κ} (h : k' ≠ k) :
    (d.erase k).get? k' = d.get? k' := by
  classical simp [get?_erase, h]

theorem contains_insert [DecidableEq κ] {d : Dict κ α} {k k' : κ} {a : α} :
    (d.insert k a).contains k' = true ↔ k' = k ∨ d.contains k' = true := by
  rw [contains, get?_insert]
  by_cases h : k' = k <;> simp [h, contains]

omit [Std.TransOrd κ] in
theorem contains_erase [DecidableEq κ] {d : Dict κ α} {k k' : κ} :
    (d.erase k).contains k' = true ↔ k' ≠ k ∧ d.contains k' = true := by
  rw [contains, get?_erase]
  by_cases h : k' = k <;> simp [h, contains]

theorem size_insert_le (d : Dict κ α) (k : κ) (a : α) : (d.insert k a).size ≤ d.size + 1 :=
  length_place_le k a d.toList

theorem get?_modify [DecidableEq κ] (d : Dict κ α) (k k' : κ) (f : α → α) :
    (d.modify k f).get? k' = if k' = k then (d.get? k).map f else d.get? k' := by
  unfold modify
  cases h : d.get? k with
  | none =>
      by_cases hk : k' = k
      · simp [hk, h]
      · simp [hk]
  | some a => simp [get?_insert]

omit [Std.TransOrd κ] in
theorem mem_toList {d : Dict κ α} {k : κ} {a : α} : (k, a) ∈ d.toList ↔ d.get? k = some a := by
  obtain ⟨es, hs⟩ := d
  simp only [get?]
  induction es with
  | nil => simp [lookup]
  | cons e es ih =>
      obtain ⟨hd, tl⟩ := List.pairwise_cons.1 hs
      have ih := ih tl
      simp only [lookup, List.mem_cons, ih]
      by_cases h : compare k e.1 = .eq
      · have he : k = e.1 := Std.LawfulEqOrd.eq_of_compare h
        have hn : lookup k es = none := lookup_eq_none fun f hf => by
          rw [he, hd f hf]
          decide
        simp only [h, hn, if_true]
        constructor
        · rintro (h' | h')
          · exact h' ▸ rfl
          · simp at h'
        · intro h'
          exact .inl (by cases e; cases h'; cases he; rfl)
      · simp only [h, if_false]
        constructor
        · rintro (h' | h')
          · exact absurd (h' ▸ Std.ReflCmp.compare_self) h
          · exact h'
        · exact .inr

omit [Std.TransOrd κ] in
theorem contains_iff_mem_keys {d : Dict κ α} {k : κ} : d.contains k = true ↔ k ∈ d.keys := by
  simp only [contains, keys, List.mem_map, Option.isSome_iff_exists]
  constructor
  · rintro ⟨a, h⟩
    exact ⟨(k, a), mem_toList.2 h, rfl⟩
  · rintro ⟨⟨k', a⟩, h, rfl⟩
    exact ⟨a, mem_toList.1 h⟩

omit [Std.TransOrd κ] in
theorem mem_values {d : Dict κ α} {a : α} : a ∈ d.values ↔ ∃ k, d.get? k = some a := by
  simp only [values, List.mem_map]
  constructor
  · rintro ⟨⟨k, a⟩, h, rfl⟩
    exact ⟨k, mem_toList.1 h⟩
  · rintro ⟨k, h⟩
    exact ⟨(k, a), mem_toList.2 h, rfl⟩

omit [Std.LawfulEqOrd κ] in
theorem nodup_keys (d : Dict κ α) : d.keys.Nodup := by
  refine List.pairwise_map.2 (d.sorted.imp fun {a b} hlt heq => ?_)
  have hself : compare b.1 b.1 = .eq := Std.ReflCmp.compare_self
  rw [heq, hself] at hlt
  cases hlt

theorem ext_get? {d e : Dict κ α} (h : ∀ k, d.get? k = e.get? k) : d = e := by
  have hmem : ∀ x, x ∈ d.toList ↔ x ∈ e.toList := fun x => by
    rw [mem_toList, mem_toList, h]
  have key : ∀ {xs ys : List (κ × α)},
      xs.Pairwise (fun a b => compare a.1 b.1 = .lt) →
      ys.Pairwise (fun a b => compare a.1 b.1 = .lt) →
      (∀ x, x ∈ xs ↔ x ∈ ys) → xs = ys := by
    intro xs
    induction xs with
    | nil =>
        intro ys _ _ hm
        cases ys with
        | nil => rfl
        | cons y ys => exact absurd ((hm y).2 (List.mem_cons_self ..)) (by simp)
    | cons x xs ih =>
        intro ys hx hy hm
        cases ys with
        | nil => exact absurd ((hm x).1 (List.mem_cons_self ..)) (by simp)
        | cons y ys =>
            obtain ⟨hxd, hxt⟩ := List.pairwise_cons.1 hx
            obtain ⟨hyd, hyt⟩ := List.pairwise_cons.1 hy
            have hxy : x = y := by
              rcases List.mem_cons.1 ((hm x).1 (List.mem_cons_self ..)) with h | h
              · exact h
              · rcases List.mem_cons.1 ((hm y).2 (List.mem_cons_self ..)) with h' | h'
                · exact h'.symm
                · exact absurd (Std.TransCmp.lt_trans (hxd y h') (hyd x h))
                    (by simp [Std.ReflCmp.compare_self])
            subst hxy
            have notin : ∀ {zs : List (κ × α)},
                (∀ z ∈ zs, compare x.1 z.1 = .lt) → x ∉ zs := fun hz hin => by
              simpa [Std.ReflCmp.compare_self] using hz x hin
            rw [ih hxt hyt fun z => ?_]
            have hz := hm z
            simp only [List.mem_cons] at hz
            constructor
            · intro hin
              rcases hz.1 (.inr hin) with rfl | h
              · exact absurd hin (notin hxd)
              · exact h
            · intro hin
              rcases hz.2 (.inr hin) with rfl | h
              · exact absurd hin (notin hyd)
              · exact h
  obtain ⟨xs, hx⟩ := d
  obtain ⟨ys, hy⟩ := e
  cases key hx hy hmem
  rfl

end Dict

end Coordination
