import Coordination.Proofs.CodecLaws
import Coordination.Proofs.JsonReading

namespace Coordination

namespace Dict

variable {κ α : Type} [Ord κ] [Std.TransOrd κ] [Std.LawfulEqOrd κ] [DecidableEq κ]

theorem get?_foldl_insert {es : List (κ × α)}
    (hsorted : es.Pairwise fun a b => compare a.1 b.1 = .lt) (d : Dict κ α) (k : κ) :
    (es.foldl (fun d e => d.insert e.1 e.2) d).get? k = (lookup k es).or (d.get? k) := by
  induction es generalizing d with
  | nil => rfl
  | cons e es ih =>
      obtain ⟨hfirst, hrest⟩ := List.pairwise_cons.1 hsorted
      rw [List.foldl_cons, ih hrest, get?_insert, lookup]
      by_cases hk : k = e.1
      · have hnone : lookup k es = none := lookup_eq_none fun f hf => by
          rw [hk, hfirst f hf]
          decide
        rw [hnone, if_pos hk, if_pos (hk ▸ Std.ReflCmp.compare_self)]
        rfl
      · rw [if_neg hk, if_neg fun heq => hk (Std.LawfulEqOrd.eq_of_compare heq)]

theorem ofList_toList (d : Dict κ α) : ofList d.toList = d := by
  refine ext_get? fun k => ?_
  rw [ofList, get?_foldl_insert d.sorted, get?_empty, Option.or_none]
  rfl

end Dict

namespace Format

section Named

variable {F : Type} {es : List (String × F)} {names : List String} {xs : List F}

theorem filter_named {e : String × F} (hnames : (es.map Prod.fst).Nodup) (he : e ∈ es) :
    (es.map fun f => (some f.1, f.2)).filter (·.1 == some e.1) = [(some e.1, e.2)] := by
  induction es with
  | nil => cases he
  | cons f fs ih =>
      rw [List.map_cons, List.nodup_cons] at hnames
      rcases List.mem_cons.1 he with rfl | he
      · have hothers : (fs.map fun f => (some f.1, f.2)).filter (·.1 == some e.1) = [] := by
          rw [List.filter_eq_nil_iff, List.forall_mem_map]
          intro f hf heq
          have hsame : f.1 = e.1 := Option.some.inj (eq_of_beq heq)
          exact hnames.1 (hsame ▸ List.mem_map_of_mem hf)
        have hself : (some e.1 == some e.1) = true := beq_self_eq_true _
        simp only [List.map_cons, List.filter_cons, hself, if_true, hothers]
      · have hne : f.1 ≠ e.1 := fun heq => hnames.1 (heq ▸ List.mem_map_of_mem he)
        have hskip : (some f.1 == some e.1) = false :=
          beq_eq_false_iff_ne.2 fun heq => hne (Option.some.inj heq)
        simp only [List.map_cons, List.filter_cons, hskip, Bool.false_eq_true, if_false]
        exact ih hnames.2 he

theorem fieldNamed_of_mem {e : String × F} (hnames : (es.map Prod.fst).Nodup) (he : e ∈ es) :
    fieldNamed (es.map fun f => (some f.1, f.2)) e.1 = some (some e.2) := by
  rw [fieldNamed, filter_named hnames he]

theorem named_eq {ms : List (Option String × F)} (hlen : names.length = xs.length)
    (hfield : ∀ e ∈ names.zip xs, fieldNamed ms e.1 = some (some e.2)) :
    named names ms = some (xs.map some) := by
  have hkeys : (names.zip xs).map Prod.fst = names := List.map_fst_zip (Nat.le_of_eq hlen)
  have hvalues : (names.zip xs).map Prod.snd = xs := List.map_snd_zip (Nat.le_of_eq hlen.symm)
  rw [named, mapM_eq_some_iff]
  calc names.map (fieldNamed ms)
      = ((names.zip xs).map Prod.fst).map (fieldNamed ms) := by rw [hkeys]
    _ = ((names.zip xs).map Prod.snd).map fun x => some (some x) := by
        rw [List.map_map, List.map_map]
        exact List.map_congr_left hfield
    _ = (xs.map some).map some := by
        rw [hvalues, List.map_map]
        rfl

end Named

namespace Json

theorem record?_members {names : List String} {xs : List Json} (hnames : names.Nodup)
    (hlen : names.length = xs.length) :
    Input.record? names (members (names.zip xs)) = some (xs.map some) := by
  have hall : ((names.zip xs).map fun e => (some e.1, e.2)).all (·.1.isSome) = true := by
    simp
  have hkeys : ((names.zip xs).map Prod.fst).Nodup := by
    rw [List.map_fst_zip (Nat.le_of_eq hlen)]
    exact hnames
  simp only [Input.record?, members]
  rw [if_pos hall]
  exact named_eq hlen fun e he => fieldNamed_of_mem hkeys he

instance : Faithful Json Json where
  view _ j := j
  Kept _ := Plain
  kept_int _ _ := .int
  kept_text _ := .text
  kept_list := .array
  kept_record := .members
  kept_unit _ := .text
  kept_variant name h := by
    apply Plain.members
    intro e he
    rw [List.mem_singleton.1 he]
    exact .members h
  int?_view _ _ := rfl
  text?_view _ _ := rfl
  list?_view _ xs := congrArg some (List.map_id' xs).symm
  record?_view _ _ _ := record?_members
  variant?_view _ _ _ fields _ := by cases fields <;> rfl

end Json

/-- A faithful format that also gives back maps, and in which what is missing is not taken for
text. -/
class FaithfulMaps (F G : Type) [Output F] [Input G] extends Faithful F G where
  kept_dict {levels : Nat} {es : List (String × F)} : (∀ e ∈ es, Kept levels e.2) →
    Kept (levels + 1) (Output.dict es)
  kept_nothing (levels : Nat) : Kept levels Output.nothing
  dict?_view (room : Nat) (es : List (String × F)) :
    Input.dict? (view (room + 1) (Output.dict es)) = some (es.map fun e => (e.1, view room e.2))
  isNothing_nothing (room : Nat) : Input.isNothing (view room Output.nothing) = true
  isNothing_text (room : Nat) (s : String) :
    Input.isNothing (view room (Output.text s)) = false

instance : FaithfulMaps Json Json where
  kept_dict := Json.Plain.members
  kept_nothing _ := .null
  dict?_view _ es :=
    (mapM_map fun _ _ => rfl : (es.map fun (k, v) => (some k, v)).mapM Json.keyed? = some es).trans
      (congrArg some (List.map_id' es).symm)
  isNothing_nothing _ := rfl
  isNothing_text _ _ := rfl

instance : FaithfulMaps Pack Pack.Limited where
  kept_dict h := by
    apply Pack.Plain.map
    · intro e he
      obtain ⟨f, -, rfl⟩ := List.mem_map.1 he
      exact .text _
    · intro e he
      obtain ⟨f, hf, rfl⟩ := List.mem_map.1 he
      exact h f hf
  kept_nothing _ := .nil
  dict?_view room es := by
    have hkeyed : ∀ e ∈ es, Pack.Limited.keyed? room (Pack.ofText e.1, e.2) =
        some (e.1, { pack := e.2, room }) := by
      intro e _
      rw [Pack.Limited.keyed?, Pack.text?_ofText, Option.map_some]
    have hentries : (es.map fun e => (Pack.ofText e.1, e.2)).mapM (Pack.Limited.keyed? room) =
        some (es.map fun e => (e.1, { pack := e.2, room })) := by
      rw [mapM_eq_some_iff, List.map_map, List.map_map]
      exact List.map_congr_left hkeyed
    exact hentries
  isNothing_nothing _ := rfl
  isNothing_text _ _ := rfl

namespace Codec

open Faithful FaithfulMaps

variable {F G : Type} [Output F] [Input G] [FaithfulMaps F G] {α : Type} {c : Codec α}
  {levels : Nat}

theorem Returns.dict {d : Dict String α} (h : ∀ e ∈ d.toList, c.Returns F G levels e.2) :
    (dict c).Returns F G (levels + 1) d where
  kept := by
    apply kept_dict
    intro x hx
    obtain ⟨e, he, rfl⟩ := List.mem_map.1 hx
    exact (h e he).kept
  reads room hroom := by
    obtain ⟨room, rfl⟩ := Nat.exists_eq_add_of_le' (Nat.le_of_add_left_le hroom)
    have hvalues : (d.toList.map fun e => (e.1, (view room (c.write e.2 : F) : G))).mapM
        (fun e => (c.read e.2).map (e.1, ·)) = some d.toList := by
      refine mapM_map fun e he => ?_
      rw [(h e he).reads room (by omega), Option.map_some]
    simp only [Codec.dict, dict?_view, List.map_map, Option.bind_some]
    exact (congrArg (Option.map Dict.ofList) hvalues).trans (congrArg some d.ofList_toList)

theorem returns_names (d : Dict String Unit) : names.Returns F G (levels + 1) d := by
  refine Returns.convert (Returns.list fun s _ => returns_text s) rfl ?_
  have hentries : d.keys.map (·, ()) = d.toList := by
    rw [Dict.keys, List.map_map]
    exact List.map_id' _
  rw [hentries, Dict.ofList_toList]

theorem returns_optionText (s : Option String) : (option text).Returns F G levels s where
  kept := by
    cases s with
    | none => exact kept_nothing levels
    | some s => exact kept_text levels s
  reads room _ := by
    cases s with
    | none => simp only [option, isNothing_nothing, if_true]
    | some s =>
        simp only [option, text, isNothing_text, text?_view, Bool.false_eq_true, if_false,
          Option.map_some]

end Codec

theorem Codec.Returns.ofJson?_toJson {α : Type} {c : Codec α} {levels : Nat} {a : α}
    (h : c.Returns Json Json levels a) : c.ofJson? (c.toJson a) = some a := by
  rw [Codec.ofJson?, Codec.toJson, Json.parse_render h.kept, Option.bind_some]
  exact h.reads levels (Nat.le_refl _)

end Format

end Coordination
