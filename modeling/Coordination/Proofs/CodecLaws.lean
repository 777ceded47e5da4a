import Coordination.Proofs.PackReading

/-!
What a codec writes in a format that reads what it writes is read back by it (`Codec.Returns`): one
law for each way to build a codec, so that a codec of values inherits it from its description.
-/

namespace Coordination.Format

/-- A format that reads what it writes. A written value is met by reading with room for a number of
levels in it, and the levels that it has are counted the same way. -/
class Faithful (F G : Type) [Output F] [Input G] where
  view : Nat → F → G
  Kept : Nat → F → Prop
  kept_int (levels : Nat) {i : Int} : -2 ^ 63 ≤ i → i < 2 ^ 64 → Kept levels (Output.int i)
  kept_text (levels : Nat) (s : String) : Kept levels (Output.text s)
  kept_list {levels : Nat} {xs : List F} : (∀ x ∈ xs, Kept levels x) →
    Kept (levels + 1) (Output.list xs)
  kept_record {levels : Nat} {es : List (String × F)} : (∀ e ∈ es, Kept levels e.2) →
    Kept (levels + 1) (Output.record es)
  kept_unit (levels : Nat) (name : String) : Kept levels (Output.variant name none)
  kept_variant {levels : Nat} {es : List (String × F)} (name : String) :
    (∀ e ∈ es, Kept levels e.2) → Kept (levels + 2) (Output.variant name (some es))
  int?_view (room : Nat) (i : Int) : Input.int? (view room (Output.int i)) = some i
  text?_view (room : Nat) (s : String) : Input.text? (view room (Output.text s)) = some s
  list?_view (room : Nat) (xs : List F) :
    Input.list? (view (room + 1) (Output.list xs)) = some (xs.map (view room))
  record?_view (room : Nat) {names : List String} {xs : List F} :
    names.Nodup → names.length = xs.length →
      Input.record? names (view (room + 1) (Output.record (names.zip xs))) =
        some (xs.map fun x => some (view room x))
  variant?_view (room : Nat) {names : List String} {name : String}
    (fields : Option (List (String × F))) : name ∈ names →
      Input.variant? names (view room (Output.variant name fields)) =
        some (name, fields.map fun es => view room (Output.record es))

variable (F G : Type) [Output F] [Input G] [Faithful F G] {α β : Type} {levels : Nat} {a : α}
  {b : β}

open Faithful

structure Codec.Returns (c : Codec α) (levels : Nat) (a : α) : Prop where
  kept : Kept G levels (c.write a : F)
  reads : ∀ room, levels ≤ room → c.read (view room (c.write a : F) : G) = some a

structure Fields.Returns (fs : Fields α) (levels : Nat) (a : α) : Prop where
  length : fs.names.length = (fs.write a : List F).length
  kept : ∀ x ∈ (fs.write a : List F), Kept G levels x
  reads : ∀ room, levels ≤ room →
    fs.read ((fs.write a : List F).map fun x => some (view room x : G)) = some a

structure Case.Returns (k : Case α) (levels : Nat) (a : α)
    (fields : Option (List (String × F))) : Prop where
  writes : k.write a = some fields
  kept : Kept G levels (Output.variant k.name fields : F)
  reads : ∀ room, levels ≤ room →
    k.read (fields.map fun es => (view room (Output.record es : F) : G)) = some a

namespace Fields

variable {F G} {fs : Fields β}

@[simp]
theorem names_done : done.names = [] := rfl

@[simp]
theorem names_cons (name : String) (c : Codec α) (absent : Option α) :
    (cons name c absent fs).names = name :: fs.names := rfl

theorem returns_done : done.Returns F G levels () :=
  ⟨rfl, fun _ hx => absurd hx List.not_mem_nil, fun _ _ => rfl⟩

theorem Returns.cons {c : Codec α} (ha : c.Returns F G levels a) (hb : fs.Returns F G levels b)
    (name : String) (absent : Option α) : (cons name c absent fs).Returns F G levels (a, b) where
  length := congrArg Nat.succ hb.length
  kept x hx := by
    rcases List.mem_cons.1 hx with rfl | hx
    · exact ha.kept
    · exact hb.kept x hx
  reads room hroom := by
    simp only [Fields.cons, List.map_cons, ha.reads room hroom, hb.reads room hroom]

theorem Returns.kept_tagged (h : fs.Returns F G levels b) :
    ∀ e ∈ (fs.tagged b : List (String × F)), Kept G levels e.2 :=
  fun _ he => h.kept _ (List.of_mem_zip he).2

theorem Returns.read_record (h : fs.Returns F G levels b) (hnames : fs.names.Nodup) {room : Nat}
    (hroom : levels + 1 ≤ room) :
    (Input.record? fs.names (view room (Output.record (fs.tagged b) : F) : G)).bind fs.read =
      some b := by
  obtain ⟨room, rfl⟩ := Nat.exists_eq_add_of_le' (Nat.le_of_add_left_le hroom)
  rw [tagged, record?_view room hnames h.length, Option.bind_some]
  exact h.reads room (by omega)

end Fields

namespace Case

variable {F G}

theorem returns_unit [DecidableEq α] (name : String) (a : α) :
    (unit name a).Returns F G levels a none where
  writes := by simp [unit]
  kept := kept_unit levels name
  reads _ _ := rfl

theorem Returns.of_fields {fs : Fields β} (h : fs.Returns F G levels b) (hnames : fs.names.Nodup)
    (name : String) {of : β → α} {parts : α → Option β} (hparts : parts a = some b)
    (hof : of b = a) :
    (Case.fields name fs of parts).Returns F G (levels + 2) a (some (fs.tagged b)) where
  writes := by simp [Case.fields, hparts]
  kept := kept_variant name h.kept_tagged
  reads room hroom := by
    simp only [Case.fields, Option.map_some, h.read_record hnames (Nat.le_of_succ_le hroom), hof]

end Case

namespace Codec

variable {F G} {c : Codec α}

theorem Returns.convert (h : c.Returns F G levels a) {of : α → β} {back : β → α}
    (hback : back b = a) (hof : of a = b) : (c.convert of back).Returns F G levels b where
  kept := by
    simp only [Codec.convert, hback]
    exact h.kept
  reads room hroom := by
    simp only [Codec.convert, hback, h.reads room hroom, Option.map_some, hof]

theorem returns_int {low high i : Int} (hlow : -2 ^ 63 ≤ low) (hhigh : high < 2 ^ 64)
    (hi : low ≤ i ∧ i ≤ high) : (int low high).Returns F G levels i where
  kept := kept_int levels (Int.le_trans hlow hi.1) (Int.lt_of_le_of_lt hi.2 hhigh)
  reads room _ := by
    simp only [int, int?_view, Option.filter_some, hi, and_self, decide_true, if_true]

theorem returns_nat {limit n : Nat} (hlimit : limit ≤ 2 ^ 64) (hn : n < limit) :
    (nat limit).Returns F G levels n :=
  (returns_int (i := n) (by decide) (by omega) (by omega)).convert rfl rfl

theorem returns_byte (b : UInt8) : byte.Returns F G levels b :=
  (returns_nat (by decide) b.toNat_lt).convert rfl UInt8.ofNat_toNat

theorem returns_text (s : String) : text.Returns F G levels s :=
  ⟨kept_text levels s, fun room _ => text?_view room s⟩

theorem Returns.list {as : List α} (h : ∀ a ∈ as, c.Returns F G levels a) :
    (list c).Returns F G (levels + 1) as where
  kept := by
    apply kept_list
    intro x hx
    obtain ⟨a, ha, rfl⟩ := List.mem_map.1 hx
    exact (h a ha).kept
  reads room hroom := by
    obtain ⟨room, rfl⟩ := Nat.exists_eq_add_of_le' (Nat.le_of_add_left_le hroom)
    have hitems : (as.map fun a => (view room (c.write a : F) : G)).mapM c.read = some as :=
      mapM_map fun a ha => (h a ha).reads room (by omega)
    simp only [Codec.list, list?_view, Option.bind_some, List.map_map]
    exact hitems

theorem returns_bytes (bs : Bytes) : bytes.Returns F G (levels + 1) bs :=
  Returns.list fun b _ => returns_byte b

theorem Returns.record {fs : Fields β} (h : fs.Returns F G levels b) (hnames : fs.names.Nodup)
    {of : β → α} {parts : α → β} (hparts : parts a = b) (hof : of b = a) :
    (record fs of parts).Returns F G (levels + 1) a where
  kept := by
    simp only [Codec.record, hparts]
    exact kept_record h.kept_tagged
  reads room hroom := by
    simp only [Codec.record, hparts, h.read_record hnames hroom, Option.map_some, hof]

theorem exists_writeCase {cases : List (Case α)}
    (hall : ∀ k ∈ cases, (k.write a : Option (Option (List (String × F)))) = none ∨
      ∃ fields, k.Returns F G levels a fields)
    (hsome : cases.findSome? (fun k => (k.write a : Option (Option (List (String × F))))) ≠ none) :
    ∃ k ∈ cases, ∃ fields, k.Returns F G levels a fields ∧
      writeCase a cases = (Output.variant k.name fields : F) := by
  induction cases with
  | nil => exact absurd rfl hsome
  | cons k ks ih =>
      rcases hall k (by simp) with hnone | ⟨fields, hk⟩
      · rw [List.findSome?_cons, hnone] at hsome
        obtain ⟨k', hk', fields, hreturns, hwrite⟩ :=
          ih (fun k' hk' => hall k' (by simp [hk'])) hsome
        exact ⟨k', by simp [hk'], fields, hreturns, by simp only [writeCase, hnone, hwrite]⟩
      · exact ⟨k, by simp, fields, hk, by simp only [writeCase, hk.writes]⟩

theorem find?_name {cases : List (Case α)} (hnames : (cases.map Case.name).Nodup) {k : Case α}
    (hk : k ∈ cases) : cases.find? (·.name == k.name) = some k := by
  induction cases with
  | nil => cases hk
  | cons k' ks ih =>
      rw [List.map_cons, List.nodup_cons] at hnames
      rcases List.mem_cons.1 hk with rfl | hk
      · simp
      · have hne : k'.name ≠ k.name := fun he => hnames.1 (he ▸ List.mem_map_of_mem hk)
        simp only [List.find?_cons, beq_eq_false_iff_ne.2 hne, ih hnames.2 hk]

theorem Returns.sum {cases : List (Case α)} (hnames : (cases.map Case.name).Nodup)
    (hall : ∀ k ∈ cases, (k.write a : Option (Option (List (String × F)))) = none ∨
      ∃ fields, k.Returns F G levels a fields)
    (hsome : cases.findSome? (fun k => (k.write a : Option (Option (List (String × F))))) ≠ none) :
    (sum cases).Returns F G levels a := by
  obtain ⟨k, hk, fields, hreturns, hwrite⟩ := exists_writeCase hall hsome
  constructor
  · simp only [Codec.sum, hwrite]
    exact hreturns.kept
  · intro room hroom
    simp only [Codec.sum, hwrite, variant?_view room fields (List.mem_map_of_mem hk),
      find?_name hnames hk, hreturns.reads room hroom]

theorem returns_choice [DecidableEq α] {cases : List (String × α)}
    (hnames : (cases.map Prod.fst).Nodup) (ha : a ∈ cases.map Prod.snd) :
    (choice cases).Returns F G levels a := by
  apply Returns.sum
  · rw [List.map_map]
    exact hnames
  · intro k hk
    obtain ⟨⟨name, b⟩, -, rfl⟩ := List.mem_map.1 hk
    by_cases hab : a = b
    · exact .inr ⟨none, hab ▸ Case.returns_unit name a⟩
    · exact .inl (if_neg hab)
  · obtain ⟨⟨name, b⟩, hmem, rfl⟩ := List.mem_map.1 ha
    intro hnone
    have hwrites := List.findSome?_eq_none_iff.1 hnone _ (List.mem_map_of_mem hmem)
    simp only [Case.unit, if_true] at hwrites
    cases hwrites

end Codec

namespace Pack

theorem ofUtf8?_utf8 (s : String) : ofUtf8? (utf8 s) = some s := by
  have hbytes : (⟨(utf8 s).toArray⟩ : ByteArray) = s.toUTF8 := by
    rw [utf8, Array.toArray_toList]
  rw [ofUtf8?, hbytes, String.fromUTF8?]
  exact dif_pos s.isValidUTF8

theorem text?_ofText (s : String) : text? (ofText s) = some s := ofUtf8?_utf8 s

theorem utf8_inj {s t : String} (h : utf8 s = utf8 t) : s = t :=
  Option.some.inj ((ofUtf8?_utf8 s).symm.trans (h ▸ ofUtf8?_utf8 t))

theorem name?_ofText {names : List String} {name : String} (h : name ∈ names) :
    name? names (ofText name) = some (some name) := by
  induction names with
  | nil => cases h
  | cons n ns ih =>
      by_cases hn : n = name
      · simp [name?, ofText, hn]
      · have hne : (utf8 n == utf8 name) = false := by
          rw [beq_eq_false_iff_ne]
          exact fun he => hn (utf8_inj he)
        have hrest := ih ((List.mem_cons.1 h).resolve_left (Ne.symm hn))
        simp only [name?, ofText, List.find?_cons, hne] at hrest ⊢
        exact hrest

theorem plain_int (depth : Nat) {i : Int} (hlow : -2 ^ 63 ≤ i) (hhigh : i < 2 ^ 64) :
    Plain depth (int i) := by
  unfold int
  split <;> rename_i hsign
  · exact .unsigned (by omega)
  · exact .signed hlow (Int.not_le.1 hsign)

theorem plain_fields {depth : Nat} {es : List (String × Pack)} (h : ∀ e ∈ es, Plain depth e.2) :
    Plain (depth + 1) (.array (es.map (·.2))) := by
  apply Plain.array
  intro p hp
  obtain ⟨e, he, rfl⟩ := List.mem_map.1 hp
  exact h e he

instance : Faithful Pack Limited where
  view room p := { pack := p, room }
  Kept := Plain
  kept_int := plain_int
  kept_text _ s := .text (utf8 s)
  kept_list h := .array h
  kept_record := plain_fields
  kept_unit _ name := .text (utf8 name)
  kept_variant name h := by
    apply Plain.map
    · intro e he
      rw [List.mem_singleton.1 he]
      exact .text (utf8 name)
    · intro e he
      rw [List.mem_singleton.1 he]
      exact plain_fields h
  int?_view room i := by
    by_cases hsign : 0 ≤ i
    · have hword : (Output.int i : Pack) = .unsigned i.toNat := if_pos hsign
      rw [hword]
      exact congrArg some (Int.toNat_of_nonneg hsign)
    · have hword : (Output.int i : Pack) = .signed i := if_neg hsign
      rw [hword]
      rfl
  text?_view _ s := text?_ofText s
  list?_view _ _ := rfl
  record?_view room names xs _ hlen := by
    have hfields : (Output.record (names.zip xs) : Pack) = .array xs :=
      congrArg Pack.array (List.map_snd_zip (Nat.le_of_eq hlen.symm))
    rw [hfields]
    simp [Input.record?, positional, hlen]
  variant?_view room names name fields h := by
    have hname := name?_ofText h
    cases fields with
    | none =>
        rw [ofText] at hname
        simp only [Input.variant?, Output.variant, ofText, hname, Option.bind_some, Option.map_some,
          Option.map_none]
    | some es =>
        simp only [Input.variant?, Output.variant, hname, Option.bind_some, Option.map_some]
        rfl

end Pack

theorem Codec.Returns.ofBytes?_sized {c : Codec α} (h : c.Returns Pack Pack.Limited levels a)
    (hlevels : levels ≤ Pack.maxDepth) (hsized : (c.write a : Pack).sized = true) (rest : Bytes) :
    c.ofBytes? (c.toBytes a ++ rest) = some a := by
  have hplain : Pack.Plain (2 * Pack.maxDepth + 1) (c.write a) :=
    h.kept.mono (by omega)
  rw [Codec.ofBytes?, Codec.toBytes, Pack.decode_sized hplain hsized, Option.bind_some]
  exact h.reads Pack.maxDepth hlevels

theorem Codec.Returns.ofBytes?_toBytes {c : Codec α} (h : c.Returns Pack Pack.Limited levels a)
    (hlevels : levels ≤ Pack.maxDepth) (hlen : (c.toBytes a).length < 2 ^ 32) (rest : Bytes) :
    c.ofBytes? (c.toBytes a ++ rest) = some a :=
  h.ofBytes?_sized hlevels (h.kept.sized hlen) rest

end Coordination.Format
