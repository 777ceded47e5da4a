import Coordination.Proofs.FormatLaws
import Coordination.Proofs.RoundTrip

namespace Coordination

structure Stat.InRange (s : Stat) : Prop where
  czxid : s.czxid < 2 ^ 64
  mzxid : s.mzxid < 2 ^ 64
  pzxid : s.pzxid < 2 ^ 64
  ctime : -2 ^ 63 ≤ s.ctime ∧ s.ctime < 2 ^ 63
  mtime : -2 ^ 63 ≤ s.mtime ∧ s.mtime < 2 ^ 63
  version : -2 ^ 31 ≤ s.version ∧ s.version < 2 ^ 31
  cversion : -2 ^ 31 ≤ s.cversion ∧ s.cversion < 2 ^ 31
  owner : s.owner < 2 ^ 64
  dataLength : s.dataLength < 2 ^ 64
  numChildren : s.numChildren < 2 ^ 64

def Outcome.InRange : Outcome → Prop
  | .created _ s => s.InRange
  | .dataSet s => s.InRange
  | _ => True

def Node.InRange (n : Node) : Prop := n.stat.InRange

structure Tree.InRange (t : Tree) : Prop where
  nodes : ∀ e ∈ t.nodes.toList, e.2.InRange
  lastZxid : t.lastZxid < 2 ^ 64

structure Config.InRange (c : Config) : Prop where
  queueCapacity : c.queueCapacity < 2 ^ 64
  maxOps : c.maxOps < 2 ^ 64
  maxDataBytes : c.maxDataBytes < 2 ^ 64

namespace Format

inductive Serialized : {α : Type} → Codec α → α → Prop
  | op {o : Op} : o.InRange → Serialized opCodec o
  | outcome {o : Outcome} : o.InRange → Serialized outcomeCodec o
  | stat {s : Stat} : s.InRange → Serialized statCodec s
  | mode (m : CreateMode) : Serialized modeCodec m
  | refusal (r : Refusal) : Serialized refusalCodec r
  | eventKind (k : EventKind) : Serialized eventKindCodec k
  | event (e : Event) : Serialized eventCodec e
  | record {r : Record} : r.InRange → Serialized recordCodec r
  | durability (d : Durability) : Serialized durabilityCodec d
  | mask (m : Watch.Mask) : Serialized maskCodec m
  | handle {h : Watch.Handle} : h < 2 ^ 64 → Serialized handleCodec h
  | node {n : Node} : n.InRange → Serialized nodeCodec n
  | tree {t : Tree} : t.InRange → Serialized treeCodec t
  | config {c : Config} : c.InRange → Serialized configCodec c

section Faithful

variable {F G : Type} [Output F] [Input G] [Faithful F G] {levels : Nat}

theorem returns_stat {s : Stat} (h : s.InRange) : statCodec.Returns F G (levels + 1) s := by
  apply Codec.Returns.record _ _ rfl rfl
  · apply Fields.Returns.cons (returns_nat64 h.czxid)
    apply Fields.Returns.cons (returns_nat64 h.mzxid)
    apply Fields.Returns.cons (returns_nat64 h.pzxid)
    apply Fields.Returns.cons (returns_int64 h.ctime)
    apply Fields.Returns.cons (returns_int64 h.mtime)
    apply Fields.Returns.cons (returns_int32 h.version)
    apply Fields.Returns.cons (returns_int32 h.cversion)
    apply Fields.Returns.cons (returns_nat64 h.owner)
    apply Fields.Returns.cons (returns_nat64 h.dataLength)
    apply Fields.Returns.cons (returns_nat64 h.numChildren)
    exact Fields.returns_done
  · simp

theorem returns_refusal (r : Refusal) : refusalCodec.Returns F G levels r := by
  apply Codec.returns_choice
  · decide
  · cases r <;> decide

theorem returns_durability (d : Durability) : durabilityCodec.Returns F G levels d := by
  apply Codec.returns_choice
  · decide
  · cases d <;> decide

theorem returns_outcome {o : Outcome} (h : o.InRange) :
    outcomeCodec.Returns F G (levels + 3) o := by
  apply Codec.Returns.sum
  · simp [Case.fields, Case.unit]
  · -- as with operations, one of the cases returns the outcome
    simp only [List.forall_mem_cons]
    cases o with
    | created p s =>
        refine ⟨.inr ⟨_, Case.Returns.of_fields ?_ (by simp) _ rfl rfl⟩, .inl rfl, .inl rfl,
          .inl rfl, .inl rfl, by simp⟩
        apply Fields.Returns.cons (Codec.returns_text p)
        apply Fields.Returns.cons (returns_stat h)
        exact Fields.returns_done
    | deleted =>
        exact ⟨.inl rfl, .inr ⟨_, Case.returns_unit _ _⟩, .inl rfl, .inl rfl, .inl rfl, by simp⟩
    | dataSet s =>
        refine ⟨.inl rfl, .inl rfl, .inr ⟨_, Case.Returns.of_fields ?_ (by simp) _ rfl rfl⟩,
          .inl rfl, .inl rfl, by simp⟩
        apply Fields.Returns.cons (returns_stat h)
        exact Fields.returns_done
    | checked =>
        exact ⟨.inl rfl, .inl rfl, .inl rfl, .inr ⟨_, Case.returns_unit _ _⟩, .inl rfl, by simp⟩
    | refused r =>
        refine ⟨.inl rfl, .inl rfl, .inl rfl, .inl rfl,
          .inr ⟨_, Case.Returns.of_fields ?_ (by simp) _ rfl rfl⟩, by simp⟩
        apply Fields.Returns.cons (returns_refusal r)
        exact Fields.returns_done
  · cases o <;> exact Option.some_ne_none _

theorem returns_mask (m : Watch.Mask) : maskCodec.Returns F G levels m :=
  (Codec.returns_byte m.bits).convert rfl rfl

end Faithful

section FaithfulMaps

variable {F G : Type} [Output F] [Input G] [FaithfulMaps F G] {levels : Nat}

theorem returns_node {n : Node} (h : n.InRange) : nodeCodec.Returns F G (levels + 2) n := by
  apply Codec.Returns.record _ _ rfl rfl
  · apply Fields.Returns.cons (Codec.returns_bytes n.data)
    apply Fields.Returns.cons (returns_stat h)
    apply Fields.Returns.cons (Codec.returns_names n.children)
    exact Fields.returns_done
  · simp

theorem returns_tree {t : Tree} (h : t.InRange) : treeCodec.Returns F G (levels + 4) t := by
  apply Codec.Returns.record _ _ rfl rfl
  · apply Fields.Returns.cons (Codec.Returns.dict fun e he => returns_node (h.nodes e he))
    apply Fields.Returns.cons (returns_nat64 h.lastZxid)
    exact Fields.returns_done
  · simp

theorem returns_config {c : Config} (h : c.InRange) : configCodec.Returns F G (levels + 1) c := by
  apply Codec.Returns.record _ _ rfl rfl
  · apply Fields.Returns.cons (returns_nat64 h.queueCapacity)
    apply Fields.Returns.cons (returns_nat64 h.maxOps)
    apply Fields.Returns.cons (returns_nat64 h.maxDataBytes)
    apply Fields.Returns.cons (Codec.returns_optionText c.journalPath)
    apply Fields.Returns.cons (returns_durability c.durability)
    exact Fields.returns_done
  · simp

/-- No value of a store has more than five levels. -/
theorem Serialized.returns {α : Type} {c : Codec α} {a : α} (h : Serialized c a) :
    c.Returns F G 5 a := by
  cases h with
  | op h => exact returns_op h
  | outcome h => exact returns_outcome h
  | stat h => exact returns_stat h
  | mode m => exact returns_mode m
  | refusal r => exact returns_refusal r
  | eventKind k => exact returns_eventKind k
  | event e => exact returns_event e
  | record h => exact returns_record h
  | durability d => exact returns_durability d
  | mask m => exact returns_mask m
  | handle h => exact returns_nat64 h
  | node h => exact returns_node h
  | tree h => exact returns_tree h
  | config h => exact returns_config h

end FaithfulMaps

/-- A value is what its text is read as. It is also what its bytes are read as, whatever follows
them, as long as the format has room for its lengths. -/
theorem read_back {α : Type} {c : Codec α} {a : α} (h : Serialized c a) :
    c.ofJson? (c.toJson a) = some a ∧
      ((c.write a : Pack).sized = true → ∀ rest, c.ofBytes? (c.toBytes a ++ rest) = some a) :=
  ⟨h.returns.ofJson?_toJson, fun hsized rest =>
    h.returns.ofBytes?_sized (by decide) hsized rest⟩

def extremeNode : Node :=
  { data := [0, 127, 128, 255]
    stat := { czxid := 18446744073709551615, mzxid := 0, pzxid := 4294967296
              ctime := -9223372036854775808, mtime := 9223372036854775807
              version := 2147483647, cversion := -2147483648, owner := 18446744073709551615
              dataLength := 4, numChildren := 1 }
    children := Dict.empty.insert "\\\"" () }

def extremeTree : Tree :=
  { nodes := Tree.initial.nodes.insert "/ä\n" extremeNode, lastZxid := 18446744073709551615 }

theorem read_back_extremes :
    treeCodec.ofJson? (treeCodec.toJson extremeTree) = some extremeTree ∧
      treeCodec.ofBytes? (treeCodec.toBytes extremeTree ++ [0xc1]) = some extremeTree := by
  have hnodes : extremeTree.nodes.toList =
      [("/", Node.create [] 0 0 0), ("/ä\n", extremeNode)] := by decide +kernel
  have hroot : (Node.create [] 0 0 0).InRange := by
    constructor <;> decide
  have hnode : extremeNode.InRange := by
    constructor <;> decide
  have hrange : extremeTree.InRange := by
    refine ⟨?_, by decide⟩
    rw [hnodes]
    simp [hroot, hnode]
  obtain ⟨hjson, hbytes⟩ := read_back (.tree hrange)
  exact ⟨hjson, hbytes (by decide +kernel) [0xc1]⟩

namespace Pack

variable {name path after : String} {n : Nat}

theorem read_text {s : String} (h : (ofText s).sized = true) (depth : Nat) (rest : Bytes) :
    read depth ((ofText s).encode ++ rest) = some (ofText s, rest) :=
  read_sized (.text (utf8 s)) h rest

/-- The head in front of 2 ^ 32 zeros announces none, and so the first of them is taken for the item
after the array. -/
theorem read_zeros (hn : n = 2 ^ 32) (hpath : (ofText path).sized = true) (depth : Nat)
    (rest : Bytes) :
    read (depth + 2) (arrayHead 3 ++ ((ofText path).encode ++
        (arrayHead n ++ ((unsigned 0).encode ++ rest)))) =
      some (.array [ofText path, .array [], .unsigned 0], rest) := by
  have hnone : n % 2 ^ 32 = 0 := by rw [hn, Nat.mod_self]
  have hempty (rest : Bytes) : read (depth + 1) (arrayHead n ++ rest) = some (.array [], rest) := by
    rw [read_array (hnone ▸ begins_array_mod n), readItems]
    rfl
  have hzero (rest : Bytes) :
      read (depth + 1) ((unsigned 0).encode ++ rest) = some (.unsigned 0, rest) :=
    read_sized (.unsigned (by decide)) rfl rest
  rw [read_array (begins_array (by decide))]
  simp only [readItems, read_text hpath, hempty, hzero]
  rfl

theorem decode_zeros (hn : n = 2 ^ 32) (hname : (ofText name).sized = true)
    (hpath : (ofText path).sized = true) (rest : Bytes) :
    decode (encode (.map [(ofText name, .array [ofText path,
        .array (List.replicate n (.unsigned 0)), ofText after])]) ++ rest) =
      some (.map [(ofText name, .array [ofText path, .array [], .unsigned 0])]) := by
  obtain ⟨m, rfl⟩ : ∃ m, n = m + 1 := ⟨2 ^ 32 - 1, by omega⟩
  have hencode : encode (.map [(ofText name, .array [ofText path,
      .array (List.replicate (m + 1) (.unsigned 0)), ofText after])]) ++ rest =
      mapHead 1 ++ ((ofText name).encode ++ (arrayHead 3 ++ ((ofText path).encode ++
        (arrayHead (m + 1) ++ ((unsigned 0).encode ++
          ((List.replicate m (.unsigned 0)).flatMap encode ++
            ((ofText after).encode ++ rest))))))) := by
    simp only [encode_map, encode_array, List.replicate_succ, List.flatMap_cons, List.flatMap_nil,
      List.length_cons, List.length_replicate, List.length_nil, List.append_nil, List.append_assoc]
  have hdepth : 2 * maxDepth = 2044 + 2 := rfl
  rw [hencode, decode, read_map (begins_map (by decide))]
  simp only [readEntries, read_text hname]
  rw [hdepth, read_zeros hn hpath]
  rfl

end Pack

/-- A length that four bytes do not hold: the data is taken for none, and the first of it for the
mode. -/
theorem read_back_wrapped :
    ∃ data : Bytes, data.length = 2 ^ 32 ∧ (∀ b ∈ data, b = 0) ∧
      Serialized opCodec (.create "/a" data .persistent) ∧
      ∀ rest, opCodec.ofBytes? (opCodec.toBytes (.create "/a" data .persistent) ++ rest) =
          some (.create "/a" [] .persistent) ∧
        opCodec.ofBytes? (opCodec.toBytes (.create "/a" data .persistent) ++ rest) ≠
          some (.create "/a" data .persistent) := by
  obtain ⟨n, hn⟩ : ∃ n, n = 2 ^ 32 := ⟨_, rfl⟩
  have hwrite : (opCodec.write (.create "/a" (List.replicate n 0) .persistent) : Pack) =
      .map [(Pack.ofText "Create", .array [Pack.ofText "/a",
        .array (List.replicate n (.unsigned 0)), Pack.ofText "Persistent"])] := by
    have hbytes : (List.replicate n (0 : UInt8)).map (fun b => Pack.unsigned b.toNat) =
        List.replicate n (.unsigned 0) := List.map_replicate
    rw [← hbytes]
    rfl
  have hread (rest : Bytes) :
      opCodec.ofBytes? (opCodec.toBytes (.create "/a" (List.replicate n 0) .persistent) ++ rest) =
        some (.create "/a" [] .persistent) := by
    rw [Codec.ofBytes?, Codec.toBytes, hwrite, Pack.decode_zeros hn (by decide) (by decide),
      Option.bind_some]
    decide +kernel
  refine ⟨List.replicate n 0, by rw [List.length_replicate, hn], fun b => List.eq_of_mem_replicate,
    .op trivial, fun rest => ⟨hread rest, ?_⟩⟩
  rw [hread]
  intro hsame
  have hdata := (Op.create.inj (Option.some.inj hsame)).2.1
  have hlength := congrArg List.length hdata
  rw [List.length_replicate, hn] at hlength
  cases hlength

end Format

end Coordination
