import Coordination.Proofs.Numbering
import Coordination.Proofs.Submission

/-!
Answers to a batch, position by position. An accepted batch has one outcome for each operation, of
its kind; a rejected one has the cause at the operation that was refused and `aborted` everywhere
else (`result_lists`). Which operation is refused rests on what comes before it alone. It does not
even depend on who submits the batch and when, because no check looks at that
(`Draft.accept_shapes`).
-/

namespace Coordination

open Journal (Sink)

theorem map_eq_cases {ε α β γ : Type} {x : Except ε α} {y : Except ε β} {f : α → γ} {g : β → γ}
    (h : x.map f = y.map g) :
    (∃ e, x = .error e ∧ y = .error e) ∨ ∃ a b, x = .ok a ∧ y = .ok b ∧ f a = g b := by
  cases x with
  | error e =>
      cases y with
      | error e' => exact .inl ⟨e, rfl, congrArg Except.error (Except.error.inj h).symm⟩
      | ok b => cases h
  | ok a =>
      cases y with
      | error e' => cases h
      | ok b => exact .inr ⟨a, b, rfl, rfl, Except.ok.inj h⟩

/-- What the checks look at in a node. -/
structure Shape where
  version : Version
  cversion : Version
  children : Dict String Unit

namespace Node

variable {n n' : Node}

def shape (n : Node) : Shape :=
  { version := n.stat.version, cversion := n.stat.cversion, children := n.children }

theorem shape_create (data : Bytes) (z z' : Zxid) (time time' : Time) (owner owner' : SessionId) :
    (create data z time owner).shape = (create data z' time' owner').shape := rfl

theorem shape_withChildren (h : n.shape = n'.shape) (children : Dict String Unit) (z z' : Zxid) :
    (n.withChildren children z).shape = (n'.withChildren children z').shape := by
  simp only [shape, Shape.mk.injEq] at h ⊢
  obtain ⟨hversion, hcversion, -⟩ := h
  exact ⟨hversion, congrArg Version.next hcversion, rfl⟩

theorem children_eq (h : n.shape = n'.shape) : n.children = n'.children :=
  congrArg Shape.children h

theorem shape_link (h : n.shape = n'.shape) (name : String) (z z' : Zxid) :
    (n.link name z).shape = (n'.link name z').shape := by
  rw [link, link, children_eq h]
  exact shape_withChildren h _ z z'

theorem shape_unlink (h : n.shape = n'.shape) (name : String) (z z' : Zxid) :
    (n.unlink name z).shape = (n'.unlink name z').shape := by
  rw [unlink, unlink, children_eq h]
  exact shape_withChildren h _ z z'

theorem shape_setData (h : n.shape = n'.shape) (data : Bytes) (z z' : Zxid) (time time' : Time) :
    (n.setData data z time).shape = (n'.setData data z' time').shape := by
  simp only [shape, Shape.mk.injEq] at h ⊢
  obtain ⟨hversion, hcversion, hchildren⟩ := h
  exact ⟨congrArg Version.next hversion, hcversion, hchildren⟩

theorem admits_eq (h : n.shape = n'.shape) (version : Version) :
    n.stat.admits version = n'.stat.admits version := by
  have hversion : n.stat.version = n'.stat.version := congrArg Shape.version h
  rw [Stat.admits, Stat.admits, hversion]

theorem hasChildren_eq (h : n.shape = n'.shape) : n.hasChildren = n'.hasChildren := by
  rw [hasChildren, hasChildren, children_eq h]

end Node

namespace Draft

variable {d d' : Draft} {s s' : Stamp} {op : Op} {p r : String}

def shapes (d : Draft) : String → Option Shape := fun p => (d.resolve p).map Node.shape

theorem shapes_cases (h : d.shapes = d'.shapes) (p : String) :
    (d.resolve p = none ∧ d'.resolve p = none) ∨
      ∃ n n', d.resolve p = some n ∧ d'.resolve p = some n' ∧ n.shape = n'.shape := by
  have hp : (d.resolve p).map Node.shape = (d'.resolve p).map Node.shape := congrFun h p
  cases hn : d.resolve p <;> cases hn' : d'.resolve p <;> simp_all

theorem isLive_shapes (h : d.shapes = d'.shapes) (p : String) : d.isLive p = d'.isLive p := by
  rcases shapes_cases h p with ⟨hn, hn'⟩ | ⟨n, n', hn, hn', -⟩
  · rw [isLive, isLive, hn, hn']
  · rw [isLive, isLive, hn, hn']
    rfl

section Changed

theorem shapes_put (h : d.shapes = d'.shapes) {n n' : Option Node}
    (hn : n.map Node.shape = n'.map Node.shape) : (d.put p n).shapes = (d'.put p n').shapes := by
  funext q
  simp only [shapes, resolve_put]
  split
  · exact hn
  · exact congrFun h q

theorem shapes_modifyParent (h : d.shapes = d'.shapes) {f f' : Node → Node}
    (hf : ∀ n n' : Node, n.shape = n'.shape → (f n).shape = (f' n').shape) :
    (d.modifyParent p f).shapes = (d'.modifyParent p f').shapes := by
  funext q
  simp only [shapes, resolve_modifyParent]
  split
  · rcases shapes_cases h q with ⟨hn, hn'⟩ | ⟨n, n', hn, hn', hshape⟩
    · rw [hn, hn']
      rfl
    · rw [hn, hn']
      exact congrArg some (hf n n' hshape)
  · exact congrFun h q

theorem shapes_create (h : d.shapes = d'.shapes) {n n' : Node} (hn : n.shape = n'.shape)
    (z z' : Zxid) : (d.create p n z).shapes = (d'.create p n' z').shapes :=
  shapes_put (shapes_modifyParent h fun _ _ hm => Node.shape_link hm _ z z') (congrArg some hn)

theorem shapes_delete (h : d.shapes = d'.shapes) (z z' : Zxid) :
    (d.delete p z).shapes = (d'.delete p z').shapes :=
  shapes_modifyParent (shapes_put h rfl) fun _ _ hm => Node.shape_unlink hm _ z z'

end Changed

theorem target_shapes (h : d.shapes = d'.shapes) (r : String) (mode : CreateMode) :
    d.target r mode = d'.target r mode := by
  unfold target
  cases hq : Path.parent? r with
  | none => rfl
  | some q =>
      rcases shapes_cases h q with ⟨hn, hn'⟩ | ⟨n, n', hn, hn', hshape⟩
      · simp only [hn, hn']
      · have hcversion : n.stat.cversion = n'.stat.cversion := congrArg Shape.cversion hshape
        simp only [hn, hn', hcversion]

theorem acceptCreateAt_shapes (h : d.shapes = d'.shapes) (p : String) (data : Bytes)
    (ephemeral : Bool) :
    (d.acceptCreateAt s p data ephemeral).map (·.draft.shapes) =
      (d'.acceptCreateAt s' p data ephemeral).map (·.draft.shapes) := by
  simp only [acceptCreateAt, isLive_shapes h]
  split
  · rfl
  · cases Path.parent? p with
    | none => rfl
    | some q =>
        dsimp only
        split
        · exact congrArg Except.ok (shapes_create h (Node.shape_create ..) s.zxid s'.zxid)
        · rfl

theorem acceptDelete_shapes (h : d.shapes = d'.shapes) (p : String) (version : Version) :
    (d.acceptDelete s p version).map (·.draft.shapes) =
      (d'.acceptDelete s' p version).map (·.draft.shapes) := by
  unfold acceptDelete
  split
  · rfl
  · rcases shapes_cases h p with ⟨hn, hn'⟩ | ⟨n, n', hn, hn', hshape⟩
    · rw [hn, hn']
    · simp only [hn, hn', Node.hasChildren_eq hshape, Node.admits_eq hshape]
      split
      · rfl
      · split
        · exact congrArg Except.ok (shapes_delete h s.zxid s'.zxid)
        · rfl

theorem expect_shapes (h : d.shapes = d'.shapes) (p : String) (version : Version) :
    (d.expect p version).map Node.shape = (d'.expect p version).map Node.shape := by
  unfold expect
  split
  · rcases shapes_cases h p with ⟨hn, hn'⟩ | ⟨n, n', hn, hn', hshape⟩
    · rw [hn, hn']
    · simp only [hn, hn', Node.admits_eq hshape]
      split
      · exact congrArg Except.ok hshape
      · rfl
  · rfl

/-- Drafts that look the same to the checks accept the same operations, under whatever stamps, and
go on looking the same. -/
theorem accept_shapes (h : d.shapes = d'.shapes) (s s' : Stamp) (op : Op) :
    (d.accept s op).map (·.draft.shapes) = (d'.accept s' op).map (·.draft.shapes) := by
  cases op with
  | create r data mode =>
      simp only [accept, acceptCreate, target_shapes h]
      cases d'.target r mode with
      | error cause => rfl
      | ok p => exact acceptCreateAt_shapes h p data mode.ephemeral
  | delete p version => exact acceptDelete_shapes h p version
  | setData p data version =>
      rcases map_eq_cases (expect_shapes h p version) with ⟨e, he, he'⟩ | ⟨n, n', he, he', hshape⟩
      · simp only [accept, acceptSetData, he, he']
      · obtain ⟨-, hn, -⟩ := expect_ok he
        obtain ⟨-, hn', -⟩ := expect_ok he'
        have hset := Node.shape_setData hshape data s.zxid s'.zxid s.time s'.time
        simp only [accept, acceptSetData, he, he', setData, hn, hn']
        exact congrArg Except.ok (shapes_put h (congrArg some hset))
  | check p version =>
      rcases map_eq_cases (expect_shapes h p version) with ⟨e, he, he'⟩ | ⟨n, n', he, he', -⟩
      · simp only [accept, acceptCheck, he, he']
      · simp only [accept, acceptCheck, he, he']
        exact congrArg Except.ok h

theorem acceptAll_shapes (h : d.shapes = d'.shapes) (s s' : Stamp) (i : Nat) (ops : List Op) :
    (d.acceptAll s i ops).map (fun _ => ()) = (d'.acceptAll s' i ops).map fun _ => () := by
  induction ops generalizing d d' i with
  | nil => rfl
  | cons op ops ih =>
      rcases map_eq_cases (accept_shapes h s s' op) with ⟨cause, ha, ha'⟩ | ⟨a, a', ha, ha', hdraft⟩
      · simp only [acceptAll, ha, ha']
      · rcases map_eq_cases (ih hdraft (i + 1)) with ⟨r, hb, hb'⟩ | ⟨b, b', hb, hb', -⟩
        · simp only [acceptAll, ha, ha', hb, hb']
        · simp only [acceptAll, ha, ha', hb, hb']
          rfl

section Positions

variable {i : Nat} {ops : List Op} {plan : Plan}

theorem accept_ne_aborted (d : Draft) (s : Stamp) (op : Op) : d.accept s op ≠ .error .aborted := by
  cases op with
  | create r data mode =>
      simp only [accept, acceptCreate, target, acceptCreateAt]
      grind
  | delete p version =>
      simp only [accept, acceptDelete]
      grind
  | setData p data version =>
      simp only [accept, acceptSetData, expect]
      grind
  | check p version =>
      simp only [accept, acceptCheck, expect]
      grind

theorem acceptAll_eq_error {rejection : Rejection} (h : d.acceptAll s i ops = .error rejection) :
    ∃ xs op ys d', ops = xs ++ op :: ys ∧ rejection.index = i + xs.length ∧
      rejection.path = op.path ∧ d.after? s xs = some d' ∧
      d'.accept s op = .error rejection.cause := by
  induction ops generalizing d i with
  | nil => cases h
  | cons op ops ih =>
      cases ha : d.accept s op with
      | error cause =>
          obtain rfl : ⟨i, op.path, cause⟩ = rejection := by simpa [acceptAll, ha] using h
          exact ⟨[], op, ops, d, rfl, rfl, rfl, rfl, ha⟩
      | ok a =>
          obtain ⟨xs, op', ys, d', rfl, hindex, hpath, hafter, hrefused⟩ :=
            ih ((acceptAll_cons_error ha).1 h)
          refine ⟨op :: xs, op', ys, d', rfl, ?_, hpath, ?_, hrefused⟩
          · rw [hindex, List.length_cons]
            omega
          · exact after?_cons_eq_some.2 ⟨a, ha, hafter⟩

theorem acceptAll_of_after? (h : d.after? s ops = some d') (i : Nat) :
    ∃ plan, d.acceptAll s i ops = .ok plan := by
  induction ops generalizing d i with
  | nil => exact ⟨_, rfl⟩
  | cons op ops ih =>
      obtain ⟨a, ha, hrest⟩ := after?_cons_eq_some.1 h
      obtain ⟨rest, hplan⟩ := ih hrest (i + 1)
      exact ⟨_, acceptAll_cons_ok.2 ⟨a, rest, ha, hplan, rfl⟩⟩

theorem length_outcomes (h : d.acceptAll s i ops = .ok plan) :
    plan.outcomes.length = ops.length := by
  induction ops generalizing d i plan with
  | nil =>
      obtain rfl := Except.ok.inj h
      rfl
  | cons op ops ih =>
      obtain ⟨a, rest, -, hrest, rfl⟩ := acceptAll_cons_ok.1 h
      exact congrArg (· + 1) (ih hrest)

theorem admits_at (h : d.acceptAll s i ops = .ok plan) {k : Nat} {o : Outcome}
    (hop : ops[k]? = some op) (ho : plan.outcomes[k]? = some o) :
    ∃ d' e, d.after? s (ops.take k) = some d' ∧ View.Admits s d'.resolve op e o := by
  induction ops generalizing d i plan k with
  | nil => cases hop
  | cons op' ops ih =>
      obtain ⟨a, rest, ha, hrest, rfl⟩ := acceptAll_cons_ok.1 h
      cases k with
      | zero =>
          obtain rfl := Option.some.inj hop
          obtain rfl := Option.some.inj ho
          exact ⟨d, a.edit?, rfl, (accept_spec ha).1⟩
      | succ k =>
          obtain ⟨d', e, hafter, hadm⟩ := ih hrest hop ho
          exact ⟨d', e, after?_cons_eq_some.2 ⟨a, ha, hafter⟩, hadm⟩

end Positions

end Draft

inductive Op.Answers (zxid : Zxid) (v : View) : Op → Outcome → Prop
  | created {r p : String} {data : Bytes} {mode : CreateMode} {stat : Stat} :
      (mode.sequential = false → p = r) →
      (mode.sequential = true → ∃ q parent, Path.parent? r = some q ∧ v q = some parent ∧
        p = Path.numbered r parent.stat.cversion ∧
        (0 ≤ parent.stat.cversion → parent.stat.cversion < 10000000000 →
          ∃ ds : List Char, ds.length = 10 ∧ (∀ c ∈ ds, c.isDigit = true) ∧
            p = r ++ String.ofList ds)) →
      stat.version = 0 → stat.czxid = zxid → stat.mzxid = zxid → stat.pzxid = zxid →
      Answers zxid v (.create r data mode) (.created p stat)
  | deleted {p : String} {version : Version} : Answers zxid v (.delete p version) .deleted
  | dataSet {p : String} {data : Bytes} {version : Version} {stat : Stat} :
      Answers zxid v (.setData p data version) (.dataSet stat)
  | checked {p : String} {version : Version} : Answers zxid v (.check p version) .checked

theorem Path.numbered_digits {c : Int} (r : String) (hc : 0 ≤ c) (hten : c < 10000000000) :
    ∃ ds : List Char, ds.length = 10 ∧ (∀ d ∈ ds, d.isDigit = true) ∧
      Path.numbered r c = r ++ String.ofList ds := by
  obtain ⟨k, rfl⟩ := Int.eq_ofNat_of_zero_le hc
  have hk : k < 10000000000 := by omega
  exact ⟨Numeral.padded 10 k, Numeral.length_padded hk, fun d => Numeral.isDigit_padded, rfl⟩

theorem View.Admits.answers {s : Stamp} {v : View} {op : Op} {e : Option Edit} {o : Outcome}
    (h : View.Admits s v op e o) : op.Answers s.zxid v o := by
  cases h with
  | create hnames _ _ _ _ hnode =>
      subst hnode
      refine .created (fun hplain => ?_) (fun hmode => ?_) rfl rfl rfl rfl
      · cases hnames with
        | requested => rfl
        | numbered hmode => cases hplain.symm.trans hmode
      · cases hnames with
        | requested hplain => cases hplain.symm.trans hmode
        | numbered _ _ hq hparent =>
            exact ⟨_, _, hq, hparent, rfl, Path.numbered_digits _⟩
  | delete => exact .deleted
  | setData => exact .dataSet
  | check => exact .checked

theorem Op.Answers.refusal?_eq_none {zxid : Zxid} {v : View} {op : Op} {o : Outcome}
    (h : op.Answers zxid v o) : o.refusal? = none := by
  cases h <;> rfl

namespace Engine

variable {σ : Type} [Sink σ]

theorem plan_of_submit_ok {e : Engine} {log : σ} {now : Time} {s : SessionId} {ops : List Op}
    {outcomes : List Outcome} (h : (e.submit log now s ops).1 = .ok outcomes) :
    ∃ plan, e.tree.plan ops (e.stamp now s) = .ok plan ∧ plan.outcomes = outcomes := by
  obtain ⟨w, hw⟩ := submit_ends e log now s ops
  rw [h] at hw
  cases w with
  | halted =>
      obtain ⟨cause, -, hr, -⟩ := hw
      cases hr
  | rejected =>
      obtain ⟨-, r, -, hr, -⟩ := hw
      cases hr
  | readOnly =>
      obtain ⟨-, -, plan, hplan, hr, -⟩ := hw
      exact ⟨plan, hplan, (Except.ok.inj hr).symm⟩
  | unrecorded =>
      obtain ⟨-, -, plan, f, -, -, hr, -⟩ := hw
      cases hr
  | recorded =>
      obtain ⟨-, -, plan, hplan, -, hr, -⟩ := hw
      exact ⟨plan, hplan, (Except.ok.inj hr).symm⟩

theorem submit_rejected_iff {e : Engine} {log : σ} {now : Time} {s : SessionId} {ops : List Op}
    {r : Rejection} {outcomes : List Outcome} :
    (e.submit log now s ops).1 = .error (.rejected r outcomes) ↔
      e.halted = none ∧ e.tree.plan ops (e.stamp now s) = .error r ∧
        outcomes = r.outcomes ops.length := by
  obtain ⟨w, hw⟩ := submit_ends e log now s ops
  generalize (e.submit log now s ops).1 = answer at hw
  cases w with
  | halted =>
      obtain ⟨cause, hhalt, rfl, -⟩ := hw
      simp [hhalt]
  | rejected =>
      obtain ⟨hrun, r', hplan, rfl, -⟩ := hw
      simp only [hrun, hplan, Fault.ofRejection, Except.error.injEq, Fault.rejected.injEq, true_and]
      constructor
      · rintro ⟨rfl, rfl⟩
        exact ⟨rfl, rfl⟩
      · rintro ⟨rfl, rfl⟩
        exact ⟨rfl, rfl⟩
  | readOnly =>
      obtain ⟨-, -, plan, hplan, rfl, -⟩ := hw
      simp [hplan]
  | unrecorded =>
      obtain ⟨-, -, plan, f, hplan, -, rfl, -⟩ := hw
      simp [hplan]
  | recorded =>
      obtain ⟨-, -, plan, hplan, -, rfl, -⟩ := hw
      simp [hplan]

end Engine

namespace Tree

variable {t : Tree} {s s' : Stamp} {ops ops' : List Op}

theorem plan_error_stamp {r : Rejection} (h : t.plan ops s = .error r) (s' : Stamp) :
    t.plan ops s' = .error r := by
  rcases map_eq_cases (Draft.acceptAll_shapes (d := Draft.ofTree t) rfl s s' 0 ops) with
    ⟨e, hs, hs'⟩ | ⟨p, p', hs, -, -⟩
  · exact hs'.trans (hs.symm.trans h)
  · cases hs.symm.trans h

theorem plan_ok_stamp {p : Plan} (h : t.plan ops s = .ok p) (s' : Stamp) :
    ∃ p', t.plan ops s' = .ok p' := by
  cases h' : t.plan ops s' with
  | ok p' => exact ⟨p', rfl⟩
  | error r => cases h.symm.trans (plan_error_stamp h' s)

theorem plan_take {r : Rejection} (h : t.plan ops s = .error r) :
    ∃ p, t.plan (ops.take r.index) s = .ok p := by
  obtain ⟨xs, op, ys, d, rfl, hindex, -, hafter, -⟩ := Draft.acceptAll_eq_error h
  rw [hindex, Nat.zero_add, List.take_left]
  exact Draft.acceptAll_of_after? hafter 0

theorem plan_agree {r : Rejection} (h : t.plan ops s = .error r)
    (hagree : ops'.take (r.index + 1) = ops.take (r.index + 1)) : t.plan ops' s = .error r := by
  obtain ⟨xs, op, ys, d, rfl, hindex, hpath, hafter, hrefused⟩ := Draft.acceptAll_eq_error h
  have hupto : (xs ++ op :: ys).take (r.index + 1) = xs ++ [op] := by
    rw [hindex, Nat.zero_add, List.append_cons]
    exact List.take_left' (by simp)
  have hops' : ops' = xs ++ op :: ops'.drop (r.index + 1) := by
    rw [List.append_cons, ← hupto, ← hagree, List.take_append_drop]
  have hr : (⟨0 + xs.length, op.path, r.cause⟩ : Rejection) = r := by
    rw [← hindex, ← hpath]
  rw [hops', ← hr]
  exact (Draft.acceptAll_error_iff hafter).2 hrefused

end Tree

theorem result_lists {σ : Type} [Sink σ] (e : Engine) (log : σ) (now : Time) (s : SessionId)
    (ops : List Op) :
    (∀ outcomes, (e.submit log now s ops).1 = .ok outcomes →
      outcomes.length = ops.length ∧ (∀ o ∈ outcomes, o.refusal? = none) ∧
      ∀ (i : Nat) op o, ops[i]? = some op → outcomes[i]? = some o →
        ∃ d, (Draft.ofTree e.tree).after? (e.stamp now s) (ops.take i) = some d ∧
          op.Answers e.lastZxid.next d.resolve o) ∧
    (∀ r outcomes, (e.submit log now s ops).1 = .error (.rejected r outcomes) →
      (∃ h : r.index < ops.length, r.path = ops[r.index].path) ∧ r.cause ≠ .aborted ∧
      outcomes.length = ops.length ∧
      (∀ (i : Nat) o, outcomes[i]? = some o →
        o = .refused (if i = r.index then r.cause else .aborted)) ∧
      ∀ now' s',
        (∃ plan, e.tree.plan (ops.take r.index) (e.stamp now' s') = .ok plan) ∧
        ∀ (log' : σ) ops', ops'.take (r.index + 1) = ops.take (r.index + 1) →
          (e.submit log' now' s' ops').1 = .error (.rejected r (r.outcomes ops'.length))) := by
  constructor
  · intro outcomes h
    obtain ⟨plan, hplan, rfl⟩ := Engine.plan_of_submit_ok h
    have hlen := Draft.length_outcomes hplan
    have hanswers : ∀ (i : Nat) op o, ops[i]? = some op → plan.outcomes[i]? = some o →
        ∃ d, (Draft.ofTree e.tree).after? (e.stamp now s) (ops.take i) = some d ∧
          op.Answers e.lastZxid.next d.resolve o := by
      intro i op o hop ho
      obtain ⟨d, _, hafter, hadm⟩ := Draft.admits_at hplan hop ho
      exact ⟨d, hafter, hadm.answers⟩
    refine ⟨hlen, fun o ho => ?_, hanswers⟩
    obtain ⟨i, hi, rfl⟩ := List.getElem_of_mem ho
    obtain ⟨_, _, hop⟩ := hanswers i _ _ (List.getElem?_eq_getElem (hlen ▸ hi))
      (List.getElem?_eq_getElem hi)
    exact hop.refusal?_eq_none
  · intro r outcomes h
    obtain ⟨hrun, hplan, rfl⟩ := Engine.submit_rejected_iff.1 h
    have hplace :
        (∃ h : r.index < ops.length, r.path = ops[r.index].path) ∧ r.cause ≠ .aborted := by
      obtain ⟨xs, op, ys, d, rfl, hindex, hpath, -, hrefused⟩ := Draft.acceptAll_eq_error hplan
      refine ⟨⟨by simp [hindex], ?_⟩, fun hcause => ?_⟩
      · simp [hindex, hpath]
      · rw [hcause] at hrefused
        exact Draft.accept_ne_aborted d _ op hrefused
    refine ⟨hplace.1, hplace.2, by simp [Rejection.outcomes], fun i o ho => ?_, fun now' s' => ?_⟩
    · obtain ⟨hi, rfl⟩ := List.getElem?_eq_some_iff.1 ho
      simp [Rejection.outcomes]
    · obtain ⟨p, hp⟩ := Tree.plan_take hplan
      refine ⟨Tree.plan_ok_stamp hp _, fun log' ops' hagree => ?_⟩
      have hplan' := Tree.plan_error_stamp (Tree.plan_agree hplan hagree) (e.stamp now' s')
      exact Engine.submit_rejected_iff.2 ⟨hrun, hplan', rfl⟩

theorem result_lists_queue :
    (∃ outcomes o,
      ((Engine.start .initial).submit (Journal.Memory.start 0) 1000 7
        [.create "/q" [] .persistent, .create "/q/" [5] .ephemeralSequential]).1 = .ok outcomes ∧
      outcomes[1]? = some o ∧ ∃ v, (Op.create "/q/" [5] .ephemeralSequential).Answers 1 v o) ∧
    ∃ outcomes,
      ((Engine.start .initial).submit (Journal.Memory.start 0) 1000 7
        [.create "/q" [] .persistent, .delete "/r" 0, .check "/q" 0]).1 =
          .error (.rejected ⟨1, "/r", .noNode⟩ outcomes) ∧
      ((Engine.start .initial).submit (Journal.Memory.start 0) 2000 8
        [.create "/q" [] .persistent, .delete "/r" 0]).1 =
          .error (.rejected ⟨1, "/r", .noNode⟩ [.refused .aborted, .refused .noNode]) := by
  obtain ⟨outcomes, hok, o, ho⟩ : ∃ outcomes,
      ((Engine.start .initial).submit (Journal.Memory.start 0) 1000 7
        [.create "/q" [] .persistent, .create "/q/" [5] .ephemeralSequential]).1 = .ok outcomes ∧
      ∃ o, outcomes[1]? = some o := ⟨_, rfl, _, rfl⟩
  obtain ⟨r, hr⟩ : ∃ outcomes,
      ((Engine.start .initial).submit (Journal.Memory.start 0) 1000 7
        [.create "/q" [] .persistent, .delete "/r" 0, .check "/q" 0]).1 =
          .error (.rejected ⟨1, "/r", .noNode⟩ outcomes) := ⟨_, rfl⟩
  obtain ⟨-, -, hanswers⟩ := (result_lists _ _ _ _ _).1 outcomes hok
  obtain ⟨d, -, hop⟩ := hanswers 1 _ o rfl ho
  obtain ⟨-, -, -, -, hagree⟩ := (result_lists _ _ _ _ _).2 _ r hr
  exact ⟨⟨outcomes, o, hok, ho, d.resolve, hop⟩, r, hr, (hagree 2000 8).2 _ _ rfl⟩

end Coordination
