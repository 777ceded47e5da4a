import Coordination.Proofs.Stepwise

/-!
Batches that stay out of each other's way. A batch reads and writes no path outside the footprints
of its operations, so that where the footprints of two batches share no path, neither can tell
whether the other has been committed, and their order does not matter (`plan_commute`).
-/

namespace Coordination

namespace Edit

def path : Edit → String
  | .create p _ => p
  | .delete p => p
  | .setData p _ => p

def Touches (e : Edit) (p : String) : Prop := p = e.path ∨ Path.parent? e.path = some p

end Edit

namespace View

def Agree (P : String → Prop) (v w : View) : Prop := ∀ p, P p → v p = w p

section Edits

variable {s s' : Stamp} {v w : View} {e : Edit} {es fs : List Edit} {P : String → Prop}
variable {op : Op} {o : Outcome} {p : String}

theorem put_of_ne {q : String} {n : Option Node} (h : p ≠ q) : v.put q n p = v p := if_neg h

theorem modifyParent_of_ne {q : String} {f : Node → Node} (h : Path.parent? q ≠ some p) :
    v.modifyParent q f p = v p :=
  if_neg (Ne.symm h)

theorem edit_of_not_touches (h : ¬ e.Touches p) : v.edit s e p = v p := by
  obtain ⟨hself, hparent⟩ := not_or.1 h
  cases e with
  | create r n =>
      simp only [Edit.path] at hself hparent
      rw [edit, put_of_ne hself, modifyParent_of_ne hparent]
  | delete r =>
      simp only [Edit.path] at hself hparent
      rw [edit]
      split
      · rw [modifyParent_of_ne hparent, put_of_ne hself]
      · rfl
  | setData r data => exact if_neg hself

theorem editAll_of_not_touches (h : ∀ e ∈ es, ¬ e.Touches p) : v.editAll s es p = v p := by
  induction es generalizing v with
  | nil => rfl
  | cons e es ih =>
      obtain ⟨he, hes⟩ := List.forall_mem_cons.1 h
      rw [editAll_cons, ih hes, edit_of_not_touches he]

/-- What a change makes of a node depends on that node, and for a deletion on whether there is
anything to delete. -/
theorem Agree.edit (h : Agree P v w) (he : P e.path) (s : Stamp) :
    Agree P (v.edit s e) (w.edit s e) := by
  intro p hp
  cases e with
  | create r n => simp only [View.edit, put, modifyParent, h p hp]
  | delete r =>
      have hr : v r = w r := h r he
      simp only [View.edit, hr]
      split
      · simp only [put, modifyParent, h p hp]
      · exact h p hp
  | setData r data => simp only [View.edit, modify, h p hp]

theorem Agree.editAll (h : Agree P v w) (hes : ∀ e ∈ es, P e.path) (s : Stamp) :
    Agree P (v.editAll s es) (w.editAll s es) := by
  induction es generalizing v w with
  | nil => exact h
  | cons e es ih =>
      obtain ⟨he, hes⟩ := List.forall_mem_cons.1 hes
      exact ih (h.edit he s) hes

/-- Off the second run, the first run makes the same of a view before the second and after. -/
theorem editAll_editAll (v : View) (h : ∀ e ∈ es, ∀ f ∈ fs, ∀ q, e.Touches q → ¬ f.Touches q)
    (hp : ∀ f ∈ fs, ¬ f.Touches p) :
    (v.editAll s es).editAll s' fs p = (v.editAll s' fs).editAll s es p := by
  have hagree : Agree (fun q => ∀ f ∈ fs, ¬ f.Touches q) v (v.editAll s' fs) :=
    fun q hq => (editAll_of_not_touches hq).symm
  have hes : ∀ e ∈ es, ∀ f ∈ fs, ¬ f.Touches e.path := fun e he f hf => h e he f hf _ (.inl rfl)
  rw [editAll_of_not_touches hp]
  exact hagree.editAll hes s p hp

theorem editAll_comm (v : View) (h : ∀ e ∈ es, ∀ f ∈ fs, ∀ p, e.Touches p → ¬ f.Touches p) :
    (v.editAll s es).editAll s' fs = (v.editAll s' fs).editAll s es := by
  funext p
  by_cases hp : ∀ f ∈ fs, ¬ f.Touches p
  · exact editAll_editAll v h hp
  · -- some change of the second run alters the path, so none of the first does
    obtain ⟨f, hf, hfp⟩ : ∃ f ∈ fs, f.Touches p := by simpa using hp
    exact (editAll_editAll v (fun f hf e he q hq heq => h e he f hf q heq hq)
      (fun e he hep => h e he f hf p hep hfp)).symm

theorem Admits.touches (h : Admits s v op (some e) o) (hp : e.Touches p) : op.Touches p := by
  cases h with
  | create hnames _ _ _ _ _ =>
      rcases hp with rfl | hp
      · exact hnames.touches _
      · exact hnames.touches_parent _ hp
  | delete _ _ _ _ _ =>
      rcases hp with rfl | hp
      · exact .self _
      · exact .parent hp
  | setData _ _ _ =>
      rcases hp with rfl | hp
      · exact .self _
      · exact .parent hp

end Edits

end View

namespace Draft

variable {d d' : Draft} {s : Stamp} {ops : List Op} {i : Nat} {P : String → Prop}

theorem edit?_touches {a : Acceptance} {op : Op} (h : d.accept s op = .ok a) :
    ∀ e ∈ a.edit?.toList, ∀ p, e.Touches p → op.Touches p := by
  intro e he p hp
  have hadmits := (accept_spec h).1
  rw [Option.mem_toList.1 he] at hadmits
  exact hadmits.touches hp

theorem edits_touch {plan : Plan} (h : d.acceptAll s i ops = .ok plan) :
    ∀ e ∈ plan.edits, ∃ op ∈ ops, ∀ p, e.Touches p → op.Touches p := by
  intro e he
  obtain ⟨v, op, o, hop, hadm⟩ := admits_of_mem h he
  exact ⟨op, hop, fun p => hadm.touches⟩

theorem acceptAll_congr (h : View.Agree P d.resolve d'.resolve)
    (hops : ∀ op ∈ ops, ∀ p, op.Touches p → P p) :
    d.acceptAll s i ops = d'.acceptAll s i ops := by
  induction ops generalizing d d' i with
  | nil => rfl
  | cons op ops ih =>
      obtain ⟨hop, hops⟩ := List.forall_mem_cons.1 hops
      have hshown : ∀ p, op.Touches p → d.resolve p = d'.resolve p := fun p hp => h p (hop p hp)
      cases hd : d.accept s op with
      | error cause => simp only [acceptAll, hd, accept_error_congr hshown hd]
      | ok a =>
          obtain ⟨b, hb, hedit, houtcome⟩ := accept_ok_congr hshown hd
          have hpaths : ∀ e ∈ a.edit?.toList, P e.path :=
            fun e he => hop _ (edit?_touches hd e he _ (.inl rfl))
          have hdraft : View.Agree P a.draft.resolve b.draft.resolve := by
            rw [(accept_spec hd).2, (accept_spec hb).2, hedit]
            exact h.editAll hpaths s
          simp only [acceptAll, hd, hb, hedit, houtcome, ih hdraft hops]

end Draft

def Independent (ops ops' : List Op) : Prop :=
  ∀ op ∈ ops, ∀ op' ∈ ops', ∀ p, op.Touches p → ¬ op'.Touches p

namespace Independent

variable {ops ops' : List Op} {t : Tree} {s s' : Stamp} {plan plan' : Plan}

theorem symm (h : Independent ops ops') : Independent ops' ops :=
  fun op' hop' op hop p hp' hp => h op hop op' hop' p hp hp'

theorem edits (h : Independent ops ops') (hplan : t.plan ops s = .ok plan)
    (hplan' : t.plan ops' s' = .ok plan') :
    ∀ e ∈ plan.edits, ∀ f ∈ plan'.edits, ∀ p, e.Touches p → ¬ f.Touches p := by
  intro e he f hf p hep hfp
  obtain ⟨op, hop, hto⟩ := Draft.edits_touch hplan e he
  obtain ⟨op', hop', hto'⟩ := Draft.edits_touch hplan' f hf
  exact h op hop op' hop' p (hto p hep) (hto' p hfp)

theorem plan_commit (h : Independent ops ops') (hplan' : t.plan ops' s' = .ok plan') :
    (t.commit plan').tree.plan ops s = t.plan ops s := by
  have hagree : View.Agree (fun p => ∃ op ∈ ops, op.Touches p) (t.commit plan').tree.lookup
      t.lookup := by
    rintro p ⟨op, hop, hp⟩
    rw [Tree.lookup_commit]
    refine View.editAll_of_not_touches fun e he hep => ?_
    obtain ⟨op', hop', hto⟩ := Draft.edits_touch hplan' e he
    exact h op hop op' hop' p hp (hto p hep)
  exact Draft.acceptAll_congr hagree fun op hop p hp => ⟨op, hop, hp⟩

end Independent

/-- The plan of each batch is the same before the other and after it, or the refusal is. -/
theorem plan_commute (t : Tree) (ops ops' : List Op) (s s' : Stamp) (h : Independent ops ops') :
    (∀ plan', t.plan ops' s' = .ok plan' → (t.commit plan').tree.plan ops s = t.plan ops s) ∧
    (∀ plan, t.plan ops s = .ok plan → (t.commit plan).tree.plan ops' s' = t.plan ops' s') ∧
    (∀ plan plan', t.plan ops s = .ok plan → t.plan ops' s' = .ok plan' →
      ∃ late late', (t.commit plan').tree.plan ops s = .ok late ∧
        (t.commit plan).tree.plan ops' s' = .ok late' ∧
        ((t.commit plan').tree.commit late).events = (t.commit plan).events ∧
        ((t.commit plan').tree.commit late).outcomes = (t.commit plan).outcomes ∧
        ((t.commit plan).tree.commit late').events = (t.commit plan').events ∧
        ((t.commit plan).tree.commit late').outcomes = (t.commit plan').outcomes ∧
        ((t.commit plan).tree.commit late').tree.nodes =
          ((t.commit plan').tree.commit late).tree.nodes) := by
  refine ⟨fun plan' => h.plan_commit, fun plan => h.symm.plan_commit, fun plan plan' hp hp' => ?_⟩
  have hlookup : ((t.commit plan).tree.commit plan').tree.lookup =
      ((t.commit plan').tree.commit plan).tree.lookup := by
    simp only [Tree.lookup_commit]
    exact View.editAll_comm t.lookup (h.edits hp hp')
  exact ⟨plan, plan', (h.plan_commit hp').trans hp, (h.symm.plan_commit hp).trans hp',
    rfl, rfl, rfl, rfl, Dict.ext_get? fun p => congrFun hlookup p⟩

theorem plan_commute_queues :
    ∃ setup plan plan' late late',
      Tree.initial.plan [.create "/a" [] .persistent, .create "/b" [] .persistent,
        .create "/b/job" [] .persistent] ⟨1, 90, 3⟩ = .ok setup ∧
      Independent [.create "/a/" [1] .persistentSequential]
        [.delete "/b/job" 0, .create "/b/owner" [] .ephemeralOnly] ∧
      (Tree.initial.commit setup).tree.plan [.create "/a/" [1] .persistentSequential]
        ⟨2, 91, 4⟩ = .ok plan ∧
      (Tree.initial.commit setup).tree.plan
        [.delete "/b/job" 0, .create "/b/owner" [] .ephemeralOnly] ⟨3, 92, 5⟩ = .ok plan' ∧
      plan.edits.map Edit.path = ["/a/0000000000"] ∧
      (((Tree.initial.commit setup).tree.commit plan).tree.commit late').tree.nodes =
        (((Tree.initial.commit setup).tree.commit plan').tree.commit late).tree.nodes := by
  have hind : Independent [.create "/a/" [1] .persistentSequential]
      [.delete "/b/job" 0, .create "/b/owner" [] .ephemeralOnly] := by
    intro op hop op' hop' p hp hp'
    obtain rfl := List.mem_singleton.1 hop
    have hleft : p = "/a/" ∨ p = "/a" ∨ Path.parent? p = some "/a" := by
      cases hp with
      | self => exact .inl rfl
      | parent hq => exact .inr (.inl (Option.some.inj hq).symm)
      | sibling _ hr hq => exact .inr (.inr (hq.trans hr.symm))
    have hright : p = "/b/job" ∨ p = "/b/owner" ∨ p = "/b" := by
      simp only [List.mem_cons, List.not_mem_nil, or_false] at hop'
      rcases hop' with rfl | rfl
      · cases hp' with
        | self => exact .inl rfl
        | parent hq => exact .inr (.inr (Option.some.inj hq).symm)
      · cases hp' with
        | self => exact .inr (.inl rfl)
        | parent hq => exact .inr (.inr (Option.some.inj hq).symm)
        | sibling hm _ _ => exact absurd hm (by decide)
    revert hleft
    rcases hright with rfl | rfl | rfl <;> decide
  obtain ⟨setup, hsetup, plan, plan', hplan, hplan', hpath⟩ : ∃ setup,
      Tree.initial.plan [.create "/a" [] .persistent, .create "/b" [] .persistent,
        .create "/b/job" [] .persistent] ⟨1, 90, 3⟩ = .ok setup ∧
      ∃ plan plan', (Tree.initial.commit setup).tree.plan
          [.create "/a/" [1] .persistentSequential] ⟨2, 91, 4⟩ = .ok plan ∧
        (Tree.initial.commit setup).tree.plan
          [.delete "/b/job" 0, .create "/b/owner" [] .ephemeralOnly] ⟨3, 92, 5⟩ = .ok plan' ∧
        plan.edits.map Edit.path = ["/a/0000000000"] :=
    ⟨_, rfl, _, _, rfl, rfl, rfl⟩
  obtain ⟨late, late', -, -, -, -, -, -, hnodes⟩ :=
    (plan_commute _ _ _ _ _ hind).2.2 plan plan' hplan hplan'
  exact ⟨setup, plan, plan', late, late', hsetup, hind, hplan, hplan', hpath, hnodes⟩

end Coordination
